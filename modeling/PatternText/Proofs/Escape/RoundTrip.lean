import PatternText.Proofs.Escape.Codec
import PatternText.Proofs.Escape.Delimiter

/-!
# Protecting and then revealing one delimiter

Protecting leaves an occurrence alone that is escaped already, and revealing cannot tell
its escape from one that protecting has written.  So a text in which the delimiter is
escaped somewhere is not recovered: what comes out is the text with its own escapes
revealed too.  Every other text is recovered, as long as the delimiter and an escape
before it have no beginning in common with their end.

Without that, revealing can take an escape of the text for the one that protecting has
written just after it.  `NoneMistaken` says that it does not.
-/

namespace PatternText.Escape

open Text (byteSize occurrences occurrencesFrom)
open Token (Borderless pieces)

variable {d s : Text} {armed : Bool}

/-! ## Revealing a protected text -/

/-- Revealing forgets whether the text has been protected before. -/
theorem revealFrom_protectFrom
    (hb : Borderless (escapeChar :: d)) (hd : d ≠ []) (armed : Bool) (s : Text) :
    revealFrom d armed (protectFrom d armed s) = revealFrom d armed s := by
  induction s using Text.search_induction hd generalizing armed with
  | ended => rw [protectFrom_nil hd]
  | found r ih =>
    have hfound := protectFrom_found hd armed r
    rw [armedOver_of_borderless hb hd] at hfound
    rw [hfound, revealFrom_delimiter hb hd, ← ih false]
    cases armed with
    | true => exact revealFrom_delimiter hb hd true _
    | false =>
      rw [protectMark, if_neg Bool.false_ne_true, List.cons_append,
        revealFrom_escape_before hb hd (List.prefix_append _ _),
        revealFrom_delimiter hb hd]
  | step c r h ih =>
    have hrest := ih (armedBy armed c)
    rw [protectFrom_step hd armed h]
    cases armed with
    | true =>
      rw [armedBy_true] at hrest ⊢
      rw [revealFrom_armed hb hd, revealFrom_armed hb hd, hrest]
    | false =>
      by_cases hc : c = escapeChar
      · subst hc
        rw [armedBy_escapeChar, Bool.not_false] at hrest ⊢
        by_cases hnext : d <+: r
        · obtain ⟨r, rfl⟩ := hnext
          -- Both go on with the delimiter, where the state makes no difference.
          have hfound := protectFrom_found hd true r
          rw [protectMark, if_pos rfl] at hfound
          rw [hfound, revealFrom_delimiter hb hd, revealFrom_delimiter hb hd] at hrest
          rw [hfound, revealFrom_escape_before hb hd (List.prefix_append _ _),
            revealFrom_escape_before hb hd (List.prefix_append _ _),
            revealFrom_delimiter hb hd, revealFrom_delimiter hb hd, hrest]
        · have hnext' : ¬d <+: protectFrom d true r := by
            intro hstarts
            exact hnext (prefix_of_prefix_protectFrom_self hb hd hstarts)
          rw [revealFrom_escape hnext', revealFrom_escape hnext, hrest]
      · rw [armedBy_of_ne _ hc] at hrest ⊢
        rw [revealFrom_plain d false hc, revealFrom_plain d false hc, hrest]

/-! ## Texts without escaped occurrences -/

/-- No live escape stands just before a delimiter, `armed` telling whether the first
character of the text is escaped. -/
def NoneEscaped (d : Text) (armed : Bool) (s : Text) : Prop :=
  ∀ x y, s = x ++ escapeChar :: (d ++ y) → armedOver armed x = true

theorem noneEscaped_cons {c : Char} {r : Text} :
    NoneEscaped d armed (c :: r) ↔
      (c = escapeChar → d <+: r → armed = true) ∧
        NoneEscaped d (armedBy armed c) r := by
  constructor
  · intro h
    refine ⟨?_, ?_⟩
    · rintro rfl ⟨y, rfl⟩
      exact h [] y rfl
    · rintro x y rfl
      exact h (c :: x) y rfl
  · rintro ⟨hhere, hlater⟩ x y hs
    cases x with
    | nil =>
      obtain ⟨hc, hr⟩ := List.cons.inj hs
      exact hhere hc ⟨y, hr.symm⟩
    | cons c' x =>
      obtain ⟨rfl, hr⟩ := List.cons.inj hs
      exact hlater x y hr

theorem revealFrom_eq_self_iff
    (hb : Borderless (escapeChar :: d)) (hd : d ≠ []) :
    revealFrom d armed s = s ↔ NoneEscaped d armed s := by
  induction s generalizing armed with
  | nil => simp [NoneEscaped]
  | cons c r ih =>
    rw [noneEscaped_cons, ← ih]
    cases armed with
    | true => simp [revealFrom_armed hb hd]
    | false =>
      by_cases hc : c = escapeChar
      · subst hc
        by_cases hnext : d <+: r
        · -- The escape is gone, and nothing makes up for it.
          have hne : revealFrom d false (escapeChar :: r) ≠ escapeChar :: r := by
            rw [revealFrom_escape_before hb hd hnext]
            intro heq
            have hle := length_revealFrom_le d false r
            rw [heq, List.length_cons] at hle
            omega
          simp [hne, hnext]
        · simp [revealFrom_escape hnext, hnext]
      · simp [revealFrom_plain d false hc, armedBy_of_ne _ hc, hc]

/-- A live escape before a delimiter makes a search for the delimiter meet an escaped
occurrence, and nothing else does. -/
theorem noneEscaped_iff
    (hb : Borderless (escapeChar :: d)) (hd : d ≠ []) :
    NoneEscaped d false s ↔ ∀ p ∈ occurrences d s, isEscapedAt s p = false := by
  constructor
  · intro h p hp
    obtain ⟨a, b, rfl, rfl⟩ := Text.mem_occurrencesFrom hp
    rw [List.append_assoc, Nat.zero_add, isEscapedAt_byteSize, ← Bool.not_eq_true,
      armedOver_eq_true_iff]
    rintro ⟨x, rfl, hx⟩
    have harmed := h x b (by simp)
    rw [hx] at harmed
    exact Bool.false_ne_true harmed
  · rintro h x y rfl
    have hs : x ++ [escapeChar] ++ (d ++ y) = x ++ escapeChar :: (d ++ y) := by simp
    rcases Text.mem_occurrencesFrom_or_reached hd hs 0 with hmem | hreached
    · rw [Nat.zero_add] at hmem
      have hlive := h _ hmem
      rw [← hs, isEscapedAt_byteSize] at hlive
      simpa using hlive
    · -- What reaches over the escape ends with a beginning of it and the delimiter.
      obtain ⟨u, v, hsplit, hv, hshort, hover⟩ := hreached
      obtain ⟨w, last, rfl⟩ := List.eq_nil_or_concat v |>.resolve_left hv
      rw [List.concat_eq_append, ← List.append_assoc] at hsplit
      obtain ⟨-, hlast⟩ := List.append_inj' hsplit rfl
      obtain rfl := (List.cons.inj hlast).1
      have hstarts : escapeChar :: d <+: escapeChar :: w ++ (escapeChar :: d ++ y) := by
        refine List.cons_prefix_cons.2 ⟨rfl, ?_⟩
        simpa using hover
      have hinto := hb.prefix_of_prefix_append (List.cons_ne_nil escapeChar w) hstarts
      have hle := (List.cons_prefix_cons.1 hinto).2.length_le
      rw [List.length_concat] at hshort
      omega

/-! ## Delimiters with other characters than escapes -/

/-- An escape that stands outside the occurrences of `d` does not have `d` after it once
these are protected, so revealing does not take it for one that protecting has written.
The text `r` is what is left of one of which `a` has been read. -/
def NoneMistaken (d a r : Text) : Prop :=
  ∀ x y, r = x ++ escapeChar :: y →
    (∀ p ∈ occurrencesFrom d 0 (byteSize a) r,
      ¬(p ≤ byteSize (a ++ x) ∧ byteSize (a ++ x) < p + byteSize d)) →
    ¬d <+: protectFrom d (armedOver false (a ++ x ++ [escapeChar])) y

theorem noneMistaken_nil (d a : Text) :
    NoneMistaken d a [] := by
  intro x y h
  simp at h

theorem noneMistaken_found
    {a r : Text}
    (hd : d ≠ []) :
    NoneMistaken d a (d ++ r) ↔ NoneMistaken d (a ++ d) r := by
  constructor
  · rintro h x y rfl houtside
    have hrest := h (d ++ x) y (by simp) ?_
    · simpa using hrest
    · rw [Text.occurrencesFrom_found hd, List.forall_mem_cons]
      refine ⟨?_, ?_⟩
      · simp only [Text.byteSize_append]
        omega
      · rw [← Text.byteSize_append, ← List.append_assoc]
        exact houtside
  · rintro h x y hsplit houtside
    rw [Text.occurrencesFrom_found hd, List.forall_mem_cons] at houtside
    obtain ⟨hfirst, hlater⟩ := houtside
    have hbegin : d <+: x := by
      rcases List.append_eq_append_iff.1 hsplit with ⟨x', rfl, -⟩ | ⟨b, rfl, -⟩
      · exact List.prefix_append d x'
      · have hb : b = [] := by
          apply Classical.byContradiction
          intro hb
          have hpos := Text.byteSize_pos hb
          simp only [Text.byteSize_append] at hfirst
          omega
        simp [hb]
    obtain ⟨x, rfl⟩ := hbegin
    rw [List.append_assoc, List.append_cancel_left_eq] at hsplit
    rw [← Text.byteSize_append, ← List.append_assoc] at hlater
    have hrest := h x y hsplit hlater
    rwa [← List.append_assoc a d x]

theorem occurrencesFrom_concat
    {r : Text} {c : Char}
    (h : ¬d <+: c :: r) (a : Text) :
    occurrencesFrom d 0 (byteSize a) (c :: r) =
      occurrencesFrom d 0 (byteSize (a ++ [c])) r := by
  rw [Text.occurrencesFrom_step h, Text.byteSize_append, Text.byteSize_cons,
    Text.byteSize_nil, Nat.add_zero]

theorem noneMistaken_step
    {a r : Text} {c : Char}
    (h : ¬d <+: c :: r) :
    NoneMistaken d a (c :: r) ↔
      (c = escapeChar → ¬d <+: protectFrom d (armedOver false (a ++ [c])) r) ∧
        NoneMistaken d (a ++ [c]) r := by
  simp only [NoneMistaken, occurrencesFrom_concat h]
  constructor
  · intro hnone
    refine ⟨?_, ?_⟩
    · rintro rfl
      have hhere := hnone [] r rfl
      rw [List.append_nil] at hhere
      refine hhere ?_
      intro p hp
      obtain ⟨x, y, -, rfl⟩ := Text.mem_occurrencesFrom hp
      have hpos := Text.byteSize_pos (List.cons_ne_nil escapeChar [])
      rw [Text.byteSize_append]
      omega
    · rintro x y rfl
      have hlater := hnone (c :: x) y rfl
      rwa [List.append_cons a c x] at hlater
  · rintro ⟨hhere, hlater⟩ x y hsplit
    cases x with
    | nil =>
      obtain ⟨rfl, rfl⟩ := List.cons.inj hsplit
      rw [List.append_nil]
      exact fun _ => hhere rfl
    | cons c' x =>
      obtain ⟨rfl, hr⟩ := List.cons.inj hsplit
      rw [List.append_cons a c x]
      exact hlater x y hr

/-- Only a text of equal characters comes next after itself has been put off by one
character. -/
theorem forall_eq_of_prefix_cons
    {e : Char} {z : Text}
    (h : d <+: e :: (d ++ z)) :
    ∀ c ∈ d, c = e := by
  induction d generalizing z with
  | nil => simp
  | cons c d ih =>
    obtain ⟨rfl, hlater⟩ := List.cons_prefix_cons.1 h
    rw [List.forall_mem_cons]
    exact ⟨rfl, ih hlater⟩

theorem armedOver_congr
    (hd : ∃ c ∈ d, c ≠ escapeChar) (armed armed' : Bool) :
    armedOver armed d = armedOver armed' d := by
  obtain ⟨c, hmem, hc⟩ := hd
  obtain ⟨x, y, rfl⟩ := List.append_of_mem hmem
  rw [armedOver_append, armedOver_append, armedOver_cons, armedOver_cons,
    armedBy_of_ne _ hc, armedBy_of_ne _ hc]

/-- An escape that is mistaken is dropped, or hides one that protecting has written. -/
theorem revealFrom_ne_of_mistaken
    {r : Text}
    (hd : ∃ c ∈ d, c ≠ escapeChar) (hne : d ≠ []) (h : ¬d <+: escapeChar :: r)
    (hmistaken : d <+: protectFrom d (!armed) r) :
    revealFrom d armed (escapeChar :: protectFrom d (!armed) r) ≠ escapeChar :: r := by
  obtain ⟨z, hz⟩ := hmistaken
  rw [← hz, ← List.cons_append, revealFrom_found]
  intro heq
  cases armed with
  | true =>
    obtain ⟨r, rfl⟩ : d <+: r := ⟨_, (List.cons.inj heq).2⟩
    rw [protectFrom_found hne, protectMark, Bool.not_true, if_neg Bool.false_ne_true,
      List.cons_append] at hz
    obtain ⟨c, hmem, hc⟩ := hd
    exact hc (forall_eq_of_prefix_cons ⟨z, hz⟩ c hmem)
  | false => exact h ⟨_, heq⟩

/-- As long as nothing is escaped already, a text is recovered if and only if no escape is
mistaken for one that protecting has written. -/
theorem revealFrom_protectFrom_eq_self_iff
    {a r : Text}
    (hd : ∃ c ∈ d, c ≠ escapeChar) (hs : a ++ r = s)
    (hlive : ∀ p ∈ occurrencesFrom d 0 (byteSize a) r, isEscapedAt s p = false) :
    revealFrom d (armedOver false a) (protectFrom d (armedOver false a) r) = r ↔
      NoneMistaken d a r := by
  have hne : d ≠ [] := by
    rintro rfl
    simp at hd
  induction r using Text.search_induction hne generalizing a with
  | ended => simp [protectFrom_nil hne, noneMistaken_nil]
  | found r ih =>
    rw [Text.occurrencesFrom_found hne, List.forall_mem_cons, ← hs, isEscapedAt_byteSize]
      at hlive
    obtain ⟨hhere, hlater⟩ := hlive
    rw [← Text.byteSize_append, hs] at hlater
    have hstate : armedOver false (a ++ d) = armedOver false d := by
      rw [armedOver_append, hhere]
    have hrest : revealFrom d (armedOver false d)
          (protectFrom d (armedOver false d) r) = r ↔
        NoneMistaken d (a ++ d) r :=
      hstate ▸ ih (by rw [← hs, List.append_assoc]) hlater
    rw [noneMistaken_found hne, ← hrest, hhere, protectFrom_found hne, protectMark,
      if_neg Bool.false_ne_true, revealFrom_found, armedOver_cons,
      armedOver_congr hd (armedBy false escapeChar) false, revealMark,
      if_neg Bool.false_ne_true, List.append_cancel_left_eq]
  | step c r h ih =>
    have hstate : armedOver false (a ++ [c]) = armedBy (armedOver false a) c := by
      rw [armedOver_append, armedOver_cons, armedOver_nil]
    have hrest : revealFrom d (armedBy (armedOver false a) c)
          (protectFrom d (armedBy (armedOver false a) c) r) = r ↔
        NoneMistaken d (a ++ [c]) r :=
      hstate ▸ ih (by rw [← hs, List.append_cons a c r])
        (occurrencesFrom_concat h a ▸ hlive)
    rw [noneMistaken_step h, ← hrest, protectFrom_step hne _ h, hstate]
    by_cases hmistaken :
        c = escapeChar ∧ d <+: protectFrom d (armedBy (armedOver false a) c) r
    · obtain ⟨rfl, hmistaken⟩ := hmistaken
      rw [armedBy_escapeChar] at hmistaken ⊢
      have hlost := revealFrom_ne_of_mistaken hd hne h hmistaken
      simp [hlost, hmistaken]
    · have hstep : ¬escapeChar :: d <+:
          c :: protectFrom d (armedBy (armedOver false a) c) r := by
        intro hstarts
        obtain ⟨hc, hbegin⟩ := List.cons_prefix_cons.1 hstarts
        exact hmistaken ⟨hc.symm, hbegin⟩
      rw [not_and] at hmistaken
      rw [revealFrom_step _ hstep, List.cons.injEq, eq_self, true_and]
      exact (and_iff_right hmistaken).symm

/-! ## The round trip -/

theorem protectAll_singleton (hd : d ≠ escapeText) (s : Text) :
    protectAll [d] s = protect d s := by
  simp [protectAll, escapeFirst, ordinary, protectPass, hd, Ne.symm hd]

theorem revealAll_singleton (d s : Text) :
    revealAll [d] s = reveal d s := by
  by_cases hd : d = escapeText
  · simp [revealAll, escapeLast, ordinary, hd]
  · simp [revealAll, escapeLast, ordinary, hd, Ne.symm hd]

theorem protect_eq_self (hd : d ≠ []) (hs : ¬d <:+: s) :
    protect d s = s := by
  rw [protect_eq_weave hd, Token.pieces_of_not_infix hd hs, weave_singleton]

theorem reveal_of_notMem (hd : d ≠ []) (hs : escapeChar ∉ s) :
    reveal d s = s := by
  have hnone : ¬escapeChar :: d <:+: s := by
    intro hin
    exact hs (hin.subset List.mem_cons_self)
  rw [reveal_eq_weave hd,
    Token.pieces_of_not_infix (List.cons_ne_nil escapeChar d) hnone, weave_singleton]

theorem reveal_protect
    (hb : Borderless (escapeChar :: d)) (hd : d ≠ []) (s : Text) :
    reveal d (protect d s) = reveal d s := by
  rw [protect_eq_protectFrom hd, reveal_eq_revealFrom hd, reveal_eq_revealFrom hd,
    revealFrom_protectFrom hb hd]

theorem reveal_eq_self_iff
    (hb : Borderless (escapeChar :: d)) (hd : d ≠ []) :
    reveal d s = s ↔ ∀ p ∈ occurrences d s, isEscapedAt s p = false := by
  rw [reveal_eq_revealFrom hd, revealFrom_eq_self_iff hb hd, noneEscaped_iff hb hd]

theorem reveal_protect_of_notMem
    (hs : escapeChar ∉ s) (d : Text) :
    reveal d (protect d s) = s := by
  by_cases hd : d = []
  · simp [hd]
  by_cases hesc : escapeChar ∈ d
  · have hnone : ¬d <:+: s := by
      intro hin
      exact hs (hin.subset hesc)
    rw [protect_eq_self hd hnone, reveal_of_notMem hd hs]
  · rw [reveal_protect (Token.borderless_escapeChar_cons hesc) hd, reveal_of_notMem hd hs]

/-- Protecting one delimiter and revealing it again recovers every text without escapes.
A text in which no occurrence that a search meets is escaped is recovered if and only if
none of its escapes is mistaken for one that protecting has written, unless the delimiter
consists of escapes.  If no beginning of the delimiter and an escape before it is also an
end of them, the result is what revealing alone gives, and exactly the texts in which no
occurrence is escaped are recovered. -/
theorem revealAll_protectAll_singleton (d s : Text) :
    (escapeChar ∉ s → revealAll [d] (protectAll [d] s) = s) ∧
    ((∃ c ∈ d, c ≠ escapeChar) → (∀ p ∈ occurrences d s, isEscapedAt s p = false) →
      (revealAll [d] (protectAll [d] s) = s ↔ NoneMistaken d [] s)) ∧
    (Borderless (escapeChar :: d) →
      revealAll [d] (protectAll [d] s) = revealAll [d] s ∧
      (revealAll [d] (protectAll [d] s) = s ↔
        d = [] ∨ ∀ p ∈ occurrences d s, isEscapedAt s p = false)) := by
  by_cases hesc : d = escapeText
  · subst hesc
    have hall : revealAll [escapeText] (protectAll [escapeText] s) = s := by
      rw [revealAll_singleton]
      exact reveal_double s
    refine ⟨fun _ => hall, ?_, ?_⟩
    · rintro ⟨c, hmem, hc⟩
      exact absurd (List.mem_singleton.1 hmem) hc
    · intro hb
      exact (hb escapeText (List.cons_ne_nil _ _) (by decide) (List.prefix_append _ _)
        (List.suffix_cons _ _)).elim
  · simp only [revealAll_singleton, protectAll_singleton hesc]
    refine ⟨fun hs => reveal_protect_of_notMem hs d, ?_, ?_⟩
    · intro hd hlive
      have hne : d ≠ [] := by
        rintro rfl
        simp at hd
      rw [protect_eq_protectFrom hne, reveal_eq_revealFrom hne]
      exact revealFrom_protectFrom_eq_self_iff hd (List.nil_append s) hlive
    · intro hb
      by_cases hd : d = []
      · simp [hd]
      · rw [reveal_protect hb hd, reveal_eq_self_iff hb hd]
        simp [hd]

/-- Escapes elsewhere are not in the way.  If the delimiter ends in an escape, it depends on
the text whether one is mistaken. -/
theorem revealAll_protectAll_singleton_colons :
    (escapeChar ∉ "a::b".toList ∧
      revealAll ["::".toList] (protectAll ["::".toList] "a::b".toList) = "a::b".toList) ∧
    ((∃ c ∈ "a\\".toList, c ≠ escapeChar) ∧
      (∀ p ∈ occurrences "a\\".toList "\\ba\\".toList,
        isEscapedAt "\\ba\\".toList p = false) ∧
      NoneMistaken "a\\".toList [] "\\ba\\".toList ∧
      (∀ p ∈ occurrences "a\\".toList "\\aa\\".toList,
        isEscapedAt "\\aa\\".toList p = false) ∧
      ¬NoneMistaken "a\\".toList [] "\\aa\\".toList) ∧
    (Borderless (escapeChar :: "::".toList) ∧
      (∀ p ∈ occurrences "::".toList "\\a::::\\\\::\\".toList,
        isEscapedAt "\\a::::\\\\::\\".toList p = false) ∧
      revealAll ["::".toList]
          (protectAll ["::".toList] "\\a::::\\\\::\\".toList) =
        "\\a::::\\\\::\\".toList) := by
  have hs : escapeChar ∉ "a::b".toList := by decide
  have hd : ∃ c ∈ "a\\".toList, c ≠ escapeChar := ⟨'a', by decide, by decide⟩
  have hkept : ∀ p ∈ occurrences "a\\".toList "\\ba\\".toList,
      isEscapedAt "\\ba\\".toList p = false := by
    decide +kernel
  have hlost : ∀ p ∈ occurrences "a\\".toList "\\aa\\".toList,
      isEscapedAt "\\aa\\".toList p = false := by
    decide +kernel
  have hb : Borderless (escapeChar :: "::".toList) := by decide
  have hlive : ∀ p ∈ occurrences "::".toList "\\a::::\\\\::\\".toList,
      isEscapedAt "\\a::::\\\\::\\".toList p = false := by
    decide +kernel
  refine ⟨⟨hs, (revealAll_protectAll_singleton _ _).1 hs⟩, ⟨hd, hkept, ?_, hlost, ?_⟩,
    ⟨hb, hlive, ((revealAll_protectAll_singleton _ _).2.2 hb).2.2 (.inr hlive)⟩⟩
  · exact ((revealAll_protectAll_singleton _ _).2.1 hd hkept).1 (by decide +kernel)
  · rw [← (revealAll_protectAll_singleton _ _).2.1 hd hlost]
    decide +kernel

/-- A delimiter that is escaped already loses its escape.  If the delimiter ends in an
escape, or consists of escapes, a text is changed although every occurrence in it is
live. -/
theorem not_revealAll_protectAll_singleton :
    ([','] ≠ escapeText ∧
      revealAll [[',']] (protectAll [[',']] "\\,".toList) ≠ "\\,".toList) ∧
    ("a\\".toList ≠ escapeText ∧
      (∀ p ∈ occurrences "a\\".toList "\\aa\\".toList,
        isEscapedAt "\\aa\\".toList p = false) ∧
      revealAll ["a\\".toList] (protectAll ["a\\".toList] "\\aa\\".toList) ≠
        "\\aa\\".toList) ∧
    ("\\\\".toList ≠ escapeText ∧
      (∀ p ∈ occurrences "\\\\".toList "\\\\\\\\".toList,
        isEscapedAt "\\\\\\\\".toList p = false) ∧
      revealAll ["\\\\".toList] (protectAll ["\\\\".toList] "\\\\\\\\".toList) ≠
        "\\\\\\\\".toList) := by
  decide +kernel

end PatternText.Escape
