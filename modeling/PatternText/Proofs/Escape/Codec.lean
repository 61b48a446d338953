import PatternText.Proofs.Escape.Characters

/-!
# Escaping as a codec

Protecting characters with the escape character among them can be undone.
-/

namespace PatternText.Escape

open Token (pieces)
open Text (byteSize located)

/-!
## Round trips

When the escape character is protected together with other characters, the
protected texts are exactly those in which each of these characters is escaped
and nothing else is.  Revealing reads such a text back, and only such a text is
written again as it was.

The metacharacters of patterns, the escape character among them, are the case in
point.
-/

section

variable {ds : List Char}

/-- Revealing undoes protecting, since nothing but content was protected. -/
theorem revealChars_protectChars
    (hds : escapeChar ∈ ds) (armed : Bool) (s : Text) :
    revealChars ds (protectChars ds armed s) = s := by
  induction s generalizing armed with
  | nil => rfl
  | cons c r ih =>
    by_cases hc : c ∈ ds
    · rw [protectChars_cons_of_live ⟨hc, .inl hds⟩, revealChars_escape_of_mem hc, ih]
    · have hne : c ≠ escapeChar := by
        rintro rfl
        exact hc hds
      rw [protectChars_cons_of_not_live fun hlive => hc hlive.1,
        revealChars_cons_of_ne ds hne, ih]

theorem isProtected_protectChars
    (hds : escapeChar ∈ ds) (armed : Bool) (s : Text) :
    IsProtected ds (protectChars ds armed s) := by
  induction s generalizing armed with
  | nil => exact .nil
  | cons c r ih =>
    by_cases hc : c ∈ ds
    · rw [protectChars_cons_of_live ⟨hc, .inl hds⟩]
      exact .escaped c _ hc (ih (armedBy armed c))
    · rw [protectChars_cons_of_not_live fun hlive => hc hlive.1]
      exact .plain c _ hc (ih (armedBy armed c))

theorem IsProtected.protectChars_revealChars
    {t : Text}
    (ht : IsProtected ds t) (hds : escapeChar ∈ ds) (armed : Bool) :
    protectChars ds armed (revealChars ds t) = t := by
  induction ht generalizing armed with
  | nil => rfl
  | plain c r hc hr ih =>
    have hne : c ≠ escapeChar := by
      rintro rfl
      exact hc hds
    rw [revealChars_cons_of_ne ds hne,
      protectChars_cons_of_not_live fun hlive => hc hlive.1, ih]
  | escaped c r hc hr ih =>
    rw [revealChars_escape_of_mem hc, protectChars_cons_of_live ⟨hc, .inl hds⟩, ih]

theorem protectMeta_eq_protectChars (s : Text) :
    protectMeta s = protectChars metachars false s :=
  protectAll_singletons metachars s

theorem revealMeta_eq_revealChars (s : Text) :
    revealMeta s = revealChars metachars s :=
  revealAll_singletons metachars s

theorem escapeChar_mem_metachars :
    escapeChar ∈ metachars :=
  List.mem_cons_self

/-- Protecting and revealing metacharacters are an exact codec: revealing undoes
protecting, and protecting undoes revealing on exactly the texts that consist of
other characters and of escaped metacharacters, which are those that protecting
can give. -/
theorem protectMeta_codec :
    (∀ s, revealMeta (protectMeta s) = s) ∧
    (∀ t, protectMeta (revealMeta t) = t ↔ IsProtected metachars t) ∧
    (∀ t, IsProtected metachars t ↔ ∃ s, protectMeta s = t) := by
  have hesc := escapeChar_mem_metachars
  have hwritten : ∀ s, IsProtected metachars (protectMeta s) := by
    intro s
    rw [protectMeta_eq_protectChars]
    exact isProtected_protectChars hesc false s
  have hagain : ∀ t, IsProtected metachars t → protectMeta (revealMeta t) = t := by
    intro t ht
    rw [protectMeta_eq_protectChars, revealMeta_eq_revealChars]
    exact ht.protectChars_revealChars hesc false
  refine ⟨?_, ?_, ?_⟩
  · intro s
    rw [protectMeta_eq_protectChars, revealMeta_eq_revealChars]
    exact revealChars_protectChars hesc false s
  · intro t
    constructor
    · intro h
      rw [← h]
      exact hwritten (revealMeta t)
    · exact hagain t
  · intro t
    constructor
    · intro ht
      exact ⟨revealMeta t, hagain t ht⟩
    · rintro ⟨s, rfl⟩
      exact hwritten s

end

/-!
## Doubled escapes

Doubling is done character by character, and in a doubled text nothing escapes
anything: every escape is a pair.  A delimiter without an escape character
therefore occurs in a doubled text where it occurs in the text itself, and every
occurrence is live.
-/

section

variable {d : Text}

theorem double_eq_protectChars (s : Text) :
    double s = protectChars [escapeChar] false s := by
  rw [← protectPass_singleton]
  simp [protectPass, escapeText]

@[simp] theorem double_nil :
    double [] = [] := by
  rw [double_eq_protectChars, protectChars]

theorem double_escapeChar_cons (r : Text) :
    double (escapeChar :: r) = escapeChar :: escapeChar :: double r := by
  have hstate : ∀ armed s, protectChars [escapeChar] armed s = double s := by
    intro armed s
    rw [double_eq_protectChars]
    induction s generalizing armed with
    | nil => rfl
    | cons c s ih => simp [protectChars, ih (armedBy armed c), ih (armedBy false c)]
  rw [double_eq_protectChars, protectChars, hstate]
  simp

theorem double_cons_of_ne
    {c : Char}
    (hc : c ≠ escapeChar) (r : Text) :
    double (c :: r) = c :: double r := by
  rw [double_eq_protectChars, double_eq_protectChars, protectChars, armedBy_of_ne _ hc]
  simp [hc]

@[simp] theorem double_append (a b : Text) :
    double (a ++ b) = double a ++ double b := by
  induction a with
  | nil => simp
  | cons c a ih =>
    by_cases hc : c = escapeChar
    · rw [hc, List.cons_append, double_escapeChar_cons, double_escapeChar_cons, ih]
      rfl
    · rw [List.cons_append, double_cons_of_ne hc, double_cons_of_ne hc, ih]
      rfl

theorem double_of_notMem
    {s : Text}
    (hs : escapeChar ∉ s) :
    double s = s := by
  induction s with
  | nil => exact double_nil
  | cons c s ih =>
    rw [List.mem_cons, not_or] at hs
    rw [double_cons_of_ne (Ne.symm hs.1), ih hs.2]

@[simp] theorem armedOver_double (s : Text) :
    armedOver false (double s) = false := by
  induction s with
  | nil => simp
  | cons c s ih =>
    by_cases hc : c = escapeChar
    · rw [hc, double_escapeChar_cons]
      simpa using ih
    · rw [double_cons_of_ne hc, armedOver_cons, armedBy_of_ne _ hc]
      exact ih

theorem reveal_double (s : Text) :
    reveal escapeText (double s) = s := by
  rw [escapeText, reveal_singleton, double_eq_protectChars]
  exact revealChars_protectChars List.mem_cons_self false s

theorem prefix_of_prefix_double
    {s : Text}
    (hd : escapeChar ∉ d) (h : d <+: double s) :
    d <+: s := by
  induction d generalizing s with
  | nil => exact List.nil_prefix
  | cons x d ih =>
    rw [List.mem_cons, not_or] at hd
    cases s with
    | nil => simp at h
    | cons c s =>
      by_cases hc : c = escapeChar
      · rw [hc, double_escapeChar_cons, List.cons_prefix_cons] at h
        exact absurd h.1.symm hd.1
      · rw [double_cons_of_ne hc, List.cons_prefix_cons] at h
        exact List.cons_prefix_cons.2 ⟨h.1, ih hd.2 h.2⟩

theorem pieces_double
    (hne : d ≠ []) (hd : escapeChar ∉ d) (s : Text) :
    pieces d (double s) = (pieces d s).map double := by
  induction s using Text.search_induction hne with
  | ended => simp [Token.pieces_nil hne]
  | found r ih =>
    rw [double_append, double_of_notMem hd, Token.pieces_found hne,
      Token.pieces_found hne, List.map_cons, double_nil, ih]
  | step c r h ih =>
    obtain ⟨p, rest, hp⟩ := List.exists_cons_of_ne_nil (Token.pieces_ne_nil d r)
    have hescape : ∀ t : Text, ¬d <+: escapeChar :: t := by
      rintro t ⟨u, hu⟩
      obtain ⟨x, d', rfl⟩ := List.exists_cons_of_ne_nil hne
      obtain ⟨rfl, -⟩ := List.cons.inj hu
      exact hd List.mem_cons_self
    by_cases hc : c = escapeChar
    · rw [hc, double_escapeChar_cons, Token.pieces_step hne (hescape _),
        Token.pieces_step hne (hescape _), Token.pieces_step hne (hescape _), ih, hp]
      simp [double_escapeChar_cons]
    · have hstep : ¬d <+: c :: double r := by
        intro hfront
        rw [← double_cons_of_ne hc] at hfront
        exact h (prefix_of_prefix_double hd hfront)
      rw [double_cons_of_ne hc, Token.pieces_step hne hstep, Token.pieces_step hne h,
        ih, hp]
      simp [double_cons_of_ne hc]

end

/-!
## Characters that are live

Protecting characters changes a text exactly if one of them is live in it.  So the checks
that look for metacharacters of patterns can be compared with the passes that escape them:
a check finds nothing in a text exactly if the passes leave it as it is.
-/

variable {ds : List Char} {armed : Bool} {s : Text}

/-! ### Texts that protecting leaves alone -/

/-- None of the given characters is live in a text, `armed` telling whether its first
character is escaped.  If the escape character is given too, what it escapes counts as
content and every given character is live. -/
def NoneLive (ds : List Char) (armed : Bool) (s : Text) : Prop :=
  ∀ a c r, s = a ++ c :: r → c ∈ ds → escapeChar ∉ ds ∧ armedOver armed a = true

theorem noneLive_nil (ds : List Char) (armed : Bool) :
    NoneLive ds armed [] := by
  intro a c r hs
  simp at hs

theorem noneLive_cons {c : Char} {r : Text} :
    NoneLive ds armed (c :: r) ↔
      (c ∈ ds → escapeChar ∉ ds ∧ armed = true) ∧ NoneLive ds (armedBy armed c) r := by
  constructor
  · intro h
    refine ⟨h [] c r rfl, ?_⟩
    rintro a x y rfl
    exact h (c :: a) x y rfl
  · rintro ⟨hhere, hlater⟩ a x y hs
    cases a with
    | nil =>
      obtain ⟨rfl, -⟩ := List.cons.inj hs
      exact hhere
    | cons c' a =>
      obtain ⟨rfl, hr⟩ := List.cons.inj hs
      exact hlater a x y hr

theorem length_le_protectChars
    (ds : List Char) (armed : Bool) (s : Text) :
    s.length ≤ (protectChars ds armed s).length := by
  induction s generalizing armed with
  | nil => exact Nat.le_refl 0
  | cons c r ih =>
    have hrest := ih (armedBy armed c)
    simp only [protectChars]
    split
    all_goals
      simp only [List.length_cons]
      omega

/-- Protecting keeps exactly the texts in which nothing is live. -/
theorem protectChars_eq_self_iff :
    protectChars ds armed s = s ↔ NoneLive ds armed s := by
  induction s generalizing armed with
  | nil => exact iff_of_true rfl (noneLive_nil ds armed)
  | cons c r ih =>
    rw [noneLive_cons, ← ih]
    by_cases hlive : c ∈ ds ∧ (escapeChar ∈ ds ∨ armed = false)
    · -- An escape is written, and nothing makes up for it.
      have hne : protectChars ds armed (c :: r) ≠ c :: r := by
        rw [protectChars_cons_of_live hlive]
        intro heq
        have hle := length_le_protectChars ds (armedBy armed c) r
        have hlength := congrArg List.length heq
        simp only [List.length_cons] at hlength
        omega
      have hnot : ¬(c ∈ ds → escapeChar ∉ ds ∧ armed = true) := by
        intro hkept
        obtain ⟨hesc, harmed⟩ := hkept hlive.1
        exact hlive.2.elim hesc fun hfalse => Bool.false_ne_true (hfalse.symm.trans harmed)
      exact iff_of_false hne fun h => hnot h.1
    · have hkept : c ∈ ds → escapeChar ∉ ds ∧ armed = true := by
        intro hc
        simpa [hc] using hlive
      rw [protectChars_cons_of_not_live hlive, List.cons.injEq, eq_self, true_and]
      exact (and_iff_right hkept).symm

/-! ### Checks for metacharacters -/

/-- A check for live metacharacters finds none exactly if no metacharacter other than the
escape character is live. -/
theorem hasLiveMeta_eq_false_iff :
    hasLiveMeta s = false ↔ NoneLive (metachars.filter (· != escapeChar)) false s := by
  have hplace : ∀ a c r, s = a ++ c :: r →
      ((c != escapeChar && isMeta c && !isEscapedAt s (byteSize a)) = true ↔
        c ∈ metachars.filter (· != escapeChar) ∧ armedOver false a = false) := by
    intro a c r hs
    rw [isEscapedAt_of_append hs.symm, List.mem_filter]
    simp [isMeta, and_comm]
  rw [hasLiveMeta, Option.isSome_eq_false_iff, Option.isNone_iff_eq_none, firstLiveMeta?,
    List.find?_eq_none]
  constructor
  · intro hnone a c r hs hc
    refine ⟨escapeChar_notMem_filter metachars, ?_⟩
    have hmem : (byteSize a, c) ∈ located 0 s :=
      Text.mem_located_iff.2 ⟨a, r, hs, (Nat.zero_add _).symm⟩
    cases hstate : armedOver false a with
    | false => exact absurd ((hplace a c r hs).2 ⟨hc, hstate⟩) (hnone _ hmem)
    | true => rfl
  · rintro hnone ⟨pos, c⟩ hmem hfound
    obtain ⟨a, r, hs, hpos⟩ := Text.mem_located_iff.1 hmem
    rw [Nat.zero_add] at hpos
    subst hpos
    obtain ⟨hc, hlive⟩ := (hplace a c r hs).1 hfound
    exact Bool.false_ne_true (hlive.symm.trans (hnone a c r hs hc).2)

theorem hasMeta_eq_false_iff :
    hasMeta s = false ↔ NoneLive metachars false s := by
  rw [hasMeta, List.any_eq_false]
  constructor
  · intro hnone a c r hs hc
    exact absurd (List.contains_iff_mem.2 hc) (hnone c (by simp [hs]))
  · intro hnone c hmem hfound
    obtain ⟨a, r, hs⟩ := List.append_of_mem hmem
    exact (hnone a c r hs (List.contains_iff_mem.1 hfound)).1 escapeChar_mem_metachars

theorem IsProtected.noneLive_filter
    {t : Text}
    (ht : IsProtected ds t) (hds : escapeChar ∈ ds) :
    NoneLive (ds.filter (· != escapeChar)) false t := by
  have hesc := escapeChar_notMem_filter ds
  induction ht with
  | nil => exact noneLive_nil _ false
  | plain c r hc hr ih =>
    have hne : c ≠ escapeChar := by
      rintro rfl
      exact hc hds
    rw [noneLive_cons, armedBy_of_ne false hne]
    exact ⟨fun hmem => absurd (List.mem_filter.1 hmem).1 hc, ih⟩
  | escaped c r hc hr ih =>
    rw [noneLive_cons, armedBy_escapeChar, Bool.not_false, noneLive_cons, armedBy_true]
    exact ⟨fun hmem => absurd hmem hesc, fun _ => ⟨hesc, rfl⟩, ih⟩

/-- The checks for metacharacters agree with the passes that escape them.  A text has no live
metacharacter exactly if protecting the metacharacters other than the escape character leaves
it as it is, and no metacharacter at all exactly if protecting all of them does.  Once all
of them are protected, none is live. -/
theorem hasMeta_hasLiveMeta_protect (s : Text) :
    (hasLiveMeta s = false ↔ protectAll (ordinary metaDelimiters) s = s) ∧
    (hasMeta s = false ↔ protectMeta s = s) ∧
    hasLiveMeta (protectMeta s) = false := by
  refine ⟨?_, ?_, ?_⟩
  · rw [metaDelimiters, ordinary_singletons, protectAll_singletons, protectChars_eq_self_iff]
    exact hasLiveMeta_eq_false_iff
  · rw [protectMeta_eq_protectChars, protectChars_eq_self_iff]
    exact hasMeta_eq_false_iff
  · rw [hasLiveMeta_eq_false_iff, protectMeta_eq_protectChars]
    have hprotected := isProtected_protectChars escapeChar_mem_metachars false s
    exact hprotected.noneLive_filter escapeChar_mem_metachars

/-- The metacharacters other than the escape character. -/
example : ordinary metaDelimiters = "^.$|()[]\x7b\x7d*+?".toList.map fun c => [c] := by
  decide

end PatternText.Escape
