import PatternText.Proofs.Escape.Characters

/-!
# Added escapes

What holds of a text and the same text with escapes added, however they came there.
`AddsEscapes` says that only live delimiters have got escapes, and `AddsEscapesAt` at which
positions escapes have been added.
-/

namespace PatternText.Escape

open Text (byteSize located occurrences)

/-- A text, and the same text with an escape added before some of the given characters
that are live in it, `armed` telling whether the first one is escaped. -/
inductive AddsEscapes
    (delimiters : List Char) : (armed : Bool) → Text → Text → Prop where
  | nil (armed : Bool) : AddsEscapes delimiters armed [] []
  | keep (armed : Bool) (c : Char) {s t : Text} :
      AddsEscapes delimiters (armedBy armed c) s t →
        AddsEscapes delimiters armed (c :: s) (c :: t)
  | add {c : Char} {s t : Text} :
      c ∈ delimiters → AddsEscapes delimiters false s t →
        AddsEscapes delimiters false (c :: s) (escapeChar :: c :: t)

/-- A text that starts at position `pos`, and the same text with an escape added before the
characters at the given positions, which are listed in order. -/
inductive AddsEscapesAt : (pos : Nat) → Text → Text → List Nat → Prop where
  | nil (pos : Nat) : AddsEscapesAt pos [] [] []
  | keep (pos : Nat) (c : Char) {s t : Text} {places : List Nat} :
      AddsEscapesAt (pos + c.utf8Size) s t places →
        AddsEscapesAt pos (c :: s) (c :: t) places
  | add (pos : Nat) (c : Char) {s t : Text} {places : List Nat} :
      AddsEscapesAt (pos + c.utf8Size) s t places →
        AddsEscapesAt pos (c :: s) (escapeChar :: c :: t) (pos :: places)

/-!
## Texts that differ in added escapes

An escape before a live delimiter says nothing that protecting or revealing all of the
delimiters would not undo or do anyway.  So both give the same for a text and for what the
text has become after some escapes were added, `AddsEscapes.revealChars_eq` and
`AddsEscapes.protectChars_eq`.
-/

namespace AddsEscapes

variable {ds : List Char} {armed : Bool} {s t : Text}

theorem keep_append
    {w : Text}
    (h : AddsEscapes ds (armedOver armed w) s t) :
    AddsEscapes ds armed (w ++ s) (w ++ t) := by
  induction w generalizing armed with
  | nil => exact h
  | cons c w ih => exact .keep armed c (ih h)

/-- Taking all escapes away leaves nothing of the added ones. -/
theorem revealChars_eq
    (hds : escapeChar ∉ ds) (h : AddsEscapes ds false s t) :
    revealChars ds t = revealChars ds s := by
  -- Just after an escape, the statement is about the escape and what follows it.
  suffices hboth : ∀ armed s t, AddsEscapes ds armed s t →
      (armed = false → revealChars ds t = revealChars ds s) ∧
        (armed = true →
          revealChars ds (escapeChar :: t) = revealChars ds (escapeChar :: s)) from
    (hboth false s t h).1 rfl
  intro armed s t h
  induction h with
  | nil armed => exact ⟨fun _ => rfl, fun _ => rfl⟩
  | @keep armed c s t _ ih =>
    constructor
    · intro harmed
      by_cases hc : c = escapeChar
      · rw [hc]
        apply ih.2
        rw [hc, harmed, armedBy_escapeChar, Bool.not_false]
      · rw [revealChars_cons_of_ne ds hc, revealChars_cons_of_ne ds hc,
          ih.1 (armedBy_of_ne armed hc)]
    · intro harmed
      have hrest : revealChars ds t = revealChars ds s := by
        apply ih.1
        rw [harmed, armedBy_true]
      by_cases hc : c ∈ ds
      · rw [revealChars_escape_of_mem hc, revealChars_escape_of_mem hc, hrest]
      · rw [revealChars_escape_of_notMem hc, revealChars_escape_of_notMem hc, hrest]
  | @add c s t hc _ ih =>
    have hplain : c ≠ escapeChar := fun heq => hds (heq ▸ hc)
    constructor
    · intro _
      rw [revealChars_escape_of_mem hc, revealChars_cons_of_ne ds hplain, ih.1 rfl]
    · intro harmed
      exact absurd harmed Bool.false_ne_true

/-- Escaping everything that is still live completes the added escapes. -/
theorem protectChars_eq
    (hds : escapeChar ∉ ds) (h : AddsEscapes ds armed s t) :
    protectChars ds armed t = protectChars ds armed s := by
  induction h with
  | nil armed => rfl
  | keep armed c _ ih => simp only [protectChars, ih]
  | @add c s t hc _ ih =>
    have hplain : c ≠ escapeChar := fun heq => hds (heq ▸ hc)
    simp [protectChars, hds, hc, armedBy_of_ne false hplain, ih]

end AddsEscapes

/-!
## Where escapes have been added

The positions at which a pass adds escapes are put together part by part, as the pass is.
A pass that protects one character adds an escape wherever that character is live,
`addsEscapesAt_protectChars`.
-/

/-! ### Parts -/

theorem AddsEscapesAt.append
    {pos : Nat} {s t s' t' : Text} {places places' : List Nat}
    (h : AddsEscapesAt pos s t places)
    (h' : AddsEscapesAt (pos + byteSize s) s' t' places') :
    AddsEscapesAt pos (s ++ s') (t ++ t') (places ++ places') := by
  induction h with
  | nil pos => exact h'
  | keep pos c h ih =>
    apply AddsEscapesAt.keep
    apply ih
    rwa [Nat.add_assoc]
  | add pos c h ih =>
    apply AddsEscapesAt.add
    apply ih
    rwa [Nat.add_assoc]

theorem addsEscapesAt_refl (pos : Nat) (w : Text) :
    AddsEscapesAt pos w w [] := by
  induction w generalizing pos with
  | nil => exact .nil pos
  | cons c w ih => exact .keep pos c (ih (pos + c.utf8Size))

/-- The positions can be read off the two texts if no escape has been added before an
escape character, which would be the same as one after it. -/
theorem AddsEscapesAt.eq_of_forall_notMem
    {pos : Nat} {s t : Text} {places places' : List Nat}
    (h : AddsEscapesAt pos s t places) (h' : AddsEscapesAt pos s t places')
    (hplaces : ∀ place ∈ places, (place, escapeChar) ∉ located pos s)
    (hplaces' : ∀ place ∈ places', (place, escapeChar) ∉ located pos s) :
    places = places' := by
  induction h generalizing places' with
  | nil pos =>
    cases h'
    rfl
  | @keep pos c s t places h ih =>
    cases h' with
    | keep _ _ h' =>
      refine ih h' ?_ ?_
      · exact fun place hplace hmem => hplaces place hplace (List.mem_cons_of_mem _ hmem)
      · exact fun place hplace hmem => hplaces' place hplace (List.mem_cons_of_mem _ hmem)
    | add _ _ h' => exact absurd List.mem_cons_self (hplaces' pos List.mem_cons_self)
  | @add pos c s t places h ih =>
    cases h' with
    | keep _ _ h' => exact absurd List.mem_cons_self (hplaces pos List.mem_cons_self)
    | add _ _ h' =>
      rw [List.forall_mem_cons] at hplaces hplaces'
      rw [ih h' ?_ ?_]
      · exact fun place hplace hmem => hplaces.2 place hplace (List.mem_cons_of_mem _ hmem)
      · exact fun place hplace hmem => hplaces'.2 place hplace (List.mem_cons_of_mem _ hmem)

/-! ### One character -/

/-- A character is live where nothing before it escapes it. -/
theorem mem_liveOccurrences_singleton_iff
    {c : Char} {s : Text} {pos : Nat} :
    pos ∈ liveOccurrences [c] s ↔
      ∃ a r, s = a ++ c :: r ∧ pos = byteSize a ∧ armedOver false a = false := by
  rw [liveOccurrences, List.mem_filter, Text.mem_occurrences_singleton_iff]
  constructor
  · rintro ⟨⟨a, r, hs, rfl⟩, hlive⟩
    rw [isEscapedAt_of_append hs.symm, Bool.not_eq_true'] at hlive
    exact ⟨a, r, hs, rfl, hlive⟩
  · rintro ⟨a, r, hs, rfl, hlive⟩
    rw [isEscapedAt_of_append hs.symm, hlive]
    exact ⟨⟨a, r, hs, rfl⟩, rfl⟩

theorem mem_located_of_mem_liveOccurrences
    {c : Char} {s : Text} {pos : Nat}
    (hlive : pos ∈ liveOccurrences [c] s) :
    (pos, c) ∈ located 0 s := by
  obtain ⟨a, r, hs, hpos, -⟩ := mem_liveOccurrences_singleton_iff.1 hlive
  exact Text.mem_located_iff.2 ⟨a, r, hs, by rw [Nat.zero_add, hpos]⟩

theorem eq_of_mem_located
    {c d : Char} {s : Text} {pos : Nat}
    (hc : (pos, c) ∈ located 0 s) (hd : (pos, d) ∈ located 0 s) :
    c = d := by
  obtain ⟨a, r, rfl, hpos⟩ := Text.mem_located_iff.1 hc
  obtain ⟨a', r', hs, hpos'⟩ := Text.mem_located_iff.1 hd
  have hsize : byteSize a = byteSize a' := Nat.add_left_cancel (hpos.symm.trans hpos')
  obtain ⟨-, hrest⟩ := Text.Edit.append_inj_of_byteSize hs hsize
  exact (List.cons.inj hrest).1

/-- The positions in the part `k` of a text `s`, which starts at position `pos` there, where a
character is live. -/
def livePlaces (c : Char) (s : Text) (pos : Nat) (k : Text) : List Nat :=
  ((located pos k).filter fun place => place.2 == c && !isEscapedAt s place.1).map Prod.fst

theorem mem_livePlaces_iff
    {c : Char} {a k r s : Text} {pos : Nat}
    (hs : a ++ k ++ r = s) :
    pos ∈ livePlaces c s (byteSize a) k ↔
      ∃ w v, k = w ++ c :: v ∧ pos = byteSize (a ++ w) ∧ armedOver false (a ++ w) = false := by
  have hescaped (w v : Text) (hk : k = w ++ c :: v) :
      isEscapedAt s (byteSize (a ++ w)) = armedOver false (a ++ w) := by
    have hsplit : a ++ w ++ c :: (v ++ r) = s := by rw [← hs, hk]; simp
    exact isEscapedAt_of_append hsplit
  rw [livePlaces, List.mem_map]
  constructor
  · rintro ⟨⟨_, d⟩, hplace, rfl⟩
    rw [List.mem_filter, Text.mem_located_iff] at hplace
    obtain ⟨⟨w, v, hk, rfl⟩, hlive⟩ := hplace
    rw [Bool.and_eq_true, beq_iff_eq, Bool.not_eq_true'] at hlive
    obtain ⟨rfl, harmed⟩ := hlive
    rw [← Text.byteSize_append] at harmed ⊢
    exact ⟨w, v, hk, rfl, (hescaped w v hk).symm.trans harmed⟩
  · rintro ⟨w, v, hk, rfl, harmed⟩
    refine ⟨(byteSize (a ++ w), c), ?_, rfl⟩
    rw [List.mem_filter, Text.mem_located_iff, hescaped w v hk, harmed, beq_self_eq_true]
    exact ⟨⟨w, v, hk, Text.byteSize_append a w⟩, rfl⟩

theorem mem_livePlaces
    {c : Char} {a k r s : Text} {pos : Nat}
    (hs : a ++ k ++ r = s) (hpos : pos ∈ livePlaces c s (byteSize a) k) :
    byteSize a ≤ pos ∧ pos ∈ liveOccurrences [c] s := by
  obtain ⟨w, v, rfl, rfl, harmed⟩ := (mem_livePlaces_iff hs).1 hpos
  constructor
  · exact Text.byteSize_le_append a w
  · refine mem_liveOccurrences_singleton_iff.2 ⟨a ++ w, v ++ r, ?_, rfl, harmed⟩
    rw [← hs]
    simp

theorem mem_livePlaces_of_le
    {c : Char} {a k s : Text} {pos : Nat}
    (hs : a ++ k = s) (hlive : pos ∈ liveOccurrences [c] s) (hle : byteSize a ≤ pos) :
    pos ∈ livePlaces c s (byteSize a) k := by
  obtain ⟨b, v, hb, rfl, harmed⟩ := mem_liveOccurrences_singleton_iff.1 hlive
  obtain ⟨w, rfl, hk⟩ := Text.exists_append_of_byteSize_le (hs.trans hb) hle
  exact (mem_livePlaces_iff (by rwa [List.append_nil])).2 ⟨w, v, hk, rfl, harmed⟩

/-- A reader that protects one character adds escapes where it is live. -/
theorem addsEscapesAt_protectChars
    {c : Char} {a k r s : Text}
    (hc : c ≠ escapeChar) (hs : a ++ k ++ r = s) :
    AddsEscapesAt (byteSize a) k (protectChars [c] (armedOver false a) k)
      (livePlaces c s (byteSize a) k) := by
  induction k generalizing a with
  | nil => exact .nil _
  | cons x k ih =>
    have hs' : a ++ [x] ++ k ++ r = s := by rw [← hs]; simp
    have hsize : byteSize (a ++ [x]) = byteSize a + x.utf8Size := by simp
    have harmed : isEscapedAt s (byteSize a) = armedOver false a :=
      isEscapedAt_of_append ((List.append_assoc a (x :: k) r).symm.trans hs)
    have hrest := ih hs'
    rw [armedOver_append, armedOver_cons, armedOver_nil, hsize] at hrest
    have hplaces : livePlaces c s (byteSize a) (x :: k) =
        (if x = c ∧ armedOver false a = false then [byteSize a] else []) ++
          livePlaces c s (byteSize a + x.utf8Size) k := by
      simp only [livePlaces, Text.located, List.filter_cons, harmed]
      split <;> simp_all
    rw [hplaces]
    by_cases hlive : x = c ∧ armedOver false a = false
    · rw [if_pos hlive, protectChars_cons_of_live (by simp [hlive])]
      exact .add _ x hrest
    · have hnot : ¬(x ∈ [c] ∧ (escapeChar ∈ [c] ∨ armedOver false a = false)) := by
        simpa [Ne.symm hc] using hlive
      rw [if_neg hlive, protectChars_cons_of_not_live hnot]
      exact .keep _ x hrest

end PatternText.Escape
