import PatternText.Text.Basic

/-!
# Parts of a text

Positions are replaced by the parts into which they divide a text.
-/

namespace PatternText.Text

/-!
## Searching

A search from left to right meets three situations: the text is over, it goes on
with an occurrence, which is passed as a whole, or it goes on with a character
that starts no occurrence.  `search_induction` follows them, so that a statement
about everything a search finds is proved without positions, and the equations
below say which positions are found in each.
-/

/-- Induction along a search for a text. -/
@[elab_as_elim]
theorem search_induction
    {d : Text}
    (hd : d ≠ []) {motive : Text → Prop}
    (ended : motive [])
    (found : ∀ r, motive r → motive (d ++ r))
    (step : ∀ c r, ¬d <+: c :: r → motive r → motive (c :: r)) :
    ∀ s, motive s
  | [] => ended
  | c :: r => by
    by_cases h : d <+: c :: r
    · obtain ⟨rest, hrest⟩ := h
      have hlength := congrArg List.length hrest
      have hpos : 0 < d.length := List.length_pos_iff.2 hd
      have hlt : rest.length < r.length + 1 := by
        simp only [List.length_append, List.length_cons] at hlength
        omega
      exact hrest ▸ found rest (search_induction hd ended found step rest)
    · exact step c r h (search_induction hd ended found step r)
termination_by s => s.length

theorem occurrencesFrom_skip (d a r : Text) (pos : Nat) :
    occurrencesFrom d a.length pos (a ++ r) =
      occurrencesFrom d 0 (pos + byteSize a) r := by
  induction a generalizing pos with
  | nil => rfl
  | cons c a ih =>
    rw [List.length_cons, List.cons_append, occurrencesFrom, ih, byteSize_cons,
      Nat.add_assoc]

theorem occurrencesFrom_found
    {d : Text}
    (hd : d ≠ []) (pos : Nat) (r : Text) :
    occurrencesFrom d 0 pos (d ++ r) =
      pos :: occurrencesFrom d 0 (pos + byteSize d) r := by
  obtain ⟨c, d', rfl⟩ := List.exists_cons_of_ne_nil hd
  have hfront : (c :: d').isPrefixOf (c :: (d' ++ r)) = true :=
    List.isPrefixOf_iff_prefix.2 ⟨r, rfl⟩
  rw [List.cons_append, occurrencesFrom, if_pos hfront, List.length_cons,
    Nat.add_sub_cancel, occurrencesFrom_skip, byteSize_cons, Nat.add_assoc]

theorem occurrencesFrom_step
    {d r : Text} {c : Char}
    (h : ¬d <+: c :: r) (pos : Nat) :
    occurrencesFrom d 0 pos (c :: r) =
      occurrencesFrom d 0 (pos + c.utf8Size) r := by
  have hfront : ¬d.isPrefixOf (c :: r) = true := by
    rwa [List.isPrefixOf_iff_prefix]
  rw [occurrencesFrom, if_neg hfront]

/-- An occurrence is found unless an earlier one reaches into it. -/
theorem mem_occurrencesFrom_or_reached
    {d s a b : Text}
    (hd : d ≠ []) (hs : a ++ (d ++ b) = s) (pos : Nat) :
    pos + byteSize a ∈ occurrencesFrom d 0 pos s ∨
      ∃ x y, a = x ++ y ∧ y ≠ [] ∧ y.length < d.length ∧ d <+: y ++ (d ++ b) := by
  induction s using search_induction hd generalizing a pos with
  | ended => simp [hd] at hs
  | found r ih =>
    rw [occurrencesFrom_found hd]
    by_cases ha : a = []
    · simp [ha]
    by_cases hlt : a.length < d.length
    · exact .inr ⟨[], a, rfl, ha, hlt, r, hs.symm⟩
    · have hbegin : d <+: a :=
        List.prefix_of_prefix_length_le (hs ▸ List.prefix_append d r)
          (List.prefix_append a (d ++ b)) (Nat.le_of_not_lt hlt)
      obtain ⟨a, rfl⟩ := hbegin
      rw [List.append_assoc, List.append_cancel_left_eq] at hs
      rcases ih hs (pos + byteSize d) with hmem | ⟨x, y, rfl, hreach⟩
      · rw [Nat.add_assoc, ← byteSize_append] at hmem
        exact .inl (List.mem_cons_of_mem pos hmem)
      · exact .inr ⟨d ++ x, y, by simp, hreach⟩
  | step c r h ih =>
    rw [occurrencesFrom_step h]
    cases a with
    | nil => exact absurd ⟨b, hs⟩ h
    | cons c' a =>
      obtain ⟨rfl, hr⟩ := List.cons.inj hs
      rcases ih hr (pos + c'.utf8Size) with hmem | ⟨x, y, rfl, hreach⟩
      · rw [Nat.add_assoc, ← byteSize_cons] at hmem
        exact .inl hmem
      · exact .inr ⟨c' :: x, y, rfl, hreach⟩

theorem byteSize_eq_append_iff {a b : Text} :
    byteSize a = byteSize (a ++ b) ↔ b = [] := by
  rw [byteSize_append]
  constructor
  · intro hsize
    apply Classical.byContradiction
    intro hb
    have hpos := byteSize_pos hb
    omega
  · rintro rfl
    simp

theorem exists_append_of_byteSize_le
    {a b a' b' : Text}
    (h : a ++ b = a' ++ b') (hsize : byteSize a ≤ byteSize a') :
    ∃ w, a' = a ++ w ∧ b = w ++ b' := by
  rcases List.append_eq_append_iff.1 h with ⟨w, ha', hb⟩ | ⟨w, rfl, hb'⟩
  · exact ⟨w, ha', hb⟩
  · have hequal : byteSize a' = byteSize (a' ++ w) := by
      rw [byteSize_append] at hsize ⊢
      omega
    obtain rfl := byteSize_eq_append_iff.1 hequal
    exact ⟨[], by simp, hb'.symm⟩

@[simp] theorem sliceFrom_byteSize (a b : Text) :
    sliceFrom (a ++ b) (byteSize a) = b := by
  have h := slice_append a b []
  rwa [List.append_nil, ← byteSize_append] at h

theorem occurrencesAfter_byteSize (d a b : Text) :
    occurrencesAfter d (a ++ b) (byteSize a) =
      occurrencesFrom d 0 (byteSize a) b := by
  rw [occurrencesAfter, sliceFrom_byteSize]

/-! ### Occurrences of a text by its first character -/

theorem occurrencesFrom_append_of_notMem
    {c : Char} {d w : Text}
    (h : c ∉ w) (pos : Nat) (r : Text) :
    occurrencesFrom (c :: d) 0 pos (w ++ r) =
      occurrencesFrom (c :: d) 0 (pos + byteSize w) r := by
  induction w generalizing pos with
  | nil => rfl
  | cons x w ih =>
    rw [List.mem_cons, not_or] at h
    have hfront : ¬(c :: d) <+: x :: (w ++ r) := by
      intro hprefix
      exact h.1 (List.cons_prefix_cons.1 hprefix).1
    rw [List.cons_append, occurrencesFrom_step hfront, ih h.2, byteSize_cons,
      Nat.add_assoc]

theorem occurrencesFrom_of_notMem
    {c : Char} {d w : Text}
    (h : c ∉ w) (pos : Nat) :
    occurrencesFrom (c :: d) 0 pos w = [] := by
  have hall := occurrencesFrom_append_of_notMem (d := d) h pos []
  rwa [List.append_nil, occurrencesFrom] at hall

theorem mem_occurrences_singleton_iff
    {c : Char} {s : Text} {p : Nat} :
    p ∈ occurrences [c] s ↔ ∃ a r, s = a ++ c :: r ∧ p = byteSize a := by
  have hmem : ∀ a r pos, pos + byteSize a ∈ occurrencesFrom [c] 0 pos (a ++ c :: r) := by
    intro a r
    induction a with
    | nil =>
      intro pos
      have hfound := occurrencesFrom_found (List.cons_ne_nil c []) pos r
      rw [List.singleton_append] at hfound
      rw [List.nil_append, hfound]
      exact List.mem_cons_self
    | cons x a ih =>
      intro pos
      have hlater := ih (pos + x.utf8Size)
      rw [Nat.add_assoc, ← byteSize_cons] at hlater
      by_cases hx : x = c
      · have hfound := occurrencesFrom_found (List.cons_ne_nil c []) pos (a ++ c :: r)
        rw [List.singleton_append, byteSize_cons, byteSize_nil, Nat.add_zero] at hfound
        rw [List.cons_append, hx, hfound]
        exact List.mem_cons_of_mem pos (hx ▸ hlater)
      · have hfront : ¬[c] <+: x :: (a ++ c :: r) := by
          intro hprefix
          exact hx (List.cons_prefix_cons.1 hprefix).1.symm
        rw [List.cons_append, occurrencesFrom_step hfront]
        exact hlater
  constructor
  · intro hp
    obtain ⟨a, r, hs, hp⟩ := mem_occurrencesFrom hp
    rw [Nat.zero_add] at hp
    exact ⟨a, r, by rw [hs, List.append_assoc, List.singleton_append], hp⟩
  · rintro ⟨a, r, rfl, rfl⟩
    have h := hmem a r 0
    rwa [Nat.zero_add] at h

theorem find?_of_notMem
    {c : Char} {d r : Text}
    (h : c ∉ r) (a : Text) :
    find? (c :: d) (a ++ r) (byteSize a) = none := by
  rw [find?, occurrencesAfter_byteSize, occurrencesFrom_of_notMem h, List.head?_nil]

theorem find?_append_of_notMem
    {c : Char} {d w : Text}
    (h : c ∉ w) (a r : Text) :
    find? (c :: d) (a ++ (w ++ (c :: d ++ r))) (byteSize a) =
      some (byteSize (a ++ w)) := by
  rw [find?, occurrencesAfter_byteSize, occurrencesFrom_append_of_notMem h,
    occurrencesFrom_found (List.cons_ne_nil c d), List.head?_cons, byteSize_append]

theorem exists_of_find?
    {d r a : Text} {p : Nat}
    (h : find? d (a ++ r) (byteSize a) = some p) :
    ∃ w r', r = w ++ d ++ r' ∧ p = byteSize (a ++ w) := by
  rw [find?, occurrencesAfter_byteSize] at h
  obtain ⟨w, r', hr, hp⟩ := mem_occurrencesFrom (List.mem_of_head? h)
  exact ⟨w, r', hr, by rw [hp, byteSize_append]⟩

end PatternText.Text

/-!
## Editing

An edit whose ends are boundaries divides what is still to be edited into a part
that is kept, a part that is replaced and a rest.  The equations below take one
edit away, so that a pass over a text is followed part by part.
-/

namespace PatternText.Text.Edit

theorem applyFrom?_nil (a k : Text) :
    applyFrom? (a ++ k) (byteSize a) [] = some k := by
  rw [applyFrom?]
  exact slice?_eq_some_iff.2 ⟨a, [], by simp, rfl, by simp⟩

/-- An edit keeps what stands before it and replaces what it covers. -/
theorem applyFrom?_cons (a k x r text : Text) (es : List Edit) :
    applyFrom? (a ++ k ++ x ++ r) (byteSize a)
        (⟨byteSize (a ++ k), byteSize (a ++ k ++ x), text⟩ :: es) =
      (applyFrom? (a ++ k ++ x ++ r) (byteSize (a ++ k ++ x)) es).map
        fun rest => k ++ text ++ rest := by
  have hkept : slice? (a ++ k ++ x ++ r) (byteSize a) (byteSize (a ++ k)) = some k :=
    slice?_eq_some_iff.2 ⟨a, x ++ r, by simp, rfl, by simp⟩
  have hcovered : slice? (a ++ k ++ x ++ r) (byteSize (a ++ k))
      (byteSize (a ++ k ++ x)) = some x :=
    slice?_eq_some_iff.2 ⟨a ++ k, r, by simp, rfl, by simp [Nat.add_assoc]⟩
  simp only [applyFrom?, hkept, hcovered, Option.bind_eq_bind, Option.bind_some]
  cases applyFrom? (a ++ k ++ x ++ r) (byteSize (a ++ k ++ x)) es <;> rfl

theorem append_inj_of_byteSize
    {a b a' b' : Text}
    (h : a ++ b = a' ++ b') (hsize : byteSize a = byteSize a') :
    a = a' ∧ b = b' := by
  have hsplit : splitAt? (a ++ b) (byteSize a) = some (a, b) :=
    splitAt?_eq_some_iff.2 ⟨rfl, rfl⟩
  have hsplit' : splitAt? (a ++ b) (byteSize a) = some (a', b') :=
    splitAt?_eq_some_iff.2 ⟨h, hsize.symm⟩
  rw [hsplit, Option.some.injEq, Prod.mk.injEq] at hsplit'
  exact hsplit'

/-- The parts into which the first of some edits divides a text. -/
theorem exists_of_applyFrom?_cons
    {a k t : Text} {e : Edit} {es : List Edit}
    (h : applyFrom? (a ++ k) (byteSize a) (e :: es) = some t) :
    ∃ kept x r rest, k = kept ++ x ++ r ∧
      e = ⟨byteSize (a ++ kept), byteSize (a ++ kept ++ x), e.text⟩ ∧
      applyFrom? (a ++ k) (byteSize (a ++ kept ++ x)) es = some rest ∧
      t = kept ++ e.text ++ rest := by
  simp only [applyFrom?, Option.bind_eq_bind, Option.bind_eq_some_iff,
    Option.pure_def, Option.some.injEq] at h
  obtain ⟨kept, hkept, x, hx, rest, hrest, rfl⟩ := h
  obtain ⟨a', b, hs, ha', hstart⟩ := slice?_eq_some_iff.1 hkept
  rw [List.append_assoc] at hs
  obtain ⟨rfl, rfl⟩ := append_inj_of_byteSize hs ha'.symm
  obtain ⟨c, r, hs', hc, hstop⟩ := slice?_eq_some_iff.1 hx
  rw [List.append_assoc, ← List.append_assoc a] at hs'
  have hprefix : byteSize (a ++ kept) = byteSize c := by
    rw [hc, ← hstart, byteSize_append]
  obtain ⟨rfl, rfl⟩ := append_inj_of_byteSize hs' hprefix
  refine ⟨kept, x, r, rest, by simp, ?_, ?_, rfl⟩
  · obtain ⟨start, stop, text⟩ := e
    simp only [Edit.mk.injEq, and_true]
    exact ⟨hc.symm, by rw [byteSize_append, hstop]⟩
  · rw [byteSize_append, hstop]
    exact hrest

theorem applyFrom?_keep
    {s a k r t : Text} {es : List Edit}
    (hs : a ++ k ++ r = s) (h : applyFrom? s (byteSize (a ++ k)) es = some t) :
    applyFrom? s (byteSize a) es = some (k ++ t) := by
  subst hs
  cases es with
  | nil =>
    rw [applyFrom?_nil, Option.some.injEq] at h
    rw [List.append_assoc, applyFrom?_nil, h]
  | cons e es =>
    obtain ⟨kept, x, r', rest, rfl, he, hrest, rfl⟩ := exists_of_applyFrom?_cons h
    have hcons := applyFrom?_cons a (k ++ kept) x r' e.text es
    simp only [← List.append_assoc] at hcons hrest ⊢
    rw [he, hcons, hrest, Option.map_some]

theorem applyFrom?_insertion
    {s a r t : Text} {es : List Edit}
    (hs : a ++ r = s) (text : Text) (h : applyFrom? s (byteSize a) es = some t) :
    applyFrom? s (byteSize a) (insertion (byteSize a) text :: es) =
      some (text ++ t) := by
  subst hs
  have hcons := applyFrom?_cons a [] [] r text es
  simp only [List.append_nil] at hcons
  rw [insertion, hcons, h, Option.map_some, List.nil_append]

/-- Edits that fit a part of a text are applied before the edits that come after that
part.  The first of them start where `u`, the beginning of the part, ends. -/
theorem applyFrom?_shift_append
    {a u v r t t' : Text} {es later : List Edit}
    (h : applyFrom? (u ++ v) (byteSize u) es = some t)
    (hlater : applyFrom? (a ++ (u ++ v) ++ r) (byteSize (a ++ (u ++ v))) later =
      some t') :
    applyFrom? (a ++ (u ++ v) ++ r) (byteSize (a ++ u))
        (es.map (shift (byteSize a)) ++ later) =
      some (t ++ t') := by
  induction es generalizing u v t with
  | nil =>
    rw [applyFrom?_nil, Option.some.injEq] at h
    rw [← List.append_assoc a u v] at hlater ⊢
    rw [List.map_nil, List.nil_append, applyFrom?_keep rfl hlater, h]
  | cons e es ih =>
    obtain ⟨kept, x, v', rest, rfl, he, hrest, rfl⟩ := exists_of_applyFrom?_cons h
    have hpart : u ++ (kept ++ x ++ v') = u ++ kept ++ x ++ v' := by simp
    rw [hpart] at hrest hlater
    have hnext := ih hrest hlater
    have hcons := applyFrom?_cons (a ++ u) kept x (v' ++ r) e.text
      (es.map (shift (byteSize a)) ++ later)
    have hshift : shift (byteSize a) e =
        ⟨byteSize (a ++ u ++ kept), byteSize (a ++ u ++ kept ++ x), e.text⟩ := by
      rw [he]
      simp [shift]
    rw [List.map_cons, List.cons_append, hshift]
    simp only [← List.append_assoc] at hcons hnext ⊢
    rw [hcons, hnext, Option.map_some, List.append_assoc (kept ++ e.text)]

end PatternText.Text.Edit
