import PatternText.Escape.Basic

/-!
# Patterns that are globs

A pattern that a glob can express is a sequence of items between optional
anchors.  This file gives the form of such patterns, how a form is written as a
pattern and as a glob, and which texts each of the two matches.

A pattern is searched for anywhere in a text unless it is anchored, whereas a
glob always has to match the whole text.
-/

namespace PatternText.Pattern.Glob

/-- One item of a pattern that a glob can express. -/
inductive Item where
  /-- A character that stands for itself. -/
  | plain (c : Char)
  /-- An escaped dot. -/
  | dot
  /-- A wildcard for any text. -/
  | anything
  deriving DecidableEq, Repr

namespace Item

def toPattern : Item → Text
  | .plain c => [c]
  | .dot => ['\\', '.']
  | .anything => ['.', '*']

/-- An item as it stands in a glob. -/
def toGlob : Item → Text
  | .plain c => [c]
  | .dot => ['.']
  | .anything => ['*']

/-- Whether an item may be written as it is: a character that stands for itself
must not be a metacharacter. -/
def IsPlain : Item → Prop
  | .plain c => Escape.isMeta c = false
  | _ => True

instance : DecidablePred IsPlain
  | .plain c => inferInstanceAs (Decidable (Escape.isMeta c = false))
  | .dot => .isTrue trivial
  | .anything => .isTrue trivial

end Item

/-- A sequence of items, and whether it is anchored at the start and at the end
of a text. -/
structure Form where
  anchoredStart : Bool
  items : List Item
  anchoredEnd : Bool
  deriving DecidableEq, Repr

namespace Form

/-- A form is complete if its characters stand for themselves and nothing can
precede a match that the form does not account for. -/
def IsComplete (f : Form) : Prop :=
  (∀ i ∈ f.items, i.IsPlain) ∧
    (f.anchoredStart = true ∨ f.items.head? = some .anything)

instance : DecidablePred IsComplete := fun f =>
  inferInstanceAs (Decidable ((∀ i ∈ f.items, i.IsPlain) ∧ _))

def toPattern (f : Form) : Text :=
  (if f.anchoredStart then ['^'] else []) ++ f.items.flatMap Item.toPattern ++
    (if f.anchoredEnd then ['$'] else [])

/-- A form as a glob.  Without an anchor at the end, anything may follow. -/
def toGlob (f : Form) : Text :=
  f.items.flatMap Item.toGlob ++
    (if f.anchoredEnd || f.items.getLast? == some .anything then [] else ['*'])

end Form

/-- A sequence of items matches a text as a whole.  The wildcard of a pattern
matches any text within a line. -/
inductive ItemsMatch : List Item → Text → Prop where
  | nil : ItemsMatch [] []
  | plain (c : Char) {is : List Item} {t : Text} :
      ItemsMatch is t → ItemsMatch (.plain c :: is) (c :: t)
  | dot {is : List Item} {t : Text} :
      ItemsMatch is t → ItemsMatch (.dot :: is) ('.' :: t)
  | anything (u : Text) {is : List Item} {t : Text} :
      '\n' ∉ u → ItemsMatch is t → ItemsMatch (.anything :: is) (u ++ t)

/-- A pattern of the given form finds a match somewhere in a text. -/
def Form.Finds (f : Form) (t : Text) : Prop :=
  ∃ a m b, t = a ++ m ++ b ∧ ItemsMatch f.items m ∧
    (f.anchoredStart = true → a = []) ∧ (f.anchoredEnd = true → b = [])

/-- A pattern finds a match somewhere in a text, provided that it is the text of a
form whose characters stand for themselves. -/
def PatternFinds (p t : Text) : Prop :=
  ∃ f : Form, (∀ i ∈ f.items, i.IsPlain) ∧ f.toPattern = p ∧ f.Finds t

/-- A glob matches a text as a whole: a star matches any text and every other
character itself. -/
inductive GlobMatches : Text → Text → Prop where
  | nil : GlobMatches [] []
  | star (u : Text) {g t : Text} :
      GlobMatches g t → GlobMatches ('*' :: g) (u ++ t)
  | char (c : Char) {g t : Text} :
      c ≠ '*' → GlobMatches g t → GlobMatches (c :: g) (c :: t)

/-!
## Forms and their texts

The text of a form can be read back in one way only, since the first character of
an item tells which item it is: `Form.toPattern_inj`.  Its glob consists of the
items that have to match a whole text, which end in a wildcard unless the form is
anchored at the end.
-/

/-! ### Items in a pattern -/

theorem Item.IsPlain.notMem_toPattern
    {i : Item} {x : Char}
    (h : i.IsPlain) (hx : Escape.isMeta x = true) (hother : x ∉ ['\\', '.', '*']) :
    x ∉ i.toPattern := by
  intro hmem
  cases i with
  | plain c =>
    rw [Item.toPattern, List.mem_singleton] at hmem
    rw [Item.IsPlain, ← hmem, hx] at h
    exact Bool.noConfusion h
  | dot => exact hother (List.mem_append_left ['*'] hmem)
  | anything => exact hother (List.mem_cons_of_mem '\\' hmem)

theorem anchor_notMem_flatMap
    {items : List Item} (h : ∀ i ∈ items, i.IsPlain)
    {x : Char} (hx : x = '^' ∨ x = '$') :
    x ∉ items.flatMap Item.toPattern := by
  intro hmem
  obtain ⟨i, hi, hxi⟩ := List.mem_flatMap.1 hmem
  rcases hx with rfl | rfl
  · exact (h i hi).notMem_toPattern (by decide) (by decide) hxi
  · exact (h i hi).notMem_toPattern (by decide) (by decide) hxi

theorem Item.toPattern_append_inj
    {i j : Item} {s t : Text}
    (hi : i.IsPlain) (hj : j.IsPlain) (h : i.toPattern ++ s = j.toPattern ++ t) :
    i = j ∧ s = t := by
  have hescape : ¬(Item.plain '\\').IsPlain := by decide
  have hdot : ¬(Item.plain '.').IsPlain := by decide
  cases i with
  | plain c =>
    cases j with
    | plain d =>
      obtain ⟨rfl, hst⟩ := List.cons.inj h
      exact ⟨rfl, hst⟩
    | dot =>
      obtain ⟨rfl, -⟩ := List.cons.inj h
      exact absurd hi hescape
    | anything =>
      obtain ⟨rfl, -⟩ := List.cons.inj h
      exact absurd hi hdot
  | dot =>
    cases j with
    | plain d =>
      obtain ⟨rfl, -⟩ := List.cons.inj h
      exact absurd hj hescape
    | dot => exact ⟨rfl, List.append_cancel_left h⟩
    | anything => simp [Item.toPattern] at h
  | anything =>
    cases j with
    | plain d =>
      obtain ⟨rfl, -⟩ := List.cons.inj h
      exact absurd hj hdot
    | dot => simp [Item.toPattern] at h
    | anything => exact ⟨rfl, List.append_cancel_left h⟩

theorem endAnchor_ne_toPattern_append
    {i : Item} (h : i.IsPlain) (e : Bool) (s : Text) :
    (if e then ['$'] else []) ≠ i.toPattern ++ s := by
  intro heq
  cases i with
  | plain c =>
    cases e with
    | false => simp [Item.toPattern] at heq
    | true =>
      obtain ⟨rfl, -⟩ := List.cons.inj heq
      exact absurd h (by decide)
  | dot => cases e <;> simp [Item.toPattern] at heq
  | anything => cases e <;> simp [Item.toPattern] at heq

/-- The items of a text are determined by it, and so is whether an anchor
follows. -/
theorem flatMap_toPattern_inj
    {is js : List Item} {e e' : Bool}
    (his : ∀ i ∈ is, i.IsPlain) (hjs : ∀ j ∈ js, j.IsPlain)
    (h : is.flatMap Item.toPattern ++ (if e then ['$'] else []) =
      js.flatMap Item.toPattern ++ (if e' then ['$'] else [])) :
    is = js ∧ e = e' := by
  induction is generalizing js with
  | nil =>
    cases js with
    | nil =>
      refine ⟨rfl, ?_⟩
      cases e <;> cases e' <;> simp_all
    | cons j js =>
      rw [List.flatMap_cons, List.append_assoc] at h
      exact absurd h (endAnchor_ne_toPattern_append (hjs j List.mem_cons_self) e _)
  | cons i is ih =>
    cases js with
    | nil =>
      rw [List.flatMap_cons, List.append_assoc] at h
      exact absurd h.symm
        (endAnchor_ne_toPattern_append (his i List.mem_cons_self) e' _)
    | cons j js =>
      rw [List.flatMap_cons, List.flatMap_cons, List.append_assoc,
        List.append_assoc] at h
      obtain ⟨rfl, hrest⟩ := Item.toPattern_append_inj (his i List.mem_cons_self)
        (hjs j List.mem_cons_self) h
      obtain ⟨rfl, he⟩ := ih (fun k hk => his k (List.mem_cons_of_mem i hk))
        (fun k hk => hjs k (List.mem_cons_of_mem i hk)) hrest
      exact ⟨rfl, he⟩

namespace Form

/-- The text of a form after its start anchor. -/
def body (f : Form) : Text :=
  f.items.flatMap Item.toPattern ++ (if f.anchoredEnd then ['$'] else [])

theorem toPattern_eq_append_body (f : Form) :
    f.toPattern = (if f.anchoredStart then ['^'] else []) ++ f.body := by
  rw [toPattern, body, List.append_assoc]

theorem caret_mem_toPattern_iff
    {f : Form}
    (h : ∀ i ∈ f.items, i.IsPlain) :
    '^' ∈ f.toPattern ↔ f.anchoredStart = true := by
  have hbody : '^' ∉ f.body := by
    rw [body, List.mem_append, not_or]
    refine ⟨anchor_notMem_flatMap h (.inl rfl), ?_⟩
    cases f.anchoredEnd <;> decide
  rw [toPattern_eq_append_body, List.mem_append, or_iff_left hbody]
  cases f.anchoredStart <;> decide

/-- A pattern is the text of at most one form. -/
theorem toPattern_inj
    {f f' : Form}
    (hf : ∀ i ∈ f.items, i.IsPlain) (hf' : ∀ i ∈ f'.items, i.IsPlain)
    (h : f.toPattern = f'.toPattern) :
    f = f' := by
  have hstart : f.anchoredStart = f'.anchoredStart := by
    rw [Bool.eq_iff_iff, ← caret_mem_toPattern_iff hf, h, caret_mem_toPattern_iff hf']
  have hbody : f.body = f'.body := by
    rw [toPattern_eq_append_body, toPattern_eq_append_body, hstart] at h
    exact List.append_cancel_left h
  obtain ⟨hitems, hend⟩ := flatMap_toPattern_inj hf hf' hbody
  obtain ⟨start, items, e⟩ := f
  obtain ⟨start', items', e'⟩ := f'
  obtain rfl : start = start' := hstart
  obtain rfl : items = items' := hitems
  obtain rfl : e = e' := hend
  rfl

/-! ### The items for a whole text -/

/-- The items that match a text as a whole.  Without an anchor at the end, the last
one is a wildcard. -/
def wholeItems (f : Form) : List Item :=
  if f.anchoredEnd || f.items.getLast? == some .anything then
    f.items
  else
    f.items ++ [.anything]

theorem toGlob_eq_flatMap (f : Form) :
    f.toGlob = f.wholeItems.flatMap Item.toGlob := by
  rw [toGlob, wholeItems]
  split
  · rw [List.append_nil]
  · rw [List.flatMap_append]
    rfl

theorem isPlain_of_mem_wholeItems
    {f : Form}
    (h : ∀ i ∈ f.items, i.IsPlain) :
    ∀ i ∈ f.wholeItems, i.IsPlain := by
  intro i hi
  rw [wholeItems] at hi
  split at hi
  · exact h i hi
  · rcases List.mem_append.1 hi with hi | hi
    · exact h i hi
    · rw [List.mem_singleton.1 hi]
      trivial

end Form

end PatternText.Pattern.Glob
