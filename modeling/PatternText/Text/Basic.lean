/-!
# Texts and positions

A text is a list of code points.  Every position in the library is an offset
into the UTF-8 encoding of a text, and a text can be cut at a position exactly
when the position is a boundary, which means that it is the size of some
initial part of the text.

`splitAt?_eq_some_iff` and `slice?_eq_some_iff` say when the two cutting
operations succeed and what they give.
-/

namespace PatternText

/-- A text is a list of code points. -/
abbrev Text := List Char

namespace Text

def bytes (s : Text) : List UInt8 :=
  s.flatMap String.utf8EncodeChar

def byteSize : Text → Nat
  | [] => 0
  | c :: r => c.utf8Size + byteSize r

@[simp] theorem byteSize_nil :
    byteSize [] = 0 := rfl

@[simp] theorem byteSize_cons (c : Char) (r : Text) :
    byteSize (c :: r) = c.utf8Size + byteSize r := rfl

@[simp] theorem byteSize_append (a b : Text) :
    byteSize (a ++ b) = byteSize a + byteSize b := by
  induction a with
  | nil => simp
  | cons c r ih => simp [ih, Nat.add_assoc]

theorem byteSize_le_append (a b : Text) :
    byteSize a ≤ byteSize (a ++ b) := by
  rw [byteSize_append]
  exact Nat.le_add_right _ _

@[simp] theorem bytes_nil :
    bytes [] = [] := rfl

theorem bytes_cons (c : Char) (r : Text) :
    bytes (c :: r) = String.utf8EncodeChar c ++ bytes r := by
  simp [bytes]

@[simp] theorem bytes_append (a b : Text) :
    bytes (a ++ b) = bytes a ++ bytes b := by
  simp [bytes]

@[simp] theorem length_bytes (s : Text) :
    (bytes s).length = byteSize s := by
  induction s with
  | nil => rfl
  | cons c r ih =>
    rw [bytes_cons, List.length_append, ih, String.length_utf8EncodeChar, byteSize_cons]

theorem byteSize_pos
    {s : Text}
    (hs : s ≠ []) :
    0 < byteSize s := by
  cases s with
  | nil => exact absurd rfl hs
  | cons c r =>
    have hc := Char.utf8Size_pos c
    simp only [byteSize_cons]
    omega

/-- The parts of a text before and after a position, if it is a boundary. -/
def splitAt? : Text → Nat → Option (Text × Text)
  | s, 0 => some ([], s)
  | [], _ + 1 => none
  | c :: r, n + 1 =>
    if c.utf8Size ≤ n + 1 then
      (splitAt? r (n + 1 - c.utf8Size)).map fun parts => (c :: parts.1, parts.2)
    else
      none

theorem splitAt?_eq_some_iff {s a b : Text} {n : Nat} :
    splitAt? s n = some (a, b) ↔ s = a ++ b ∧ byteSize a = n := by
  induction s generalizing a n with
  | nil =>
    cases n with
    | zero =>
      simp only [splitAt?, Option.some.injEq, Prod.mk.injEq]
      constructor
      · rintro ⟨rfl, rfl⟩
        simp
      · rintro ⟨h, -⟩
        obtain ⟨ha, hb⟩ := List.append_eq_nil_iff.1 h.symm
        exact ⟨ha.symm, hb.symm⟩
    | succ n =>
      simp only [splitAt?, reduceCtorEq, false_iff]
      rintro ⟨h, hn⟩
      obtain ⟨rfl, -⟩ := List.append_eq_nil_iff.1 h.symm
      simp at hn
  | cons c r ih =>
    cases n with
    | zero =>
      simp only [splitAt?, Option.some.injEq, Prod.mk.injEq]
      constructor
      · rintro ⟨rfl, rfl⟩
        simp
      · rintro ⟨h, hn⟩
        have ha : a = [] := by
          refine Classical.byContradiction fun hne => ?_
          have hpos := byteSize_pos hne
          omega
        subst ha
        exact ⟨rfl, by simpa using h⟩
    | succ n =>
      have hc := Char.utf8Size_pos c
      unfold splitAt?
      split
      · rename_i hle
        rw [Option.map_eq_some_iff]
        constructor
        · rintro ⟨⟨x, y⟩, hxy, heq⟩
          obtain ⟨rfl, rfl⟩ := Prod.mk.inj heq
          obtain ⟨rfl, hx⟩ := ih.1 hxy
          refine ⟨rfl, ?_⟩
          simp only [byteSize_cons]
          omega
        · rintro ⟨h, hn⟩
          cases a with
          | nil => simp at hn
          | cons d x =>
            simp only [List.cons_append, List.cons.injEq] at h
            obtain ⟨rfl, rfl⟩ := h
            simp only [byteSize_cons] at hn
            exact ⟨(x, b), ih.2 ⟨rfl, by omega⟩, rfl⟩
      · rename_i hlt
        simp only [reduceCtorEq, false_iff]
        rintro ⟨h, hn⟩
        cases a with
        | nil => simp at hn
        | cons d x =>
          simp only [List.cons_append, List.cons.injEq] at h
          obtain ⟨rfl, -⟩ := h
          simp only [byteSize_cons] at hn
          omega

/-- The part of a text between two positions, if they are boundaries in order. -/
def slice? (s : Text) (start stop : Nat) : Option Text :=
  if start ≤ stop then
    (splitAt? s start).bind fun parts =>
      (splitAt? parts.2 (stop - start)).map Prod.fst
  else
    none

/-- A slice is exactly a part of the text that starts and stops where asked. -/
theorem slice?_eq_some_iff {s t : Text} {start stop : Nat} :
    slice? s start stop = some t ↔
      ∃ a b, s = a ++ t ++ b ∧ byteSize a = start ∧
        byteSize a + byteSize t = stop := by
  unfold slice?
  constructor
  · intro h
    split at h
    · rename_i hle
      obtain ⟨⟨a, rest⟩, hfirst, hrest⟩ := Option.bind_eq_some_iff.1 h
      obtain ⟨⟨u, b⟩, hsecond, rfl⟩ := Option.map_eq_some_iff.1 hrest
      obtain ⟨rfl, ha⟩ := splitAt?_eq_some_iff.1 hfirst
      obtain ⟨hub, hu⟩ := splitAt?_eq_some_iff.1 hsecond
      have htail : rest = u ++ b := hub
      have hsize : byteSize a + byteSize u = stop := by omega
      exact ⟨a, b, by rw [htail, List.append_assoc], ha, hsize⟩
    · simp at h
  · rintro ⟨a, b, rfl, ha, ht⟩
    have hle : start ≤ stop := by omega
    have hfirst : splitAt? (a ++ t ++ b) start = some (a, t ++ b) :=
      splitAt?_eq_some_iff.2 ⟨List.append_assoc .., ha⟩
    have hsecond : splitAt? (t ++ b) (stop - start) = some (t, b) :=
      splitAt?_eq_some_iff.2 ⟨rfl, by omega⟩
    rw [if_pos hle, hfirst, Option.bind_some, hsecond, Option.map_some]

/-- The part of a text between two positions; empty if it cannot be cut there. -/
def slice (s : Text) (start stop : Nat) : Text :=
  (slice? s start stop).getD []

theorem slice_append (a t b : Text) :
    slice (a ++ t ++ b) (byteSize a) (byteSize a + byteSize t) = t := by
  have h : slice? (a ++ t ++ b) (byteSize a) (byteSize a + byteSize t) = some t :=
    slice?_eq_some_iff.2 ⟨a, b, rfl, rfl, rfl⟩
  rw [slice, h, Option.getD_some]

/-- The part of a text from a position on. -/
def sliceFrom (s : Text) (start : Nat) : Text :=
  slice s start (byteSize s)

/-- The characters of a text that starts at position `pos`, each with its own
position. -/
def located : Nat → Text → List (Nat × Char)
  | _, [] => []
  | pos, c :: r => (pos, c) :: located (pos + c.utf8Size) r

theorem mem_located_iff
    {s : Text} {pos : Nat} {place : Nat × Char} :
    place ∈ located pos s ↔ ∃ a r, s = a ++ place.2 :: r ∧ place.1 = pos + byteSize a := by
  induction s generalizing pos with
  | nil => simp [located]
  | cons c s ih =>
    rw [located, List.mem_cons, ih]
    constructor
    · rintro (rfl | ⟨a, r, rfl, hpos⟩)
      · exact ⟨[], s, rfl, rfl⟩
      · exact ⟨c :: a, r, rfl, by rw [hpos, byteSize_cons, Nat.add_assoc]⟩
    · rintro ⟨a, r, hs, hpos⟩
      cases a with
      | nil =>
        left
        exact Prod.ext hpos (List.cons.inj hs).1.symm
      | cons c' a =>
        right
        obtain ⟨rfl, hrest⟩ := List.cons.inj hs
        exact ⟨a, r, hrest, by rw [hpos, byteSize_cons, Nat.add_assoc]⟩

end Text

end PatternText

/-!
## Searching

Occurrences are found from left to right and never overlap: after each one the
search resumes just past its end.  Positions are byte offsets.

`mem_occurrencesFrom` says that every position found is the place of an
occurrence, so both of its ends are boundaries of the searched text.
-/

namespace PatternText.Text

/-- The positions where `d` occurs in a text that starts at position `pos`, the
first `skip` characters being left out as the end of an earlier occurrence. -/
def occurrencesFrom (d : Text) : (skip pos : Nat) → Text → List Nat
  | _, _, [] => []
  | skip + 1, pos, c :: r => occurrencesFrom d skip (pos + c.utf8Size) r
  | 0, pos, c :: r =>
    if d.isPrefixOf (c :: r) then
      pos :: occurrencesFrom d (d.length - 1) (pos + c.utf8Size) r
    else
      occurrencesFrom d 0 (pos + c.utf8Size) r

def occurrences (d s : Text) : List Nat :=
  occurrencesFrom d 0 0 s

/-- The positions of the leftmost non-overlapping occurrences of `d` at or
after a position. -/
def occurrencesAfter (d s : Text) (start : Nat) : List Nat :=
  occurrencesFrom d 0 start (sliceFrom s start)

/-- The first position at or after a given one where `d` occurs. -/
def find? (d s : Text) (start : Nat) : Option Nat :=
  (occurrencesAfter d s start).head?

theorem mem_occurrencesFrom
    {d s : Text} {skip pos p : Nat}
    (hp : p ∈ occurrencesFrom d skip pos s) :
    ∃ a b, s = a ++ d ++ b ∧ p = pos + byteSize a := by
  induction s generalizing skip pos with
  | nil => simp [occurrencesFrom] at hp
  | cons c r ih =>
    have step {k : Nat} (h : p ∈ occurrencesFrom d k (pos + c.utf8Size) r) :
        ∃ a b, c :: r = a ++ d ++ b ∧ p = pos + byteSize a := by
      obtain ⟨a, b, rfl, rfl⟩ := ih h
      exact ⟨c :: a, b, rfl, by simp [Nat.add_assoc]⟩
    cases skip with
    | succ skip =>
      rw [occurrencesFrom] at hp
      exact step hp
    | zero =>
      rw [occurrencesFrom] at hp
      split at hp
      · rename_i hfront
        rcases List.mem_cons.1 hp with rfl | htail
        · obtain ⟨b, hb⟩ := List.isPrefixOf_iff_prefix.1 hfront
          exact ⟨[], b, by simpa using hb.symm, by simp⟩
        · exact step htail
      · exact step hp

theorem le_of_mem_occurrencesAfter
    {d s : Text} {start p : Nat}
    (hp : p ∈ occurrencesAfter d s start) :
    start ≤ p := by
  obtain ⟨a, b, -, rfl⟩ := mem_occurrencesFrom hp
  omega

/-!
## Editing

A pass over a text is a list of edits against what it reads, in order of
position.  Everything between two edits is kept.  `applyAll?` cuts the text at
the ends of every edit and fails if one of them is not a boundary or if the
edits are out of order, so a pass is safe exactly when `applyAll?` succeeds on
its edits.
-/

/-- The replacement of the part of a text between two positions. -/
structure Edit where
  start : Nat
  stop : Nat
  text : Text
  deriving DecidableEq, Repr

namespace Edit

def insertion (pos : Nat) (text : Text) : Edit :=
  ⟨pos, pos, text⟩

def deletion (start stop : Nat) : Edit :=
  ⟨start, stop, []⟩

/-- The same edit in a text with `n` more bytes in front. -/
def shift (n : Nat) (e : Edit) : Edit :=
  ⟨n + e.start, n + e.stop, e.text⟩

/-- The edited text from position `pos` on, if every cut is possible. -/
def applyFrom? (s : Text) : (pos : Nat) → List Edit → Option Text
  | pos, [] => slice? s pos (byteSize s)
  | pos, e :: es => do
    let kept ← slice? s pos e.start
    let _ ← slice? s e.start e.stop
    let rest ← applyFrom? s e.stop es
    return kept ++ e.text ++ rest

def applyAll? (s : Text) (es : List Edit) : Option Text :=
  applyFrom? s 0 es

/-- The edited text; the text itself if the edits do not fit it. -/
def applyAll (s : Text) (es : List Edit) : Text :=
  (applyAll? s es).getD s

@[simp] theorem applyAll_nil (s : Text) :
    applyAll s [] = s := by
  have h : slice? s 0 (byteSize s) = some s :=
    slice?_eq_some_iff.2 ⟨[], [], by simp, rfl, by simp⟩
  simp [applyAll, applyAll?, applyFrom?, h]

end Edit

end PatternText.Text
