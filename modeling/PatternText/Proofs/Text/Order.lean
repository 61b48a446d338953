import PatternText.Text.Order

/-!
# The order of texts and of their encodings

Comparing two texts byte by byte comes to comparing their code points,
`compareBytes_bytes`.  Of two characters, the one with the smaller code point has the
smaller byte at the first place where the encodings differ, and neither encoding is over
before that place, so nothing that follows them matters.

Only identical texts compare as equal.  So a list of texts can be put in order in one way
only, and sorting finds it, whatever the order of the list was.
-/

namespace PatternText.Text

/-! ## Encodings -/

/-- At the first place where two byte sequences differ, each has a byte, and the first one
has the smaller byte. -/
inductive Precedes : List UInt8 → List UInt8 → Prop where
  | head {b b' : UInt8} (u v : List UInt8) : b < b' → Precedes (b :: u) (b' :: v)
  | tail (b : UInt8) {u v : List UInt8} : Precedes u v → Precedes (b :: u) (b :: v)

/-- Whatever follows two byte sequences, the first place where they differ decides. -/
theorem Precedes.compareBytes_append
    {x y : List UInt8}
    (h : Precedes x y) (u v : List UInt8) :
    compareBytes (x ++ u) (y ++ v) = .lt := by
  induction h with
  | head x y hlt =>
    rw [List.cons_append, List.cons_append, compareBytes, List.compareLex_cons_cons,
      Std.compare_eq_lt.2 hlt]
    rfl
  | tail b h ih =>
    have hb : compare b b = .eq := Std.ReflCmp.compare_self
    rw [List.cons_append, List.cons_append, compareBytes, List.compareLex_cons_cons, hb]
    exact ih

theorem precedes_cons_ofNat
    {m n : Nat} {u v : List UInt8}
    (hle : m ≤ n) (hn : n < 256) (h : m = n → Precedes u v) :
    Precedes (UInt8.ofNat m :: u) (UInt8.ofNat n :: v) := by
  rcases Nat.eq_or_lt_of_le hle with rfl | hlt
  · exact .tail _ (h rfl)
  · apply Precedes.head
    rw [UInt8.lt_iff_toNat_lt, UInt8.toNat_ofNat_of_lt' hn,
      UInt8.toNat_ofNat_of_lt' (Nat.lt_trans hlt hn)]
    exact hlt

/-- The encoding of a smaller code point precedes that of a greater one. -/
theorem precedes_utf8EncodeChar
    {c d : Char}
    (h : c.toNat < d.toNat) :
    Precedes (String.utf8EncodeChar c) (String.utf8EncodeChar d) := by
  have hmax : d.val.toNat < 0x110000 := by
    rcases d.valid with hlow | hhigh
    · omega
    · exact hhigh.2
  change c.val.toNat < d.val.toNat at h
  simp only [String.utf8EncodeChar]
  generalize c.val.toNat = m at h
  generalize d.val.toNat = n at h hmax
  -- The first byte grows with the length of the encoding, and within one length the bytes
  -- are digits, the highest first.
  repeat' split
  all_goals repeat' refine precedes_cons_ofNat (by omega) (by omega) fun _ => ?_
  -- Where an encoding is over, all digits are equal, although the code points differ.
  all_goals omega

/-! ## Texts -/

instance : Std.TransCmp compareBytes :=
  inferInstanceAs (Std.TransCmp (List.compareLex compare))

instance : Std.TransCmp compareChars :=
  inferInstanceAs (Std.TransCmp (List.compareLex (compareOn Char.toNat)))

instance : Std.LawfulEqCmp (compareOn Char.toNat) where
  compare_self := Nat.compare_eq_eq.2 rfl
  eq_of_compare h := Char.toNat_inj.1 (Nat.compare_eq_eq.1 h)

instance : Std.LawfulEqCmp compareChars :=
  inferInstanceAs (Std.LawfulEqCmp (List.compareLex (compareOn Char.toNat)))

theorem compareBytes_append_left (x u v : List UInt8) :
    compareBytes (x ++ u) (x ++ v) = compareBytes u v := by
  induction x with
  | nil => rfl
  | cons b x ih =>
    have hb : compare b b = .eq := Std.ReflCmp.compare_self
    rw [List.cons_append, List.cons_append, compareBytes, List.compareLex_cons_cons, hb]
    exact ih

theorem compareBytes_bytes_of_lt
    {a b : Text}
    (h : compareChars a b = .lt) :
    compareBytes (bytes a) (bytes b) = .lt := by
  induction a generalizing b with
  | nil =>
    cases b with
    | nil => exact absurd h (by decide)
    | cons d b =>
      obtain ⟨byte, rest, hd⟩ :=
        List.exists_cons_of_ne_nil (String.utf8EncodeChar_ne_nil (c := d))
      rw [bytes_cons, hd]
      rfl
  | cons c a ih =>
    cases b with
    | nil =>
      have hgt : compareChars (c :: a) [] = .gt := rfl
      rw [hgt] at h
      exact Ordering.noConfusion h
    | cons d b =>
      rw [compareChars, List.compareLex_cons_cons, Ordering.then_eq_lt,
        Nat.compare_eq_lt, Nat.compare_eq_eq] at h
      rw [bytes_cons, bytes_cons]
      rcases h with hlt | ⟨heq, hrest⟩
      · exact (precedes_utf8EncodeChar hlt).compareBytes_append (bytes a) (bytes b)
      · rw [Char.toNat_inj.1 heq, compareBytes_append_left]
        exact ih hrest

/-- The order of the encodings of texts is the order of the texts by their code points. -/
theorem compareBytes_bytes (a b : Text) :
    compareBytes (bytes a) (bytes b) = compareChars a b := by
  cases h : compareChars a b with
  | lt => exact compareBytes_bytes_of_lt h
  | eq =>
    obtain rfl := Std.LawfulEqCmp.eq_of_compare h
    exact Std.ReflCmp.compare_self
  | gt =>
    rw [Std.OrientedCmp.gt_iff_lt] at h ⊢
    exact compareBytes_bytes_of_lt h

namespace Direction

/-! ## Directions -/

theorem compare_ascending (a b : Text) :
    ascending.compare a b = compareChars a b :=
  compareBytes_bytes a b

theorem compare_descending_eq (a b : Text) :
    descending.compare a b = compareChars b a := by
  rw [compare_descending, compare_ascending]

instance (direction : Direction) : Std.TransCmp direction.compare where
  eq_swap := by
    intro a b
    cases direction with
    | ascending =>
      rw [compare_ascending, compare_ascending]
      exact Std.OrientedCmp.eq_swap
    | descending =>
      rw [compare_descending_eq, compare_descending_eq]
      exact Std.OrientedCmp.eq_swap
  isLE_trans := by
    intro a b c hab hbc
    cases direction with
    | ascending =>
      rw [compare_ascending] at hab hbc ⊢
      exact Std.TransCmp.isLE_trans hab hbc
    | descending =>
      rw [compare_descending_eq] at hab hbc ⊢
      exact Std.TransCmp.isLE_trans hbc hab

theorem eq_of_isLE_compare
    {direction : Direction} {a b : Text}
    (hab : (direction.compare a b).isLE = true) (hba : (direction.compare b a).isLE = true) :
    a = b := by
  have heq : direction.compare a b = .eq := Std.OrientedCmp.isLE_antisymm hab hba
  cases direction with
  | ascending =>
    rw [compare_ascending] at heq
    exact Std.LawfulEqCmp.eq_of_compare heq
  | descending =>
    rw [compare_descending_eq] at heq
    exact (Std.LawfulEqCmp.eq_of_compare heq).symm

/-! ## Sorting -/

variable {direction : Direction} {items : List Text}

theorem sort_perm :
    (direction.sort items).Perm items :=
  List.mergeSort_perm items _

theorem pairwise_sort :
    (direction.sort items).Pairwise fun a b => (direction.compare a b).isLE = true := by
  apply List.pairwise_mergeSort
  · intro a b c hab hbc
    exact Std.TransCmp.isLE_trans hab hbc
  · intro a b
    have hswap : direction.compare b a = (direction.compare a b).swap :=
      Std.OrientedCmp.eq_swap
    rw [hswap]
    cases direction.compare a b <;> rfl

/-- The texts of a list can be put in order in one way only. -/
theorem sort_eq_iff {sorted : List Text} :
    direction.sort items = sorted ↔
      sorted.Perm items ∧
        sorted.Pairwise fun a b => (direction.compare a b).isLE = true := by
  constructor
  · rintro rfl
    exact ⟨sort_perm, pairwise_sort⟩
  · rintro ⟨hperm, hsorted⟩
    apply List.Perm.eq_of_pairwise _ pairwise_sort hsorted (sort_perm.trans hperm.symm)
    intro a b _ _ hab hba
    exact eq_of_isLE_compare hab hba

/-- The order of texts is the order by their code points, and the descending order is its
converse.  Sorting gives the one rearrangement of a list that is in order, so that lists
are sorted alike exactly if each is a rearrangement of the other, and sorting in the
descending order reverses what sorting in the ascending one gives. -/
theorem compare_sort_canonical :
    (∀ a b, ascending.compare a b = compareChars a b ∧
      descending.compare a b = (compareChars a b).swap) ∧
    (∀ (direction : Direction) items sorted, direction.sort items = sorted ↔
      sorted.Perm items ∧
        sorted.Pairwise fun a b => (direction.compare a b).isLE = true) ∧
    (∀ (direction : Direction) items items',
      direction.sort items = direction.sort items' ↔ items.Perm items') ∧
    (∀ items, descending.sort items = (ascending.sort items).reverse) := by
  refine ⟨?_, ?_, ?_, ?_⟩
  · intro a b
    refine ⟨compare_ascending a b, ?_⟩
    rw [compare_descending_eq]
    exact Std.OrientedCmp.eq_swap
  · intro direction items sorted
    exact sort_eq_iff
  · intro direction items items'
    rw [sort_eq_iff]
    constructor
    · rintro ⟨hperm, -⟩
      exact hperm.symm.trans sort_perm
    · intro hperm
      exact ⟨sort_perm.trans hperm.symm, pairwise_sort⟩
  · intro items
    have hsorted : (ascending.sort items).Pairwise fun a b =>
        (descending.compare b a).isLE = true := by
      simpa only [compare_descending] using pairwise_sort
    rw [sort_eq_iff, List.pairwise_reverse]
    exact ⟨(List.reverse_perm _).trans sort_perm, hsorted⟩

/-- Code points decide, not the number of bytes or of characters, and a text comes before
its own continuations. -/
example :
    ascending.sort ["😀".toList, "é".toList, "z!".toList, [], "z".toList] =
      [[], "z".toList, "z!".toList, "é".toList, "😀".toList] :=
  sort_eq_iff.2 ⟨by decide, by decide⟩

end Direction

end PatternText.Text
