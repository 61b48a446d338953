import PatternText.Text.Basic

/-!
# Order of texts

Texts are ordered by their UTF-8 encodings, byte by byte, a text coming before
its own continuations.  No language's collation is involved.  Sorting is
stable and runs in either direction.
-/

namespace PatternText.Text

def compareBytes : List UInt8 → List UInt8 → Ordering :=
  List.compareLex compare

/-- The order of texts by their code points. -/
def compareChars : Text → Text → Ordering :=
  List.compareLex fun a b => compare a.toNat b.toNat

inductive Direction where
  | ascending
  | descending
  deriving DecidableEq, Repr

instance : Inhabited Direction := ⟨.ascending⟩

namespace Direction

def compare (direction : Direction) (a b : Text) : Ordering :=
  match direction with
  | .ascending => compareBytes (bytes a) (bytes b)
  | .descending => compareBytes (bytes b) (bytes a)

theorem compare_descending (a b : Text) :
    Direction.descending.compare a b = Direction.ascending.compare b a := rfl

/-- Sorts texts in the given direction, keeping equal ones in order. -/
def sort (direction : Direction) (items : List Text) : List Text :=
  items.mergeSort fun a b => (direction.compare a b).isLE

end Direction
end PatternText.Text
