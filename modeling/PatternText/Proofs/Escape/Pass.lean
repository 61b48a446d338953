import PatternText.Proofs.Escape.State
import PatternText.Proofs.Token.Pieces

/-!
# Passes over the pieces of a text

A pass that protects or reveals a delimiter changes its occurrences only, so it
puts the pieces of the text together again with something else between them.
What that is depends on whether the occurrence is escaped, which `weave` keeps
track of while it goes through the pieces.

`protect_eq_weave`, `double_eq_weave` and `reveal_eq_weave` describe the three
passes in this way, without positions and edits.
-/

namespace PatternText.Escape

open Text (Edit byteSize occurrencesFrom)
open Token (pieces)

/-- The pieces of a text joined again, `mark` giving what stands in place of a
delimiter that is or is not escaped, and `armed` telling whether the start of the
first piece is escaped. -/
def weave (d : Text) (mark : Bool → Text) : (armed : Bool) → List Text → Text
  | _, [] => []
  | _, [p] => p
  | armed, p :: q :: rest =>
    p ++ mark (armedOver armed p) ++
      weave d mark (armedOver armed (p ++ d)) (q :: rest)

@[simp] theorem weave_singleton
    (d : Text) (mark : Bool → Text) (armed : Bool) (p : Text) :
    weave d mark armed [p] = p := rfl

theorem weave_cons
    (d : Text) (mark : Bool → Text) (armed : Bool) (p : Text) {rest : List Text}
    (hrest : rest ≠ []) :
    weave d mark armed (p :: rest) =
      p ++ mark (armedOver armed p) ++
        weave d mark (armedOver armed (p ++ d)) rest := by
  obtain ⟨q, rest, rfl⟩ := List.exists_cons_of_ne_nil hrest
  rfl

theorem weave_modifyHead
    (d : Text) (mark : Bool → Text) (armed : Bool) (t : Text) {parts : List Text}
    (hparts : parts ≠ []) :
    weave d mark armed (parts.modifyHead (t ++ ·)) =
      t ++ weave d mark (armedOver armed t) parts := by
  obtain ⟨p, rest, rfl⟩ := List.exists_cons_of_ne_nil hparts
  cases rest with
  | nil => simp
  | cons q rest => simp [weave]

/-! ## The pieces of a text along a search -/

theorem weave_pieces_nil
    {d : Text}
    (hd : d ≠ []) (mark : Bool → Text) (armed : Bool) :
    weave d mark armed (pieces d []) = [] := by
  rw [Token.pieces_nil hd, weave_singleton]

theorem weave_pieces_found
    {d : Text}
    (hd : d ≠ []) (mark : Bool → Text) (armed : Bool) (r : Text) :
    weave d mark armed (pieces d (d ++ r)) =
      mark armed ++ weave d mark (armedOver armed d) (pieces d r) := by
  rw [Token.pieces_found hd, weave_cons d mark armed [] (Token.pieces_ne_nil d r)]
  rfl

theorem weave_pieces_step
    {d r : Text} {c : Char}
    (hd : d ≠ []) (mark : Bool → Text) (armed : Bool) (h : ¬d <+: c :: r) :
    weave d mark armed (pieces d (c :: r)) =
      c :: weave d mark (armedBy armed c) (pieces d r) := by
  have hfront := weave_modifyHead d mark armed [c] (Token.pieces_ne_nil d r)
  simp only [List.singleton_append] at hfront
  rw [Token.pieces_step hd h, hfront, armedOver_cons, armedOver_nil]

/-! ## Edits at occurrences -/

/-- Edits that replace the first part `x` of occurrences of `x ++ y` weave the
text anew, if the choice of the occurrences depends on their state only. -/
theorem applyFrom?_occurrencesFrom
    {x y s : Text} {live : Nat → Bool} {ok : Bool → Bool}
    (hd : x ++ y ≠ []) (text : Text)
    (hlive : ∀ a b, a ++ b = s → live (byteSize a) = ok (armedOver false a))
    (a k r : Text) (hs : a ++ k ++ r = s) :
    Edit.applyFrom? s (byteSize a)
        (((occurrencesFrom (x ++ y) 0 (byteSize (a ++ k)) r).filter live).map
          fun p => ⟨p, p + byteSize x, text⟩) =
      some (k ++ weave (x ++ y) (fun armed => (if ok armed then text else x) ++ y)
        (armedOver false (a ++ k)) (pieces (x ++ y) r)) := by
  -- What was passed since the last edit is in `k` and grows along the search.
  induction r using Text.search_induction hd generalizing a k with
  | ended =>
    rw [weave_pieces_nil hd, ← hs]
    simpa [occurrencesFrom] using Edit.applyFrom?_nil a k
  | found r ih =>
    rw [Text.occurrencesFrom_found hd, weave_pieces_found hd, List.filter_cons,
      hlive (a ++ k) ((x ++ y) ++ r) hs]
    by_cases hok : ok (armedOver false (a ++ k))
    · have hs' : a ++ k ++ x ++ (y ++ r) = s := by rw [← hs]; simp
      have hrest := ih (a ++ k ++ x) y (by rw [← hs]; simp)
      have hedit := Edit.applyFrom?_cons a k x (y ++ r) text
        (((occurrencesFrom (x ++ y) 0 (byteSize (a ++ k ++ x ++ y)) r).filter live).map
          fun p => ⟨p, p + byteSize x, text⟩)
      rw [hs', hrest, Option.map_some] at hedit
      rw [if_pos hok, if_pos hok]
      simpa [Nat.add_assoc] using hedit
    · have hrest := ih a (k ++ (x ++ y)) (by rw [← hs]; simp)
      rw [if_neg hok, if_neg hok]
      simpa [Nat.add_assoc] using hrest
  | step c r h ih =>
    have hrest := ih a (k ++ [c]) (by rw [← hs]; simp)
    rw [Text.occurrencesFrom_step h, weave_pieces_step hd _ _ h]
    simpa [Nat.add_assoc] using hrest

theorem applyAll?_occurrences
    {x y s : Text}
    (hd : x ++ y ≠ []) (text : Text) (live : Nat → Bool) (ok : Bool → Bool)
    (hlive : ∀ a b, a ++ b = s → live (byteSize a) = ok (armedOver false a)) :
    Edit.applyAll? s
        (((Text.occurrences (x ++ y) s).filter live).map
          fun p => ⟨p, p + byteSize x, text⟩) =
      some (weave (x ++ y) (fun armed => (if ok armed then text else x) ++ y)
        false (pieces (x ++ y) s)) := by
  simpa [Edit.applyAll?, Text.occurrences] using
    applyFrom?_occurrencesFrom hd text hlive [] [] s rfl

theorem not_isEscapedAt_byteSize
    {s : Text}
    (a b : Text) (hs : a ++ b = s) :
    (!isEscapedAt s (byteSize a)) = !armedOver false a := by
  rw [isEscapedAt_of_append hs]

/-! ## The three passes -/

/-- What stands for an occurrence of a delimiter once it is protected. -/
def protectMark (d : Text) (armed : Bool) : Text :=
  if armed then d else escapeChar :: d

/-- What stands for an escape before a delimiter, and for the delimiter, once it
is revealed. -/
def revealMark (d : Text) (armed : Bool) : Text :=
  if armed then escapeChar :: d else d

/-- Protecting cuts at boundaries only and writes an escape before every live
occurrence. -/
theorem applyAll?_protectEdits
    {d : Text}
    (hd : d ≠ []) (s : Text) :
    Edit.applyAll? s (protectEdits d s) =
      some (weave d (protectMark d) false (pieces d s)) := by
  have hmark : protectMark d =
      fun armed => (if !armed then escapeText else []) ++ d := by
    funext armed
    cases armed <;> rfl
  have hedits := applyAll?_occurrences (x := []) (y := d) hd escapeText
    (fun p => !isEscapedAt s p) (fun armed => !armed) not_isEscapedAt_byteSize
  rw [hmark]
  simpa [protectEdits, hd, liveOccurrences, Edit.insertion] using hedits

theorem applyAll?_doubleEdits (s : Text) :
    Edit.applyAll? s (doubleEdits s) =
      some (weave escapeText (fun _ => escapeText ++ escapeText) false
        (pieces escapeText s)) := by
  have hedits := applyAll?_occurrences (x := []) (y := escapeText) (s := s)
    (List.cons_ne_nil escapeChar []) escapeText (fun _ => true) (fun _ => true)
    fun _ _ _ => rfl
  rw [List.filter_eq_self.2 fun _ _ => rfl] at hedits
  simpa [doubleEdits, Edit.insertion] using hedits

theorem applyAll?_revealEdits
    {d : Text}
    (hd : d ≠ []) (s : Text) :
    Edit.applyAll? s (revealEdits d s) =
      some (weave (escapeChar :: d) (revealMark d) false
        (pieces (escapeChar :: d) s)) := by
  have hmark : revealMark d =
      fun armed => (if !armed then [] else escapeText) ++ d := by
    funext armed
    cases armed <;> rfl
  have hedits := applyAll?_occurrences (x := escapeText) (y := d)
    (List.cons_ne_nil escapeChar d) [] (fun p => !isEscapedAt s p)
    (fun armed => !armed) not_isEscapedAt_byteSize
  rw [hmark]
  simpa [revealEdits, hd, liveOccurrences, Edit.deletion, escapeText] using hedits

theorem protect_eq_weave
    {d : Text}
    (hd : d ≠ []) (s : Text) :
    protect d s = weave d (protectMark d) false (pieces d s) := by
  rw [protect, Edit.applyAll, applyAll?_protectEdits hd, Option.getD_some]

theorem double_eq_weave (s : Text) :
    double s =
      weave escapeText (fun _ => escapeText ++ escapeText) false
        (pieces escapeText s) := by
  rw [double, Edit.applyAll, applyAll?_doubleEdits, Option.getD_some]

theorem reveal_eq_weave
    {d : Text}
    (hd : d ≠ []) (s : Text) :
    reveal d s =
      weave (escapeChar :: d) (revealMark d) false (pieces (escapeChar :: d) s) := by
  rw [reveal, Edit.applyAll, applyAll?_revealEdits hd, Option.getD_some]

end PatternText.Escape
