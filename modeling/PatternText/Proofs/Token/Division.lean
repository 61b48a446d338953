import PatternText.Proofs.Token.Remaining

/-!
# Divisions of a text

A delimiter divides a text at its leftmost occurrence, and then divides what follows
that occurrence in the same way.  `Division` says which parts this gives, without a
search; a delimiter may overlap itself, so the occurrences in a text are not always
the places where it is divided.

The places themselves are the cuts: `cuts` recovers their positions from the parts.
-/

namespace PatternText.Token

open Text (byteSize occurrences occurrencesFrom)
open Escape (armedOver isEscapedAt)

/-- No occurrence of a delimiter in `a ++ d ++ b` starts before the one after `a`. -/
def IsLeftmost (d a b : Text) : Prop :=
  ∀ x y, a ++ d ++ b = x ++ d ++ y → a.length ≤ x.length

/-- The parts into which the leftmost occurrences of a delimiter divide a text. -/
inductive Division (d : Text) : Text → List Text → Prop where
  | whole (s : Text) :
      ¬d <:+: s → Division d s [s]
  | cut (a b : Text) (rest : List Text) :
      IsLeftmost d a b → Division d b rest →
        Division d (a ++ d ++ b) (a :: rest)

/-- The positions of the delimiters between parts, the first of which starts at
position `pos`. -/
def cutsFrom (d : Text) : (pos : Nat) → List Text → List Nat
  | _, [] => []
  | _, [_] => []
  | pos, p :: q :: rest =>
    (pos + Text.byteSize p) ::
      cutsFrom d (pos + Text.byteSize p + Text.byteSize d) (q :: rest)

def cuts (d : Text) (parts : List Text) : List Nat :=
  cutsFrom d 0 parts

@[simp] theorem cutsFrom_singleton
    (d : Text) (pos : Nat) (p : Text) :
    cutsFrom d pos [p] = [] := rfl

theorem cutsFrom_cons
    (d : Text) (pos : Nat) (p : Text) {rest : List Text}
    (hrest : rest ≠ []) :
    cutsFrom d pos (p :: rest) =
      (pos + Text.byteSize p) ::
        cutsFrom d (pos + Text.byteSize p + Text.byteSize d) rest := by
  obtain ⟨q, rest, rfl⟩ := List.exists_cons_of_ne_nil hrest
  rfl

theorem cutsFrom_modifyHead
    (d t : Text) (pos : Nat) (parts : List Text) :
    cutsFrom d pos (parts.modifyHead (t ++ ·)) =
      cutsFrom d (pos + Text.byteSize t) parts := by
  cases parts with
  | nil => rfl
  | cons p rest =>
    by_cases hrest : rest = []
    · simp [hrest]
    · have hsize : pos + Text.byteSize (t ++ p) =
          pos + Text.byteSize t + Text.byteSize p := by
        rw [Text.byteSize_append, Nat.add_assoc]
      rw [List.modifyHead_cons, cutsFrom_cons d pos (t ++ p) hrest,
        cutsFrom_cons d (pos + Text.byteSize t) p hrest, hsize]

/-!
## Splitting as a division

The pieces of a text are the parts into which the leftmost occurrences of the
delimiter divide it, and the cuts between them are the occurrences that a search
finds.  If escapes count, the tokens of an untrimmed target are groups of pieces, and
a cut remains exactly where the occurrence is live.
-/

variable {d s : Text}

/-! ### The first cut -/

theorem not_infix_of_cut? (hd : d ≠ []) (h : cut? d s = none) :
    ¬d <:+: s := by
  induction s using Text.search_induction hd with
  | ended =>
    rw [List.infix_nil]
    exact hd
  | found r ih =>
    rw [cut?_found hd] at h
    exact absurd h (Option.some_ne_none _)
  | step c r hfront ih =>
    rw [cut?_step hfront, Option.map_eq_none_iff] at h
    rw [List.infix_cons_iff, not_or]
    exact ⟨hfront, ih h⟩

theorem length_le_of_cut?
    {a b x y : Text}
    (hd : d ≠ []) (h : cut? d s = some (a, b)) (hs : s = x ++ d ++ y) :
    a.length ≤ x.length := by
  induction s using Text.search_induction hd generalizing a x with
  | ended =>
    have hnil : x ++ d ++ y ≠ [] := by simp [hd]
    exact absurd hs.symm hnil
  | found r ih =>
    rw [cut?_found hd] at h
    obtain ⟨rfl, -⟩ := Prod.mk.inj (Option.some.inj h)
    exact Nat.zero_le _
  | step c r hfront ih =>
    rw [cut?_step hfront, Option.map_eq_some_iff] at h
    obtain ⟨⟨a', b'⟩, hcut, heq⟩ := h
    obtain ⟨rfl, rfl⟩ := Prod.mk.inj heq
    cases x with
    | nil => exact absurd ⟨y, hs.symm⟩ hfront
    | cons z x =>
      have hr : r = x ++ d ++ y := (List.cons.inj hs).2
      have hle := ih hcut hr
      simp only [List.length_cons]
      omega

theorem isLeftmost_of_cut?
    {a b : Text}
    (hd : d ≠ []) (h : cut? d s = some (a, b)) :
    IsLeftmost d a b := by
  intro x y heq
  exact length_le_of_cut? hd h ((eq_append_of_cut? h).trans heq)

/-- There is only one leftmost occurrence, so the first cut is made there. -/
theorem IsLeftmost.cut?_eq
    {a b : Text}
    (hd : d ≠ []) (h : IsLeftmost d a b) :
    cut? d (a ++ d ++ b) = some (a, b) := by
  cases hcut : cut? d (a ++ d ++ b) with
  | none => exact absurd ⟨a, b, rfl⟩ (not_infix_of_cut? hd hcut)
  | some parts =>
    obtain ⟨x, y⟩ := parts
    have heq : a ++ (d ++ b) = x ++ (d ++ y) := by
      simpa using eq_append_of_cut? hcut
    have hle : a.length ≤ x.length := h x y (eq_append_of_cut? hcut)
    have hge : x.length ≤ a.length := length_le_of_cut? hd hcut rfl
    obtain ⟨rfl, hrest⟩ := List.append_inj heq (Nat.le_antisymm hle hge)
    rw [List.append_cancel_left hrest]

/-! ### All parts -/

theorem division_pieces (hd : d ≠ []) (s : Text) :
    Division d s (pieces d s) := by
  fun_induction pieces d s with
  | case1 s hnil => exact absurd hnil hd
  | case2 s _ hcut => exact .whole s (not_infix_of_cut? hd hcut)
  | case3 s _ a b hcut ih =>
    rw [eq_append_of_cut? hcut]
    exact .cut a b _ (isLeftmost_of_cut? hd hcut) ih

theorem Division.pieces_eq
    {parts : List Text}
    (h : Division d s parts) (hd : d ≠ []) :
    pieces d s = parts := by
  induction h with
  | whole s hs => exact pieces_of_not_infix hd hs
  | cut a b rest hleft _ ih => rw [pieces_eq_cons hd (hleft.cut?_eq hd), ih]

/-! ### Cuts -/

theorem cutsFrom_pieces (hd : d ≠ []) (pos : Nat) (s : Text) :
    cutsFrom d pos (pieces d s) = occurrencesFrom d 0 pos s := by
  induction s using Text.search_induction hd generalizing pos with
  | ended => rw [pieces_nil hd, cutsFrom_singleton, occurrencesFrom]
  | found r ih =>
    rw [pieces_found hd, cutsFrom_cons d pos [] (pieces_ne_nil d r), ih,
      Text.occurrencesFrom_found hd, Text.byteSize_nil, Nat.add_zero]
  | step c r h ih =>
    have hfront := cutsFrom_modifyHead d [c] pos (pieces d r)
    simp only [List.singleton_append, Text.byteSize_cons, Text.byteSize_nil,
      Nat.add_zero] at hfront
    rw [pieces_step hd h, hfront, ih, Text.occurrencesFrom_step h]

/-- Grouping keeps exactly the cuts that are not escaped in the whole text, `a` being
what stands before the parts. -/
theorem cutsFrom_group
    {parts : List Text} {a : Text}
    (hs : a ++ d.intercalate parts = s) :
    cutsFrom d (byteSize a) (group d true (armedOver false a) parts) =
      (cutsFrom d (byteSize a) parts).filter fun p => !isEscapedAt s p := by
  induction parts generalizing a with
  | nil => rfl
  | cons p rest ih =>
    by_cases hrest : rest = []
    · simp [hrest]
    · have hsize : byteSize a + byteSize p = byteSize (a ++ p) :=
        (Text.byteSize_append a p).symm
      have hnext : byteSize (a ++ p) + byteSize d = byteSize (a ++ p ++ d) :=
        (Text.byteSize_append (a ++ p) d).symm
      have hs' : a ++ p ++ d ++ d.intercalate rest = s := by
        rw [← hs, List.intercalate_cons_of_ne_nil hrest]
        simp
      have hstate : isEscapedAt s (byteSize (a ++ p)) = armedOver false (a ++ p) := by
        rw [← hs', List.append_assoc (a ++ p), Escape.isEscapedAt_byteSize]
      have hlater := ih hs'
      have harmed : armedOver (armedOver false a) (p ++ d) =
          armedOver false (a ++ p ++ d) := by simp
      rw [cutsFrom_cons d _ p hrest, List.filter_cons, hsize, hnext, hstate, ← hlater]
      cases hlive : armedOver false (a ++ p) with
      | false =>
        have hcut : (true && armedOver (armedOver false a) p) = false := by
          simpa using hlive
        have hne := group_ne_nil d true (armedOver false (a ++ p ++ d)) hrest
        rw [group_cons_of_cut hrest hcut, harmed, cutsFrom_cons d _ p hne, hsize, hnext]
        rfl
      | true =>
        have hcontent : (true && armedOver (armedOver false a) p) = true := by
          simpa using hlive
        rw [group_cons_of_content hrest hcontent, harmed, cutsFrom_modifyHead,
          Text.byteSize_append p d, ← Nat.add_assoc, hsize, hnext]
        rfl

/-! ### Tokens -/

theorem intercalate_group
    (d : Text) (skipEscaped armed : Bool) (parts : List Text) :
    d.intercalate (group d skipEscaped armed parts) = d.intercalate parts := by
  induction parts generalizing armed with
  | nil => rfl
  | cons p rest ih =>
    by_cases hrest : rest = []
    · simp [hrest]
    · have hne := group_ne_nil d skipEscaped (armedOver armed (p ++ d)) hrest
      rw [List.intercalate_cons_of_ne_nil hrest]
      cases h : skipEscaped && armedOver armed p with
      | false =>
        rw [group_cons_of_cut hrest h, List.intercalate_cons_of_ne_nil hne, ih]
      | true =>
        rw [group_cons_of_content hrest h, intercalate_modifyHead d (p ++ d) hne, ih]

theorem length_pieces_singleton (c : Char) (s : Text) :
    (pieces [c] s).length = s.count c + 1 := by
  have hd : [c] ≠ [] := List.cons_ne_nil c []
  induction s using Text.search_induction hd with
  | ended => rw [pieces_nil hd, List.length_singleton, List.count_nil]
  | found r ih =>
    rw [pieces_found hd, List.length_cons, ih, List.singleton_append,
      List.count_cons_self]
  | step x r h ih =>
    have hx : x ≠ c := by
      rintro rfl
      exact h ⟨r, rfl⟩
    rw [pieces_step hd h, List.length_modifyHead, ih, List.count_cons_of_ne hx]

/-- The tokens of a target that is not trimmed.  There is none only for the empty
target, and with the delimiter between them they are the target again.  If escapes do
not count, they are the parts into which the leftmost occurrences divide the target;
if escapes count, the cuts are the live ones among the same occurrences. -/
theorem split_untrimmed (hd : d ≠ []) (s : Text) :
    (∀ skipEscaped,
        (split ⟨d, false, skipEscaped⟩ s = [] ↔ s = []) ∧
          d.intercalate (split ⟨d, false, skipEscaped⟩ s) = s) ∧
      (∀ parts, s ≠ [] →
        (split ⟨d, false, false⟩ s = parts ↔ Division d s parts)) ∧
      (∀ token ∈ split ⟨d, false, false⟩ s, ¬d <:+: token) ∧
      (∀ c, d = [c] → s ≠ [] →
        (split ⟨d, false, false⟩ s).length = s.count c + 1) ∧
      cuts d (split ⟨d, false, false⟩ s) = occurrences d s ∧
      cuts d (split ⟨d, false, true⟩ s) =
        (occurrences d s).filter fun p => !isEscapedAt s p := by
  by_cases hs : s = []
  · subst hs
    simp [split_eq_group, cuts, cutsFrom, occurrences, occurrencesFrom]
  · have hsplit : ∀ skipEscaped, split ⟨d, false, skipEscaped⟩ s =
        group d skipEscaped false (pieces d s) := by
      intro skipEscaped
      rw [split_eq_group, if_neg hs]
    have hplain : split ⟨d, false, false⟩ s = pieces d s := by
      rw [hsplit, group_false]
    refine ⟨?_, ?_, ?_, ?_, ?_, ?_⟩
    · intro skipEscaped
      have hne := group_ne_nil d skipEscaped false (pieces_ne_nil d s)
      rw [hsplit, intercalate_group, intercalate_pieces hd]
      exact ⟨iff_of_false hne hs, rfl⟩
    · intro parts _
      rw [hplain]
      constructor
      · rintro rfl
        exact division_pieces hd s
      · intro h
        exact h.pieces_eq hd
    · intro token htoken
      rw [hplain] at htoken
      exact not_infix_of_mem_pieces hd htoken
    · rintro c rfl -
      rw [hplain, length_pieces_singleton]
    · rw [hplain, cuts, cutsFrom_pieces hd, occurrences]
    · have hjoin : [] ++ d.intercalate (pieces d s) = s := by
        rw [List.nil_append, intercalate_pieces hd]
      have hgroup := cutsFrom_group hjoin
      rw [Text.byteSize_nil, Escape.armedOver_nil, cutsFrom_pieces hd] at hgroup
      rw [hsplit, cuts, hgroup, occurrences]

/-- A delimiter that overlaps itself, with an escape before one of the occurrences at
which a search stops. -/
theorem cuts_split_overlapping :
    "aa".toList ≠ [] ∧
      cuts "aa".toList (split ⟨"aa".toList, false, true⟩ "aaa\\aaaa".toList) =
        [0, 6] := by
  have hd : "aa".toList ≠ [] := by decide
  obtain ⟨-, -, -, -, -, hcuts⟩ := split_untrimmed hd "aaa\\aaaa".toList
  exact ⟨hd, hcuts.trans (by decide)⟩

end PatternText.Token
