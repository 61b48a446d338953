import PatternText.Proofs.Escape.State
import PatternText.Proofs.Token.Pieces

/-!
# The tokens that remain

The tokens of a text are its pieces, joined where a delimiter is escaped.  A cursor hands
them out one by one.
-/

namespace PatternText.Token

open Text (byteSize occurrencesFrom slice)
open Escape (armedBy armedOver)

/-!
## Groups of pieces

A delimiter that is content does not end a token, so a token is a group of pieces
with the delimiters between them.  `group` forms the groups from left to right
and keeps track of the escape state, as a cursor does that asks for it at every
delimiter it meets.

`find?_occurrencesFrom` is the link to a cursor: the first delimiter that ends a
token ends the first group.
-/

/-- The tokens that pieces form, `armed` telling whether the start of the first
piece is escaped.  A delimiter that is escaped is content if escapes count. -/
def group (d : Text) (skipEscaped : Bool) : (armed : Bool) → List Text → List Text
  | _, [] => []
  | _, [p] => [p]
  | armed, p :: q :: rest =>
    let later := group d skipEscaped (armedOver armed (p ++ d)) (q :: rest)
    if skipEscaped && armedOver armed p then
      later.modifyHead ((p ++ d) ++ ·)
    else
      p :: later

@[simp] theorem group_singleton
    (d : Text) (skipEscaped armed : Bool) (p : Text) :
    group d skipEscaped armed [p] = [p] := rfl

theorem group_cons_of_cut
    {d p : Text} {skipEscaped armed : Bool} {rest : List Text}
    (hrest : rest ≠ []) (h : (skipEscaped && armedOver armed p) = false) :
    group d skipEscaped armed (p :: rest) =
      p :: group d skipEscaped (armedOver armed (p ++ d)) rest := by
  obtain ⟨q, rest, rfl⟩ := List.exists_cons_of_ne_nil hrest
  simp [group, h]

theorem group_cons_of_content
    {d p : Text} {skipEscaped armed : Bool} {rest : List Text}
    (hrest : rest ≠ []) (h : (skipEscaped && armedOver armed p) = true) :
    group d skipEscaped armed (p :: rest) =
      (group d skipEscaped (armedOver armed (p ++ d)) rest).modifyHead
        ((p ++ d) ++ ·) := by
  obtain ⟨q, rest, rfl⟩ := List.exists_cons_of_ne_nil hrest
  simp [group, h]

theorem group_ne_nil
    (d : Text) (skipEscaped armed : Bool) {parts : List Text}
    (hparts : parts ≠ []) :
    group d skipEscaped armed parts ≠ [] := by
  induction parts generalizing armed with
  | nil => exact absurd rfl hparts
  | cons p rest ih =>
    cases rest with
    | nil => simp
    | cons q rest =>
      have hlater := ih (armedOver armed (p ++ d)) (List.cons_ne_nil q rest)
      obtain ⟨t, ts, hts⟩ := List.exists_cons_of_ne_nil hlater
      rw [group, hts]
      split <;> simp

theorem group_modifyHead
    (d : Text) (skipEscaped armed : Bool) (t : Text) {parts : List Text}
    (hparts : parts ≠ []) :
    group d skipEscaped armed (parts.modifyHead (t ++ ·)) =
      (group d skipEscaped (armedOver armed t) parts).modifyHead (t ++ ·) := by
  obtain ⟨p, rest, rfl⟩ := List.exists_cons_of_ne_nil hparts
  by_cases hrest : rest = []
  · simp [hrest]
  · have hstate : armedOver armed (t ++ p) = armedOver (armedOver armed t) p :=
      Escape.armedOver_append armed t p
    have hnext : armedOver armed (t ++ p ++ d) =
        armedOver (armedOver armed t) (p ++ d) := by simp
    rw [List.modifyHead_cons]
    cases h : skipEscaped && armedOver (armedOver armed t) p with
    | false =>
      rw [group_cons_of_cut hrest (hstate ▸ h), group_cons_of_cut hrest h,
        List.modifyHead_cons, hnext]
    | true =>
      rw [group_cons_of_content hrest (hstate ▸ h), group_cons_of_content hrest h,
        List.modifyHead_modifyHead, hnext]
      simp [Function.comp_def]

@[simp] theorem group_false
    (d : Text) (armed : Bool) (parts : List Text) :
    group d false armed parts = parts := by
  induction parts generalizing armed with
  | nil => rfl
  | cons p rest ih =>
    by_cases hrest : rest = []
    · simp [hrest]
    · rw [group_cons_of_cut hrest (Bool.false_and _), ih]

/-! ### The tokens along a search -/

theorem group_pieces_cut
    {d : Text} {skipEscaped armed : Bool}
    (hd : d ≠ []) (h : (skipEscaped && armed) = false) (r : Text) :
    group d skipEscaped armed (pieces d (d ++ r)) =
      [] :: group d skipEscaped (armedOver armed d) (pieces d r) := by
  rw [pieces_found hd, group_cons_of_cut (pieces_ne_nil d r) h, List.nil_append]

theorem group_pieces_content
    {d : Text} {skipEscaped armed : Bool}
    (hd : d ≠ []) (h : (skipEscaped && armed) = true) (r : Text) :
    group d skipEscaped armed (pieces d (d ++ r)) =
      (group d skipEscaped (armedOver armed d) (pieces d r)).modifyHead (d ++ ·) := by
  rw [pieces_found hd, group_cons_of_content (pieces_ne_nil d r) h, List.nil_append]

theorem group_pieces_step
    {d r : Text} {c : Char}
    (hd : d ≠ []) (skipEscaped armed : Bool) (h : ¬d <+: c :: r) :
    group d skipEscaped armed (pieces d (c :: r)) =
      (group d skipEscaped (armedBy armed c) (pieces d r)).modifyHead (c :: ·) := by
  have hfront := group_modifyHead d skipEscaped armed [c] (pieces_ne_nil d r)
  simp only [List.singleton_append] at hfront
  rw [pieces_step hd h, hfront, Escape.armedOver_cons, Escape.armedOver_nil]

/-- A search for a delimiter that ends a token either finds none, and what is left
is one token, or finds the end of the first token. -/
theorem find?_occurrencesFrom
    {d s : Text} {skipEscaped : Bool} {cuts : Nat → Bool}
    (hd : d ≠ [])
    (hcuts : ∀ a b, a ++ b = s →
      cuts (byteSize a) = !(skipEscaped && armedOver false a))
    (a r : Text) (hs : a ++ r = s) :
    ((occurrencesFrom d 0 (byteSize a) r).find? cuts = none ∧
      group d skipEscaped (armedOver false a) (pieces d r) = [r]) ∨
    ∃ t r', r = t ++ d ++ r' ∧
      (occurrencesFrom d 0 (byteSize a) r).find? cuts = some (byteSize (a ++ t)) ∧
      group d skipEscaped (armedOver false a) (pieces d r) =
        t :: group d skipEscaped (armedOver false (a ++ t ++ d)) (pieces d r') := by
  induction r using Text.search_induction hd generalizing a with
  | ended =>
    left
    exact ⟨by simp [occurrencesFrom], by rw [pieces_nil hd, group_singleton]⟩
  | found r ih =>
    have hcut := hcuts a (d ++ r) hs
    rw [Text.occurrencesFrom_found hd, List.find?_cons, hcut]
    cases h : skipEscaped && armedOver false a with
    | false =>
      right
      refine ⟨[], r, by simp, by simp, ?_⟩
      rw [group_pieces_cut hd h, List.append_nil, Escape.armedOver_append]
    | true =>
      have hnext : byteSize a + byteSize d = byteSize (a ++ d) :=
        (Text.byteSize_append a d).symm
      rw [group_pieces_content hd h, hnext, ← Escape.armedOver_append]
      rcases ih (a ++ d) (by rw [← hs, List.append_assoc]) with
        ⟨hnone, hgroup⟩ | ⟨t, r', rfl, hsome, hgroup⟩
      · left
        exact ⟨by simpa using hnone, by rw [hgroup, List.modifyHead_cons]⟩
      · right
        refine ⟨d ++ t, r', by simp, by simpa using hsome, ?_⟩
        rw [hgroup, List.modifyHead_cons, List.append_assoc a d t]
  | step c r h ih =>
    have hnext : byteSize a + c.utf8Size = byteSize (a ++ [c]) := by simp
    have hstate : armedBy (armedOver false a) c = armedOver false (a ++ [c]) := by
      simp
    rw [Text.occurrencesFrom_step h, group_pieces_step hd _ _ h, hnext, hstate]
    rcases ih (a ++ [c]) (by rw [← hs]; simp) with
      ⟨hnone, hgroup⟩ | ⟨t, r', rfl, hsome, hgroup⟩
    · left
      exact ⟨hnone, by rw [hgroup, List.modifyHead_cons]⟩
    · right
      refine ⟨c :: t, r', by simp, by simpa using hsome, ?_⟩
      rw [hgroup, List.modifyHead_cons]
      simp

/-!
## Cursors between tokens

A cursor stands between a part of its target that it has read and a rest.  The
tokens that are left are the groups of the pieces of the rest, with an empty one
if a delimiter has just ended the target; a token that was read ahead comes
first.

`Cursor.Yields` relates a cursor to these tokens.  Each operation hands out the
first of them and leaves the others, so a cursor gives exactly the list it
yields, which `split_eq_group` makes explicit for a target that is not trimmed.
-/

namespace Cursor

variable {c : Cursor} {a r t : Text} {ts : List Text}

/-- A cursor has read the first of two parts of its target.  An empty token can
only be due at the end. -/
structure Between (c : Cursor) (a r : Text) : Prop where
  target_eq : c.target = a ++ r
  pointer_eq : c.pointer = byteSize a
  rest_eq_nil : c.emptyDue = true → r = []

/-- The tokens in what a cursor has not read, given the parts it stands between. -/
def tokensFrom (c : Cursor) (a r : Text) : List Text :=
  if c.emptyDue then
    [[]]
  else if r = [] then
    []
  else
    group c.delimiter c.skipEscaped (armedOver false a) (pieces c.delimiter r)

/-- A cursor leaves tokens unread. -/
def Leaves (c : Cursor) (ts : List Text) : Prop :=
  ∃ a r, c.Between a r ∧ c.tokensFrom a r = ts

/-- The tokens that a cursor has left, one that was read ahead included. -/
def Yields (c : Cursor) (ts : List Text) : Prop :=
  match c.lookahead with
  | .unread => c.Leaves ts
  | .ready t => ∃ later, ts = t :: later ∧ c.Leaves later
  | .ended => ts = [] ∧ c.Leaves []

/-! ### Reading from the target -/

theorem tokensFrom_ne_nil
    (c : Cursor) (a : Text)
    (hr : r ≠ []) :
    c.tokensFrom a r ≠ [] := by
  simp only [tokensFrom, hr, if_false]
  split
  · exact List.cons_ne_nil [] []
  · exact group_ne_nil _ _ _ (pieces_ne_nil _ _)

theorem Leaves.pointer_eq (h : c.Leaves []) :
    c.pointer = byteSize c.target ∧ c.emptyDue = false := by
  obtain ⟨a, r, hbetween, htokens⟩ := h
  have hr : r = [] := Classical.byContradiction fun hr =>
    tokensFrom_ne_nil c a hr htokens
  have hdue : c.emptyDue = false := by
    cases hdue : c.emptyDue with
    | false => rfl
    | true => simp [tokensFrom, hdue] at htokens
  rw [hbetween.target_eq, hbetween.pointer_eq, hr, List.append_nil]
  exact ⟨rfl, hdue⟩

theorem Leaves.scan_nil (h : c.Leaves []) :
    c.scan = (none, c) := by
  obtain ⟨hpointer, hdue⟩ := h.pointer_eq
  simp [scan, hdue, hpointer]

/-- The position of the next delimiter that ends a token is the end of the first
token in the rest, unless the rest is one token. -/
theorem Between.nextCut? (h : c.Between a r) :
    (c.nextCut? = none ∧
      group c.delimiter c.skipEscaped (armedOver false a) (pieces c.delimiter r) =
        [r]) ∨
    ∃ t r', r = t ++ c.delimiter ++ r' ∧ c.nextCut? = some (byteSize (a ++ t)) ∧
      group c.delimiter c.skipEscaped (armedOver false a) (pieces c.delimiter r) =
        t :: group c.delimiter c.skipEscaped
          (armedOver false (a ++ t ++ c.delimiter)) (pieces c.delimiter r') := by
  by_cases hd : c.delimiter = []
  · left
    refine ⟨by simp [Cursor.nextCut?, hd], ?_⟩
    rw [hd, pieces, dif_pos rfl, group_singleton]
  · have hempty : ¬c.delimiter.isEmpty = true := by simpa using hd
    have hcuts : ∀ x y, x ++ y = c.target →
        c.cutsAt (byteSize x) = !(c.skipEscaped && armedOver false x) := by
      intro x y hxy
      rw [cutsAt, ← hxy, Escape.isEscapedAt_byteSize]
    rw [Cursor.nextCut?, if_neg hempty, h.target_eq, h.pointer_eq,
      Text.occurrencesAfter_byteSize]
    exact find?_occurrencesFrom hd hcuts a r h.target_eq.symm

theorem Between.slice_eq (h : c.Between a (t ++ r)) :
    slice c.target c.pointer (byteSize (a ++ t)) = t := by
  rw [h.target_eq, h.pointer_eq, ← List.append_assoc, Text.byteSize_append]
  exact Text.slice_append a t r

theorem Between.not_byteSize_le
    (h : c.Between a r) (hr : r ≠ []) :
    ¬byteSize c.target ≤ c.pointer := by
  have hpos := Text.byteSize_pos hr
  rw [h.target_eq, h.pointer_eq, Text.byteSize_append]
  omega

theorem Between.scan_rest
    (h : c.Between a r) (hr : r ≠ []) (hdue : c.emptyDue = false)
    (hcut : c.nextCut? = none) :
    c.scan = (some r, { c with pointer := byteSize c.target }) := by
  have hslice : slice c.target c.pointer (byteSize c.target) = r := by
    have hread := Between.slice_eq (r := []) ((List.append_nil r).symm ▸ h)
    rwa [← h.target_eq] at hread
  simp only [scan, hdue, Bool.false_eq_true, if_false, if_neg (h.not_byteSize_le hr),
    hcut, hslice]

theorem leaves_nil_of_read (hdue : c.emptyDue = false) :
    { c with pointer := byteSize c.target }.Leaves [] :=
  ⟨c.target, [], ⟨(List.append_nil _).symm, rfl, fun _ => rfl⟩,
    by simp [tokensFrom, hdue]⟩

theorem Between.scan_cut
    (h : c.Between a (t ++ c.delimiter ++ r)) (hr : t ++ c.delimiter ++ r ≠ [])
    (hdue : c.emptyDue = false) (hcut : c.nextCut? = some (byteSize (a ++ t))) :
    c.scan = (some t, { c with
      pointer := byteSize (a ++ t ++ c.delimiter)
      emptyDue := byteSize (a ++ t ++ c.delimiter) == byteSize c.target }) := by
  have hslice : slice c.target c.pointer (byteSize (a ++ t)) = t :=
    Between.slice_eq ((List.append_assoc t c.delimiter r) ▸ h)
  have hresume : byteSize (a ++ t) + byteSize c.delimiter =
      byteSize (a ++ t ++ c.delimiter) :=
    (Text.byteSize_append (a ++ t) c.delimiter).symm
  simp only [scan, hdue, Bool.false_eq_true, if_false, if_neg (h.not_byteSize_le hr),
    hcut, hslice, hresume]

/-- Past a delimiter, the tokens of what follows it are left.  An empty one is due
exactly if nothing follows. -/
theorem Between.leaves_cut
    (h : c.Between a (t ++ c.delimiter ++ r)) :
    { c with
      pointer := byteSize (a ++ t ++ c.delimiter)
      emptyDue := byteSize (a ++ t ++ c.delimiter) == byteSize c.target }.Leaves
      (group c.delimiter c.skipEscaped (armedOver false (a ++ t ++ c.delimiter))
        (pieces c.delimiter r)) := by
  have htarget : c.target = a ++ t ++ c.delimiter ++ r := by
    rw [h.target_eq]
    simp
  have hend : (byteSize (a ++ t ++ c.delimiter) == byteSize c.target) = true ↔
      r = [] := by
    rw [beq_iff_eq, htarget, Text.byteSize_eq_append_iff]
  refine ⟨a ++ t ++ c.delimiter, r, ⟨htarget, rfl, hend.1⟩, ?_⟩
  by_cases hr : r = []
  · simp only [tokensFrom, hend.2 hr, if_true, hr]
    by_cases hd : c.delimiter = []
    · rw [hd, pieces, dif_pos rfl, group_singleton]
    · rw [pieces_nil hd, group_singleton]
  · have hnot := mt hend.1 hr
    simp only [tokensFrom, hnot, Bool.false_eq_true, if_false, hr]

theorem Leaves.scan_cons (h : c.Leaves (t :: ts)) :
    ∃ d, c.scan = (some t, d) ∧ d.Leaves ts ∧ d.lookahead = c.lookahead ∧
      d.target = c.target := by
  obtain ⟨a, r, hbetween, htokens⟩ := h
  cases hdue : c.emptyDue with
  | true =>
    have hr := hbetween.rest_eq_nil hdue
    simp only [tokensFrom, hdue, if_true, List.cons.injEq] at htokens
    obtain ⟨rfl, rfl⟩ := htokens
    refine ⟨{ c with emptyDue := false }, by simp [scan, hdue], ?_, rfl, rfl⟩
    exact ⟨a, r, ⟨hbetween.target_eq, hbetween.pointer_eq, fun _ => hr⟩,
      by simp [tokensFrom, hr]⟩
  | false =>
    have hr : r ≠ [] := by
      rintro rfl
      simp [tokensFrom, hdue] at htokens
    simp only [tokensFrom, hdue, Bool.false_eq_true, if_false, hr] at htokens
    rcases hbetween.nextCut? with ⟨hcut, hgroup⟩ | ⟨u, r', rfl, hcut, hgroup⟩
    · rw [hgroup, List.cons.injEq] at htokens
      obtain ⟨rfl, rfl⟩ := htokens
      exact ⟨_, hbetween.scan_rest hr hdue hcut, leaves_nil_of_read hdue, rfl, rfl⟩
    · rw [hgroup, List.cons.injEq] at htokens
      obtain ⟨rfl, rfl⟩ := htokens
      exact ⟨_, hbetween.scan_cut hr hdue hcut, hbetween.leaves_cut, rfl, rfl⟩

theorem Leaves.withLookahead
    (h : c.Leaves ts) (ahead : Lookahead) :
    { c with lookahead := ahead }.Leaves ts := by
  obtain ⟨a, r, hbetween, htokens⟩ := h
  exact ⟨a, r, ⟨hbetween.target_eq, hbetween.pointer_eq, hbetween.rest_eq_nil⟩,
    htokens⟩

/-! ### Handing out tokens -/

theorem Yields.take_cons (h : c.Yields (t :: ts)) :
    ∃ d, c.take = (.ok t, d) ∧ d.Yields ts ∧ d.target = c.target := by
  unfold Yields at h
  cases hl : c.lookahead with
  | unread =>
    rw [hl] at h
    obtain ⟨d, hscan, hleaves, hahead, htarget⟩ := Leaves.scan_cons h
    refine ⟨d, by simp [take, hl, hscan], ?_, htarget⟩
    unfold Yields
    rw [hahead, hl]
    exact hleaves
  | ready ahead =>
    rw [hl] at h
    obtain ⟨later, heq, hleaves⟩ := h
    obtain ⟨rfl, rfl⟩ := List.cons.inj heq
    exact ⟨{ c with lookahead := .unread }, by simp [take, hl],
      hleaves.withLookahead .unread, rfl⟩
  | ended =>
    rw [hl] at h
    exact absurd h.1 (List.cons_ne_nil t ts)

theorem Yields.take_nil (h : c.Yields []) :
    ∃ d, c.take = (.error (.exhausted (byteSize c.target)), d) ∧ d.Yields [] ∧
      d.target = c.target := by
  unfold Yields at h
  cases hl : c.lookahead with
  | unread =>
    rw [hl] at h
    have hleaves : c.Leaves [] := h
    refine ⟨{ c with lookahead := .ended }, ?_,
      ⟨rfl, hleaves.withLookahead .ended⟩, rfl⟩
    simp [take, hl, hleaves.scan_nil, hleaves.pointer_eq.1]
  | ready ahead =>
    rw [hl] at h
    obtain ⟨later, heq, -⟩ := h
    simp at heq
  | ended =>
    rw [hl] at h
    have hleaves : c.Leaves [] := h.2
    refine ⟨c, by simp [take, hl, hleaves.pointer_eq.1], ?_, rfl⟩
    unfold Yields
    rw [hl]
    exact ⟨rfl, hleaves⟩

theorem Yields.toList_eq (h : c.Yields ts) :
    c.toList = ts := by
  induction ts generalizing c with
  | nil =>
    obtain ⟨d, htake, -, -⟩ := h.take_nil
    have hnext : c.next? = (none, d) := by simp [next?, htake]
    rw [toList, drain]
    split
    · rfl
    · rename_i hsome
      simp [hnext] at hsome
  | cons t ts ih =>
    obtain ⟨d, htake, hyields, -⟩ := h.take_cons
    have hnext : c.next? = (some t, d) := by simp [next?, htake]
    rw [toList, drain]
    split
    · rename_i hnone
      simp [hnext] at hnone
    · rename_i token e hsome
      rw [hnext] at hsome
      obtain ⟨hfirst, rfl⟩ := Prod.mk.inj hsome
      rw [← Option.some.inj hfirst, ← ih hyields]
      rfl

theorem yields_start (rule : SplitRule) (target : Text) :
    (start rule target).Yields ((start rule target).tokensFrom []
      (start rule target).target) :=
  ⟨[], (start rule target).target, ⟨rfl, rfl, fun h => absurd h Bool.false_ne_true⟩,
    rfl⟩

end Cursor

/-- A target that is not trimmed has the groups of its pieces as its tokens, and
none at all if it is empty. -/
theorem split_eq_group
    (d : Text) (skipEscaped : Bool) (s : Text) :
    split ⟨d, false, skipEscaped⟩ s =
      if s = [] then [] else group d skipEscaped false (pieces d s) :=
  (Cursor.yields_start ⟨d, false, skipEscaped⟩ s).toList_eq

end PatternText.Token
