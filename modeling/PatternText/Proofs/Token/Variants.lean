import Mathlib.Data.List.DropRight
import Mathlib.Data.List.SplitBy
import PatternText.Proofs.Token.Division

/-!
# Variants of splitting

Splitting with trimming, and splitting that leaves escaped delimiters alone, come down to
the plain splitting.
-/

namespace PatternText.Token

open Text (byteSize)
open Escape (armedOver escapeChar)

/-!
## Trimmed tokens

A delimiter at the start of a target puts an empty token before the others, and a live one
at the end puts an empty token after them.  Trimming takes these delimiters away before
the target is divided, so it comes to dropping the empty tokens at both ends afterwards:
`split_trim_eq_dropEmptyEnds`.

Delimiters are taken from the end without asking where a search from the start would find
them.  A borderless delimiter is found wherever it occurs, so the two agree on it.
-/

section

variable {d s : Text} {skipEscaped : Bool}

/-! ### Tokens and groups of pieces -/

theorem split_nil (d : Text) (skipEscaped : Bool) :
    split ⟨d, false, skipEscaped⟩ [] = [] := by
  rw [split_eq_group, if_pos rfl]

theorem split_of_ne_nil
    (d : Text) (skipEscaped : Bool) (hs : s ≠ []) :
    split ⟨d, false, skipEscaped⟩ s = group d skipEscaped false (pieces d s) := by
  rw [split_eq_group, if_neg hs]

/-- The groups of the pieces are the tokens, except that the empty text has no token. -/
theorem group_pieces_cases
    (hd : d ≠ []) (skipEscaped : Bool) (s : Text) :
    (group d skipEscaped false (pieces d s) = [[]] ∧
        split ⟨d, false, skipEscaped⟩ s = []) ∨
      group d skipEscaped false (pieces d s) = split ⟨d, false, skipEscaped⟩ s := by
  by_cases hs : s = []
  · left
    rw [hs, pieces_nil hd, group_singleton, split_nil]
    exact ⟨rfl, rfl⟩
  · right
    exact (split_of_ne_nil d skipEscaped hs).symm

theorem intercalate_split
    (hd : d ≠ []) (skipEscaped : Bool) (s : Text) :
    d.intercalate (split ⟨d, false, skipEscaped⟩ s) = s := by
  by_cases hs : s = []
  · rw [hs, split_nil]
    rfl
  · rw [split_of_ne_nil d skipEscaped hs, intercalate_group, intercalate_pieces hd]

theorem split_ne_singleton_nil (hd : d ≠ []) :
    split ⟨d, false, skipEscaped⟩ s ≠ [[]] := by
  intro h
  have hjoin := intercalate_split hd skipEscaped s
  rw [h, List.intercalate_singleton] at hjoin
  rw [← hjoin, split_nil] at h
  exact absurd h.symm (List.cons_ne_nil [] [])

/-! ### Empty tokens at the start -/

/-- A delimiter that leaves nothing escaped puts an empty token before the others. -/
theorem split_delimiter_append
    (hd : d ≠ []) (hesc : skipEscaped = true → escapeChar ∉ d) (r : Text) :
    split ⟨d, false, skipEscaped⟩ (d ++ r) =
      [] :: group d skipEscaped false (pieces d r) := by
  have hne : d ++ r ≠ [] := by simp [hd]
  rw [split_of_ne_nil d skipEscaped hne, group_pieces_cut hd (Bool.and_false skipEscaped)]
  cases skipEscaped with
  | false => rw [group_false, group_false]
  | true => rw [Escape.armedOver_false_of_notMem (hesc rfl)]

theorem prefix_of_split_eq_cons
    {rest : List Text}
    (hd : d ≠ []) (h : split ⟨d, false, skipEscaped⟩ s = [] :: rest) :
    d <+: s := by
  have hjoin := intercalate_split hd skipEscaped s
  by_cases hrest : rest = []
  · rw [hrest] at h
    exact absurd h (split_ne_singleton_nil hd)
  · rw [h, List.intercalate_cons_of_ne_nil hrest, List.nil_append] at hjoin
    exact ⟨_, hjoin⟩

/-- Dropping the empty tokens at the start is dividing the target without the delimiters
that it starts with. -/
theorem dropWhile_isEmpty_split
    (hd : d ≠ []) (hesc : skipEscaped = true → escapeChar ∉ d) (s : Text) :
    (split ⟨d, false, skipEscaped⟩ s).dropWhile List.isEmpty =
      split ⟨d, false, skipEscaped⟩ (stripLeading d s) := by
  fun_induction stripLeading d s with
  | case1 s h ih =>
    obtain ⟨r, rfl⟩ := List.isPrefixOf_iff_prefix.1 h.2
    rw [List.drop_left] at ih ⊢
    rw [← ih, split_delimiter_append hd hesc, List.dropWhile_cons_of_pos rfl]
    rcases group_pieces_cases hd skipEscaped r with ⟨hgroup, htokens⟩ | hgroup
    · rw [hgroup, htokens]
      rfl
    · rw [hgroup]
  | case2 s h =>
    cases htokens : split ⟨d, false, skipEscaped⟩ s with
    | nil => rfl
    | cons t rest =>
      apply List.dropWhile_cons_of_neg
      intro hempty
      rw [List.isEmpty_iff.1 hempty] at htokens
      have hprefix := prefix_of_split_eq_cons hd htokens
      exact h ⟨hd, List.isPrefixOf_iff_prefix.2 hprefix⟩

/-! ### Empty tokens at the end -/

theorem endsLoose_append (r : Text) :
    endsLoose d skipEscaped (r ++ d) = !(skipEscaped && armedOver false r) := by
  have hsuffix : d.isSuffixOf (r ++ d) = true :=
    List.isSuffixOf_iff_suffix.2 (List.suffix_append r d)
  have hpos : byteSize (r ++ d) - byteSize d = byteSize r := by
    rw [Text.byteSize_append, Nat.add_sub_cancel]
  rw [endsLoose, hsuffix, hpos, Escape.isEscapedAt_byteSize, Bool.true_and]

theorem pieces_append_self
    (hd : d ≠ []) (hb : Borderless d) (r : Text) :
    pieces d (r ++ d) = pieces d r ++ [[]] := by
  have hjoin : d.intercalate (pieces d r ++ [[]]) = r ++ d := by
    rw [intercalate_append d (pieces_ne_nil d r) (List.cons_ne_nil [] []),
      intercalate_pieces hd, List.intercalate_singleton, List.append_nil]
  rw [← hjoin]
  apply pieces_intercalate hd hb
  · simp
  · intro p hp
    rw [List.mem_append, List.mem_singleton] at hp
    rcases hp with hp | rfl
    · exact not_infix_of_mem_pieces hd hp
    · rw [List.infix_nil]
      exact hd

theorem group_concat
    {armed : Bool} {parts : List Text}
    (hparts : parts ≠ [])
    (h : (skipEscaped && armedOver armed (d.intercalate parts)) = false) :
    group d skipEscaped armed (parts ++ [[]]) =
      group d skipEscaped armed parts ++ [[]] := by
  induction parts generalizing armed with
  | nil => exact absurd rfl hparts
  | cons p rest ih =>
    by_cases hrest : rest = []
    · rw [hrest, List.intercalate_singleton] at h
      rw [hrest]
      exact group_cons_of_cut (List.cons_ne_nil [] []) h
    · have hne : rest ++ [[]] ≠ [] := by simp
      rw [List.intercalate_cons_of_ne_nil hrest, Escape.armedOver_append] at h
      rw [List.cons_append]
      cases hp : skipEscaped && armedOver armed p with
      | false =>
        rw [group_cons_of_cut hne hp, group_cons_of_cut hrest hp, ih hrest h,
          List.cons_append]
      | true =>
        have hlater := group_ne_nil d skipEscaped (armedOver armed (p ++ d)) hrest
        obtain ⟨t, ts, hts⟩ := List.exists_cons_of_ne_nil hlater
        rw [group_cons_of_content hne hp, group_cons_of_content hrest hp, ih hrest h, hts]
        rfl

theorem byteSize_intercalate_mem_cutsFrom
    {parts rest : List Text}
    (hparts : parts ≠ []) (hrest : rest ≠ []) (pos : Nat) :
    pos + byteSize (d.intercalate parts) ∈ cutsFrom d pos (parts ++ rest) := by
  induction parts generalizing pos with
  | nil => exact absurd rfl hparts
  | cons p parts ih =>
    have hne : parts ++ rest ≠ [] := by simp [hrest]
    rw [List.cons_append, cutsFrom_cons d pos p hne, List.mem_cons]
    by_cases hlast : parts = []
    · left
      rw [hlast, List.intercalate_singleton]
    · right
      have hlater := ih hlast (pos + byteSize p + byteSize d)
      rw [List.intercalate_cons_of_ne_nil hlast, Text.byteSize_append,
        Text.byteSize_append, ← Nat.add_assoc, ← Nat.add_assoc]
      exact hlater

theorem endsLoose_of_split_eq_concat
    {tokens : List Text}
    (hd : d ≠ []) (h : split ⟨d, false, skipEscaped⟩ s = tokens ++ [[]]) :
    endsLoose d skipEscaped s = true := by
  have hend : ([[]] : List Text) ≠ [] := List.cons_ne_nil [] []
  by_cases htokens : tokens = []
  · rw [htokens] at h
    exact absurd h (split_ne_singleton_nil hd)
  · have hjoin := intercalate_split hd skipEscaped s
    rw [h, intercalate_append d htokens hend, List.intercalate_singleton,
      List.append_nil] at hjoin
    have hs : s ≠ [] := by
      rw [← hjoin]
      simp [hd]
    have hlive : (skipEscaped && armedOver false (d.intercalate tokens)) = false := by
      cases skipEscaped with
      | false => rfl
      | true =>
        -- The last cut is one of the live occurrences.
        have hall : [] ++ d.intercalate (pieces d s) = s := by
          rw [List.nil_append, intercalate_pieces hd]
        have hgroup := cutsFrom_group hall
        rw [Text.byteSize_nil, Escape.armedOver_nil, ← split_of_ne_nil d true hs, h]
          at hgroup
        have hcut := byteSize_intercalate_mem_cutsFrom (d := d) htokens hend 0
        rw [hgroup, List.mem_filter, Nat.zero_add, Escape.isEscapedAt_of_append hjoin,
          Bool.not_eq_true'] at hcut
        rw [hcut.2, Bool.and_false]
    rw [← hjoin, endsLoose_append, hlive, Bool.not_false]

/-- Dropping the empty tokens at the end is dividing the target without the live
delimiters that it ends with. -/
theorem rdropWhile_isEmpty_split
    (hd : d ≠ []) (hb : Borderless d) (s : Text) :
    (split ⟨d, false, skipEscaped⟩ s).rdropWhile List.isEmpty =
      split ⟨d, false, skipEscaped⟩ (stripTrailing d skipEscaped s) := by
  fun_induction stripTrailing d skipEscaped s with
  | case1 s h ih =>
    have hsuffix := h.2
    rw [endsLoose, Bool.and_eq_true, List.isSuffixOf_iff_suffix] at hsuffix
    obtain ⟨r, rfl⟩ := hsuffix.1
    have hrest : (r ++ d).take ((r ++ d).length - d.length) = r := by
      rw [List.length_append, Nat.add_sub_cancel, List.take_left]
    have hlive : (skipEscaped && armedOver false (d.intercalate (pieces d r))) = false := by
      have hloose := h.2
      rwa [endsLoose_append, Bool.not_eq_true', ← intercalate_pieces hd r] at hloose
    have hne : r ++ d ≠ [] := by simp [hd]
    rw [hrest] at ih ⊢
    rw [← ih, split_of_ne_nil d skipEscaped hne, pieces_append_self hd hb,
      group_concat (pieces_ne_nil d r) hlive, List.rdropWhile_concat_pos _ _ _ rfl]
    rcases group_pieces_cases hd skipEscaped r with ⟨hgroup, htokens⟩ | hgroup
    · rw [hgroup, htokens]
      rfl
    · rw [hgroup]
  | case2 s h =>
    rcases List.eq_nil_or_concat (split ⟨d, false, skipEscaped⟩ s) with hnil | ⟨tokens, t, ht⟩
    · rw [hnil, List.rdropWhile_nil]
    · rw [List.concat_eq_append] at ht
      rw [ht]
      apply List.rdropWhile_concat_neg
      intro hempty
      rw [List.isEmpty_iff.1 hempty] at ht
      exact h ⟨hd, endsLoose_of_split_eq_concat hd ht⟩

/-! ### Both ends -/

/-- Dividing a trimmed target is dividing the target as it is and dropping the empty tokens
at both ends. -/
theorem split_trim_eq_dropEmptyEnds
    (hd : d ≠ []) (hb : Borderless d) (hesc : skipEscaped = true → escapeChar ∉ d)
    (s : Text) :
    split ⟨d, true, skipEscaped⟩ s = dropEmptyEnds (split ⟨d, false, skipEscaped⟩ s) := by
  have htrim : split ⟨d, true, skipEscaped⟩ s =
      split ⟨d, false, skipEscaped⟩ (trimmed d skipEscaped s) := rfl
  have hends : dropEmptyEnds (split ⟨d, false, skipEscaped⟩ s) =
      ((split ⟨d, false, skipEscaped⟩ s).dropWhile List.isEmpty).rdropWhile
        List.isEmpty := rfl
  rw [htrim, hends, dropWhile_isEmpty_split hd hesc, rdropWhile_isEmpty_split hd hb,
    trimmed]

/-- Trimming stops at an escaped delimiter, which is part of a token. -/
theorem split_trim_eq_dropEmptyEnds_escaped :
    "::x".toList ≠ [] ∧ Borderless "::x".toList ∧ escapeChar ∉ "::x".toList ∧
      split ⟨"::x".toList, true, true⟩ "::x::xa::x::xb\\::x::x".toList =
        dropEmptyEnds (split ⟨"::x".toList, false, true⟩ "::x::xa::x::xb\\::x::x".toList) ∧
      split ⟨"::x".toList, true, true⟩ "::x::xa::x::xb\\::x::x".toList =
        ["a".toList, [], "b\\::x".toList] := by
  have hd : "::x".toList ≠ [] := by decide
  have hb : Borderless "::x".toList := by decide
  have hesc : escapeChar ∉ "::x".toList := by decide
  have hends : split ⟨"::x".toList, true, true⟩ "::x::xa::x::xb\\::x::x".toList =
      dropEmptyEnds (split ⟨"::x".toList, false, true⟩ "::x::xa::x::xb\\::x::x".toList) :=
    split_trim_eq_dropEmptyEnds hd hb (fun _ => hesc) _
  exact ⟨hd, hb, hesc, hends, hends.trans (by decide +kernel)⟩

end

/-!
## Joined tokens

A cursor that skips escaped delimiters looks back in the whole target to see whether a
delimiter is escaped.  If the delimiter has no escape in it, it need not look back further
than the delimiter before: nothing is escaped after that one.  So the tokens can be made
from those of a cursor that stops at every delimiter, each telling by its own end whether it
is to be joined to the next.

`split_eq_map_splitBy` says this.  Tokens are joined if they follow one another in a run, and
`List.splitBy` gives the longest runs.
-/

variable {d p : Text} {parts rest : List Text}

/-! ### The end of a piece -/

theorem endsArmed_eq_armedOver (p : Text) :
    endsArmed p = armedOver false p := by
  have hend := Escape.isEscapedAt_byteSize p []
  rwa [List.append_nil] at hend

theorem endsArmed_eq_rtakeWhile (p : Text) :
    endsArmed p = ((p.rtakeWhile (· == escapeChar)).length % 2 == 1) := by
  rw [endsArmed_eq_armedOver]
  -- The run is read from the end of the piece.
  induction p using List.reverseRecOn with
  | nil => rfl
  | append_singleton p c ih =>
    rw [Escape.armedOver_append, Escape.armedOver_cons, Escape.armedOver_nil, ih,
      List.rtakeWhile_concat]
    by_cases hc : c = escapeChar
    · rw [hc, Escape.armedBy_escapeChar, beq_self_eq_true, if_pos rfl, List.length_append,
        List.length_singleton, Escape.odd_succ]
    · rw [Escape.armedBy_of_ne _ hc, if_neg (by simpa using hc)]
      rfl

/-! ### Joining pieces -/

@[simp] theorem regroup_singleton (d p : Text) :
    regroup d [p] = [p] := by
  cases h : endsArmed p <;> simp [regroup, h]

theorem regroup_cons_of_unarmed
    (d : Text) (rest : List Text) (h : endsArmed p = false) :
    regroup d (p :: rest) = p :: regroup d rest := by
  simp [regroup, h]

theorem regroup_ne_nil (d : Text) (hparts : parts ≠ []) :
    regroup d parts ≠ [] := by
  obtain ⟨p, rest, rfl⟩ := List.exists_cons_of_ne_nil hparts
  rw [regroup]
  split <;> simp

theorem regroup_cons_of_armed
    (d : Text) (hrest : rest ≠ []) (h : endsArmed p = true) :
    regroup d (p :: rest) = (regroup d rest).modifyHead ((p ++ d) ++ ·) := by
  obtain ⟨next, later, hnext⟩ := List.exists_cons_of_ne_nil (regroup_ne_nil d hrest)
  simp [regroup, h, hnext]

/-- After a delimiter without escapes nothing is escaped, so a piece alone tells whether
the delimiter after it is. -/
theorem group_eq_regroup
    (hd : d ≠ []) (hesc : escapeChar ∉ d) (parts : List Text) :
    group d true false parts = regroup d parts := by
  induction parts with
  | nil => rfl
  | cons p rest ih =>
    by_cases hrest : rest = []
    · rw [hrest, group_singleton, regroup_singleton]
    · have hnext : armedOver false (p ++ d) = false := by
        rw [Escape.armedOver_append]
        exact Escape.armedOver_of_notMem _ hd hesc
      have hend : (true && armedOver false p) = endsArmed p := by
        rw [Bool.true_and, endsArmed_eq_armedOver]
      cases harmed : endsArmed p with
      | false =>
        rw [group_cons_of_cut hrest (hend.trans harmed), hnext, ih,
          regroup_cons_of_unarmed d rest harmed]
      | true =>
        rw [group_cons_of_content hrest (hend.trans harmed), hnext, ih,
          regroup_cons_of_armed d hrest harmed]

/-! ### Runs of pieces -/

theorem splitBy_cons_of_related
    {α : Type} {r : α → α → Bool} {a b : α}
    (h : r a b = true) (l : List α) :
    (a :: b :: l).splitBy r = ((b :: l).splitBy r).modifyHead (a :: ·) := by
  have hne : (b :: l).splitBy r ≠ [] := by simp
  obtain ⟨run, runs, hruns⟩ := List.exists_cons_of_ne_nil hne
  obtain ⟨hflat, hnil, hwithin, hbetween⟩ := List.splitBy_eq_iff.1 hruns
  rw [List.mem_cons, not_or] at hnil
  obtain ⟨b', run, rfl⟩ := List.exists_cons_of_ne_nil (Ne.symm hnil.1)
  obtain ⟨rfl, hl⟩ := List.cons.inj hflat
  rw [hruns, List.modifyHead_cons, List.splitBy_eq_iff]
  refine ⟨by rw [hflat]; rfl, ?_, ?_, ?_⟩
  · rw [List.mem_cons, not_or]
    exact ⟨(List.cons_ne_nil a _).symm, hnil.2⟩
  · intro m hm
    rcases List.mem_cons.1 hm with rfl | hlater
    · exact List.isChain_cons_cons.2 ⟨h, hwithin _ List.mem_cons_self⟩
    · exact hwithin m (List.mem_cons_of_mem _ hlater)
  · cases runs with
    | nil => exact List.isChain_singleton _
    | cons next runs =>
      obtain ⟨⟨hlast, hfirst, hends⟩, hlater⟩ := List.isChain_cons_cons.1 hbetween
      refine List.isChain_cons_cons.2 ⟨⟨List.cons_ne_nil a _, hfirst, ?_⟩, hlater⟩
      rwa [List.getLast_cons hlast]

/-- Regrouping joins the longest runs of pieces in which each but the last ends in an odd
run of escape characters. -/
theorem regroup_eq_map_splitBy (d : Text) (parts : List Text) :
    regroup d parts = (parts.splitBy fun p _ => endsArmed p).map d.intercalate := by
  induction parts with
  | nil => rfl
  | cons p rest ih =>
    cases rest with
    | nil =>
      rw [regroup_singleton]
      exact congrArg ([·]) List.intercalate_singleton.symm
    | cons q rest =>
      cases harmed : endsArmed p with
      | false =>
        have hcut := List.splitBy_append_cons (l := [p]) (r := fun p _ => endsArmed p)
          (a := q) rest (by simpa using harmed)
        rw [List.singleton_append] at hcut
        rw [regroup_cons_of_unarmed d _ harmed, ih, hcut, List.map_append]
        exact congrArg (· :: _) List.intercalate_singleton.symm
      | true =>
        have hjoin := splitBy_cons_of_related (r := fun p _ => endsArmed p) (b := q) harmed rest
        have hne : (q :: rest).splitBy (fun p _ => endsArmed p) ≠ [] := by simp
        obtain ⟨run, runs, hruns⟩ := List.exists_cons_of_ne_nil hne
        have hrun : run ≠ [] :=
          List.ne_nil_of_mem_splitBy (hruns ▸ List.mem_cons_self)
        rw [regroup_cons_of_armed d (List.cons_ne_nil q rest) harmed, ih, hjoin, hruns]
        simp [List.intercalate_cons_of_ne_nil hrun]

/-! ### Tokens -/

theorem split_eq_regroup
    (hd : d ≠ []) (hesc : escapeChar ∉ d) (s : Text) :
    split ⟨d, false, true⟩ s = regroup d (split ⟨d, false, false⟩ s) := by
  by_cases hs : s = []
  · rw [hs, split_nil, split_nil]
    rfl
  · rw [split_of_ne_nil d true hs, split_of_ne_nil d false hs, group_false,
      group_eq_regroup hd hesc]

/-- The tokens between live delimiters are the tokens between all delimiters, with the
delimiter put back between each that ends in an odd run of escape characters and the one
after it. -/
theorem split_eq_map_splitBy
    (hd : d ≠ []) (hesc : escapeChar ∉ d) (s : Text) :
    split ⟨d, false, true⟩ s =
      ((split ⟨d, false, false⟩ s).splitBy fun p _ =>
        (p.rtakeWhile (· == escapeChar)).length % 2 == 1).map d.intercalate := by
  rw [split_eq_regroup hd hesc, regroup_eq_map_splitBy]
  simp only [endsArmed_eq_rtakeWhile]

/-- Two tokens in a row are joined to the next, each of them nothing but an escape character;
then one ends in an even run, one is empty, and the last delimiter is escaped. -/
theorem split_eq_map_splitBy_colons :
    "::".toList ≠ [] ∧ escapeChar ∉ "::".toList ∧
      split ⟨"::".toList, false, false⟩ "\\::\\:::\\\\::::\\::".toList =
        ["\\".toList, "\\".toList, ":\\\\".toList, [], "\\".toList, []] ∧
      split ⟨"::".toList, false, true⟩ "\\::\\:::\\\\::::\\::".toList =
        ((split ⟨"::".toList, false, false⟩ "\\::\\:::\\\\::::\\::".toList).splitBy fun p _ =>
          (p.rtakeWhile (· == escapeChar)).length % 2 == 1).map "::".toList.intercalate ∧
      split ⟨"::".toList, false, true⟩ "\\::\\:::\\\\::::\\::".toList =
        ["\\::\\:::\\\\".toList, [], "\\::".toList] := by
  have hd : "::".toList ≠ [] := by decide
  have hesc : escapeChar ∉ "::".toList := by decide
  have hplain : split ⟨"::".toList, false, false⟩ "\\::\\:::\\\\::::\\::".toList =
      ["\\".toList, "\\".toList, ":\\\\".toList, [], "\\".toList, []] := by
    decide +kernel
  have hjoin := split_eq_map_splitBy hd hesc "\\::\\:::\\\\::::\\::".toList
  refine ⟨hd, hesc, hplain, hjoin, ?_⟩
  rw [hjoin, hplain]
  decide +kernel

end PatternText.Token
