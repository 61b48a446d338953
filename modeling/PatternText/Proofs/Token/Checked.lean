import PatternText.Proofs.Escape.Pass
import PatternText.Proofs.Token.Session
import PatternText.Token.Checked

/-!
# Cuts at boundaries only

Every function whose cuts are checked has a result, the one without the checks.
-/

namespace PatternText.Text

/-!
## Cuts of a text

The checked operations succeed wherever the text is given by its parts: a part is cut at
the sizes of what stands before it, a size is taken from the size of a longer text, and a
search resumes at the size of what has been passed.
-/

variable {a d r s t : Text}

theorem slice?_byteSize (hs : a ++ t ++ r = s) :
    slice? s (byteSize a) (byteSize (a ++ t)) = some t :=
  slice?_eq_some_iff.2 ⟨a, r, hs.symm, rfl, (byteSize_append a t).symm⟩

theorem slice?_zero (t r : Text) :
    slice? (t ++ r) 0 (byteSize t) = some t :=
  slice?_byteSize (a := []) rfl

theorem sliceFrom?_byteSize (hs : a ++ r = s) :
    sliceFrom? s (byteSize a) = some r := by
  subst hs
  exact slice?_byteSize (List.append_nil (a ++ r))

theorem before?_byteSize (a r : Text) :
    before? (byteSize (a ++ r)) (byteSize r) = some (byteSize a) := by
  rw [byteSize_append, before?, if_pos (Nat.le_add_left _ _), Nat.add_sub_cancel]

theorem occurrencesFrom_add
    (d : Text) (skip start pos : Nat) (r : Text) :
    occurrencesFrom d skip (start + pos) r =
      (occurrencesFrom d skip pos r).map (start + ·) := by
  induction r generalizing skip pos with
  | nil => cases skip <;> rfl
  | cons c r ih =>
    cases skip with
    | succ skip => rw [occurrencesFrom, occurrencesFrom, Nat.add_assoc, ih]
    | zero =>
      simp only [occurrencesFrom, Nat.add_assoc, ih]
      split <;> rfl

theorem seek?_byteSize (d : Text) (hs : a ++ r = s) :
    seek? d s (byteSize a) = some (find? d s (byteSize a)) := by
  have hshift := occurrencesFrom_add d 0 (byteSize a) 0 r
  have hstart : occurrencesAfter d r 0 = occurrencesFrom d 0 0 r :=
    occurrencesAfter_byteSize d [] r
  subst hs
  simp only [seek?, sliceFrom?_byteSize rfl, Option.bind_eq_bind, Option.bind_some,
    Option.pure_def, find?, occurrencesAfter_byteSize, hstart]
  rw [Nat.add_zero] at hshift
  rw [hshift, List.head?_map]

end PatternText.Text

/-!
## Passes

Computed as loops that check every cut, the passes that protect and reveal delimiters give
what they give without checks.  Such a loop stands between what it has passed and a rest,
and goes on after the first occurrence in the rest, so it takes the pieces of the text one
by one.
-/

namespace PatternText.Escape

open Text (byteSize seek?)
open Token (cut? pieces)

variable {a d r s : Text}

@[simp] theorem isEscapedAt?_eq (s : Text) (pos : Nat) :
    isEscapedAt? s pos = some (isEscapedAt s pos) := by
  have hstop : min pos (byteSize s) ≤ (Text.bytes s).length := by
    rw [Text.length_bytes]
    exact Nat.min_le_right pos (byteSize s)
  have htake : (Text.bytes s).take (min pos (byteSize s)) = (Text.bytes s).take pos := by
    rw [← Text.length_bytes s, ← List.take_eq_take_min]
  rw [isEscapedAt?, Text.sliceBytes?, if_pos ⟨Nat.zero_le _, hstop⟩, htake]
  rfl

theorem seek?_eq_cut? (hd : d ≠ []) (hs : a ++ r = s) :
    seek? d s (byteSize a) =
      some ((cut? d r).map fun parts => byteSize (a ++ parts.1)) := by
  rw [Text.seek?_byteSize d hs, Token.find?_byteSize hd hs]

theorem markFrom?_byteSize
    (hd : d ≠ []) (mark : Bool → Text) (hs : a ++ r = s) :
    markFrom? d hd mark s (byteSize a) =
      some (weave d mark (armedOver false a) (pieces d r)) := by
  fun_induction pieces d r generalizing a with
  | case1 r hnil => exact absurd hnil hd
  | case2 r _ hcut =>
    rw [markFrom?_round, seek?_eq_cut? hd hs, hcut]
    exact Text.sliceFrom?_byteSize hs
  | case3 r _ x y hcut ih =>
    have hr := Token.eq_append_of_cut? hcut
    have hs' : a ++ x ++ (d ++ y) = s := by
      rw [← hs, hr]
      simp
    have hrest := ih (a := a ++ x ++ d) (by rw [← hs', List.append_assoc _ d])
    rw [Text.byteSize_append] at hrest
    rw [markFrom?_round, seek?_eq_cut? hd hs, hcut,
      weave_cons d mark _ x (Token.pieces_ne_nil d y)]
    simp only [Option.map_some, Option.bind_some, Text.slice?_byteSize hs',
      isEscapedAt?_eq, isEscapedAt_of_append hs', hrest, armedOver_append]

theorem protect?_eq (d s : Text) :
    protect? d s = some (protect d s) := by
  by_cases hd : d = []
  · rw [hd, protect_nil]
    rfl
  · rw [protect?, dif_neg hd, protect_eq_weave hd]
    exact markFrom?_byteSize hd (protectMark d) (List.nil_append s)

theorem reveal?_eq (d s : Text) :
    reveal? d s = some (reveal d s) := by
  by_cases hd : d = []
  · rw [hd, reveal_nil]
    rfl
  · rw [reveal?, if_neg hd, reveal_eq_weave hd]
    exact markFrom?_byteSize (List.cons_ne_nil escapeChar d) (revealMark d)
      (List.nil_append s)

theorem protectAll?_eq (ds : List Text) (s : Text) :
    protectAll? ds s = some (protectAll ds s) := by
  have hpass : (fun t d => if d == escapeText then some (double t) else protect? d t) =
      fun t d => pure (protectPass t d) := by
    funext t d
    rw [protect?_eq, protectPass]
    split <;> rfl
  rw [protectAll?, hpass, List.foldlM_pure]
  rfl

theorem revealAll?_eq (ds : List Text) (s : Text) :
    revealAll? ds s = some (revealAll ds s) := by
  have hpass : (fun t d => reveal? d t) = fun t d => pure (reveal d t) := by
    funext t d
    exact reveal?_eq d t
  rw [revealAll?, hpass, List.foldlM_pure]
  rfl

end PatternText.Escape

/-!
## Tokens

Trimming a target, and reading tokens from what is left of it, never meets a cut that is
not possible.  A cursor stands at a boundary of its target whatever it has been asked,
`Cursor.exists_between_run_start`, and from there it reads as if nothing were checked.
-/

namespace PatternText.Token

open Text (byteSize slice?)
open Escape (isEscapedAt)

variable {d s : Text}

/-! ### Trimming -/

theorem dropTrailing?_of_endsLoose
    {t : Text} {skipEscaped : Bool}
    (h : endsLoose d skipEscaped (t ++ d) = true) :
    dropTrailing? d skipEscaped (t ++ d) = some (some t) := by
  have hsize : byteSize (t ++ d) - byteSize d = byteSize t := by simp
  rw [endsLoose, Bool.and_eq_true, hsize, Bool.not_eq_true'] at h
  rw [dropTrailing?, if_pos h.1]
  simp only [Text.before?_byteSize, Option.bind_eq_bind, Option.bind_some,
    Escape.isEscapedAt?_eq, h.2, Bool.false_eq_true, if_false, Text.slice?_zero,
    Option.pure_def]

theorem dropTrailing?_of_not_endsLoose
    {skipEscaped : Bool}
    (h : ¬endsLoose d skipEscaped s = true) :
    dropTrailing? d skipEscaped s = some none := by
  rw [dropTrailing?]
  split
  · rename_i hsuffix
    obtain ⟨t, rfl⟩ := List.isSuffixOf_iff_suffix.1 hsuffix
    have hescaped : (skipEscaped && isEscapedAt (t ++ d) (byteSize t)) = true := by
      simpa [endsLoose, hsuffix] using h
    simp only [Text.before?_byteSize, Option.bind_eq_bind, Option.bind_some,
      Escape.isEscapedAt?_eq, hescaped, if_true, Option.pure_def]
  · rfl

theorem stripTrailing?_eq
    (hd : d ≠ []) (skipEscaped : Bool) (s : Text) :
    stripTrailing? d hd skipEscaped s = some (stripTrailing d skipEscaped s) := by
  fun_induction stripTrailing d skipEscaped s with
  | case1 s hloose ih =>
    have hsuffix : d.isSuffixOf s = true := ((Bool.and_eq_true _ _).mp hloose.2).1
    obtain ⟨t, rfl⟩ := List.isSuffixOf_iff_suffix.1 hsuffix
    have htake : (t ++ d).take ((t ++ d).length - d.length) = t := by simp
    rw [htake] at ih ⊢
    rw [stripTrailing?_round, dropTrailing?_of_endsLoose hloose.2]
    exact ih
  | case2 s hstop =>
    have hdrop : dropTrailing? d skipEscaped s = some none :=
      dropTrailing?_of_not_endsLoose fun hloose => hstop ⟨hd, hloose⟩
    rw [stripTrailing?_round, hdrop]
    rfl

theorem trimmed?_eq (d : Text) (skipEscaped : Bool) (s : Text) :
    trimmed? d skipEscaped s = some (trimmed d skipEscaped s) := by
  rw [trimmed?, trimmed]
  split
  · rename_i hd
    rw [stripLeading, stripTrailing]
    simp [hd]
  · rename_i hd
    exact stripTrailing?_eq hd skipEscaped _

namespace Cursor

variable {c : Cursor} {a r : Text} {ts : List Text}

theorem start?_eq (rule : SplitRule) (target : Text) :
    start? rule target = some (start rule target) := by
  rw [start?]
  cases htrim : rule.trim with
  | true => simp [trimmed?_eq, start, htrim]
  | false => simp [start, htrim]

/-! ### Reading from the target -/

theorem nextCutFrom?_byteSize
    (hd : c.delimiter ≠ []) (hs : a ++ r = c.target) :
    c.nextCutFrom? hd (byteSize a) =
      some ((Text.occurrencesFrom c.delimiter 0 (byteSize a) r).find? c.cutsAt) := by
  fun_induction pieces c.delimiter r generalizing a with
  | case1 r hnil => exact absurd hnil hd
  | case2 r _ hcut =>
    rw [nextCutFrom?_round, Escape.seek?_eq_cut? hd hs, hcut, occurrencesFrom_eq_nil hd hcut]
    rfl
  | case3 r _ x y hcut ih =>
    have hr := eq_append_of_cut? hcut
    have hrest := ih (a := a ++ x ++ c.delimiter) (by rw [← hs, hr]; simp)
    rw [Text.byteSize_append] at hrest
    rw [nextCutFrom?_round, Escape.seek?_eq_cut? hd hs, hcut, occurrencesFrom_eq_cons hd hcut,
      List.find?_cons]
    have hcuts : c.cutsAt (byteSize (a ++ x)) =
        !(c.skipEscaped && isEscapedAt c.target (byteSize (a ++ x))) := rfl
    simp only [Option.map_some, Option.bind_some, Escape.isEscapedAt?_eq,
      ← Text.byteSize_append a, hrest, ← List.append_assoc, Text.byteSize_append (a ++ x),
      hcuts]
    cases c.skipEscaped && isEscapedAt c.target (byteSize (a ++ x)) <;> rfl

theorem Between.findCut?_eq (h : c.Between a r) :
    c.findCut? = some c.nextCut? := by
  have hs : a ++ r = c.target := h.target_eq.symm
  rw [findCut?, Cursor.nextCut?]
  split
  · rename_i hd
    simp [hd]
  · rename_i hd
    have hafter : Text.occurrencesAfter c.delimiter c.target c.pointer =
        Text.occurrencesFrom c.delimiter 0 (byteSize a) r := by
      rw [h.pointer_eq, ← hs, Text.occurrencesAfter_byteSize]
    have hempty : ¬c.delimiter.isEmpty = true := by simpa using hd
    rw [if_neg hempty, hafter, h.pointer_eq, nextCutFrom?_byteSize hd hs]

theorem Between.scan?_eq (h : c.Between a r) :
    c.scan? = some c.scan := by
  cases hdue : c.emptyDue with
  | true => simp [scan?, scan, hdue]
  | false =>
    by_cases hend : byteSize c.target ≤ c.pointer
    · simp [scan?, scan, hdue, hend]
    · have hr : r ≠ [] := by
        rintro rfl
        rw [h.target_eq, h.pointer_eq, List.append_nil] at hend
        exact hend (Nat.le_refl _)
      rw [scan?, if_neg (by simp [hdue]), if_neg hend, h.findCut?_eq]
      rcases h.nextCut? with ⟨hcut, -⟩ | ⟨t, r', rfl, hcut, -⟩
      · have hrest : Text.sliceFrom? c.target c.pointer = some r := by
          rw [h.pointer_eq]
          exact Text.sliceFrom?_byteSize h.target_eq.symm
        rw [h.scan_rest hr hdue hcut, hcut]
        simp only [Option.bind_eq_bind, Option.bind_some, hrest, Option.pure_def]
      · have htoken : slice? c.target c.pointer (byteSize (a ++ t)) = some t := by
          rw [h.pointer_eq]
          exact Text.slice?_byteSize (r := c.delimiter ++ r')
            (by rw [h.target_eq]; simp)
        rw [h.scan_cut hr hdue hcut, hcut]
        simp only [Option.bind_eq_bind, Option.bind_some, htoken, Option.pure_def,
          Text.byteSize_append (a ++ t)]

/-! ### All tokens -/

theorem Leaves.drain?_eq (h : c.Leaves ts) :
    c.drain? = some ts := by
  induction ts generalizing c with
  | nil =>
    obtain ⟨a, r, hbetween, -⟩ := id h
    have hscan : c.scan? = some (none, c) := by rw [hbetween.scan?_eq, h.scan_nil]
    rw [drain?_round, hscan]
    rfl
  | cons t ts ih =>
    obtain ⟨a, r, hbetween, -⟩ := id h
    obtain ⟨d, hscan, hrest, -, -⟩ := h.scan_cons
    have hchecked : c.scan? = some (some t, d) := by rw [hbetween.scan?_eq, hscan]
    rw [drain?_round, hchecked]
    exact congrArg (Option.map (t :: ·)) (ih hrest)

/-- A cursor with tokens left is at a boundary of its target, also if it has looked
ahead. -/
theorem Yields.exists_between (h : c.Yields ts) :
    ∃ a r, c.Between a r := by
  have hleaves : ∃ later, c.Leaves later := by
    unfold Yields at h
    cases hl : c.lookahead with
    | unread =>
      rw [hl] at h
      exact ⟨ts, h⟩
    | ready ahead =>
      rw [hl] at h
      obtain ⟨later, -, hlater⟩ := h
      exact ⟨later, hlater⟩
    | ended =>
      rw [hl] at h
      exact ⟨[], h.2⟩
  obtain ⟨later, a, r, hbetween, -⟩ := hleaves
  exact ⟨a, r, hbetween⟩

theorem exists_between_run_start
    (rule : SplitRule) (target : Text) (requests : List Request) :
    ∃ a r, (run (start rule target) requests).2.Between a r :=
  ((shows_start rule target).run requests).2.yields.exists_between

end Cursor

theorem split?_eq (rule : SplitRule) (target : Text) :
    split? rule target = some (split rule target) := by
  have hyields := Cursor.yields_start rule target
  have hleaves : (Cursor.start rule target).Leaves (split rule target) := by
    rw [split, hyields.toList_eq]
    exact hyields
  rw [split?, Cursor.start?_eq]
  exact hleaves.drain?_eq

end PatternText.Token
