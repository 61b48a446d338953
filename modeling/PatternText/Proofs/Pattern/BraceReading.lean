import PatternText.Proofs.Escape.Characters
import PatternText.Proofs.Pattern.BraceFindings

/-!
# Braces in one reading

The braces that stand for themselves can be escaped while a pattern is read once
from left to right, without looking back.  An escape and the character after it
are read together; the reader only remembers whether these were `\p` or `\P`.
-/

namespace PatternText.Pattern.Brace

open Text (Edit byteSize)
open Escape (armedBy armedOver escapeChar escapeText protectChars)

/-- The parts of a text before and after its first closing brace. -/
def cutAtClose? : Text → Option (Text × Text)
  | [] => none
  | c :: r =>
    if c = '}' then
      some ([], r)
    else
      (cutAtClose? r).map fun parts => (c :: parts.1, parts.2)

theorem length_lt_of_cutAtClose?
    {s a b : Text}
    (h : cutAtClose? s = some (a, b)) :
    b.length < s.length := by
  induction s generalizing a with
  | nil => simp [cutAtClose?] at h
  | cons c r ih =>
    simp only [cutAtClose?] at h
    split at h
    · obtain ⟨-, rfl⟩ := Prod.mk.inj (Option.some.inj h)
      simp
    · obtain ⟨⟨x, y⟩, hxy, heq⟩ := Option.map_eq_some_iff.1 h
      obtain ⟨-, rfl⟩ := Prod.mk.inj heq
      have hlt : y.length < r.length := ih hxy
      have hstep : r.length < (c :: r).length := by simp
      exact Nat.lt_trans hlt hstep

/-- The pattern with every brace escaped that stands for itself, `named` telling
whether `\p` or `\P` stands just before. -/
def reading (named : Bool) (s : Text) : Text :=
  match s with
  | [] => []
  | ['\\'] => ['\\']
  | '\\' :: c :: r => '\\' :: c :: reading (c == 'p' || c == 'P') r
  | '{' :: r =>
    match _h : cutAtClose? r with
    | none => '\\' :: '{' :: reading false r
    | some (body, rest) =>
      if isBounds body || named then
        '{' :: body ++ '}' :: reading false rest
      else
        '\\' :: '{' :: reading false r
  | '}' :: r => '\\' :: '}' :: reading false r
  | c :: r => c :: reading false r
termination_by s.length
decreasing_by
  all_goals simp only [List.length_cons]
  any_goals omega
  have hlt := length_lt_of_cutAtClose? _h
  omega

/-!
## Edits and the reading

The edits that escape braces come to one reading of the pattern from left to right,
`escapeLiteralBraces_eq_reading`.  Between two findings nothing but closing braces is
escaped, which is what a reader does that has not met an opening brace; and after each
finding both go on anew.

`readingFrom` lets the reading start anywhere, also just after an escape, so that it
can be followed character by character.
-/

variable {k body r : Text}

/-! ### The reading by characters -/

theorem cutAtClose?_of_notMem (hr : '}' ∉ r) :
    cutAtClose? r = none := by
  induction r with
  | nil => rfl
  | cons c r ih =>
    rw [List.mem_cons, not_or] at hr
    rw [cutAtClose?, if_neg (Ne.symm hr.1), ih hr.2, Option.map_none]

theorem cutAtClose?_append (hbody : '}' ∉ body) (r : Text) :
    cutAtClose? (body ++ '}' :: r) = some (body, r) := by
  induction body with
  | nil => rw [List.nil_append, cutAtClose?, if_pos rfl]
  | cons c body ih =>
    rw [List.mem_cons, not_or] at hbody
    rw [List.cons_append, cutAtClose?, if_neg (Ne.symm hbody.1), ih hbody.2,
      Option.map_some]

/-- The reading of a text whose first character may be escaped. -/
def readingFrom (armed named : Bool) (s : Text) : Text :=
  match armed, s with
  | true, [] => []
  | true, c :: r => c :: reading (namedBy true c) r
  | false, s => reading named s

@[simp] theorem readingFrom_nil (armed named : Bool) :
    readingFrom armed named [] = [] := by
  cases armed
  · rw [readingFrom, reading]
  · rfl

theorem readingFrom_false (named : Bool) (s : Text) :
    readingFrom false named s = reading named s := rfl

theorem readingFrom_armed (named : Bool) (c : Char) (r : Text) :
    readingFrom true named (c :: r) = c :: readingFrom false (namedBy true c) r := rfl

theorem readingFrom_escape (named : Bool) (r : Text) :
    readingFrom false named (escapeChar :: r) =
      escapeChar :: readingFrom true false r := by
  cases r with
  | nil => rw [readingFrom_false, escapeChar, reading, readingFrom_nil]
  | cons c r =>
    rw [readingFrom_false, escapeChar, reading, readingFrom_armed, readingFrom_false]
    rfl

theorem readingFrom_close (named : Bool) (r : Text) :
    readingFrom false named ('}' :: r) =
      escapeChar :: '}' :: readingFrom false false r := by
  rw [readingFrom_false, reading, readingFrom_false]
  rfl

theorem readingFrom_plain
    {c : Char}
    (named : Bool) (hesc : c ≠ escapeChar) (hopen : c ≠ '{') (hclose : c ≠ '}')
    (r : Text) :
    readingFrom false named (c :: r) = c :: readingFrom false false r := by
  rw [readingFrom_false, reading, readingFrom_false]
  all_goals simp_all [escapeChar]

theorem readingFrom_unclosed (named : Bool) (hr : '}' ∉ r) :
    readingFrom false named ('{' :: r) =
      escapeChar :: '{' :: readingFrom false false r := by
  have hcut := cutAtClose?_of_notMem hr
  rw [readingFrom_false, reading, readingFrom_false]
  split
  · rfl
  · simp_all

theorem readingFrom_closed
    (named : Bool) (hbody : '}' ∉ body) (r : Text) :
    readingFrom false named ('{' :: (body ++ '}' :: r)) =
      if isBounds body || named then
        '{' :: (body ++ '}' :: readingFrom false false r)
      else
        escapeChar :: '{' :: readingFrom false false (body ++ '}' :: r) := by
  have hcut := cutAtClose?_append hbody r
  rw [readingFrom_false, reading, readingFrom_false, readingFrom_false]
  split
  · simp_all
  · rename_i x y hxy
    rw [hcut, Option.some.injEq, Prod.mk.injEq] at hxy
    obtain ⟨rfl, rfl⟩ := hxy
    rfl

/-- Up to the next opening brace, a reader escapes the closing braces that are live. -/
theorem readingFrom_append
    (armed named : Bool) (hk : '{' ∉ k) (r : Text) :
    readingFrom armed named (k ++ r) =
      protectChars ['}'] armed k ++
        readingFrom (armedOver armed k) (namedOver armed named k) r := by
  have hbrace : '}' ≠ escapeChar := by decide
  induction k generalizing armed named with
  | nil => rfl
  | cons c k ih =>
    rw [List.mem_cons, not_or] at hk
    rw [List.cons_append, Escape.armedOver_cons, namedOver_cons]
    cases armed with
    | true =>
      rw [readingFrom_armed, ih _ _ hk.2, Escape.armedBy_true,
        Escape.protectChars_singleton_armed hbrace, List.cons_append]
    | false =>
      by_cases hclose : c = '}'
      · subst hclose
        rw [readingFrom_close, ih _ _ hk.2, Escape.armedBy_of_ne _ hbrace,
          Escape.protectChars_singleton_self hbrace]
        rfl
      · rw [Escape.protectChars_singleton_of_ne hclose, namedBy_false, List.cons_append]
        by_cases hesc : c = escapeChar
        · subst hesc
          rw [readingFrom_escape, ih _ _ hk.2, Escape.armedBy_escapeChar, Bool.not_false]
        · rw [readingFrom_plain named hesc (Ne.symm hk.1) hclose, ih _ _ hk.2,
            Escape.armedBy_of_ne _ hesc]

/-- Without closing braces, a reader escapes the opening braces that are live. -/
theorem readingFrom_of_notMem
    (armed named : Bool) (hr : '}' ∉ r) :
    readingFrom armed named r = protectChars ['{'] armed r := by
  have hbrace : '{' ≠ escapeChar := by decide
  induction r generalizing armed named with
  | nil => rw [readingFrom_nil, protectChars]
  | cons c r ih =>
    rw [List.mem_cons, not_or] at hr
    cases armed with
    | true =>
      rw [readingFrom_armed, ih _ _ hr.2, Escape.protectChars_singleton_armed hbrace]
    | false =>
      by_cases hopen : c = '{'
      · subst hopen
        rw [readingFrom_unclosed named hr.2, ih _ _ hr.2,
          Escape.protectChars_singleton_self hbrace]
      · rw [Escape.protectChars_singleton_of_ne hopen]
        by_cases hesc : c = escapeChar
        · subst hesc
          rw [readingFrom_escape, ih _ _ hr.2, Escape.armedBy_escapeChar, Bool.not_false]
        · rw [readingFrom_plain named hesc hopen (Ne.symm hr.1), ih _ _ hr.2,
            Escape.armedBy_of_ne _ hesc]

/-! ### The edits -/

/-- A part in which a brace is protected comes before the edits of what follows it. -/
theorem applyFrom?_protectBetween
    {s a k r t : Text} {c : Char} {later : List Edit}
    (hc : c ≠ escapeChar) (hs : a ++ k ++ r = s)
    (hlater : Edit.applyFrom? s (byteSize (a ++ k)) later = some t) :
    Edit.applyFrom? s (byteSize a)
        (protectBetween [c] s (byteSize a) (byteSize (a ++ k)) ++ later) =
      some (protectChars [c] false k ++ t) := by
  subst hs
  have hslice : Text.slice (a ++ k ++ r) (byteSize a) (byteSize (a ++ k)) = k := by
    rw [Text.byteSize_append, Text.slice_append]
  have hprotect := Escape.applyAll?_protectEdits_singleton hc k
  have hpart := Edit.applyFrom?_shift_append (u := []) hprotect hlater
  rw [List.append_nil] at hpart
  rw [protectBetween, hslice]
  exact hpart

theorem applyFrom?_protectBetween_end
    {s a k : Text} {c : Char}
    (hc : c ≠ escapeChar) (hs : a ++ k = s) :
    Edit.applyFrom? s (byteSize a) (protectBetween [c] s (byteSize a) (byteSize s)) =
      some (protectChars [c] false k) := by
  have hs' : a ++ k ++ [] = s := by rw [List.append_nil, hs]
  have hend : Edit.applyFrom? s (byteSize (a ++ k)) [] = some [] := by
    rw [← hs', Edit.applyFrom?_nil]
  have hpart := applyFrom?_protectBetween hc hs' hend
  rwa [List.append_nil, List.append_nil, hs] at hpart

/-- The edits for the findings in what is left of a pattern cut at boundaries only, and
come to reading it. -/
theorem applyFrom?_editsFrom
    {s a r : Text} {found : List Finding}
    (h : Reads a r found) (hs : a ++ r = s) :
    Edit.applyFrom? s (byteSize a) (editsFrom s (byteSize a) found) =
      some (readingFrom false false r) := by
  have hclose : '}' ≠ escapeChar := by decide
  have hopen : '{' ≠ escapeChar := by decide
  induction h with
  | none a r hr =>
    have hread := readingFrom_append false false hr []
    rw [List.append_nil, readingFrom_nil, List.append_nil] at hread
    rw [editsFrom, closeBrace, hread, applyFrom?_protectBetween_end hclose hs]
  | escaped a k r later hk harmed _ ih =>
    have hs' : a ++ k ++ ['{'] ++ r = s := by rw [← hs]; simp
    have hread := readingFrom_append false false hk ('{' :: r)
    rw [harmed, readingFrom_armed, namedBy_of_ne true (by decide) (by decide)] at hread
    have hkeep := Edit.applyFrom?_keep hs' (ih hs')
    rw [editsFrom, byteSize_append_brace (a ++ k) (.inl rfl), hread, closeBrace]
    exact applyFrom?_protectBetween hclose ((List.append_assoc _ _ _).trans hs) hkeep
  | span a k body r later hk harmed hbody hspan _ ih =>
    have hs' : a ++ k ++ '{' :: body ++ ['}'] ++ r = s := by rw [← hs]; simp
    have hread := readingFrom_append false false hk ('{' :: (body ++ '}' :: r))
    rw [harmed, readingFrom_closed _ hbody, hspan, if_pos rfl] at hread
    have hspanned : a ++ k ++ ('{' :: body ++ ['}']) = a ++ k ++ '{' :: body ++ ['}'] :=
      (List.append_assoc _ _ _).symm
    have hkeep := Edit.applyFrom?_keep (hspanned.symm ▸ hs') (hspanned.symm ▸ ih hs')
    rw [editsFrom, hread, closeBrace]
    refine applyFrom?_protectBetween hclose ((List.append_assoc _ _ _).trans hs) ?_
    rw [← hspanned, hkeep]
    simp
  | literal a k body r later hk harmed hbody hspan _ ih =>
    have hs' : a ++ k ++ ['{'] ++ (body ++ '}' :: r) = s := by rw [← hs]; simp
    have hread := readingFrom_append false false hk ('{' :: (body ++ '}' :: r))
    rw [harmed, readingFrom_closed _ hbody, hspan, if_neg Bool.false_ne_true] at hread
    have hkeep := Edit.applyFrom?_keep hs' (ih hs')
    have hopened : a ++ k ++ '{' :: (body ++ '}' :: r) = s :=
      (List.append_assoc _ _ _).trans hs
    rw [editsFrom, byteSize_append_brace (a ++ k) (.inl rfl), hread, closeBrace]
    refine applyFrom?_protectBetween hclose hopened ?_
    exact Edit.applyFrom?_insertion hopened escapeText hkeep
  | unclosed a k r hk harmed hr =>
    have hread := readingFrom_append false false hk ('{' :: r)
    have hnot : '}' ∉ '{' :: r := by simp [hr]
    rw [harmed, readingFrom_of_notMem _ _ hnot] at hread
    rw [editsFrom, hread, closeBrace, openBrace]
    refine applyFrom?_protectBetween hclose ((List.append_assoc _ _ _).trans hs) ?_
    exact applyFrom?_protectBetween_end hopen ((List.append_assoc _ _ _).trans hs)

/-- Escaping the braces of a pattern is one reading of it. -/
theorem escapeLiteralBraces_eq_reading (s : Text) :
    escapeLiteralBraces s = reading false s := by
  have hedits := applyFrom?_editsFrom (reads_findings s) rfl
  rw [escapeLiteralBraces, Edit.applyAll, Edit.applyAll?, edits]
  simp only [List.nil_append, Text.byteSize_nil] at hedits
  rw [hedits, Option.getD_some, readingFrom_false]

end PatternText.Pattern.Brace
