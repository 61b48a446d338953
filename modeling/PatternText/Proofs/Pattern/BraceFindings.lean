import PatternText.Pattern.Dialect
import PatternText.Proofs.Escape.State
import PatternText.Proofs.Text.Parts

/-!
# What reading a pattern finds

A reader of a pattern knows whether the next character is escaped and whether a class is
about to be named.
-/

namespace PatternText.Pattern.Brace

open Text (byteSize bytes occurrencesFrom find? slice?)
open Escape (armedBy armedOver escapeChar isEscapedAt)

/-!
## Names of classes in one reading

Whether an unescaped `\p` or `\P` stands just before a position is read off the bytes
there.  A reader can remember it instead: a class is about to be named after a `p` or
`P` that is escaped.  `followsClassEscape_byteSize` says that the two agree at every
boundary.
-/

/-- Whether a class is about to be named after a character, `armed` telling whether
the character is escaped. -/
def namedBy (armed : Bool) (c : Char) : Bool :=
  armed && (c == 'p' || c == 'P')

/-- Whether a class is about to be named after a text, `armed` and `named` telling how
the text starts. -/
def namedOver : (armed named : Bool) → Text → Bool
  | _, named, [] => named
  | armed, _, c :: r => namedOver (armedBy armed c) (namedBy armed c) r

@[simp] theorem namedOver_nil (armed named : Bool) :
    namedOver armed named [] = named := rfl

@[simp] theorem namedOver_cons
    (armed named : Bool) (c : Char) (r : Text) :
    namedOver armed named (c :: r) =
      namedOver (armedBy armed c) (namedBy armed c) r := rfl

@[simp] theorem namedOver_append
    (armed named : Bool) (a b : Text) :
    namedOver armed named (a ++ b) =
      namedOver (armedOver armed a) (namedOver armed named a) b := by
  induction a generalizing armed named with
  | nil => rfl
  | cons c a ih =>
    rw [List.cons_append, namedOver_cons, ih, namedOver_cons, Escape.armedOver_cons]

@[simp] theorem namedBy_false (c : Char) :
    namedBy false c = false := rfl

theorem namedBy_of_ne
    {c : Char}
    (armed : Bool) (hp : c ≠ 'p') (hP : c ≠ 'P') :
    namedBy armed c = false := by
  simp [namedBy, hp, hP]

theorem namedOver_eq_true_iff {a : Text} :
    namedOver false false a = true ↔
      ∃ y q, a = y ++ [escapeChar, q] ∧ (q = 'p' ∨ q = 'P') ∧
        armedOver false y = false := by
  constructor
  · intro h
    rcases List.eq_nil_or_concat a with rfl | ⟨x, q, rfl⟩
    · exact absurd h Bool.false_ne_true
    · rw [List.concat_eq_append, namedOver_append] at h
      simp only [namedOver_cons, namedOver_nil, namedBy, Bool.and_eq_true,
        Bool.or_eq_true, beq_iff_eq] at h
      obtain ⟨y, rfl, hy⟩ := Escape.armedOver_eq_true_iff.1 h.1
      exact ⟨y, q, by simp, h.2, hy⟩
  · rintro ⟨y, q, rfl, hq, hy⟩
    simp [hy, namedBy, hq]

theorem exists_of_bytes_eq_concat
    {a : Text} {u : List UInt8} {b : UInt8}
    (hlt : b.toNat < 128) (h : bytes a = u ++ [b]) :
    ∃ x c, a = x ++ [c] ∧ c.val.toNat = b.toNat ∧ bytes x = u := by
  rcases List.eq_nil_or_concat a with rfl | ⟨x, c, rfl⟩
  · rw [Text.bytes_nil] at h
    simp at h
  · rcases List.eq_nil_or_concat (String.utf8EncodeChar c) with hnil | ⟨e, b', hcode⟩
    · exact absurd hnil String.utf8EncodeChar_ne_nil
    · have hbytes : (bytes x ++ e) ++ [b'] = u ++ [b] := by
        rw [← h, List.concat_eq_append, Text.bytes_append]
        simp [bytes, hcode]
      obtain ⟨hu, hb⟩ := List.append_inj' hbytes rfl
      obtain rfl := (List.cons.inj hb).1
      have hmem : b' ∈ String.utf8EncodeChar c := by simp [hcode]
      have hcode' := Escape.toNat_eq_of_mem_utf8EncodeChar hmem hlt
      have hsize : c.utf8Size = 1 := by
        rw [Char.utf8Size_eq_one_iff, UInt32.le_iff_toNat_le]
        exact Nat.le_of_lt_succ (hcode' ▸ hlt)
      have hlength := congrArg List.length hcode
      rw [String.length_utf8EncodeChar, hsize, List.length_concat] at hlength
      have he : e = [] := List.length_eq_zero_iff.1 (by omega)
      rw [he, List.append_nil] at hu
      exact ⟨x, c, List.concat_eq_append, hcode', hu⟩

theorem bytes_escapeChar_pair
    {q : Char}
    (hq : q.val.toNat < 128) :
    bytes [escapeChar, q] = [Escape.escapeByte] ++ [q.val.toUInt8] := by
  have hsize : q.utf8Size = 1 := by
    rw [Char.utf8Size_eq_one_iff, UInt32.le_iff_toNat_le]
    exact Nat.le_of_lt_succ hq
  simp [bytes, Escape.utf8EncodeChar_escapeChar, String.utf8EncodeChar_eq_singleton hsize]

/-- The two bytes before a boundary are those of an escape and a letter exactly if the
text before it ends so. -/
theorem drop_bytes_eq_iff
    {a : Text} {q : Char}
    (hq : q.val.toNat < 128) (hsize : 1 < byteSize a) :
    (bytes a).drop (byteSize a - 2) = bytes [escapeChar, q] ↔
      ∃ y, a = y ++ [escapeChar, q] := by
  have hpair := bytes_escapeChar_pair hq
  constructor
  · intro h
    have hbytes : bytes a = (bytes a).take (byteSize a - 2) ++ [Escape.escapeByte] ++
        [q.val.toUInt8] := by
      rw [List.append_assoc, ← hpair, ← h, List.take_append_drop]
    have hbyte : q.val.toUInt8.toNat = q.val.toNat := by
      rw [UInt32.toNat_toUInt8]
      omega
    obtain ⟨x, c, rfl, hc, hx⟩ := exists_of_bytes_eq_concat (by omega) hbytes
    obtain ⟨y, e, rfl, he, -⟩ := exists_of_bytes_eq_concat (by decide) hx
    have hc' : c = q := Char.ext (UInt32.toNat_inj.1 (hc.trans hbyte))
    have he' : e = escapeChar := Char.ext (UInt32.toNat_inj.1 he)
    exact ⟨y, by simp [hc', he']⟩
  · rintro ⟨y, rfl⟩
    have htwo : byteSize (y ++ [escapeChar, q]) - 2 = (bytes y).length := by
      have hlength := congrArg List.length hpair
      rw [Text.length_bytes] at hlength
      rw [Text.byteSize_append, hlength, Text.length_bytes]
      simp
    rw [htwo, Text.bytes_append, List.drop_left]

theorem followsClassEscape_byteSize (a b : Text) :
    followsClassEscape (a ++ b) (byteSize a) = namedOver false false a := by
  have htake : (bytes (a ++ b)).take (byteSize a) = bytes a := by
    rw [Text.bytes_append, ← Text.length_bytes a, List.take_left]
  rw [Bool.eq_iff_iff, namedOver_eq_true_iff, followsClassEscape, htake]
  simp only [Bool.and_eq_true, decide_eq_true_eq, Bool.or_eq_true, beq_iff_eq,
    Bool.not_eq_true']
  have hstate : ∀ y q, (q = 'p' ∨ q = 'P') → a = y ++ [escapeChar, q] →
      Escape.isEscapedAt (a ++ b) (byteSize a - 2) = armedOver false y := by
    rintro y q hq rfl
    have hsize : byteSize (y ++ [escapeChar, q]) - 2 = byteSize y := by
      rcases hq with rfl | rfl
      all_goals simp [escapeChar, Char.utf8Size]
    rw [hsize, List.append_assoc, Escape.isEscapedAt_byteSize]
  constructor
  · rintro ⟨⟨hsize, hbytes⟩, hlive⟩
    have hends : ∃ y q, (q = 'p' ∨ q = 'P') ∧ a = y ++ [escapeChar, q] := by
      rcases hbytes with h | h
      · obtain ⟨y, hy⟩ := (drop_bytes_eq_iff (by decide) hsize).1 h
        exact ⟨y, 'p', .inl rfl, hy⟩
      · obtain ⟨y, hy⟩ := (drop_bytes_eq_iff (by decide) hsize).1 h
        exact ⟨y, 'P', .inr rfl, hy⟩
    obtain ⟨y, q, hq, ha⟩ := hends
    exact ⟨y, q, ha, hq, (hstate y q hq ha).symm.trans hlive⟩
  · rintro ⟨y, q, ha, hq, hy⟩
    have hsize : 1 < byteSize a := by
      have hpos := Char.utf8Size_pos q
      have hone : escapeChar.utf8Size = 1 := by decide
      rw [ha]
      simp only [Text.byteSize_append, Text.byteSize_cons, Text.byteSize_nil]
      omega
    refine ⟨⟨hsize, ?_⟩, (hstate y q hq ha).trans hy⟩
    rcases hq with rfl | rfl
    · exact .inl ((drop_bytes_eq_iff (by decide) hsize).2 ⟨y, ha⟩)
    · exact .inr ((drop_bytes_eq_iff (by decide) hsize).2 ⟨y, ha⟩)

/-!
## Findings

The findings of a pattern are computed from positions: where the opening braces are,
which of them are escaped, and where the next closing brace is.  `Reads` says the same
about the parts of the pattern that lie between the findings, so that what is proved
about findings is proved part by part.  Reading goes on after a brace, where nothing
is escaped and no class is about to be named.
-/

/-- What reading `r` finds after `a` has been read. -/
inductive Reads : (a r : Text) → List Finding → Prop where
  | none (a r : Text) :
      '{' ∉ r → Reads a r []
  | escaped (a k r : Text) (later : List Finding) :
      '{' ∉ k → armedOver false k = true →
        Reads (a ++ k ++ ['{']) r later →
        Reads a (k ++ '{' :: r) (.escaped (byteSize (a ++ k)) :: later)
  | span (a k body r : Text) (later : List Finding) :
      '{' ∉ k → armedOver false k = false → '}' ∉ body →
        (isBounds body || namedOver false false k) = true →
        Reads (a ++ k ++ '{' :: body ++ ['}']) r later →
        Reads a (k ++ '{' :: (body ++ '}' :: r))
          (.span (byteSize (a ++ k)) (byteSize (a ++ k ++ '{' :: body ++ ['}'])) ::
            later)
  | literal (a k body r : Text) (later : List Finding) :
      '{' ∉ k → armedOver false k = false → '}' ∉ body →
        (isBounds body || namedOver false false k) = false →
        Reads (a ++ k ++ ['{']) (body ++ '}' :: r) later →
        Reads a (k ++ '{' :: (body ++ '}' :: r))
          (.literal (byteSize (a ++ k)) (byteSize (a ++ k ++ '{' :: body)) :: later)
  | unclosed (a k r : Text) :
      '{' ∉ k → armedOver false k = false → '}' ∉ r →
        Reads a (k ++ '{' :: r) [.unclosed (byteSize (a ++ k))]

/-- Opening braces before the place where reading goes on are passed over. -/
theorem findingsFrom_skip (s a w r : Text) :
    findingsFrom s (byteSize (a ++ w))
        (occurrencesFrom openBrace 0 (byteSize a) (w ++ r)) =
      findingsFrom s (byteSize (a ++ w))
        (occurrencesFrom openBrace 0 (byteSize (a ++ w)) r) := by
  induction w generalizing a with
  | nil => simp
  | cons c w ih =>
    have hassoc : a ++ c :: w = a ++ [c] ++ w := by simp
    have hnext : byteSize a + c.utf8Size = byteSize (a ++ [c]) := by simp
    rw [hassoc, ← ih (a ++ [c]), List.cons_append]
    by_cases hc : c = '{'
    · subst hc
      have hlt : byteSize a < byteSize (a ++ ['{'] ++ w) := by
        simp only [Text.byteSize_append, Text.byteSize_cons]
        have hpos := Char.utf8Size_pos '{'
        omega
      have hfound := Text.occurrencesFrom_found
        (List.cons_ne_nil '{' []) (byteSize a) (w ++ r)
      rw [List.singleton_append, ← Text.byteSize_append] at hfound
      rw [openBrace, hfound, findingsFrom, if_pos hlt]
    · have hfront : ¬openBrace <+: c :: (w ++ r) := by
        intro h
        exact hc (List.cons_prefix_cons.1 h).1.symm
      rw [Text.occurrencesFrom_step hfront, hnext]

theorem kindAt?_byteSize (a body r : Text) :
    kindAt? (a ++ '{' :: (body ++ r)) (byteSize a) (byteSize (a ++ '{' :: body)) =
      some (if isBounds body then .repetition
        else if namedOver false false a then .classEscape else .literal) := by
  have hslice : slice? (a ++ '{' :: (body ++ r)) (byteSize a + 1)
      (byteSize (a ++ '{' :: body)) = some body := by
    refine Text.slice?_eq_some_iff.2 ⟨a ++ ['{'], r, by simp, ?_, ?_⟩
    · simp [Char.utf8Size]
    · simp [Nat.add_assoc]
  rw [kindAt?, hslice, followsClassEscape_byteSize, Option.map_some]

/-- Nothing is escaped and no class is about to be named after a text. -/
structure IsFresh (a : Text) : Prop where
  armed_eq : armedOver false a = false
  named_eq : namedOver false false a = false

theorem isFresh_nil :
    IsFresh [] :=
  ⟨rfl, rfl⟩

theorem isFresh_append_brace
    (a : Text) {c : Char}
    (hc : c = '{' ∨ c = '}') :
    IsFresh (a ++ [c]) := by
  constructor
  · rcases hc with rfl | rfl
    all_goals simp [Escape.armedBy, Escape.escapeChar]
  · rcases hc with rfl | rfl
    all_goals simp [namedBy]

/-- The findings in `r`, which stands in the pattern `s` after `a`. -/
def findingsAt (s a r : Text) : List Finding :=
  findingsFrom s (byteSize a) (occurrencesFrom openBrace 0 (byteSize a) r)

variable {s a k body r : Text}

theorem findingsAt_of_notMem
    (s a : Text)
    (hr : '{' ∉ r) :
    findingsAt s a r = [] := by
  rw [findingsAt, openBrace, Text.occurrencesFrom_of_notMem hr, findingsFrom]

theorem occurrencesFrom_openBrace
    (a r : Text)
    (hk : '{' ∉ k) :
    occurrencesFrom openBrace 0 (byteSize a) (k ++ '{' :: r) =
      byteSize (a ++ k) ::
        occurrencesFrom openBrace 0 (byteSize (a ++ k ++ ['{'])) r := by
  have hfound := Text.occurrencesFrom_found
    (List.cons_ne_nil '{' []) (byteSize a + byteSize k) r
  rw [List.singleton_append, ← Text.byteSize_append, ← Text.byteSize_append] at hfound
  rw [openBrace, Text.occurrencesFrom_append_of_notMem hk, ← Text.byteSize_append, hfound]

theorem not_byteSize_append_lt (a k : Text) :
    ¬byteSize (a ++ k) < byteSize a :=
  Nat.not_lt.2 (Text.byteSize_le_append a k)

theorem byteSize_append_brace
    (a : Text) {c : Char}
    (hc : c = '{' ∨ c = '}') :
    byteSize a + 1 = byteSize (a ++ [c]) := by
  rcases hc with rfl | rfl
  all_goals simp [Char.utf8Size]

theorem IsFresh.isEscapedAt_eq
    (ha : IsFresh a) (hs : a ++ k ++ '{' :: r = s) :
    isEscapedAt s (byteSize (a ++ k)) = armedOver false k := by
  rw [← hs, Escape.isEscapedAt_byteSize, Escape.armedOver_append, ha.armed_eq]

theorem findingsAt_escaped
    (ha : IsFresh a) (hs : a ++ k ++ '{' :: r = s) (hk : '{' ∉ k)
    (harmed : armedOver false k = true) :
    findingsAt s a (k ++ '{' :: r) =
      .escaped (byteSize (a ++ k)) :: findingsAt s (a ++ k ++ ['{']) r := by
  rw [findingsAt, occurrencesFrom_openBrace a r hk, findingsFrom,
    if_neg (not_byteSize_append_lt a k), ha.isEscapedAt_eq hs, if_pos harmed,
    byteSize_append_brace (a ++ k) (.inl rfl), findingsAt]

theorem find?_closeBrace_of_notMem
    (hs : a ++ '{' :: r = s) (hr : '}' ∉ r) :
    find? closeBrace s (byteSize a) = none := by
  have hnot : '}' ∉ '{' :: r := by simp [hr]
  rw [← hs, closeBrace, Text.find?_of_notMem hnot]

theorem find?_closeBrace
    (hs : a ++ '{' :: (body ++ '}' :: r) = s) (hbody : '}' ∉ body) :
    find? closeBrace s (byteSize a) = some (byteSize (a ++ '{' :: body)) := by
  have hnot : '}' ∉ '{' :: body := by simp [hbody]
  have hfound := Text.find?_append_of_notMem (d := []) hnot a r
  rw [← hs]
  exact hfound

theorem findingsAt_unclosed
    (ha : IsFresh a) (hs : a ++ k ++ '{' :: r = s) (hk : '{' ∉ k)
    (harmed : armedOver false k = false) (hr : '}' ∉ r) :
    findingsAt s a (k ++ '{' :: r) = [.unclosed (byteSize (a ++ k))] := by
  rw [findingsAt, occurrencesFrom_openBrace a r hk, findingsFrom,
    if_neg (not_byteSize_append_lt a k), ha.isEscapedAt_eq hs, harmed,
    if_neg Bool.false_ne_true, find?_closeBrace_of_notMem hs hr]

/-- A brace that is closed starts a span, or it stands for itself and reading goes on
just after it. -/
theorem findingsAt_closed
    (ha : IsFresh a) (hs : a ++ k ++ '{' :: (body ++ '}' :: r) = s) (hk : '{' ∉ k)
    (harmed : armedOver false k = false) (hbody : '}' ∉ body) :
    findingsAt s a (k ++ '{' :: (body ++ '}' :: r)) =
      if isBounds body || namedOver false false k then
        .span (byteSize (a ++ k)) (byteSize (a ++ k ++ '{' :: body ++ ['}'])) ::
          findingsAt s (a ++ k ++ '{' :: body ++ ['}']) r
      else
        .literal (byteSize (a ++ k)) (byteSize (a ++ k ++ '{' :: body)) ::
          findingsAt s (a ++ k ++ ['{']) (body ++ '}' :: r) := by
  have hkind := kindAt?_byteSize (a ++ k) body ('}' :: r)
  rw [hs, namedOver_append, ha.armed_eq, ha.named_eq] at hkind
  have hskip := findingsFrom_skip s (a ++ k ++ ['{']) (body ++ ['}']) r
  have hstart : a ++ k ++ ['{'] ++ (body ++ ['}']) = a ++ k ++ '{' :: body ++ ['}'] := by
    simp
  rw [hstart] at hskip
  simp only [List.append_assoc body, List.singleton_append] at hskip
  rw [findingsAt, occurrencesFrom_openBrace a _ hk, findingsFrom,
    if_neg (not_byteSize_append_lt a k), ha.isEscapedAt_eq hs, harmed,
    if_neg Bool.false_ne_true]
  simp only [find?_closeBrace hs hbody, hkind, byteSize_append_brace (a ++ k) (.inl rfl),
    byteSize_append_brace (a ++ k ++ '{' :: body) (.inr rfl), hskip, findingsAt]
  cases isBounds body with
  | true => rfl
  | false => cases namedOver false false k <;> rfl

/-- The findings of what is left of a pattern, if it goes on after a brace or has just
started. -/
theorem reads_findingsAt (ha : IsFresh a) (hs : a ++ r = s) :
    Reads a r (findingsAt s a r) := by
  induction hlength : r.length using Nat.strongRecOn generalizing a r with
  | _ n ih =>
    by_cases hopen : '{' ∈ r
    · obtain ⟨k, r, rfl, hk⟩ := List.eq_append_cons_of_mem hopen
      have hs' : a ++ k ++ '{' :: r = s := by rw [← hs, List.append_assoc]
      have hlater : r.length < n := by
        rw [← hlength, List.length_append, List.length_cons]
        omega
      have hrest : Reads (a ++ k ++ ['{']) r (findingsAt s (a ++ k ++ ['{']) r) :=
        ih r.length hlater (isFresh_append_brace (a ++ k) (.inl rfl))
          (by rw [← hs']; simp) rfl
      cases harmed : armedOver false k with
      | true =>
        rw [findingsAt_escaped ha hs' hk harmed]
        exact .escaped a k r _ hk harmed hrest
      | false =>
        by_cases hclose : '}' ∈ r
        · obtain ⟨body, r, rfl, hbody⟩ := List.eq_append_cons_of_mem hclose
          have hshorter : r.length < n := by
            rw [List.length_append, List.length_cons] at hlater
            omega
          rw [findingsAt_closed ha hs' hk harmed hbody]
          cases hspan : isBounds body || namedOver false false k with
          | true =>
            rw [if_pos rfl]
            refine .span a k body r _ hk harmed hbody hspan ?_
            exact ih r.length hshorter
              (isFresh_append_brace (a ++ k ++ '{' :: body) (.inr rfl))
              (by rw [← hs']; simp) rfl
          | false =>
            rw [if_neg Bool.false_ne_true]
            exact .literal a k body r _ hk harmed hbody hspan hrest
        · rw [findingsAt_unclosed ha hs' hk harmed hclose]
          exact .unclosed a k r hk harmed hclose
    · rw [findingsAt_of_notMem s a hopen]
      exact .none a r hopen

theorem reads_findings (s : Text) :
    Reads [] s (findings s) :=
  reads_findingsAt isFresh_nil rfl

end PatternText.Pattern.Brace
