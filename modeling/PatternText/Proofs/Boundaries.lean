import PatternText.Pattern.Checked
import PatternText.Proofs.Pattern.BraceReading
import PatternText.Proofs.Pattern.ClassReading
import PatternText.Proofs.Token.Checked

/-!
# Every cut is possible

Patterns are cut at boundaries only, as texts and tokens are.  So no operation gives up.
-/

namespace PatternText.Pattern

open Text (before? byteSize find? slice? sliceBytes? sliceFrom?)
open Escape (armedBy armedOver escapeChar escapeText isEscapedAt protect? protectChars)

/-!
## Patterns

The loops that escape braces and expand references to classes check every position that
they compute, and still give what one reading of the pattern gives.  Braces are followed
along the findings of a pattern.  References are followed twice: for any table, to see that
there is always a result, and for the spelling of some classes, to see which it is.
-/

variable {a k body r s : Text}

namespace Brace

/-! ### Classifying a brace -/

theorem followsClassEscape?_eq
    {pos : Nat}
    (hpos : pos ≤ byteSize s) :
    followsClassEscape? s pos = some (followsClassEscape s pos) := by
  have hend : pos ≤ (Text.bytes s).length := by rwa [Text.length_bytes]
  rw [followsClassEscape?, followsClassEscape]
  split
  · rename_i htwo
    have hstart : before? pos 2 = some (pos - 2) := if_pos htwo
    have hread : sliceBytes? (Text.bytes s) (pos - 2) pos =
        some (((Text.bytes s).take pos).drop (pos - 2)) :=
      if_pos ⟨Nat.sub_le pos 2, hend⟩
    simp [hstart, hread, htwo]
  · rename_i htwo
    simp [htwo]

/-- Only the part between two positions can fail to be cut when the brace at the first is
classified. -/
theorem classify?_eq (s : Text) (start stop : Nat) :
    classify? s start stop = kindAt? s start stop := by
  rw [classify?, kindAt?]
  cases hbody : slice? s (start + 1) stop with
  | none => rfl
  | some body =>
    obtain ⟨x, y, rfl, hx, -⟩ := Text.slice?_eq_some_iff.1 hbody
    have hstart : start ≤ byteSize (x ++ body ++ y) := by
      simp only [Text.byteSize_append]
      omega
    simp only [Option.bind_eq_bind, Option.bind_some, followsClassEscape?_eq hstart,
      Option.pure_def, Option.map_some]
    split
    · rfl
    · split <;> rfl

/-! ### Writing a brace -/

theorem protect?_brace
    {c : Char}
    (hc : c = '{' ∨ c = '}') (k : Text) :
    protect? [c] k = some (protectChars [c] false k) := by
  have hne : c ≠ escapeChar := by
    rcases hc with rfl | rfl
    all_goals decide
  rw [Escape.protect?_eq, Escape.protect_singleton hne]

theorem write?_escaped
    (ha : IsFresh a) (hs : a ++ k ++ '{' :: r = s) (harmed : armedOver false k = true) :
    write? s (byteSize (a ++ k)) = some (openBrace, byteSize (a ++ k ++ ['{'])) := by
  rw [write?, ← byteSize_append_brace (a ++ k) (.inl rfl)]
  simp only [Escape.isEscapedAt?_eq, ha.isEscapedAt_eq hs, harmed, Option.bind_eq_bind,
    Option.bind_some, if_true, Option.pure_def]

theorem write?_unclosed
    (ha : IsFresh a) (hs : a ++ k ++ '{' :: r = s) (harmed : armedOver false k = false)
    (hr : '}' ∉ r) :
    write? s (byteSize (a ++ k)) = some (protectChars ['{'] false ('{' :: r), byteSize s) := by
  have hprotect : protect? openBrace ('{' :: r) =
      some (protectChars ['{'] false ('{' :: r)) :=
    protect?_brace (.inl rfl) ('{' :: r)
  rw [write?]
  simp only [Escape.isEscapedAt?_eq, ha.isEscapedAt_eq hs, harmed, Option.bind_eq_bind,
    Option.bind_some, Bool.false_eq_true, if_false, Text.seek?_byteSize _ hs,
    find?_closeBrace_of_notMem hs hr, Text.sliceFrom?_byteSize hs, hprotect, Option.pure_def]

theorem write?_closed
    (ha : IsFresh a) (hs : a ++ k ++ '{' :: (body ++ '}' :: r) = s)
    (harmed : armedOver false k = false) (hbody : '}' ∉ body) :
    write? s (byteSize (a ++ k)) =
      some (if isBounds body || namedOver false false k then
        ('{' :: body ++ ['}'], byteSize (a ++ k ++ '{' :: body ++ ['}']))
      else
        (escapeText ++ openBrace, byteSize (a ++ k ++ ['{']))) := by
  have hspan : slice? s (byteSize (a ++ k)) (byteSize (a ++ k ++ '{' :: body ++ ['}'])) =
      some ('{' :: body ++ ['}']) := by
    rw [List.append_assoc (a ++ k)]
    exact Text.slice?_byteSize (r := r) (by rw [← hs]; simp)
  have hkind := kindAt?_byteSize (a ++ k) body ('}' :: r)
  rw [hs, namedOver_append, ha.armed_eq, ha.named_eq] at hkind
  rw [write?]
  simp only [Escape.isEscapedAt?_eq, ha.isEscapedAt_eq hs, harmed, Option.bind_eq_bind,
    Option.bind_some, Bool.false_eq_true, if_false, Text.seek?_byteSize _ hs,
    find?_closeBrace hs hbody, hspan, classify?_eq, hkind,
    byteSize_append_brace (a ++ k) (.inl rfl),
    byteSize_append_brace (a ++ k ++ '{' :: body) (.inr rfl), Option.pure_def]
  cases isBounds body with
  | true => rfl
  | false => cases namedOver false false k <;> rfl

/-! ### Along the findings -/

/-- Up to the next opening brace the closing ones are escaped; then this brace is written,
and the loop goes on where it was left. -/
theorem escapeFrom?_step
    {written rest : Text} {next : Nat}
    (hk : '{' ∉ k) (hs : a ++ k ++ '{' :: r = s)
    (hwrite : write? s (byteSize (a ++ k)) = some (written, next))
    (hrest : escapeFrom? s next = some rest) :
    escapeFrom? s (byteSize a) = some (protectChars ['}'] false k ++ written ++ rest) := by
  have hfind : find? openBrace s (byteSize a) = some (byteSize (a ++ k)) := by
    have hfound := Text.find?_append_of_notMem (d := []) hk a r
    rw [← hs, List.append_assoc]
    exact hfound
  have hseek := Text.seek?_byteSize openBrace ((List.append_assoc _ _ _).symm.trans hs)
  rw [escapeFrom?_round, hseek, hfind, closeBrace]
  simp only [Option.bind_some, hwrite, Text.slice?_byteSize hs, protect?_brace (.inr rfl),
    hrest]

theorem escapeFrom?_of_notMem (hr : '{' ∉ r) (hs : a ++ r = s) :
    escapeFrom? s (byteSize a) = some (readingFrom false false r) := by
  have hread := readingFrom_append false false hr []
  rw [List.append_nil, readingFrom_nil, List.append_nil] at hread
  have hfind : find? openBrace s (byteSize a) = none := by
    rw [← hs, openBrace, Text.find?_of_notMem hr]
  rw [escapeFrom?_round, Text.seek?_byteSize _ hs, hfind, closeBrace, hread]
  simp only [Option.bind_some, Text.sliceFrom?_byteSize hs, protect?_brace (.inr rfl)]

theorem escapeFrom?_byteSize
    {found : List Finding}
    (h : Reads a r found) (ha : IsFresh a) (hs : a ++ r = s) :
    escapeFrom? s (byteSize a) = some (readingFrom false false r) := by
  induction h with
  | none a r hr => exact escapeFrom?_of_notMem hr hs
  | escaped a k r later hk harmed _ ih =>
    have hs' : a ++ k ++ '{' :: r = s := (List.append_assoc _ _ _).trans hs
    have hrest := ih (isFresh_append_brace (a ++ k) (.inl rfl)) (by rw [← hs']; simp)
    have hread := readingFrom_append false false hk ('{' :: r)
    rw [harmed, readingFrom_armed, namedBy_of_ne true (by decide) (by decide)] at hread
    rw [escapeFrom?_step hk hs' (write?_escaped ha hs' harmed) hrest, hread]
    simp [openBrace]
  | span a k body r later hk harmed hbody hspan _ ih =>
    have hs' : a ++ k ++ '{' :: (body ++ '}' :: r) = s :=
      (List.append_assoc _ _ _).trans hs
    have hrest := ih (isFresh_append_brace (a ++ k ++ '{' :: body) (.inr rfl))
      (by rw [← hs']; simp)
    have hread := readingFrom_append false false hk ('{' :: (body ++ '}' :: r))
    rw [harmed, readingFrom_closed _ hbody, hspan, if_pos rfl] at hread
    have hwrite := write?_closed ha hs' harmed hbody
    rw [hspan, if_pos rfl] at hwrite
    rw [escapeFrom?_step hk hs' hwrite hrest, hread]
    simp
  | literal a k body r later hk harmed hbody hspan _ ih =>
    have hs' : a ++ k ++ '{' :: (body ++ '}' :: r) = s :=
      (List.append_assoc _ _ _).trans hs
    have hrest := ih (isFresh_append_brace (a ++ k) (.inl rfl)) (by rw [← hs']; simp)
    have hread := readingFrom_append false false hk ('{' :: (body ++ '}' :: r))
    rw [harmed, readingFrom_closed _ hbody, hspan, if_neg Bool.false_ne_true] at hread
    have hwrite := write?_closed ha hs' harmed hbody
    rw [hspan, if_neg Bool.false_ne_true] at hwrite
    rw [escapeFrom?_step hk hs' hwrite hrest, hread]
    simp [openBrace, escapeText]
  | unclosed a k r hk harmed hr =>
    have hs' : a ++ k ++ '{' :: r = s := (List.append_assoc _ _ _).trans hs
    have hend := escapeFrom?_of_notMem List.not_mem_nil (List.append_nil s)
    rw [readingFrom_nil] at hend
    have hread := readingFrom_append false false hk ('{' :: r)
    have hnot : '}' ∉ '{' :: r := by simp [hr]
    rw [harmed, readingFrom_of_notMem _ _ hnot] at hread
    rw [escapeFrom?_step hk hs' (write?_unclosed ha hs' harmed hr) hend, hread,
      List.append_nil]

end Brace

theorem escapeLiteralBraces?_eq (s : Text) :
    escapeLiteralBraces? s = some (escapeLiteralBraces s) := by
  rw [Brace.escapeLiteralBraces_eq_reading]
  exact Brace.escapeFrom?_byteSize (Brace.reads_findings s) Brace.isFresh_nil rfl

namespace PosixClass

open Token (cut?)

variable {classes : List PosixClass} {spelling : Spelling} {table : Text → Option Text}
variable {x y : Text}

/-! ### References -/

/-- What a table has for the name with which the text after `[:` starts, and what follows
the reference. -/
def listed?
    (table : Text → Option Text) (armed : Bool) (after : Text) : Option (Text × Text) :=
  if armed then
    none
  else
    (cut? closing after).bind fun parts => (table parts.1).map fun text => (text, parts.2)

theorem suffix_of_listed?
    {armed : Bool} {text later : Text}
    (h : listed? table armed y = some (text, later)) :
    later <:+ y := by
  cases armed with
  | true => exact absurd h (Option.some_ne_none _).symm
  | false =>
    obtain ⟨⟨n, z⟩, hcut, hentry⟩ := Option.bind_eq_some_iff.1 h
    obtain ⟨text', -, heq⟩ := Option.map_eq_some_iff.1 hentry
    obtain ⟨-, rfl⟩ := Prod.mk.inj heq
    exact ⟨n ++ closing, (Token.eq_append_of_cut? hcut).symm⟩

theorem lookUp?_eq
    (table : Text → Option Text) (armed : Bool) (y : Text) :
    lookUp? table armed y = some (listed? table armed y) := by
  have hne : closing ≠ [] := List.cons_ne_nil ':' [']']
  rw [lookUp?, Token.find?_zero hne, listed?]
  cases armed with
  | true => rfl
  | false =>
    cases hcut : cut? closing y with
    | none => rfl
    | some parts =>
      obtain ⟨n, z⟩ := parts
      have hy := Token.eq_append_of_cut? hcut
      have hname : slice? y 0 (byteSize n) = some n := by
        rw [hy, List.append_assoc, Text.slice?_zero]
      have hlater : sliceFrom? y (byteSize n + byteSize closing) = some z := by
        rw [← Text.byteSize_append, Text.sliceFrom?_byteSize hy.symm]
      cases htable : table n with
      | none => simp [hname, htable]
      | some text => simp [hname, htable, hlater]

theorem replaceFrom?_of_cut? (h : cut? opening r = none) :
    replaceFrom? table s r = some r := by
  rw [replaceFrom?_round, replaceNext?, Token.find?_zero opening_ne_nil, h]
  rfl

/-- The next reference is replaced if the table has an entry for it; otherwise its bracket
is kept and what stands after that is searched. -/
theorem replaceFrom?_found
    (hs : a ++ r = s) (hcut : cut? opening r = some (x, y)) :
    replaceFrom? table s r =
      match listed? table (armedOver false (a ++ x)) y with
      | some (text, later) => (replaceFrom? table s later).map (x ++ text ++ ·)
      | none => (replaceFrom? table s (':' :: y)).map (x ++ ['['] ++ ·) := by
  have hr := Token.eq_append_of_cut? hcut
  have hfind : find? opening r 0 = some (byteSize x) := by
    rw [Token.find?_zero opening_ne_nil, hcut, Option.map_some]
  have hafter : sliceFrom? r (byteSize x + byteSize opening) = some y := by
    rw [← Text.byteSize_append, Text.sliceFrom?_byteSize hr.symm]
  have hread : before? (byteSize s) (byteSize r) = some (byteSize a) := by
    rw [← hs, Text.before?_byteSize]
  have hs' : a ++ x ++ (opening ++ y) = s := by
    rw [← hs, hr]
    simp
  have harmed : isEscapedAt s (byteSize a + byteSize x) = armedOver false (a ++ x) := by
    rw [← Text.byteSize_append, Escape.isEscapedAt_of_append hs']
  have hkept : slice? r 0 (byteSize x) = some x := by
    rw [hr, List.append_assoc, Text.slice?_zero]
  have hone : byteSize x + 1 = byteSize (x ++ ['[']) := by simp [Char.utf8Size]
  have hparts : x ++ ['['] ++ ':' :: y = r := by simp [hr, opening]
  have hbracket : slice? r 0 (byteSize x + 1) = some (x ++ ['[']) := by
    rw [hone, ← hparts, Text.slice?_zero]
  have hinside : sliceFrom? r (byteSize x + 1) = some (':' :: y) := by
    rw [hone, Text.sliceFrom?_byteSize hparts]
  rw [replaceFrom?_round, replaceNext?, hfind]
  cases hlisted : listed? table (armedOver false (a ++ x)) y with
  | none =>
    simp only [hafter, hread, Escape.isEscapedAt?_eq, harmed, lookUp?_eq, hlisted, hbracket,
      hinside, Option.bind_eq_bind, Option.bind_some, Option.pure_def]
  | some entry =>
    simp only [hafter, hread, Escape.isEscapedAt?_eq, harmed, lookUp?_eq, hlisted, hkept,
      Option.bind_eq_bind, Option.bind_some, Option.pure_def]

theorem exists_replaceFrom?
    (table : Text → Option Text) (hs : a ++ r = s) :
    ∃ t, replaceFrom? table s r = some t := by
  induction hlength : r.length using Nat.strongRecOn generalizing a r with
  | _ n ih =>
    cases hcut : cut? opening r with
    | none => exact ⟨r, replaceFrom?_of_cut? hcut⟩
    | some parts =>
      obtain ⟨x, y⟩ := parts
      have hr := Token.eq_append_of_cut? hcut
      have hlater : ∀ b z, b ++ z = ':' :: y →
          ∃ t, replaceFrom? table s z = some t := by
        intro b z hz
        have hshorter := congrArg List.length hz
        refine ih z.length ?_ (a := a ++ x ++ ['['] ++ b) ?_ rfl
        · rw [← hlength, hr]
          simp only [opening, List.length_append, List.length_cons] at hshorter ⊢
          omega
        · rw [List.append_assoc _ b, hz, ← hs, hr]
          simp [opening]
      rw [replaceFrom?_found hs hcut]
      cases hentry : listed? table (armedOver false (a ++ x)) y with
      | none =>
        obtain ⟨t, ht⟩ := hlater [] (':' :: y) rfl
        exact ⟨_, congrArg (Option.map _) ht⟩
      | some entry =>
        obtain ⟨text, z⟩ := entry
        obtain ⟨b, hb⟩ := suffix_of_listed? hentry
        obtain ⟨t, ht⟩ := hlater (':' :: b) z (by rw [List.cons_append, hb])
        exact ⟨_, congrArg (Option.map _) ht⟩

/-! ### Classes -/

theorem listed?_reference
    {c : PosixClass}
    (hc : c ∈ classes) (r : Text) :
    listed? (spelled? classes spelling) false (c.name ++ (closing ++ r)) =
      some (spelling c, r) := by
  have hcut : cut? closing (c.name ++ (closing ++ r)) = some (c.name, r) :=
    Token.cut?_append_of_notMem (colon_notMem_name c) r
  rw [listed?, hcut]
  simp [spelled?, named?_name hc]

theorem listed?_of_not_prefix
    {armed : Bool}
    (h : armed = true ∨ ∀ c ∈ classes, ¬c.reference <+: opening ++ y) :
    listed? (spelled? classes spelling) armed y = none := by
  cases armed with
  | true => rfl
  | false =>
    have hnone := h.resolve_left Bool.false_ne_true
    rw [listed?, if_neg Bool.false_ne_true, Option.bind_eq_none_iff]
    rintro ⟨n, z⟩ hcut
    rw [Option.map_eq_none_iff, spelled?, Option.map_eq_none_iff, named?,
      List.find?_eq_none]
    intro c hc hname
    refine hnone c hc ⟨z, ?_⟩
    rw [reference, eq_of_beq hname, Token.eq_append_of_cut? hcut]
    simp

/-- Replacing by the spellings of classes comes to reading what is left of the pattern.
What has been passed since the last cut is `k`, in which no reference starts. -/
theorem replaceFrom?_spelled?
    {armed : Bool}
    (hs : a ++ (k ++ r) = s) (harmed : armedOver false (a ++ k) = armed)
    (hk : cut? opening (k ++ r) = (cut? opening r).map fun parts => (k ++ parts.1, parts.2)) :
    replaceFrom? (spelled? classes spelling) s (k ++ r) =
      some (k ++ reading classes spelling armed r) := by
  induction armed, r using reading_induction classes generalizing a k with
  | ended armed =>
    rw [reading_nil, replaceFrom?_of_cut? hk]
  | found c hc r ih =>
    have hparts : c.reference ++ r = opening ++ (c.name ++ (closing ++ r)) := by
      simp [reference]
    have hrest := ih (a := a ++ k ++ c.reference) (k := []) (by rw [← hs]; simp)
      (by rw [List.append_nil, Escape.armedOver_append, armedOver_reference]) (by simp)
    rw [List.nil_append, List.nil_append] at hrest
    have hcut : cut? opening (k ++ (c.reference ++ r)) =
        some (k, c.name ++ (closing ++ r)) := by
      rw [hk, hparts, Token.cut?_found opening_ne_nil, Option.map_some, List.append_nil]
    rw [replaceFrom?_found hs hcut, harmed, listed?_reference hc,
      reading_reference_append spelling hc]
    simp [hrest]
  | step armed c r h ih =>
    by_cases hopen : opening <+: c :: r
    · obtain ⟨y, hy⟩ := hopen
      have hrest := ih (a := a ++ k ++ [c]) (k := []) (by rw [← hs]; simp)
        (by rw [List.append_nil, Escape.armedOver_append, harmed]; rfl) (by simp)
      rw [List.nil_append, List.nil_append] at hrest
      have hcut : cut? opening (k ++ c :: r) = some (k, y) := by
        rw [hk, ← hy, Token.cut?_found opening_ne_nil, Option.map_some, List.append_nil]
      rw [replaceFrom?_found hs hcut, harmed, listed?_of_not_prefix (hy ▸ h),
        reading_step spelling h]
      obtain ⟨rfl, rfl⟩ : c = '[' ∧ r = ':' :: y := by
        obtain ⟨hc, hr⟩ := List.cons.inj hy
        exact ⟨hc.symm, hr.symm⟩
      simp [hrest]
    · have hlater : cut? opening (k ++ [c] ++ r) =
          (cut? opening r).map fun parts => (k ++ [c] ++ parts.1, parts.2) := by
        simp only [List.append_assoc, List.singleton_append, hk, Token.cut?_step hopen,
          Option.map_map]
        rfl
      have hrest := ih (a := a) (k := k ++ [c]) (by rw [← hs]; simp)
        (by rw [← List.append_assoc, Escape.armedOver_append, harmed]; rfl) hlater
      rw [List.append_assoc, List.append_assoc] at hrest
      rw [reading_step spelling h]
      exact hrest

theorem expand?_eq
    (classes : List PosixClass) (spelling : Spelling) (s : Text) :
    expand? classes spelling s = some (expand classes spelling s) := by
  rw [expand_eq_reading]
  exact replaceFrom?_spelled? (a := []) (k := []) rfl rfl (by simp)

end PosixClass

theorem Dialect.translate?_eq (dialect : Dialect) (s : Text) :
    dialect.translate? s = some (dialect.translate s) := by
  cases dialect with
  | java =>
    simp only [translate?, escapeLiteralBraces?_eq, Option.bind_eq_bind, Option.bind_some,
      PosixClass.expand?_eq]
    rfl
  | dotNet =>
    simp only [translate?, PosixClass.expand?_eq, Option.bind_eq_bind, Option.bind_some,
      Escape.revealAll?_eq]
    rfl

/-! ### Globs -/

namespace Glob

theorem ofFragment?_eq (s : Text) :
    ofFragment? s = some (ofFragment s) := by
  rw [ofFragment?, Token.split?_eq]
  rfl

theorem ofBody?_eq (s : Text) :
    ofBody? s = some (ofBody s) := by
  have hfragments : ofFragment? = fun s => pure (ofFragment s) := by
    funext s
    exact ofFragment?_eq s
  simp only [ofBody?, Token.split?_eq, hfragments, List.mapM_pure]
  simp only [Option.bind_eq_bind, Option.bind_some, Option.pure_def, List.mapM_map]
  rfl

theorem ofPattern?_eq (s : Text) :
    ofPattern? s = some (ofPattern s) := by
  rw [ofPattern?, ofPattern]
  cases afterStart? s with
  | none => rfl
  | some body => exact ofBody?_eq (beforeEnd body)

end Glob

end PatternText.Pattern

/-!
## All operations

The library computes byte positions and cuts texts there.  `cuts_possible` collects that it
never computes one at which a text cannot be cut: with every cut and every subtraction of
positions checked, each operation has a result, and it is the result without the checks.

Only the classification of a brace takes positions from outside.  Asked directly, it fails
exactly if the part between them cannot be cut; the operations never ask it so.
-/

namespace PatternText

open Text (byteSize)
open Token (Cursor SplitRule Request)
open Pattern (PosixClass Dialect)

/-- No operation cuts a text where that is not possible, or takes more from a position than
there is before it, whatever the texts, the delimiters and the tables are.  At any time a
cursor is at a boundary of its target, from which its next token can be read. -/
theorem cuts_possible :
    (∀ s pos, Escape.isEscapedAt? s pos = some (Escape.isEscapedAt s pos)) ∧
    (∀ d s, Escape.protect? d s = some (Escape.protect d s)) ∧
    (∀ ds s, Escape.protectAll? ds s = some (Escape.protectAll ds s)) ∧
    (∀ ds s, Escape.revealAll? ds s = some (Escape.revealAll ds s)) ∧
    (∀ rule target, Cursor.start? rule target = some (Cursor.start rule target)) ∧
    (∀ (rule : SplitRule) target (requests : List Request),
      let c := ((Cursor.start rule target).run requests).2
      c.scan? = some c.scan ∧ c.pointer ≤ byteSize c.target ∧
        ∃ a r, c.target = a ++ r ∧ c.pointer = byteSize a) ∧
    (∀ rule target, Token.split? rule target = some (Token.split rule target)) ∧
    (∀ s start stop,
      Pattern.Brace.classify? s start stop = Pattern.Brace.kindAt? s start stop) ∧
    (∀ s, Pattern.escapeLiteralBraces? s = some (Pattern.escapeLiteralBraces s)) ∧
    (∀ table s, ∃ t, PosixClass.replaceFrom? table s s = some t) ∧
    (∀ classes spelling s,
      PosixClass.expand? classes spelling s = some (PosixClass.expand classes spelling s)) ∧
    (∀ (dialect : Dialect) s, dialect.translate? s = some (dialect.translate s)) ∧
    (∀ s, Pattern.Glob.ofPattern? s = some (Pattern.Glob.ofPattern s)) := by
  have hcursor : ∀ (rule : SplitRule) target (requests : List Request),
      let c := ((Cursor.start rule target).run requests).2
      c.scan? = some c.scan ∧ c.pointer ≤ byteSize c.target ∧
        ∃ a r, c.target = a ++ r ∧ c.pointer = byteSize a := by
    intro rule target requests c
    obtain ⟨a, r, hbetween⟩ := Cursor.exists_between_run_start rule target requests
    refine ⟨hbetween.scan?_eq, ?_, a, r, hbetween.target_eq, hbetween.pointer_eq⟩
    rw [hbetween.target_eq, hbetween.pointer_eq, Text.byteSize_append]
    exact Nat.le_add_right _ _
  exact ⟨Escape.isEscapedAt?_eq, Escape.protect?_eq, Escape.protectAll?_eq,
    Escape.revealAll?_eq, Cursor.start?_eq, hcursor, Token.split?_eq,
    Pattern.Brace.classify?_eq, Pattern.escapeLiteralBraces?_eq,
    fun table s => PosixClass.exists_replaceFrom? table (List.nil_append s),
    PosixClass.expand?_eq, Dialect.translate?_eq, Pattern.Glob.ofPattern?_eq⟩

/-- There is no part of a text that starts within a character. -/
example : Pattern.Brace.classify? "é".toList 0 2 = none := by decide

end PatternText
