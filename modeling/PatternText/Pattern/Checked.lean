import PatternText.Pattern.Dialect
import PatternText.Pattern.Glob
import PatternText.Token.Checked

/-!
# Patterns with checked cuts

Escaping braces, expanding references to classes and deriving a glob, as loops that compute
the positions at which they cut a pattern.  Expanding takes any table of names, since no
cut depends on what a reference is replaced by.
-/

namespace PatternText.Pattern

open Text (before? byteSize find? seek? slice? sliceBytes? sliceFrom?)
open Escape (escapeText isEscapedAt? protect? revealAll?)
open Token (split?)

namespace Brace

def followsClassEscape? (s : Text) (pos : Nat) : Option Bool := do
  if 1 < pos then
    let start ← before? pos 2
    let read ← sliceBytes? (Text.bytes s) start pos
    let armed ← isEscapedAt? s start
    return (read == Text.bytes ['\\', 'p'] || read == Text.bytes ['\\', 'P']) && !armed
  else
    return false

def classify? (s : Text) (start stop : Nat) : Option Kind := do
  let body ← slice? s (start + 1) stop
  if isBounds body then
    return .repetition
  else if ← followsClassEscape? s start then
    return .classEscape
  else
    return .literal

/-- What is written from an opening brace on, and where reading goes on. -/
def write? (s : Text) (pos : Nat) : Option (Text × Nat) := do
  if ← isEscapedAt? s pos then
    return (openBrace, pos + 1)
  else
    match ← seek? closeBrace s pos with
    | none =>
      let rest ← sliceFrom? s pos
      return (← protect? openBrace rest, byteSize s)
    | some close =>
      -- A span is written as it is; a brace for itself is quoted with it in the log.
      let span ← slice? s pos (close + 1)
      match ← classify? s pos close with
      | .repetition | .classEscape => return (span, close + 1)
      | .literal => return (escapeText ++ openBrace, pos + 1)

theorem lt_of_write?
    {s written : Text} {pos next : Nat}
    (hpos : pos < byteSize s) (h : write? s pos = some (written, next)) :
    pos < next := by
  unfold write? at h
  obtain ⟨armed, -, h⟩ := Option.bind_eq_some_iff.1 h
  split at h
  · obtain ⟨-, rfl⟩ := Prod.mk.inj (Option.some.inj h)
    exact Nat.lt_succ_self pos
  · obtain ⟨found, hfound, h⟩ := Option.bind_eq_some_iff.1 h
    cases found with
    | none =>
      obtain ⟨rest, -, h⟩ := Option.bind_eq_some_iff.1 h
      obtain ⟨t, -, h⟩ := Option.bind_eq_some_iff.1 h
      obtain ⟨-, rfl⟩ := Prod.mk.inj (Option.some.inj h)
      exact hpos
    | some close =>
      have hclose := (Text.le_of_seek? hfound).1
      obtain ⟨span, -, h⟩ := Option.bind_eq_some_iff.1 h
      obtain ⟨kind, -, h⟩ := Option.bind_eq_some_iff.1 h
      cases kind
      all_goals
        obtain ⟨-, rfl⟩ := Prod.mk.inj (Option.some.inj h)
        omega

/-- The pattern from a position on, with every brace escaped that stands for itself. -/
def escapeFrom? (s : Text) (start : Nat) : Option Text :=
  match _hopen : seek? openBrace s start with
  | none => none
  | some none => do protect? closeBrace (← sliceFrom? s start)
  | some (some pos) =>
    match _hwrite : write? s pos with
    | none => none
    | some (written, next) => do
      let kept ← protect? closeBrace (← slice? s start pos)
      let rest ← escapeFrom? s next
      return kept ++ written ++ rest
termination_by byteSize s - start
decreasing_by
  have hsize : byteSize openBrace = 1 := rfl
  have hfound := Text.le_of_seek? _hopen
  have hnext := lt_of_write? (by omega) _hwrite
  omega

theorem escapeFrom?_round (s : Text) (start : Nat) :
    escapeFrom? s start =
      (seek? openBrace s start).bind fun
        | none => (sliceFrom? s start).bind (protect? closeBrace)
        | some pos =>
          (write? s pos).bind fun part =>
            (slice? s start pos).bind fun gap =>
              (protect? closeBrace gap).bind fun kept =>
                (escapeFrom? s part.2).bind fun rest => some (kept ++ part.1 ++ rest) := by
  rw [escapeFrom?]
  split
  · rename_i hopen
    rw [hopen]
    rfl
  · rename_i hopen
    rw [hopen]
    rfl
  · rename_i hopen
    rw [hopen]
    split
    all_goals
      rename_i hwrite
      simp only [Option.bind_some, hwrite]
      rfl

end Brace

def escapeLiteralBraces? (s : Text) : Option Text :=
  Brace.escapeFrom? s 0

namespace PosixClass

/-- What a table has for the name with which the text after `[:` starts, and what follows
the reference.  Nothing is looked up if the reference is escaped. -/
def lookUp?
    (table : Text → Option Text) (armed : Bool) (after : Text) :
    Option (Option (Text × Text)) := do
  if armed then
    return none
  else
    match find? closing after 0 with
    | none => return none
    | some close =>
      let name ← slice? after 0 close
      match table name with
      | none => return none
      | some text =>
        let later ← sliceFrom? after (close + byteSize closing)
        return some (text, later)

theorem byteSize_le_of_lookUp?
    {table : Text → Option Text} {armed : Bool} {after text later : Text}
    (h : lookUp? table armed after = some (some (text, later))) :
    byteSize later ≤ byteSize after := by
  unfold lookUp? at h
  split at h
  · simp at h
  · split at h
    · simp at h
    · obtain ⟨name, -, h⟩ := Option.bind_eq_some_iff.1 h
      split at h
      · simp at h
      · obtain ⟨t, ht, h⟩ := Option.bind_eq_some_iff.1 h
        have hsize := Text.add_byteSize_of_sliceFrom? ht
        obtain ⟨-, rfl⟩ := Prod.mk.inj (Option.some.inj (Option.some.inj h))
        omega

/-- What is written up to the end of the next reference in the rest of the pattern `s`, and
what is left then.  If the reference is not replaced, only its bracket is passed, since
another may start within it. -/
def replaceNext?
    (table : Text → Option Text) (s rest : Text) : Option (Option (Text × Text)) := do
  match find? opening rest 0 with
  | none => return none
  | some start =>
    let after ← sliceFrom? rest (start + byteSize opening)
    let read ← before? (byteSize s) (byteSize rest)
    let armed ← isEscapedAt? s (read + start)
    match ← lookUp? table armed after with
    | some (text, later) =>
      let kept ← slice? rest 0 start
      return some (kept ++ text, later)
    | none =>
      let kept ← slice? rest 0 (start + 1)
      let later ← sliceFrom? rest (start + 1)
      return some (kept, later)

theorem byteSize_lt_of_replaceNext?
    {table : Text → Option Text} {s rest written later : Text}
    (h : replaceNext? table s rest = some (some (written, later))) :
    byteSize later < byteSize rest := by
  have hopening : byteSize opening = 2 := rfl
  unfold replaceNext? at h
  split at h
  · simp at h
  · obtain ⟨after, hafter, h⟩ := Option.bind_eq_some_iff.1 h
    obtain ⟨read, -, h⟩ := Option.bind_eq_some_iff.1 h
    obtain ⟨armed, -, h⟩ := Option.bind_eq_some_iff.1 h
    obtain ⟨found, hfound, h⟩ := Option.bind_eq_some_iff.1 h
    cases found with
    | some entry =>
      have hsize := Text.add_byteSize_of_sliceFrom? hafter
      have hle := byteSize_le_of_lookUp? hfound
      obtain ⟨kept, -, h⟩ := Option.bind_eq_some_iff.1 h
      obtain ⟨-, rfl⟩ := Prod.mk.inj (Option.some.inj (Option.some.inj h))
      omega
    | none =>
      obtain ⟨kept, -, h⟩ := Option.bind_eq_some_iff.1 h
      obtain ⟨t, ht, h⟩ := Option.bind_eq_some_iff.1 h
      have hsize := Text.add_byteSize_of_sliceFrom? ht
      obtain ⟨-, rfl⟩ := Prod.mk.inj (Option.some.inj (Option.some.inj h))
      omega

/-- The rest of the pattern `s`, with every reference replaced whose name is in a table. -/
def replaceFrom? (table : Text → Option Text) (s rest : Text) : Option Text :=
  match _h : replaceNext? table s rest with
  | none => none
  | some none => some rest
  | some (some (written, later)) => (replaceFrom? table s later).map (written ++ ·)
termination_by byteSize rest
decreasing_by exact byteSize_lt_of_replaceNext? _h

theorem replaceFrom?_round
    (table : Text → Option Text) (s rest : Text) :
    replaceFrom? table s rest =
      (replaceNext? table s rest).bind fun
        | none => some rest
        | some (written, later) => (replaceFrom? table s later).map (written ++ ·) := by
  rw [replaceFrom?]
  split
  all_goals
    rename_i h
    rw [h]
    rfl

/-- The spelling of the class among the given ones that has a name. -/
def spelled?
    (classes : List PosixClass) (spelling : Spelling) (n : Text) : Option Text :=
  (named? classes n).map spelling

def expand?
    (classes : List PosixClass) (spelling : Spelling) (s : Text) : Option Text :=
  replaceFrom? (spelled? classes spelling) s s

end PosixClass

def Dialect.translate? (dialect : Dialect) (s : Text) : Option Text := do
  match dialect with
  | .java => PosixClass.expand? PosixClass.all dialect.spelling (← escapeLiteralBraces? s)
  | .dotNet => revealAll? [['_']] (← PosixClass.expand? PosixClass.all dialect.spelling s)

namespace Glob

def ofFragment? (s : Text) : Option (Except Error Text) := do
  let parts ← split? ⟨literalDot, false, false⟩ s
  return List.intercalate ['.'] <$> parts.mapM literal

def ofBody? (s : Text) : Option (Except Error Text) := do
  let parts ← split? ⟨anything, false, false⟩ s
  let fragments ← parts.mapM ofFragment?
  return List.intercalate ['*'] <$> fragments.mapM id

def ofPattern? (s : Text) : Option (Except Error Text) :=
  match afterStart? s with
  | none => some (.error .unanchored)
  | some body => ofBody? (beforeEnd body)

end Glob
end PatternText.Pattern
