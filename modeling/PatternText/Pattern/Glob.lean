import PatternText.Token.Session

/-!
# Globs from patterns

A glob can say what a pattern says if the pattern is anchored at the start and
consists of literal characters, escaped dots and `.*`.  The glob writes `.*` as
`*` and an escaped dot as a dot.  A pattern that is not anchored at the end may
go on, so its glob ends in `*`.  Nothing else is derived: a pattern either has
an equivalent glob or is refused.
-/

namespace PatternText.Pattern

open Token (split)

namespace Glob

/-- What matches any text in a pattern. -/
def anything : Text := ['.', '*']

def literalDot : Text := ['\\', '.']

/-- Why a pattern has no glob. -/
inductive Error where
  /-- The pattern may match later than at the start. -/
  | unanchored
  /-- A part that has to be literal holds a metacharacter. -/
  | notLiteral (fragment : Text)
  deriving DecidableEq, Repr

def Error.message : Error → Text
  | .unanchored => "Pattern must start with '^' or '.*'".toList
  | .notLiteral fragment => "contains regex: ".toList ++ fragment

/-- The pattern after its start anchor, if it has one. -/
def afterStart? (s : Text) : Option Text :=
  match s with
  | '^' :: body => some body
  | _ => if anything.isPrefixOf s then some s else none

/-- The pattern before its end anchor; without one, it may go on with anything. -/
def beforeEnd (s : Text) : Text :=
  if s.getLast? = some '$' then
    s.dropLast
  else if anything.isSuffixOf s then
    s
  else
    s ++ anything

/-- A text that stands for itself, or the error that it does not. -/
def literal (s : Text) : Except Error Text :=
  if Escape.hasMeta s then .error (.notLiteral s) else .ok s

/-- The glob for a part of a pattern between two wildcards. -/
def ofFragment (s : Text) : Except Error Text :=
  (List.intercalate ['.']) <$> (split ⟨literalDot, false, false⟩ s).mapM literal

/-- The glob for a pattern without its anchors. -/
def ofBody (s : Text) : Except Error Text :=
  (List.intercalate ['*']) <$> (split ⟨anything, false, false⟩ s).mapM ofFragment

/-- The glob that matches the same texts as a pattern. -/
def ofPattern (s : Text) : Except Error Text :=
  match afterStart? s with
  | none => .error .unanchored
  | some body => ofBody (beforeEnd body)

end Glob
end PatternText.Pattern
