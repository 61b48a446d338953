import PatternText.Pattern.Dialect
import PatternText.Pattern.Glob
import PatternText.Text.Quoted

/-!
# Journal

Every decision that a reader of a pattern might wonder about has an entry in a
journal: which metacharacter was found live, which braces were taken for
literals, what came out in another dialect, and why a pattern has no glob.  The
entries are computed from the same findings as the results they explain.
-/

namespace PatternText.Journal

open Text (quoted slice)
open Pattern (Brace.Finding Dialect)

/-- How much an entry matters. -/
inductive Level where
  | trace
  | debug
  deriving DecidableEq, Repr

structure Entry where
  level : Level
  message : Text
  deriving DecidableEq, Repr

def decimal (n : Nat) : Text :=
  Nat.toDigits 10 n

def ofLiveMeta (s : Text) : List Entry :=
  match Escape.firstLiveMeta? s with
  | none => []
  | some (pos, c) =>
    [⟨.trace,
      "unescaped metacharacter ".toList ++ quoted [c] ++ " at ".toList ++
        decimal pos ++ " in ".toList ++ quoted s⟩]

/-- The entry about an opening brace that stands for itself, although a closing one
follows. -/
def literalEntry (s : Text) (pos close : Nat) : Entry :=
  ⟨.debug,
    "literal brace at ".toList ++ decimal pos ++ " in ".toList ++ quoted s ++
      ": ".toList ++ quoted (slice s pos (close + 1))⟩

/-- The entry about an opening brace that no closing one follows. -/
def unclosedEntry (pos : Nat) : Entry :=
  ⟨.trace, "unmatched '\x7b' at ".toList ++ decimal pos⟩

/-- The entry about one opening brace, if it stands for itself. -/
def ofFinding (s : Text) : Brace.Finding → Option Entry
  | .escaped _ => none
  | .span _ _ => none
  | .literal pos close => some (literalEntry s pos close)
  | .unclosed pos => some (unclosedEntry pos)

def ofBraces (s : Text) : List Entry :=
  (Pattern.Brace.findings s).filterMap (ofFinding s)

def ofTranslate (dialect : Dialect) (s : Text) : List Entry :=
  let summary : Entry :=
    ⟨.trace,
      dialect.label ++ ": ".toList ++ quoted s ++ " -> ".toList ++
        quoted (dialect.translate s)⟩
  match dialect with
  | .java => ofBraces s ++ [summary]
  | .dotNet => [summary]

def ofGlob (s : Text) : List Entry :=
  match Pattern.Glob.ofPattern s with
  | .ok _ => []
  | .error .unanchored =>
    [⟨.debug, "not a glob, unanchored: ".toList ++ quoted s⟩]
  | .error error =>
    [⟨.debug, "not a glob, ".toList ++ error.message ++ ": ".toList ++ quoted s⟩]

end PatternText.Journal
