import PatternText.Escape.Basic

/-!
# Dialects of patterns

A pattern is put into a dialect by escaping the braces that the dialect would take for
syntax and by spelling out the character classes that it does not know.
-/

namespace PatternText.Pattern

open Text (Edit byteSize slice slice? occurrences find?)
open Escape (isEscapedAt protectEdits escapeText escapeByte)

/-!
## Braces

An opening brace that is not escaped starts a repetition such as `{2,4}`, or the
name of a class after `\p` or `\P`, or it stands for itself.  In the last case
it has to be escaped for a dialect that takes every brace as syntax, and so does
every closing brace that ends neither of the first two.

A pattern is read once from left to right into findings, one for each opening
brace that was looked at.  The edits and the diagnostics both come from them.
-/

def openBrace : Text := ['{']

def closeBrace : Text := ['}']

namespace Brace

/-- What an opening brace starts. -/
inductive Kind where
  /-- The bounds of a repetition. -/
  | repetition
  /-- The name of a class after `\p` or `\P`. -/
  | classEscape
  /-- Nothing: the brace stands for itself. -/
  | literal
  deriving DecidableEq, Repr

/-- Whether a text gives the bounds of a repetition: a minimum in decimal digits,
then perhaps a comma, then perhaps a maximum. -/
def isBounds (body : Text) : Bool :=
  let minimum := body.takeWhile Char.isDigit
  match body.dropWhile Char.isDigit with
  | [] => !minimum.isEmpty
  | c :: maximum => !minimum.isEmpty && c == ',' && maximum.all Char.isDigit

/-- Whether an unescaped `\p` or `\P` stands just before a position. -/
def followsClassEscape (s : Text) (pos : Nat) : Bool :=
  let before := (Text.bytes s).take pos |>.drop (pos - 2)
  1 < pos &&
    (before == Text.bytes ['\\', 'p'] || before == Text.bytes ['\\', 'P']) &&
    !isEscapedAt s (pos - 2)

/-- What the brace at one position starts, if the first closing brace after it is
at another.  There is no answer if the part between them is no slice. -/
def kindAt? (s : Text) (start stop : Nat) : Option Kind :=
  (slice? s (start + 1) stop).map fun body =>
    if isBounds body then
      .repetition
    else if followsClassEscape s start then
      .classEscape
    else
      .literal

/-- What reading a pattern finds at an opening brace. -/
inductive Finding where
  /-- The brace is escaped. -/
  | escaped (pos : Nat)
  /-- The brace starts a span that ends just before `stop`. -/
  | span (pos stop : Nat)
  /-- The brace stands for itself, although a closing one follows at `close`. -/
  | literal (pos close : Nat)
  /-- No closing brace follows, so this brace and all later ones stand for
  themselves. -/
  | unclosed (pos : Nat)
  deriving DecidableEq, Repr

/-- The findings at the opening braces that are not before `start`. -/
def findingsFrom (s : Text) : (start : Nat) → List Nat → List Finding
  | _, [] => []
  | start, pos :: later =>
    if pos < start then
      findingsFrom s start later
    else if isEscapedAt s pos then
      .escaped pos :: findingsFrom s (pos + 1) later
    else
      match find? closeBrace s pos with
      | none => [.unclosed pos]
      | some close =>
        match kindAt? s pos close with
        | some .repetition | some .classEscape =>
          .span pos (close + 1) :: findingsFrom s (close + 1) later
        | some .literal | none =>
          .literal pos close :: findingsFrom s (pos + 1) later

def findings (s : Text) : List Finding :=
  findingsFrom s 0 (occurrences openBrace s)

/-- The edits that escape a brace wherever it is live between two positions. -/
def protectBetween (brace s : Text) (start stop : Nat) : List Edit :=
  (protectEdits brace (slice s start stop)).map (Edit.shift start)

/-- The edits for a pattern from `start` on, given the findings there. -/
def editsFrom (s : Text) : (start : Nat) → List Finding → List Edit
  | start, [] => protectBetween closeBrace s start (byteSize s)
  | start, .escaped pos :: later =>
    protectBetween closeBrace s start pos ++ editsFrom s (pos + 1) later
  | start, .span pos stop :: later =>
    protectBetween closeBrace s start pos ++ editsFrom s stop later
  | start, .literal pos _ :: later =>
    protectBetween closeBrace s start pos ++
      Edit.insertion pos escapeText :: editsFrom s (pos + 1) later
  | start, .unclosed pos :: _ =>
    protectBetween closeBrace s start pos ++
      protectBetween openBrace s pos (byteSize s)

def edits (s : Text) : List Edit :=
  editsFrom s 0 (findings s)

end Brace

/-- Escapes every brace of a pattern that belongs neither to a repetition nor to
a class, and is not escaped already. -/
def escapeLiteralBraces (s : Text) : Text :=
  Edit.applyAll s (Brace.edits s)

/-!
## POSIX character classes

A bracket expression refers to a class of characters as `[:name:]`.  Expanding a
pattern replaces every reference to one of the given classes by the spelling of
that class in another dialect.

A reference starts at an unescaped `[:` and its name ends at the first `:]`
after that.  When the name is none of the given ones, reading goes on inside it,
so a reference may start within an unknown one.
-/

/-- The classes of characters that have a name. -/
inductive PosixClass where
  | alnum
  | alpha
  | blank
  | cntrl
  | digit
  | graph
  | lower
  | print
  | punct
  | space
  | upper
  | xdigit
  deriving DecidableEq, Repr

namespace PosixClass

def all : List PosixClass :=
  [.alnum, .alpha, .blank, .cntrl, .digit, .graph, .lower, .print, .punct,
    .space, .upper, .xdigit]

def name : PosixClass → Text
  | .alnum => "alnum".toList
  | .alpha => "alpha".toList
  | .blank => "blank".toList
  | .cntrl => "cntrl".toList
  | .digit => "digit".toList
  | .graph => "graph".toList
  | .lower => "lower".toList
  | .print => "print".toList
  | .punct => "punct".toList
  | .space => "space".toList
  | .upper => "upper".toList
  | .xdigit => "xdigit".toList

theorem mem_all (c : PosixClass) :
    c ∈ all := by
  cases c <;> decide

def opening : Text := ['[', ':']

def closing : Text := [':', ']']

/-- How a dialect writes each class. -/
abbrev Spelling := PosixClass → Text

/-- The class among the given ones that has a name. -/
def named? (classes : List PosixClass) (n : Text) : Option PosixClass :=
  classes.find? fun c => c.name == n

/-- The edit for the reference to one of the given classes that starts at a
position, if there is one. -/
def expansionAt?
    (classes : List PosixClass) (spelling : Spelling) (s : Text) (pos : Nat) :
    Option Edit :=
  if Escape.isEscapedAt s pos then
    none
  else
    let nameStart := pos + Text.byteSize opening
    (find? closing s nameStart).bind fun nameStop =>
      (named? classes (slice s nameStart nameStop)).map fun c =>
        ⟨pos, nameStop + Text.byteSize closing, spelling c⟩

/-- The edits for the references that start at the given positions, leaving out
those before `start`. -/
def expansionsFrom
    (classes : List PosixClass) (spelling : Spelling) (s : Text) :
    (start : Nat) → List Nat → List Edit
  | _, [] => []
  | start, pos :: later =>
    if pos < start then
      expansionsFrom classes spelling s start later
    else
      match expansionAt? classes spelling s pos with
      | some e => e :: expansionsFrom classes spelling s e.stop later
      | none => expansionsFrom classes spelling s (pos + 1) later

def expansions
    (classes : List PosixClass) (spelling : Spelling) (s : Text) : List Edit :=
  expansionsFrom classes spelling s 0 (occurrences opening s)

/-- Replaces every reference to one of the given classes by its spelling. -/
def expand (classes : List PosixClass) (spelling : Spelling) (s : Text) : Text :=
  Edit.applyAll s (expansions classes spelling s)

end PosixClass

/-!
## Dialects

A pattern with POSIX classes is translated for Java, where a brace that stands
for itself has to be escaped, or for .NET, where an underscore must not be.
Every text can be translated into both.
-/

inductive Dialect where
  | java
  | dotNet
  deriving DecidableEq, Repr

namespace Dialect

def label : Dialect → Text
  | .java => "Java".toList
  | .dotNet => "DotNet".toList

/-- The spelling of the classes in Java, each a property of its own. -/
def javaSpelling : PosixClass.Spelling
  | .alnum => "\\p\x7bAlnum\x7d".toList
  | .alpha => "\\p\x7bAlpha\x7d".toList
  | .blank => "\\p\x7bBlank\x7d".toList
  | .cntrl => "\\p\x7bCntrl\x7d".toList
  | .digit => "\\p\x7bDigit\x7d".toList
  | .graph => "\\p\x7bGraph\x7d".toList
  | .lower => "\\p\x7bLower\x7d".toList
  | .print => "\\p\x7bPrint\x7d".toList
  | .punct => "\\p\x7bPunct\x7d".toList
  | .space => "\\p\x7bSpace\x7d".toList
  | .upper => "\\p\x7bUpper\x7d".toList
  | .xdigit => "\\p\x7bXDigit\x7d".toList

/-- The spelling of the classes in .NET, made for use between brackets. -/
def dotNetSpelling : PosixClass.Spelling
  | .alnum => "\\p\x7bL\x7d\\p\x7bNd\x7d".toList
  | .alpha => "\\p\x7bL\x7d".toList
  | .blank => "\\p\x7bZs\x7d\\t".toList
  | .cntrl => "\\p\x7bCc\x7d".toList
  | .digit => "\\d".toList
  | .graph => "\\P\x7bZ\x7d\\P\x7bC\x7d".toList
  | .lower => "\\p\x7bLl\x7d".toList
  | .print => "\\P\x7bC\x7d".toList
  | .punct => "\\p\x7bP\x7d".toList
  | .space => "\\s".toList
  | .upper => "\\p\x7bLu\x7d".toList
  | .xdigit => "a-fA-F0-9".toList

def spelling : Dialect → PosixClass.Spelling
  | .java => javaSpelling
  | .dotNet => dotNetSpelling

def expandClasses (dialect : Dialect) (s : Text) : Text :=
  PosixClass.expand PosixClass.all dialect.spelling s

def translate (dialect : Dialect) (s : Text) : Text :=
  match dialect with
  | .java => expandClasses .java (escapeLiteralBraces s)
  | .dotNet => Escape.revealAll [['_']] (expandClasses .dotNet s)

/-- Translating the translation of a pattern changes nothing. -/
def SettlesAtOnce (dialect : Dialect) (s : Text) : Prop :=
  translate dialect (translate dialect s) = translate dialect s

instance (dialect : Dialect) (s : Text) : Decidable (SettlesAtOnce dialect s) :=
  inferInstanceAs (Decidable (_ = _))

end Dialect

end PatternText.Pattern
