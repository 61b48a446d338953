import PatternText.Text.Basic

/-!
# Escapes

Whether a position is escaped, and what follows from it for delimiters: the passes that
write escapes before them and take these away.
-/

namespace PatternText.Escape

open Text (Edit occurrences)

/-!
## The escape state of a position

A run of escape characters is read in pairs, each pair standing for one literal
escape character, so the character at a position is escaped exactly when the run
that ends just before it is odd.  The state is read off the bytes before the
position and may be asked at any number: inside a character it is always
unescaped, and past the end it is the state of the end.
-/

/-- The character that takes away the meaning of the one after it. -/
def escapeChar : Char := '\\'

def escapeText : Text := [escapeChar]

/-- The encoding of the escape character, a single byte. -/
def escapeByte : UInt8 := 0x5C

theorem utf8EncodeChar_escapeChar :
    String.utf8EncodeChar escapeChar = [escapeByte] := by
  decide

/-- The number of escape bytes at the end of a byte sequence. -/
def trailingEscapes (bs : List UInt8) : Nat :=
  (bs.reverse.takeWhile (· == escapeByte)).length

/-- Whether an odd run of escape characters ends just before a position. -/
def isEscapedAt (s : Text) (pos : Nat) : Bool :=
  trailingEscapes ((Text.bytes s).take pos) % 2 == 1

/-!
## Protecting delimiters

An occurrence of a delimiter is live if it is not escaped.  Protecting a
delimiter writes an escape before each of its live occurrences, and revealing
it takes the escape away from each escaped one.

Several delimiters take one pass each.  If the escape character is one of them,
it is protected first and revealed last, so that the escapes which the other
passes write or remove are never counted as content.
-/

/-- The positions of the occurrences of a delimiter that are not escaped. -/
def liveOccurrences (d s : Text) : List Nat :=
  (occurrences d s).filter fun p => !isEscapedAt s p

/-- The edits that escape every live occurrence of a delimiter.  The empty
delimiter has none. -/
def protectEdits (d s : Text) : List Edit :=
  if d.isEmpty then
    []
  else
    (liveOccurrences d s).map fun p => Edit.insertion p escapeText

/-- Escapes every live occurrence of a delimiter. -/
def protect (d s : Text) : Text :=
  Edit.applyAll s (protectEdits d s)

def doubleEdits (s : Text) : List Edit :=
  (occurrences escapeText s).map fun p => Edit.insertion p escapeText

def double (s : Text) : Text :=
  Edit.applyAll s (doubleEdits s)

/-- The edits that remove the escape from every escaped occurrence of a
delimiter.  An escape that is itself escaped is content and stays. -/
def revealEdits (d s : Text) : List Edit :=
  if d.isEmpty then
    []
  else
    (liveOccurrences (escapeChar :: d) s).map fun p =>
      Edit.deletion p (p + Text.byteSize escapeText)

/-- Removes the escape from every escaped occurrence of a delimiter. -/
def reveal (d s : Text) : Text :=
  Edit.applyAll s (revealEdits d s)

/-- The delimiters other than the escape character, in order. -/
def ordinary (ds : List Text) : List Text :=
  ds.filter (· != escapeText)

def escapeFirst (ds : List Text) : List Text :=
  if ds.contains escapeText then escapeText :: ordinary ds else ordinary ds

def escapeLast (ds : List Text) : List Text :=
  if ds.contains escapeText then ordinary ds ++ [escapeText] else ordinary ds

/-- One protecting pass.  For the escape character itself every occurrence
counts, since each is content. -/
def protectPass (s d : Text) : Text :=
  if d == escapeText then double s else protect d s

/-- Escapes every delimiter of a list, one pass for each. -/
def protectAll (ds : List Text) (s : Text) : Text :=
  (escapeFirst ds).foldl protectPass s

def revealAll (ds : List Text) (s : Text) : Text :=
  (escapeLast ds).foldl (fun t d => reveal d t) s

@[simp] theorem protect_nil (s : Text) :
    protect [] s = s := by
  rw [protect, protectEdits, List.isEmpty_nil, if_pos rfl, Edit.applyAll_nil]

@[simp] theorem reveal_nil (s : Text) :
    reveal [] s = s := by
  rw [reveal, revealEdits, List.isEmpty_nil, if_pos rfl, Edit.applyAll_nil]

/-!
## Metacharacters of patterns

A metacharacter has a meaning of its own in a pattern unless it is escaped.
Protecting all of them turns any text into a pattern that matches it literally,
and revealing them gives the text back.
-/

/-- The metacharacters of patterns, the escape character first. -/
def metachars : List Char :=
  [escapeChar, '^', '.', '$', '|', '(', ')', '[', ']', '{', '}', '*', '+', '?']

def metaDelimiters : List Text :=
  metachars.map fun c => [c]

def isMeta (c : Char) : Bool :=
  metachars.contains c

/-- Whether a text contains a metacharacter, escaped or not. -/
def hasMeta (s : Text) : Bool :=
  s.any isMeta

/-- The first metacharacter that is not escaped, with its position.  The escape
character does not count, since it is what does the escaping. -/
def firstLiveMeta? (s : Text) : Option (Nat × Char) :=
  (Text.located 0 s).find? fun (pos, c) =>
    c != escapeChar && isMeta c && !isEscapedAt s pos

def hasLiveMeta (s : Text) : Bool :=
  (firstLiveMeta? s).isSome

def protectMeta (s : Text) : Text :=
  protectAll metaDelimiters s

def revealMeta (s : Text) : Text :=
  revealAll metaDelimiters s

end PatternText.Escape
