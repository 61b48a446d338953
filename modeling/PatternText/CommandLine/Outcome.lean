import PatternText.CommandLine.Run

/-!
# Running the program

The outer layer of the command line.  The library leaves open what the compiler of patterns
says; here the program is put together with a stand-in for one, and run.  Nothing in the
library depends on this module.
-/

/-!
## Well-formed patterns

The stand-in asks whether the structure of a pattern is complete: its groups and brackets
are closed, every repetition operator has something to repeat, the bounds of a repetition
are written out and in order, and every escape is complete.  Whether a class or a word
boundary with some name exists is not checked, so more patterns pass than a compiler takes.

A flag can make blanks and comments meaningless for the rest of a group.  They are then
skipped between the parts of a pattern, and also inside brackets, bounds and the arguments
of escapes, but not just after an escape character.
-/

namespace PatternText.Text

def blankRanges : List (Nat × Nat) :=
  [(0x9, 0xD), (0x20, 0x20), (0x85, 0x85), (0xA0, 0xA0), (0x1680, 0x1680),
    (0x2000, 0x200A), (0x2028, 0x2029), (0x202F, 0x202F), (0x205F, 0x205F),
    (0x3000, 0x3000)]

def isBlank (c : Char) : Bool :=
  blankRanges.any fun range => range.1 ≤ c.toNat && c.toNat ≤ range.2

end PatternText.Text

namespace PatternText.Pattern

open Text (isBlank)

namespace WellFormed

/-- What is left of a text after blanks and comments.  A comment ends with its
line. -/
def skipIgnored : (inComment : Bool) → Text → Text
  | _, [] => []
  | true, c :: r => skipIgnored (c != '\n') r
  | false, c :: r =>
    if isBlank c then
      skipIgnored false r
    else if c == '#' then
      skipIgnored true r
    else
      c :: r

/-- What is left of a text after what the reader may ignore. -/
def significant (verbose : Bool) (s : Text) : Text :=
  if verbose then skipIgnored false s else s

theorem length_skipIgnored_le (inComment : Bool) (s : Text) :
    (skipIgnored inComment s).length ≤ s.length := by
  induction s generalizing inComment with
  | nil => simp [skipIgnored]
  | cons c r ih =>
    cases inComment with
    | true =>
      rw [skipIgnored]
      exact Nat.le_succ_of_le (ih _)
    | false =>
      rw [skipIgnored]
      split
      · exact Nat.le_succ_of_le (ih _)
      · split
        · exact Nat.le_succ_of_le (ih _)
        · exact Nat.le_refl _

theorem length_significant_le (verbose : Bool) (s : Text) :
    (significant verbose s).length ≤ s.length := by
  unfold significant
  split
  · exact length_skipIgnored_le false s
  · exact Nat.le_refl _

/-- The characters of a kind that a text starts with, and the text after them.
What may be ignored is skipped after each. -/
def takeWhile (kind : Char → Bool) (verbose : Bool) (s : Text) : Text × Text :=
  match s with
  | [] => ([], [])
  | c :: r =>
    if kind c then
      let more := takeWhile kind verbose (significant verbose r)
      (c :: more.1, more.2)
    else
      ([], c :: r)
termination_by s.length
decreasing_by
  have hle := length_significant_le verbose r
  simp only [List.length_cons]
  omega

/-- What a step of reading comes to. -/
inductive Progress (σ : Type) where
  /-- Reading cannot go on. -/
  | failed
  /-- Reading is complete and leaves a text. -/
  | done (rest : Text)
  /-- Reading goes on in a state with what is left. -/
  | more (state : σ) (rest : Text)

/-- Repeats a step of reading until it is complete, and gives what is left.  A
step that reads nothing fails. -/
def repeatStep
    {σ : Type} (step : σ → Text → Progress σ) (state : σ) (s : Text) : Option Text :=
  match step state s with
  | .failed => none
  | .done rest => some rest
  | .more next rest =>
    if _ : rest.length < s.length then repeatStep step next rest else none
termination_by s.length

/-! ## Bounds of repetitions -/

/-- The number that digits write in a base, each digit having the given value. -/
def numeral (base : Nat) (value : Char → Nat) (digits : Text) : Nat :=
  digits.foldl (fun n c => base * n + value c) 0

def digitValue (c : Char) : Nat :=
  c.toNat - '0'.toNat

/-- The decimal digits that a text starts with, and the text after them, blanks
on both sides left out. -/
def readNumber (verbose : Bool) (s : Text) : Text × Text :=
  let (digits, rest) := takeWhile Char.isDigit verbose (s.dropWhile isBlank)
  (digits, (takeWhile isBlank verbose rest).2)

/-- Reads the bounds of a repetition after the opening brace: a number, or a
least one and a comma, or a least one and a greatest. -/
def readBounds? (verbose : Bool) (s : Text) : Option Text :=
  let (least, rest) := readNumber verbose (significant verbose s)
  if least.isEmpty then
    none
  else
    match rest with
    | '}' :: rest => some rest
    | ',' :: rest =>
      match significant verbose rest with
      | '}' :: rest => some rest
      | rest =>
        match readNumber verbose rest with
        | (greatest, '}' :: rest) =>
          if !greatest.isEmpty &&
              numeral 10 digitValue least ≤ numeral 10 digitValue greatest then
            some rest
          else
            none
        | _ => none
    | _ => none

/-! ## Escapes -/

/-- What an escape stands for. -/
inductive Atom where
  /-- A character. -/
  | literal (c : Char)
  /-- A set of characters. -/
  | set
  /-- A place in the text. -/
  | place
  deriving DecidableEq, Repr

def isHexDigit (c : Char) : Bool :=
  c.isDigit || ('a' ≤ c && c ≤ 'f') || ('A' ≤ c && c ≤ 'F')

def hexValue (c : Char) : Nat :=
  if c.isDigit then digitValue c else c.toLower.toNat - 'a'.toNat + 10

def codePoint? (digits : Text) : Option Atom :=
  let n := numeral 16 hexValue digits
  if digits.isEmpty || !n.isValidChar then
    none
  else
    some (.literal (Char.ofNat n))

def readHexDigits? (verbose : Bool) : (count : Nat) → Text → Option (Text × Text)
  | 0, s => some ([], s)
  | count + 1, c :: r =>
    if isHexDigit c then
      (readHexDigits? verbose count (significant verbose r)).map fun more =>
        (c :: more.1, more.2)
    else
      none
  | _ + 1, [] => none

/-- Reads a code point: hexadecimal digits between braces, or a fixed number of
them. -/
def readCodePoint? (verbose : Bool) (count : Nat) (s : Text) : Option (Atom × Text) :=
  match significant verbose s with
  | '{' :: r =>
    match takeWhile isHexDigit verbose (significant verbose r) with
    | (digits, '}' :: rest) =>
      (codePoint? digits).map fun atom => (atom, significant verbose rest)
    | _ => none
  | s =>
    (readHexDigits? verbose count s).bind fun parts =>
      (codePoint? parts.1).map fun atom => (atom, parts.2)

/-- Reads the name of a class: one letter, or any name between braces. -/
def readClassName? (verbose : Bool) (s : Text) : Option (Atom × Text) :=
  match significant verbose s with
  | [] => none
  | '\\' :: _ => none
  | '{' :: r =>
    match takeWhile (· != '}') verbose (significant verbose r) with
    | (_, '}' :: rest) => some (.set, rest)
    | _ => none
  | _ :: r => some (.set, significant verbose r)

def isBoundaryChar (c : Char) : Bool :=
  c.isAlpha || c == '-'

/-- Reads the name of a word boundary between braces.  Braces with anything else
are left to be the bounds of a repetition. -/
def readBoundaryName? (verbose : Bool) (s : Text) : Option (Atom × Text) :=
  match s with
  | '{' :: r =>
    match significant verbose r with
    | [] => none
    | c :: rest =>
      if isBoundaryChar c then
        match takeWhile isBoundaryChar verbose (c :: rest) with
        | (_, '}' :: rest) => some (.place, rest)
        | _ => none
      else
        some (.place, s)
  | _ => some (.place, s)

/-- Reads an escape after the escape character.  Letters and digits have a
meaning of their own or none; other ASCII characters stand for themselves. -/
def readEscape? (verbose : Bool) : Text → Option (Atom × Text)
  | [] => none
  | c :: r =>
    match c with
    | 'x' => readCodePoint? verbose 2 r
    | 'u' => readCodePoint? verbose 4 r
    | 'U' => readCodePoint? verbose 8 r
    | 'p' | 'P' => readClassName? verbose r
    | 'd' | 's' | 'w' | 'D' | 'S' | 'W' => some (.set, r)
    | 'a' => some (.literal '\x07', r)
    | 'f' => some (.literal '\x0c', r)
    | 't' => some (.literal '\t', r)
    | 'n' => some (.literal '\n', r)
    | 'r' => some (.literal '\r', r)
    | 'v' => some (.literal '\x0b', r)
    | 'b' => readBoundaryName? verbose r
    | 'A' | 'z' | 'B' | '<' | '>' => some (.place, r)
    | c => if c.toNat < 128 && !c.isAlphanum then some (.literal c, r) else none

/-! ## Bracket expressions -/

/-- The character that follows, seen past blanks and the sign that starts a
comment if these may be ignored. -/
def peek? (verbose : Bool) (s : Text) : Option Char :=
  let afterSign : Text → Text
    | '#' :: r => r.dropWhile isBlank
    | r => r
  if verbose then (afterSign (s.dropWhile isBlank)).head?.or s.head? else s.head?

/-- Reads what follows an opening bracket up to the first item.  A caret negates,
dashes stand for themselves, and so does a closing bracket right at the start. -/
def openBracket? (verbose : Bool) (s : Text) : Option Text :=
  let afterCaret : Text → Text
    | '^' :: r => significant verbose r
    | r => r
  match takeWhile (· == '-') verbose (afterCaret (significant verbose s)) with
  | (_, []) => none
  | ([], ']' :: r) => if (significant verbose r).isEmpty then none else some r
  | (_, rest) => some rest

def readMember? (verbose : Bool) : Text → Option (Atom × Text)
  | [] => none
  | '\\' :: r => readEscape? verbose r
  | c :: r => some (.literal c, r)

def isRange : Atom → Atom → Bool
  | .literal first, .literal last => first.toNat ≤ last.toNat
  | _, _ => false

/-- Reads a member of a bracket expression, or a range between two.  A dash
before a closing bracket or another dash makes no range. -/
def readItem? (verbose : Bool) (s : Text) : Option Text :=
  (readMember? verbose s).bind fun (first, rest) =>
    let alone (rest : Text) : Option Text :=
      if first = .place then none else some rest
    match significant verbose rest with
    | '-' :: r =>
      if peek? verbose r = some ']' ∨ peek? verbose r = some '-' then
        alone ('-' :: r)
      else
        (readMember? verbose (significant verbose r)).bind fun (last, rest) =>
          if isRange first last then some rest else none
    | rest => alone rest

/-- One step within brackets, `outer` further ones being open around them. -/
def stepBracket (verbose : Bool) (outer : Nat) (s : Text) : Progress Nat :=
  match significant verbose s with
  | [] => .failed
  | '[' :: r =>
    match openBracket? verbose r with
    | some rest => .more (outer + 1) rest
    | none => .failed
  | ']' :: r =>
    match outer with
    | 0 => .done r
    | outer + 1 => .more outer r
  | '&' :: '&' :: r => .more outer r
  | '-' :: '-' :: r => .more outer r
  | '~' :: '~' :: r => .more outer r
  | s =>
    match readItem? verbose s with
    | some rest => .more outer rest
    | none => .failed

def readBrackets? (verbose : Bool) (s : Text) : Option Text :=
  (openBracket? verbose s).bind (repeatStep (stepBracket verbose) 0)

/-! ## Groups and patterns -/

/-- Where reading stands between the items of a pattern. -/
structure State where
  /-- Whether blanks and comments are ignored. -/
  verbose : Bool
  /-- For every open group, whether they were ignored around it. -/
  groups : List Bool
  /-- Whether the last item can be repeated. -/
  repeatable : Bool
  deriving DecidableEq, Repr

namespace State

def start : State := ⟨false, [], false⟩

def afterItem (state : State) : State :=
  { state with repeatable := true }

def enter (state : State) (verbose : Bool) : State :=
  ⟨verbose, state.verbose :: state.groups, false⟩

end State

/-- Whether flags are known, each given once, and none missing after a minus. -/
def areFlags (flags : Text) : Bool :=
  flags.all (fun c => "imsUuRx-".toList.contains c) &&
    flags.all (fun c => flags.count c == 1) && flags.getLast? != some '-'

/-- Whether blanks and comments are ignored under flags.  What comes after a
minus is switched off. -/
def verboseUnder (flags : Text) (verbose : Bool) : Bool :=
  if flags.contains 'x' then !(flags.takeWhile (· != 'x')).contains '-' else verbose

/-- Whether a text can name a group.  Only its ASCII characters are checked. -/
def isGroupName : Text → Bool
  | [] => false
  | c :: r =>
    let isStart (c : Char) : Bool := c.isAlpha || c == '_' || 128 ≤ c.toNat
    isStart c &&
      r.all fun c => isStart c || c.isDigit || c == '.' || c == '[' || c == ']'

/-- Reads the name of a group, up to the sign that ends it. -/
def readGroupName? (s : Text) : Option Text :=
  match s.dropWhile (· != '>') with
  | _ :: rest => if isGroupName (s.takeWhile (· != '>')) then some rest else none
  | [] => none

/-- Reads the flags at the start of a group.  They hold for the group, or for the
rest of the one around if the parenthesis closes right after them. -/
def readFlags? (state : State) (s : Text) : Option (State × Text) :=
  let isFlag (c : Char) : Bool := c != ':' && c != ')'
  let flags := s.takeWhile isFlag
  let verbose := verboseUnder flags state.verbose
  if !areFlags flags then
    none
  else
    match s.dropWhile isFlag with
    | ':' :: rest => some (state.enter verbose, rest)
    | _ :: rest =>
      if flags.isEmpty then
        none
      else
        some ({ state with verbose := verbose, repeatable := false }, rest)
    | [] => none

def openGroup? (state : State) (s : Text) : Option (State × Text) :=
  match significant state.verbose s with
  | '?' :: 'P' :: '<' :: r =>
    (readGroupName? r).map fun rest => (state.enter state.verbose, rest)
  | '?' :: '<' :: r =>
    (readGroupName? r).map fun rest => (state.enter state.verbose, rest)
  | '?' :: r => readFlags? state r
  | rest => some (state.enter state.verbose, rest)

def readPart? (state : State) : Text → Option (State × Text)
  | [] => none
  | c :: r =>
    match c with
    | '(' => openGroup? state r
    | ')' =>
      match state.groups with
      | [] => none
      | verbose :: groups => some (⟨verbose, groups, true⟩, r)
    | '|' => some ({ state with repeatable := false }, r)
    | '[' => (readBrackets? state.verbose r).map fun rest => (state.afterItem, rest)
    | '*' | '+' | '?' => if state.repeatable then some (state, r) else none
    | '{' =>
      if state.repeatable then
        (readBounds? state.verbose r).map fun rest => (state, rest)
      else
        none
    | '\\' =>
      (readEscape? state.verbose r).map fun parts => (state.afterItem, parts.2)
    | _ => some (state.afterItem, r)

def step (state : State) (s : Text) : Progress State :=
  match significant state.verbose s with
  | [] => if state.groups.isEmpty then .done [] else .failed
  | s =>
    match readPart? state s with
    | some (next, rest) => .more next rest
    | none => .failed

end WellFormed

/-- Whether the structure of a pattern is complete. -/
def isWellFormed (s : Text) : Bool :=
  (WellFormed.repeatStep WellFormed.step .start s).isSome

end PatternText.Pattern

/-!
## The program

`complaint?` takes the place of a compiler: it tells whether a pattern is malformed, and not
how.
-/

namespace PatternText.CommandLine

/-- What there is to say against a pattern if its structure is not complete. -/
def complaint? (s : Text) : Option Text :=
  if Pattern.isWellFormed s then none else some "regex parse error:".toList

def Command.run (command : Command) (input : List UInt8) : Outcome :=
  command.runWith complaint? input

/-- Writes what a run leaves behind and gives its exit status. -/
def Outcome.emit (outcome : Outcome) : IO UInt32 := do
  IO.print (String.ofList outcome.stdout)
  IO.eprint (String.ofList outcome.stderr)
  return outcome.status.toUInt32

end PatternText.CommandLine
