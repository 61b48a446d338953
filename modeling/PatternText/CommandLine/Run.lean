import PatternText.CommandLine.Command

/-!
# Runs

What a command leaves behind, given the bytes of the input.
-/

namespace PatternText.CommandLine

/-!
## Lines of input

The input is a sequence of bytes.  A line ends at a line feed, and a carriage
return just before that is part of the ending.  What follows the last line feed
is a line too, unless it is empty, and it keeps a carriage return at its end.
-/

def lineFeed : UInt8 := 0x0A

/-- The byte that may stand before the end of a line. -/
def carriageReturn : UInt8 := 0x0D

def dropReturn (line : List UInt8) : List UInt8 :=
  if line.getLast? = some carriageReturn then line.dropLast else line

/-- The lines of the input, given the current line's bytes so far in reverse. -/
def linesFrom (readBack : List UInt8) : List UInt8 → List (List UInt8)
  | [] => if readBack.isEmpty then [] else [readBack.reverse]
  | b :: rest =>
    if b = lineFeed then
      dropReturn readBack.reverse :: linesFrom [] rest
    else
      linesFrom (b :: readBack) rest

def lines (input : List UInt8) : List (List UInt8) :=
  linesFrom [] input

/-- The text that a byte sequence encodes in UTF-8, if it encodes one. -/
def decode? (bs : List UInt8) : Option Text :=
  (String.fromUTF8? bs.toByteArray).map String.toList

/-!
## Outcomes

A command is done to the text among its arguments or, without one, to every line
of the input.  A line on which the job fails is reported and the others go on; a
line that is not UTF-8 ends the run.  What was printed before stays printed.
-/

def lineSeparator : Text := ['\n']

/-- What a finished run leaves behind. -/
structure Outcome where
  status : Nat
  stdout : Text
  stderr : Text
  deriving DecidableEq, Repr

namespace Outcome

/-- The same outcome with more output in front. -/
def printing (output : Text) (outcome : Outcome) : Outcome :=
  { outcome with stdout := output ++ outcome.stdout }

def reporting (report : Text) (outcome : Outcome) : Outcome :=
  { outcome with stderr := report ++ outcome.stderr }

def success : Outcome := ⟨0, [], []⟩

def error (message : Text) : Outcome :=
  ⟨1, [], "Error: ".toList ++ message ++ lineSeparator⟩

end Outcome

/-- Lines of output, each with its ending. -/
def render (output : List Text) : Text :=
  output.flatMap (· ++ lineSeparator)

/-- An error and its cause, the lines of the cause being indented. -/
def withCause (context cause : Text) : Text :=
  let indent := "    ".toList
  context ++ "\n\nCaused by:\n".toList ++ indent ++
    cause.flatMap fun c => if c = '\n' then c :: indent else [c]

def lineReport (failure : Failure) : Text :=
  failure.context ++ ": ".toList ++ failure.cause ++ lineSeparator

def undecodable : Text :=
  withCause "Failed to read stdin".toList
    "stream did not contain valid UTF-8".toList

def failureCount (n : Nat) : Text :=
  Nat.toDigits 10 n ++ " line(s) failed.".toList

namespace Job

variable (compiler : Text → Option Text)

/-- What doing a job to one text leaves behind. -/
def runText (job : Job) (s : Text) : Outcome :=
  match job.apply compiler s with
  | .ok output => .printing (render output) .success
  | .error failure => .error (withCause failure.context failure.cause)

/-- What doing a job to lines of input leaves behind, after `failures` earlier
lines have failed. -/
def runLines (job : Job) : (failures : Nat) → List (List UInt8) → Outcome
  | 0, [] => .success
  | failures + 1, [] => .error (failureCount (failures + 1))
  | failures, line :: rest =>
    match decode? line with
    | none => .error undecodable
    | some s =>
      match job.apply compiler s with
      | .ok output => .printing (render output) (runLines job failures rest)
      | .error failure =>
        .reporting (lineReport failure) (runLines job (failures + 1) rest)

end Job

/-- What a command leaves behind, given the input and a compiler of patterns. -/
def Command.runWith
    (compiler : Text → Option Text) (command : Command) (input : List UInt8) :
    Outcome :=
  match command.job.refusal?, command.text with
  | some refusal, _ => .error refusal.message
  | none, some s => command.job.runText compiler s
  | none, none => command.job.runLines compiler 0 (lines input)

def Command.readsInput (command : Command) : Bool :=
  command.job.refusal?.isNone && command.text.isNone

def versionLine : Text :=
  "regex-dialect 0.1.0".toList

def usageLine : Text :=
  "Usage: regex-dialect <COMMAND> [OPTIONS] [TEXT]".toList

/-- What is left behind when the arguments describe no command. -/
def Stop.outcome : Stop → Outcome
  | .version => .printing (render [versionLine]) .success
  | .help => .printing (render [usageLine]) .success
  | .misuse => ⟨2, [], render [usageLine]⟩

end PatternText.CommandLine
