import PatternText.Pattern.Dialect
import PatternText.Pattern.Glob
import PatternText.Text.Quoted

/-!
# Commands

A command says what is done to which text, and is read from the arguments.
-/

namespace PatternText.CommandLine

open Pattern (Dialect Glob.Error Glob.ofPattern)
open Token (SplitRule)

/-!
## Jobs

A job is what the program does to one text: it answers with lines of output or
fails for a reason that belongs to that text.  Some jobs are refused before any
text is read, because they could do nothing.

A glob is derived from a compiled pattern.  Compiling is not part of this
library, so a job is given what the compiler has to say against a pattern.
-/

/-- The delimiters that are escaped or unescaped. -/
inductive Delimiters where
  | listed (ds : List Text)
  | metachars
  deriving DecidableEq, Repr

/-- What is done to each text. -/
inductive Job where
  | translate (dialect : Dialect)
  | glob
  | split (rule : SplitRule)
  | escape (delimiters : Delimiters)
  | unescape (delimiters : Delimiters)
  | inspect
  deriving DecidableEq, Repr

/-- Why a job is refused before any text is read. -/
inductive Refusal where
  | emptyDelimiter
  | noDelimiter
  deriving DecidableEq, Repr

def Refusal.message : Refusal → Text
  | .emptyDelimiter => "Delimiter must not be empty.".toList
  | .noDelimiter => "Specify at least one --delimiter, or --regex.".toList

/-- Why a job fails on a text. -/
inductive Failure where
  | invalidPattern (text complaint : Text)
  | noGlob (text : Text) (cause : Glob.Error)
  deriving DecidableEq, Repr

namespace Failure

/-- What was attempted. -/
def context : Failure → Text
  | .invalidPattern text _ => "Invalid pattern ".toList ++ text.quoted
  | .noGlob text _ => "No glob for ".toList ++ text.quoted

/-- Why it did not work. -/
def cause : Failure → Text
  | .invalidPattern _ complaint => complaint
  | .noGlob _ cause => cause.message

end Failure

namespace Job

def refusal? : Job → Option Refusal
  | .split rule => if rule.delimiter.isEmpty then some .emptyDelimiter else none
  | .escape (.listed []) => some .noDelimiter
  | .unescape (.listed []) => some .noDelimiter
  | _ => none

def truth (b : Bool) : Text :=
  if b then "true".toList else "false".toList

/-- The output lines for one text, given what the compiler says against a
pattern. -/
def apply
    (compiler : Text → Option Text) (job : Job) (s : Text) :
    Except Failure (List Text) :=
  match job with
  | .translate dialect => .ok [dialect.translate s]
  | .glob =>
    match compiler s with
    | some complaint => .error (.invalidPattern s complaint)
    | none =>
      match Glob.ofPattern s with
      | .ok answer => .ok [answer]
      | .error cause => .error (.noGlob s cause)
  | .split rule => .ok (Token.split rule s)
  | .escape .metachars => .ok [Escape.protectMeta s]
  | .escape (.listed ds) => .ok [Escape.protectAll ds s]
  | .unescape .metachars => .ok [Escape.revealMeta s]
  | .unescape (.listed ds) => .ok [Escape.revealAll ds s]
  | .inspect =>
    .ok ["regex=".toList ++ truth (Escape.hasMeta s) ++
      " unescaped=".toList ++ truth (Escape.hasLiveMeta s)]

end Job

/-!
## Arguments

The first word chooses an action and the others set its options and its text, in
any order.  An option is written `--name value`, `--name=value`, `-n value`,
`-nvalue` or `-n=value`, flags may share one dash, and after `--` every word is
text.  Words are taken from left to right and the first one that cannot stand
where it does ends the reading, as does a request for help.
-/

inductive Action where
  | translate
  | glob
  | split
  | escape
  | unescape
  | inspect
  deriving DecidableEq, Repr

inductive Setting where
  | dialect
  | delimiter
  | keepEnds
  | ignoreEscaped
  | regex
  | help
  deriving DecidableEq, Repr

/-- Why no job comes out of the arguments. -/
inductive Stop where
  | misuse
  | help
  | version
  deriving DecidableEq, Repr

namespace Action

def all : List Action :=
  [.translate, .glob, .split, .escape, .unescape, .inspect]

def name : Action → Text
  | .translate => "translate".toList
  | .glob => "glob".toList
  | .split => "split".toList
  | .escape => "escape".toList
  | .unescape => "unescape".toList
  | .inspect => "inspect".toList

def named? (word : Text) : Option Action :=
  all.find? fun action => action.name == word

def settings : Action → List Setting
  | .translate => [.dialect, .help]
  | .glob => [.help]
  | .split => [.delimiter, .keepEnds, .ignoreEscaped, .help]
  | .escape => [.delimiter, .regex, .help]
  | .unescape => [.delimiter, .regex, .help]
  | .inspect => [.help]

def takesManyDelimiters : Action → Bool
  | .escape => true
  | .unescape => true
  | _ => false

end Action

namespace Setting

def long : Setting → Text
  | .dialect => "dialect".toList
  | .delimiter => "delimiter".toList
  | .keepEnds => "keep-ends".toList
  | .ignoreEscaped => "ignore-escaped".toList
  | .regex => "regex".toList
  | .help => "help".toList

/-- The letter of an option after one dash. -/
def short : Setting → Char
  | .dialect => 'd'
  | .delimiter => 'd'
  | .keepEnds => 'k'
  | .ignoreEscaped => 'i'
  | .regex => 'r'
  | .help => 'h'

def takesValue : Setting → Bool
  | .dialect => true
  | .delimiter => true
  | _ => false

end Setting

def dialectNamed? (value : Text) : Option Dialect :=
  if value = "java".toList then
    some .java
  else if value = "dotnet".toList then
    some .dotNet
  else
    none

/-- What the words read so far have set. -/
structure Choices where
  dialect : Option Dialect := none
  delimiters : List Text := []
  keepEnds : Bool := false
  ignoreEscaped : Bool := false
  regex : Bool := false
  text : Option Text := none
  deriving DecidableEq, Repr

namespace Choices

/-- Sets the text, which can be done once. -/
def addText (choices : Choices) (text : Text) : Except Stop Choices :=
  if choices.text.isSome then .error .misuse else .ok { choices with text := some text }

/-- Sets an option without a value, which can be done once. -/
def addFlag (choices : Choices) : Setting → Except Stop Choices
  | .keepEnds =>
    if choices.keepEnds then .error .misuse else .ok { choices with keepEnds := true }
  | .ignoreEscaped =>
    if choices.ignoreEscaped then
      .error .misuse
    else
      .ok { choices with ignoreEscaped := true }
  | .regex =>
    if choices.regex then .error .misuse else .ok { choices with regex := true }
  | .help => .error .help
  | .dialect => .error .misuse
  | .delimiter => .error .misuse

/-- Sets an option to a value.  Only delimiters may be given more than once, and
only to the actions that take many. -/
def addValue
    (action : Action) (choices : Choices) (value : Text) : Setting → Except Stop Choices
  | .dialect =>
    match choices.dialect, dialectNamed? value with
    | none, some dialect => .ok { choices with dialect := some dialect }
    | _, _ => .error .misuse
  | .delimiter =>
    if choices.delimiters.isEmpty || action.takesManyDelimiters then
      .ok { choices with delimiters := choices.delimiters ++ [value] }
    else
      .error .misuse
  | _ => .error .misuse

end Choices

/-- What kind of word an argument is. -/
inductive Word where
  /-- The word after which all is text. -/
  | separator
  /-- A long option, perhaps with a value of its own. -/
  | long (name : Text) (value : Option Text)
  /-- The letters after one dash. -/
  | cluster (letters : Text)
  /-- Anything else, a lone dash and the empty word included. -/
  | plain (text : Text)
  deriving DecidableEq, Repr

def Word.ofText (word : Text) : Word :=
  match word with
  | ['-', '-'] => .separator
  | '-' :: '-' :: rest =>
    match rest.dropWhile (· != '=') with
    | [] => .long rest none
    | _ :: value => .long (rest.takeWhile (· != '=')) (some value)
  | '-' :: c :: rest => .cluster (c :: rest)
  | _ => .plain word

/-- Whether a word can be the value of the option before it. -/
def isValue (word : Text) : Bool :=
  match Word.ofText word with
  | .plain _ => true
  | _ => false

/-- The option of an action with a long name. -/
def longSetting (action : Action) (name : Text) : Except Stop Setting :=
  match action.settings.find? fun setting => setting.long == name with
  | some setting => .ok setting
  | none => .error .misuse

/-- The option of an action with a letter. -/
def shortSetting (action : Action) (letter : Char) : Except Stop Setting :=
  match action.settings.find? fun setting => setting.short == letter with
  | some setting => .ok setting
  | none => .error .misuse

/-- A value attached to a letter, without the equals sign that may precede it. -/
def attached : Text → Text
  | '=' :: value => value
  | value => value

/-- Reads the letters after one dash.  The first that takes a value takes the
rest of the word; if nothing is left, that option still needs its value. -/
def readCluster
    (action : Action) : Choices → Text → Except Stop (Choices × Option Setting)
  | choices, [] => .ok (choices, none)
  | choices, letter :: rest => do
    let setting ← shortSetting action letter
    if setting.takesValue then
      if rest.isEmpty then
        return (choices, some setting)
      else
        return (← choices.addValue action (attached rest) setting, none)
    else
      readCluster action (← choices.addFlag setting) rest

/-- Reads a long option: what it sets, and itself if its value has to follow. -/
def readLong
    (action : Action) (choices : Choices) (name : Text) (value : Option Text) :
    Except Stop (Choices × Option Setting) := do
  let setting ← longSetting action name
  match setting.takesValue, value with
  | true, some value => return (← choices.addValue action value setting, none)
  | true, none => return (choices, some setting)
  | false, some _ => throw .misuse
  | false, none => return (← choices.addFlag setting, none)

/-- Reads the words after the action, `awaiting` being the option whose value
has to come next. -/
def readWords
    (action : Action) :
    (awaiting : Option Setting) → Choices → List Text → Except Stop Choices
  | none, choices, [] => .ok choices
  | some _, _, [] => .error .misuse
  | some setting, choices, word :: rest =>
    if isValue word then do
      readWords action none (← choices.addValue action word setting) rest
    else
      .error .misuse
  | none, choices, word :: rest =>
    match Word.ofText word with
    | .separator => rest.foldlM Choices.addText choices
    | .plain text => do
      readWords action none (← choices.addText text) rest
    | .long name value => do
      let (choices, awaiting) ← readLong action choices name value
      readWords action awaiting choices rest
    | .cluster letters => do
      let (choices, awaiting) ← readCluster action choices letters
      readWords action awaiting choices rest

/-- The delimiters that the options choose, if they do not contradict each
other. -/
def Choices.delimiterChoice (choices : Choices) : Except Stop Delimiters :=
  match choices.regex, choices.delimiters with
  | true, [] => .ok .metachars
  | true, _ :: _ => .error .misuse
  | false, ds => .ok (.listed ds)

/-- The job that an action and its options describe, if they are complete. -/
def Choices.job (choices : Choices) : Action → Except Stop Job
  | .translate => .ok (.translate (choices.dialect.getD .java))
  | .glob => .ok .glob
  | .split =>
    match choices.delimiters with
    | d :: _ => .ok (.split ⟨d, !choices.keepEnds, choices.ignoreEscaped⟩)
    | [] => .error .misuse
  | .escape => Job.escape <$> choices.delimiterChoice
  | .unescape => Job.unescape <$> choices.delimiterChoice
  | .inspect => .ok .inspect

/-- A job, and the text to do it to; without one it is done to every line of the
input. -/
structure Command where
  job : Job
  text : Option Text
  deriving DecidableEq, Repr

def helpWord : Text := "help".toList

/-- What a request for help comes to: it may name one thing to explain. -/
def helpStop : List Text → Stop
  | [] => .help
  | [word] =>
    if (Action.named? word).isSome || word == helpWord then .help else .misuse
  | _ => .misuse

def Command.ofArguments : List Text → Except Stop Command
  | [] => .error .misuse
  | first :: rest =>
    match Action.named? first with
    | some action => do
      let choices ← readWords action none {} rest
      return ⟨← choices.job action, choices.text⟩
    | none =>
      match Word.ofText first with
      | .plain word =>
        if word = helpWord then .error (helpStop rest) else .error .misuse
      | .long name none =>
        if name = Setting.help.long then
          .error .help
        else if name = "version".toList then
          .error .version
        else
          .error .misuse
      | .cluster ('h' :: _) => .error .help
      | .cluster ('V' :: _) => .error .version
      | _ => .error .misuse

end PatternText.CommandLine
