import PatternText.CommandLine.Run

/-!
# Every line on its own

What a run over the lines of an input leaves behind, told line by line.
-/

namespace PatternText.CommandLine

/-!
## Runs over lines

What a run over lines leaves behind can be told from what the job does to each line on its
own: the output and the reports are those of the lines, one after the other, and the end
of the run depends on how many lines failed and on whether one of them was not UTF-8.

`HasLines` says what the lines of an input are, and `Decodes` which of them are read.
-/

inductive HasLines : List UInt8 → List (List UInt8) → Prop where
  | none : HasLines [] []
  | unended (line : List UInt8) :
      line ≠ [] → lineFeed ∉ line → HasLines line [line]
  | ended (line rest : List UInt8) (later : List (List UInt8)) :
      lineFeed ∉ line → HasLines rest later →
        HasLines (line ++ lineFeed :: rest) (dropReturn line :: later)

/-- The first of some lines are the encodings of texts, and those that are not read start
with a line that encodes no text. -/
structure Decodes
    (lines : List (List UInt8)) (texts : List Text) (unread : List (List UInt8)) :
    Prop where
  lines_eq : lines = texts.map Text.bytes ++ unread
  undecodable : ∀ line ∈ unread.head?, ∀ s, Text.bytes s ≠ line

/-- What is left behind where reading lines ends, after some have failed. -/
def Outcome.atEnd (failures : Nat) (unread : List (List UInt8)) : Outcome :=
  if unread ≠ [] then
    .error undecodable
  else if failures = 0 then
    .success
  else
    .error (failureCount failures)

namespace Job

variable (compiler : Text → Option Text)

def output (job : Job) (s : Text) : Text :=
  match job.apply compiler s with
  | .ok answer => render answer
  | .error _ => []

/-- Why a job fails on a text, if it does. -/
def failure? (job : Job) (s : Text) : Option Failure :=
  match job.apply compiler s with
  | .ok _ => none
  | .error failure => some failure

end Job

/-!
## Lines and their texts

Every input has exactly one list of lines, `hasLines_iff`, and a line is read as a text
exactly if it is the encoding of that text, `decode?_eq_some_iff`.
-/

section

variable {line rest readBack : List UInt8}

/-! ### Lines of an input -/

theorem linesFrom_ended
    (hline : lineFeed ∉ line) (readBack rest : List UInt8) :
    linesFrom readBack (line ++ lineFeed :: rest) =
      dropReturn (readBack.reverse ++ line) :: lines rest := by
  induction line generalizing readBack with
  | nil => rw [List.nil_append, linesFrom, if_pos rfl, List.append_nil, lines]
  | cons b line ih =>
    rw [List.mem_cons, not_or] at hline
    rw [List.cons_append, linesFrom, if_neg (Ne.symm hline.1), ih hline.2,
      List.reverse_cons, List.append_assoc, List.singleton_append]

theorem linesFrom_unended
    (hline : lineFeed ∉ line) (hne : readBack.reverse ++ line ≠ []) :
    linesFrom readBack line = [readBack.reverse ++ line] := by
  induction line generalizing readBack with
  | nil =>
    have hread : ¬readBack.isEmpty = true := by simpa using hne
    rw [linesFrom, if_neg hread, List.append_nil]
  | cons b line ih =>
    rw [List.mem_cons, not_or] at hline
    have hparts : (b :: readBack).reverse ++ line = readBack.reverse ++ b :: line := by simp
    rw [linesFrom, if_neg (Ne.symm hline.1), ih hline.2 (by rwa [hparts]), hparts]

theorem HasLines.lines_eq
    {input : List UInt8} {ls : List (List UInt8)}
    (h : HasLines input ls) :
    lines input = ls := by
  induction h with
  | none => rfl
  | unended line hne hline => exact linesFrom_unended hline hne
  | ended line rest later hline _ ih =>
    rw [lines, linesFrom_ended hline, List.reverse_nil, List.nil_append, ih]

theorem hasLines_lines (input : List UInt8) :
    HasLines input (lines input) := by
  by_cases hfeed : lineFeed ∈ input
  · obtain ⟨line, rest, hinput, hline⟩ := List.eq_append_cons_of_mem hfeed
    have hshorter : rest.length < input.length := by
      rw [hinput, List.length_append, List.length_cons]
      omega
    have h := HasLines.ended line rest _ hline (hasLines_lines rest)
    rw [← hinput] at h
    rwa [h.lines_eq]
  · by_cases hne : input = []
    · exact hne ▸ HasLines.none
    · have h := HasLines.unended input hne hfeed
      rwa [h.lines_eq]
termination_by input.length

/-- An input has exactly the lines that reading it gives. -/
theorem hasLines_iff
    {input : List UInt8} {ls : List (List UInt8)} :
    HasLines input ls ↔ lines input = ls :=
  ⟨HasLines.lines_eq, fun h => h ▸ hasLines_lines input⟩

/-! ### Texts of lines -/

theorem decode?_eq_some_iff {s : Text} :
    decode? line = some s ↔ Text.bytes s = line := by
  have hencode : (String.ofList s).toByteArray = (Text.bytes s).toByteArray :=
    String.toByteArray_ofList
  constructor
  · intro h
    obtain ⟨str, hstr, rfl⟩ := Option.map_eq_some_iff.1 h
    have hbytes : str.toByteArray = line.toByteArray := by
      unfold String.fromUTF8? at hstr
      split at hstr
      · exact congrArg String.toByteArray (Option.some.inj hstr).symm
      · simp at hstr
    rw [String.ofList_toList, hbytes] at hencode
    exact (List.toByteArray_inj.1 hencode).symm
  · rintro rfl
    have hvalid : (Text.bytes s).toByteArray.IsValidUTF8 :=
      hencode ▸ (String.ofList s).isValidUTF8
    have hstr : String.fromUTF8? (Text.bytes s).toByteArray = some (String.ofList s) := by
      rw [String.fromUTF8?, dif_pos hvalid, Option.some.injEq, ← String.toByteArray_inj, hencode]
      rfl
    rw [decode?, hstr, Option.map_some, String.toList_ofList]

theorem decode?_eq_none_iff :
    decode? line = none ↔ ∀ s, Text.bytes s ≠ line := by
  rw [Option.eq_none_iff_forall_not_mem]
  constructor
  · intro h s hs
    exact h s (decode?_eq_some_iff.2 hs)
  · intro h s hs
    exact h s (decode?_eq_some_iff.1 hs)

theorem exists_decodes (ls : List (List UInt8)) :
    ∃ texts unread, Decodes ls texts unread := by
  induction ls with
  | nil => exact ⟨[], [], rfl, by simp⟩
  | cons line ls ih =>
    cases h : decode? line with
    | none =>
      refine ⟨[], line :: ls, rfl, ?_⟩
      rintro _ ⟨⟩
      exact decode?_eq_none_iff.1 h
    | some s =>
      obtain ⟨texts, unread, hls, hunread⟩ := ih
      have hline : Text.bytes s = line := decode?_eq_some_iff.1 h
      exact ⟨s :: texts, unread, by rw [hls, List.map_cons, hline, List.cons_append], hunread⟩

end

/-!
## All lines of an input

A run over lines takes one line after the other and keeps nothing from one to the next but
the number of those that failed.  So its output and its reports are put together from what
the job does to each line alone, `run_lines`.
-/

namespace Job

variable {compiler : Text → Option Text} {job : Job} {s : Text}

/-! ### One line -/

theorem failure?_eq_none_iff :
    job.failure? compiler s = none ↔ ∃ answer, job.apply compiler s = .ok answer := by
  unfold failure?
  cases job.apply compiler s <;> simp

theorem failure?_eq_some_iff {failure : Failure} :
    job.failure? compiler s = some failure ↔ job.apply compiler s = .error failure := by
  unfold failure?
  cases job.apply compiler s <;> simp

theorem output_eq_nil_of_failure?
    {failure : Failure}
    (h : job.failure? compiler s = some failure) :
    job.output compiler s = [] := by
  rw [output, failure?_eq_some_iff.1 h]

theorem runLines_of_success
    (h : job.failure? compiler s = none) (failures : Nat) (rest : List (List UInt8)) :
    job.runLines compiler failures (Text.bytes s :: rest) =
      .printing (job.output compiler s) (job.runLines compiler failures rest) := by
  have hread : decode? (Text.bytes s) = some s := decode?_eq_some_iff.2 rfl
  obtain ⟨answer, happly⟩ := failure?_eq_none_iff.1 h
  simp only [runLines, hread, output, happly]

theorem runLines_of_failure
    {failure : Failure}
    (h : job.failure? compiler s = some failure) (failures : Nat) (rest : List (List UInt8)) :
    job.runLines compiler failures (Text.bytes s :: rest) =
      .reporting (lineReport failure) (job.runLines compiler (failures + 1) rest) := by
  have hread : decode? (Text.bytes s) = some s := decode?_eq_some_iff.2 rfl
  simp only [runLines, hread, failure?_eq_some_iff.1 h]

theorem runLines_unread
    {unread : List (List UInt8)}
    (h : ∀ line ∈ unread.head?, ∀ s, Text.bytes s ≠ line) (failures : Nat) :
    job.runLines compiler failures unread = .atEnd failures unread := by
  cases unread with
  | nil =>
    cases failures with
    | zero => rfl
    | succ failures => rfl
  | cons line rest =>
    have hnone : decode? line = none := decode?_eq_none_iff.2 (h line rfl)
    rw [runLines, hnone]
    rfl

/-! ### All lines -/

/-- Lines are taken one by one, after some have failed. -/
theorem runLines_eq
    {ls unread : List (List UInt8)} {texts : List Text}
    (h : Decodes ls texts unread) (failed : Nat) :
    let failures := texts.filterMap (job.failure? compiler)
    let last := Outcome.atEnd (failed + failures.length) unread
    job.runLines compiler failed ls =
      ⟨last.status, texts.flatMap (job.output compiler),
        failures.flatMap lineReport ++ last.stderr⟩ := by
  obtain ⟨rfl, hunread⟩ := h
  induction texts generalizing failed with
  | nil =>
    have hstdout : (Outcome.atEnd failed unread).stdout = [] := by
      unfold Outcome.atEnd
      split
      · rfl
      · split <;> rfl
    intro failures last
    rw [List.map_nil, List.nil_append, runLines_unread hunread]
    exact congrArg (Outcome.mk last.status · last.stderr) hstdout
  | cons s texts ih =>
    rw [List.map_cons, List.cons_append]
    cases hfailure : job.failure? compiler s with
    | none =>
      rw [runLines_of_success hfailure, ih failed]
      simp [Outcome.printing, hfailure]
    | some failure =>
      rw [runLines_of_failure hfailure, ih (failed + 1)]
      simp [Outcome.reporting, hfailure, output_eq_nil_of_failure? hfailure, Nat.add_assoc,
        Nat.add_comm 1]

end Job

/-- A job is refused only if it could do nothing. -/
theorem Job.refusal?_eq_none_iff {job : Job} :
    job.refusal? = none ↔
      (∀ rule, job = .split rule → rule.delimiter ≠ []) ∧
        job ≠ .escape (.listed []) ∧ job ≠ .unescape (.listed []) := by
  cases job with
  | split rule => simp [Job.refusal?]
  | escape delimiters =>
    match delimiters with
    | .metachars | .listed [] | .listed (_ :: _) => simp [Job.refusal?]
  | unescape delimiters =>
    match delimiters with
    | .metachars | .listed [] | .listed (_ :: _) => simp [Job.refusal?]
  | _ => simp [Job.refusal?]

/-- What a command leaves behind that is given a text. -/
theorem Command.run_text
    {command : Command}
    (hrefusal : command.job.refusal? = none) (compiler : Text → Option Text) (s : Text)
    (input : List UInt8) :
    let alone := { command with text := some s }.runWith compiler input
    alone.stdout = command.job.output compiler s ∧
      (alone.status = 0 ↔ command.job.failure? compiler s = none) := by
  intro alone
  have hrun : alone = command.job.runText compiler s := by
    simp only [alone, Command.runWith, hrefusal]
  rw [hrun, Job.runText, Job.output, Job.failure?]
  cases command.job.apply compiler s with
  | ok answer => simp [Outcome.printing, Outcome.success]
  | error failure => simp [Outcome.error]

/-- A compiler of patterns that is asked about one pattern it cannot compile. -/
def refuseOpenGroup (s : Text) : Option Text :=
  if s = ['('] then
    some "regex parse error:\n    (\n    ^\nerror: unclosed group".toList
  else
    none

-- Past a line that is not UTF-8 nothing is read, and the failures before it are not counted.
example :
    Command.runWith refuseOpenGroup ⟨.glob, none⟩
        ([0x28, 0x0A, 0xFF, 0x0A] ++ Text.bytes "^a$".toList) =
      ⟨1, [],
        ("Invalid pattern \"(\": regex parse error:\n".toList ++
          "    (\n    ^\nerror: unclosed group\n".toList ++
          "Error: Failed to read stdin\n\nCaused by:\n".toList ++
          "    stream did not contain valid UTF-8\n".toList)⟩ := by
  decide +kernel

end PatternText.CommandLine
