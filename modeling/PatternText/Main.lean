import PatternText.CommandLine.Outcome

/-!
# The program

The outer layer of the command line: it hands the arguments and the input to the
library and writes what comes back.  The input is read only if the command asks
for it.
-/

open PatternText.CommandLine in
/-- Runs the program on its arguments. -/
def main (arguments : List String) : IO UInt32 := do
  match Command.ofArguments (arguments.map String.toList) with
  | .error stop => stop.outcome.emit
  | .ok command =>
    let input ←
      if command.readsInput then
        (← IO.getStdin).readBinToEnd
      else
        pure ByteArray.empty
    (command.run input.toList).emit
