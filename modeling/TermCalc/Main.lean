import TermCalc.Command.Files
import TermCalc.Command.Report

/-!
# The program

Reads the file that the command line names, and writes the report.
-/

namespace TermCalc

/-- What the program says about itself. -/
def usage : String :=
  "usage: termcalc [-h] [-e EXPRESSION] [--tokens] [--parse] [--list-builtins] [--verbose] " ++
    "[input]\n"

/-- The fuel of a run. -/
def runFuel : Nat := 1000000000000000

/-- The text of a file, if it can be read. -/
def fileText (path : String) : IO (Except FileFault String) :=
  try .ok <$> IO.FS.readFile (tidyPath path) catch _ => pure (.error .missing)

/-- What is said of a failure that breaks a run off. -/
def complaint : Failure → String
  | .unreadable _ => "the file cannot be read"
  | .missingText => "the expression has no text"
  | e => e.message?.getD "a number is out of range or too long to be written"

/-- Write a report and return the exit code. -/
def deliver (r : Report) : IO UInt32 := do
  (← IO.getStdout).putStr r.stdout
  let err ← IO.getStderr
  err.putStr r.stderr
  match r.ending with
  | .exited code => return code.toUInt32
  | .broken failure =>
    err.putStr (complaint failure ++ "\n")
    return 1
  | .exhausted =>
    err.putStr "the evaluation did not end\n"
    return 1

end TermCalc

open TermCalc in
/-- Carry out a command line. -/
def main (arguments : List String) : IO UInt32 := do
  match Options.ofArguments arguments with
  | .error refusal =>
    let out ← if refusal = .help then IO.getStdout else IO.getStderr
    out.putStr usage
    deliver (.ofRefusal refusal)
  | .ok o =>
    let text ← match o.file? with
      | some path => fileText path
      | none => pure (.error .missing)
    deliver (o.report runFuel fun _ => text)
