import TermCalc.Command.Options
import TermCalc.Session

/-!
# Running a command line

What the program writes, and how it ends, as a function of its command line and of the files.

* `Report`, `Ending`.
* `Failure.explained?`: failures that are told to the user end the program with code 1; all others
  break it off.
* `Options.file?`: the file that a command line reads.
* `unifyNewlines`: the text of a file.
* `Options.report`, `report`: the run of a command line.
-/

namespace TermCalc

/-- How a run ends. -/
inductive Ending where
  | exited (code : Nat)
  /-- A failure that the program does not explain. -/
  | broken (failure : Failure)
  | exhausted

/-- **What a run leaves.** -/
structure Report where
  stdout : String
  stderr : String
  ending : Ending

/-- The wording of a failure that is told to the user. Values that cannot be shown are not
explained. -/
def Failure.explained? : Failure → Option String
  | notExpression _ | notPrintable _ | listLookedUp => none
  | e => e.message?

/-- Lines of text. -/
def linesText (lines : List String) : String := String.join (lines.map (· ++ "\n"))

/-- Carriage returns, with or without a line feed behind them, read as line feeds. -/
def unifyNewlines : List Char → List Char
  | '\r' :: '\n' :: cs => '\n' :: unifyNewlines cs
  | '\r' :: cs => '\n' :: unifyNewlines cs
  | c :: cs => c :: unifyNewlines cs
  | [] => []

/-- The text of a statement on each line. -/
def printStatements (registry : Registry) : List Term → Buffer → Printed Buffer
  | [], out => .done out
  | t :: ts, out =>
    match Session.format registry t with
    | .ok text => printStatements registry ts (Output.write out (text ++ "\n"))
    | .error e => .fail out e

namespace Report

/-- The report on a session that has written `stdout`. -/
def ofSession (s : Session) (stdout : String) (failure : Option Failure) : Report :=
  match failure with
  | none => ⟨stdout, linesText s.notes.reverse, .exited 0⟩
  | some e =>
    match e.explained? with
    | some text => ⟨stdout, linesText (("Error: " ++ text) :: s.notes).reverse, .exited 1⟩
    | none => ⟨stdout, linesText s.notes.reverse, .broken e⟩

/-- The report on an outcome whose value is written by `write`. -/
def ofOutcome {α : Type} (x : Outcome Session α) (write : Session → α → Printed Buffer) : Report :=
  match x with
  | .value a s =>
    let printed := write s a
    ofSession s printed.output.text printed.failure
  | .failure e s => ofSession s "" (some e)
  | .exhausted => ⟨"", "", .exhausted⟩

/-- The report on a command line that is refused. The code alone tells why. -/
def ofRefusal : Refusal → Report
  | .help => ⟨"", "", .exited 0⟩
  | .misuse => ⟨"", "", .exited 2⟩

end Report

namespace Options

variable (o : Options) (fuel : Nat)

/-- The file to be read, if there is one. An expression and the listing need none. -/
def file? : Option String :=
  if o.listBuiltins || o.expression != .unsaid then none else o.input.filter (· != "")

/-- A session over the core table, with a note on its size. -/
def session : Session :=
  (Session.start coreRegistry o.verbose).note
    ("Registered " ++ showInt coreRegistry.size ++ " builtins, " ++
      showInt coreRegistry.operatorNames.length ++ " operator spellings")

/-- **The report on a source.** Tokens come before statements, and statements before values. -/
def reportOn (source file : String) : Report :=
  if o.tokens then
    .ofOutcome (Session.tokens source file o.session) fun _ ts =>
      .done (.ofText (linesText (ts.map Token.shown)))
  else if o.parse then
    .ofOutcome (Session.parse source file o.session) fun s ts =>
      printStatements s.registry ts .empty
  else
    .ofOutcome (Session.run fuel source file o.session) fun _ text =>
      .done (.ofText (linesText [text]))

/-- **The report on a command line**, given the texts of files. -/
def report (files : String → Except FileFault String) : Report :=
  if o.listBuiltins then .ofSession o.session (linesText [coreRegistry.listing]) none
  else
    match o.expression, o.file? with
    | .given source, _ => o.reportOn fuel source "<expression>"
    | .dropped, _ => .ofSession o.session "" (some .missingText)
    | .unsaid, some path =>
      match files path with
      | .ok text => o.reportOn fuel (String.ofList (unifyNewlines text.toList)) path
      | .error fault => .ofSession o.session "" (some (.unreadable fault))
    | .unsaid, none => .ofRefusal .misuse

end Options

/-- **The run of a command line.** -/
def report (fuel : Nat) (arguments : List String) (files : String → Except FileFault String) :
    Report :=
  match Options.ofArguments arguments with
  | .ok o => o.report fuel files
  | .error refusal => .ofRefusal refusal

end TermCalc
