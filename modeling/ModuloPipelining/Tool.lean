import ModuloPipelining.Exchange.Read
import ModuloPipelining.Exchange.Write
import ModuloPipelining.Json.Parse
import ModuloPipelining.Json.Print
import ModuloPipelining.Report.Text

/-!
# The command-line tool

The tool reads a function, and optionally an operator library, from JSON documents and runs one
of two commands on it:

* `schedule` solves every top-level loop on its own and leaves the function as it is;
* `pipeline` runs the pass and reports the transformed function.

Each command answers in text (the listings of `Report.Text`) or in JSON, indented by two blanks
with members in field order. The function is read first, then the library; a document that is
not JSON, or not a function or a library, stops the tool. Documents are read from their text
(`Reading.text`): a known field written twice is refused, the record of a case may be
written as an array, and a member the reader skips is checked for its syntax only
(`Json.parseDocument?`). A contract violation stops the `pipeline` command.
-/

namespace ModuloPipelining

/-- What the tool does. -/
inductive Command where
  | schedule
  | pipeline
  deriving DecidableEq, Repr

/-- How the tool answers. -/
inductive OutputFormat where
  | text
  | json
  deriving DecidableEq, Repr

/-- A command with its options. -/
structure Invocation where
  command : Command
  format : OutputFormat
  maxIiFactor : Nat
  minSearchSpan : Nat
  deriving DecidableEq, Repr

/-- The input documents of the tool. -/
inductive InputFile where
  | function
  | library
  deriving DecidableEq, Repr

/-- How an input document is called. -/
def InputFile.name : InputFile → String
  | .function => "function"
  | .library => "library"

/-- Why the tool stopped. -/
inductive ToolError where
  | json (file : InputFile)
  | pipelining (e : PassError)
  deriving DecidableEq, Repr

/-- The text of a tool error. -/
def ToolError.message : ToolError → String
  | .json file => s!"invalid JSON in the {file.name} file"
  | .pipelining e => "pipelining failed: " ++ e.message

/-- A command by name. -/
def Command.ofName? : String → Option Command
  | "schedule" => some .schedule
  | "pipeline" => some .pipeline
  | _ => none

/-- An output format by name. -/
def OutputFormat.ofName? : String → Option OutputFormat
  | "text" => some .text
  | "json" => some .json
  | _ => none

/-- Read a document strictly, failing with the file's name. -/
def readDocument {α : Type} (file : InputFile) (decode : Json → Option α) (text : String) :
    Except ToolError α :=
  match Json.parseDocument? text >>= decode with
  | some a => .ok a
  | none => .error (.json file)

/-- The pass configuration: the library file if given, else the standard one. -/
def Invocation.config (inv : Invocation) (libraryText : Option String) : Except ToolError PassConfig := do
  let library ← match libraryText with
    | some text => readDocument .library Library.ofJson? text
    | none => pure Library.standard
  pure ⟨library, ⟨inv.maxIiFactor, inv.minSearchSpan⟩⟩

/-- The answer of the `schedule` command. -/
def runSchedule (format : OutputFormat) (f : Func) (cfg : PassConfig) :
    Except Fault (Except ToolError String) := do
  match ← f.scheduleLoops cfg with
  | .error e => pure (.error (.pipelining e))
  | .ok reports =>
    pure (.ok (match format with
      | .text => scheduleListing f.name reports
      | .json => (Json.ofList ScheduleReport.toJson reports).pretty))

/-- The answer of the `pipeline` command. -/
def runPipeline (format : OutputFormat) (f : Func) (cfg : PassConfig) :
    Except Fault (Except ToolError String) := do
  match ← f.pipeline cfg with
  | .error failure => pure (.error (.pipelining failure.error))
  | .ok s =>
    pure (.ok (match format with
      | .text => passListing s.func s.reports s.stats
      | .json =>
        Json.pretty (.obj [("stats", s.stats.toJson), ("loops", Json.ofList LoopReport.toJson s.reports),
          ("warnings", Json.ofList Warning.toJson s.warnings), ("function", s.func.toJson)])))

/-- Run the tool on the texts of its input files. -/
def Invocation.run (inv : Invocation) (functionText : String) (libraryText : Option String) :
    Except Fault (Except ToolError String) :=
  match readDocument .function (Func.ofJson? .text) functionText with
  | .error e => pure (.error e)
  | .ok f =>
    match inv.config libraryText with
    | .error e => pure (.error e)
    | .ok cfg =>
      match inv.command with
      | .schedule => runSchedule inv.format f cfg
      | .pipeline => runPipeline inv.format f cfg

end ModuloPipelining
