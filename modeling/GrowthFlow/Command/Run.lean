import GrowthFlow.Command.Arguments
import GrowthFlow.Command.Storage
import GrowthFlow.Analysis.Program
import GrowthFlow.Report.Codec
import GrowthFlow.Lang.Source
import GrowthFlow.Text.Visible

/-!
# Running the command

A run reads the source, analyzes it, tells what it found, and saves a report. Warnings are told unless the
run is silent, and everything else only on demand.
-/

namespace GrowthFlow

open Lang

/-- What a run leaves to its caller. -/
structure Response where
  /-- Zero for success. -/
  code : Nat
  output : String := ""
  errors : String := ""
deriving DecidableEq, Repr

/-- Why a run fails. -/
inductive RunError where
  | file (e : FileError)
  | source (e : SourceError)
  | analysis (e : AnalysisError)
deriving DecidableEq, Repr

namespace RunError

/-- The error in words. -/
def message : RunError → String
  | file e => "IO error: " ++ e.message
  | source e => e.headline ++ "\n" ++ e.span.start.repr ++ "-" ++ e.span.stop.repr ++ ": " ++ e.label
  | analysis e => e.message

end RunError

namespace Command

/-- Whether a warning, or something that is none, is told. -/
def tells (c : Command) (isWarning : Bool) : Bool := !c.silent && (isWarning || c.verbose)

/-- A line of the log, if it is told. A path may hold any character, so the control characters are made
visible. -/
def logLine (c : Command) (isWarning : Bool) (text : String) : List String :=
  if c.tells isWarning then [(if isWarning then "WARN " else "INFO ") ++ Text.visible text] else []

/-- The lines of some events. -/
def logEvents (c : Command) (es : List Event) : List String :=
  es.flatMap fun e => c.logLine e.isWarning e.text

/-- The report with what is known of the file. -/
def nameReport (c : Command) (source : String) (r : Report) : Report :=
  { r with program := { r.program with
      name := Path.stem? c.file
      lines := Text.lineCount source.toList } }

/-- The lines that tell a report. -/
def reportLines (c : Command) (r : Report) : List String :=
  (if c.silent then [] else r.texts) ++ r.texts.flatMap (fun t => c.logLine false ("\n" ++ t)) ++
    c.logLine false ("total time: " ++ r.millis.repr)

/-- Analyzes a source: the lines to be told, and the report. -/
def examine (c : Command) (source : String) : List String × Except RunError Report :=
  match Program.parse source with
  | .error e => ([], .error (.source e))
  | .ok p =>
    let parsed := c.logLine false
      ("parsed " ++ c.file ++ " (" ++ p.functions.length.repr ++ " functions)")
    let analyze := if c.loops then analyzeLoops else analyzeProgram
    let (result, events) := (analyze c.options p).result
    let lines := parsed ++ c.logEvents events
    match result with
    | .error e => (lines, .error (.analysis e))
    | .ok r =>
      let r := c.nameReport source r
      (lines ++ c.reportLines r, .ok r)

/-- Where the report is saved. -/
def target (c : Command) : String := c.out.getD (Path.defaultOutput c.file)

/-- The response with the given lines. -/
def respond (lines : List String) (result : Except RunError Unit) : Response :=
  let output := String.join (lines.map (· ++ "\n"))
  match result with
  | .ok () => { code := 0, output }
  | .error e => { code := 1, output, errors := "Error: " ++ e.message ++ "\n" }

variable {m : Type → Type} [Monad m] [Storage m]

/-- Saves the report, unless that is not wanted. -/
def saveReport (c : Command) (r : Report) : m (List String × Except RunError Unit) := do
  if c.noSave then return ([], .ok ())
  match ← (Storage.save c.target r.save).run with
  | .ok () => return (c.logLine false ("saved result in " ++ c.target), .ok ())
  | .error e => return ([], .error (.file e))

/-- Runs the command. -/
def run (c : Command) : m Response := do
  match ← (Storage.readText c.file).run with
  | .error e => return respond [] (.error (.file e))
  | .ok source =>
    match c.examine source with
    | (lines, .error e) => return respond lines (.error e)
    | (lines, .ok r) =>
      let (more, result) ← c.saveReport r
      return respond (lines ++ more) result

end Command

namespace Request

/-- The name and version of the command. -/
def versionText : String := "mwp 0.1.0\n"

/-- How the command is used. -/
def usageText : String :=
  "Usage: mwp FILE [--out PATH] [--no-save] [--fin] [--strict] [--loops] [--bounded-for]\n" ++
    "           [--fixpoint-limit N] [-s|--silent] [-v|--verbose] [-h|--help] [-V|--version]\n"

/-- Answers a request. -/
def run {m : Type → Type} [Monad m] [Storage m] : Request → m Response
  | help => return { code := 0, output := usageText }
  | version => return { code := 0, output := versionText }
  | refused => return { code := 2, errors := usageText }
  | analyze c => c.run

end Request

end GrowthFlow
