import GrowthFlow.Report.Basic
import GrowthFlow.Flow.Codec

/-!
# Reports in JSON

A report is saved as JSON with one item to a line. What is not known is left out.
-/

namespace GrowthFlow

open Json (Decoder Fields)

/-- A field that is left out when there is nothing to write. -/
def Json.field? {α : Type} (key : String) (f : α → Json) (a : Option α) : List (String × Json) :=
  a.toList.map fun a => (key, f a)

namespace ProgramInfo

/-- The numbers. -/
def json (p : ProgramInfo) : Json :=
  .obj (Json.field? "name" .str p.name ++
    [("n_lines", .nat p.lines), ("n_func", .nat p.functions), ("n_loops", .nat p.loops),
     ("n_func_vars", .nat p.functionVariables), ("n_loop_vars", .nat p.loopVariables)])

/-- The fields of the numbers. -/
def fields : Fields ProgramInfo :=
  ProgramInfo.mk <$> .optional "name" .text <*> .required "n_lines" .word <*>
    .required "n_func" .word <*> .required "n_loops" .word <*>
    .orElse "n_func_vars" .word 0 <*> .orElse "n_loop_vars" .word 0

/-- The numbers. -/
def decode : Decoder ProgramInfo := fields.record

end ProgramInfo

namespace FunctionResult

/-- What is known about a function. -/
def json (r : FunctionResult) : Json :=
  .obj ([("name", .str r.name), ("infinity", .bool r.infinite), ("index", .nat r.index),
      ("variables", .strings r.vars)] ++
    Json.field? "relation" Relation.json r.relation ++
    Json.field? "choices" Choices.json r.choices ++
    Json.field? "bound" Bounds.json r.bounds ++
    Json.field? "inf_flows" .str r.flows ++
    [("duration_ms", .nat r.millis)])

/-- The fields of a function's result. -/
def fields : Fields FunctionResult :=
  FunctionResult.mk <$> .required "name" .text <*> .required "infinity" .bool <*>
    .required "index" .word <*> .required "variables" (.list .text) <*>
    .optional "relation" Relation.decode <*> .optional "choices" Choices.decode <*>
    .optional "bound" Bounds.decode <*> .optional "inf_flows" .text <*>
    .orElse "duration_ms" .word 0

/-- What is known about a function. -/
def decode : Decoder FunctionResult := fields.record

end FunctionResult

namespace VariableResult

/-- What is known about a variable. -/
def json (r : VariableResult) : Json :=
  .obj ([("name", .str r.name)] ++
    Json.field? "growth" Scalar.json r.growth ++
    Json.field? "bound" Bound.json r.bound ++
    Json.field? "choices" Choices.json r.choices)

/-- The fields of a variable's result. -/
def fields : Fields VariableResult :=
  VariableResult.mk <$> .required "name" .text <*> .optional "growth" Scalar.decode <*>
    .optional "bound" Bound.decode <*> .optional "choices" Choices.decode

/-- What is known about a variable. -/
def decode : Decoder VariableResult := fields.record

end VariableResult

namespace LoopResult

/-- What is known about a loop. -/
def json (r : LoopResult) : Json :=
  .obj [("code", .str r.code), ("variables", .obj (r.vars.mapValues VariableResult.json)),
    ("duration_ms", .nat r.millis)]

/-- The fields of a loop's result. -/
def fields : Fields LoopResult :=
  LoopResult.mk <$> .required "code" .text <*> .required "variables" (.table VariableResult.decode) <*>
    .orElse "duration_ms" .word 0

/-- What is known about a loop. -/
def decode : Decoder LoopResult := fields.record

end LoopResult

namespace FunctionLoops

/-- What is known about the loops of a function. -/
def json (r : FunctionLoops) : Json :=
  .obj [("name", .str r.name), ("loops", .ofList LoopResult.json r.loops),
    ("duration_ms", .nat r.millis)]

/-- The fields of the results of a function's loops. -/
def fields : Fields FunctionLoops :=
  FunctionLoops.mk <$> .required "name" .text <*> .required "loops" (.list LoopResult.decode) <*>
    .orElse "duration_ms" .word 0

/-- What is known about the loops of a function. -/
def decode : Decoder FunctionLoops := fields.record

end FunctionLoops

namespace Report

/-- The results, without the loops if there are none. -/
def json (r : Report) : Json :=
  .obj ([("program", r.program.json),
      ("relations", .obj (r.relations.mapValues FunctionResult.json))] ++
    (if r.loops.isEmpty then [] else [("loops", .obj (r.loops.mapValues FunctionLoops.json))]) ++
    [("duration_ms", .nat r.millis)])

/-- The fields of a report. -/
def fields : Fields Report :=
  Report.mk <$> .required "program" ProgramInfo.decode <*>
    .orElse "relations" (.table FunctionResult.decode) [] <*>
    .orElse "loops" (.table FunctionLoops.decode) [] <*> .orElse "duration_ms" .word 0

/-- A report. -/
def decode : Decoder Report := fields.record

/-- The text of a saved report. -/
def save (r : Report) : String := r.json.pretty

/-- Reads a saved report, behind which there must be nothing else. -/
def load (text : String) : Except Json.DecodeError Report :=
  let (n, isWhole) := Json.Node.read text
  match decode n with
  | .ok r => if isWhole then .ok r else .error .mismatch
  | .error e => .error e

end Report

end GrowthFlow
