import GrowthFlow.Analysis.Walk
import GrowthFlow.Report.Basic

/-!
# The analysis of functions, loops and programs

A function has a bound when some choice leaves no flow unbounded; the bound is read off the first such
choice. A loop is analyzed by itself, and each of its variables gets the least growth that some choice
allows.
-/

namespace GrowthFlow

open Lang

/-! ## Functions -/

/-- The bounds under the first of the choices. -/
def firstBounds? (R : Relation) (choices : Choices) : Option Bounds :=
  choices.first?.map fun c => Bounds.ofCells (R.apply c)

/-- The variables into which something flows without a bound under every choice. -/
def failingVariables (all : Assoc Choices) : List String :=
  (all.filter (·.2.isInfinite)).map (·.1)

/-- The flows that leave a function without a bound, in words. -/
def problematicFlows (out : Outcome) : Analysis String := do
  let all ← Analysis.ofChoices (out.relation.allVariableChoices choiceValues out.index)
  return out.relation.infiniteFlowsText (failingVariables all)

/-- What is known about a function, from the outcome of the walk over its body. Where no choice is left
and the walk was not told to be complete, the relation is not complete either and is left out. -/
def resultOf (opts : Options) (name : String) (out : Outcome) : Analysis FunctionResult := do
  let base : FunctionResult :=
    { name, infinite := out.isInfinite, index := out.index, vars := out.relation.vars }
  if out.isInfinite then
    if opts.complete then
      return { base with flows := some (← problematicFlows out), relation := some out.relation }
    else return base
  else
    match firstBounds? out.relation out.choices with
    | some bounds =>
      return { base with
        bounds := some bounds
        choices := some out.choices
        relation := some out.relation }
    | none => throw (.noChoice name)

/-- Analyzes a function as it is. -/
def analyzeFunction (opts : Options) (f : Function) : Analysis FunctionResult := do
  Analysis.log [.analyzing f.name]
  if f.body.isEmpty then throw (.emptyBody f.name)
  resultOf opts f.name (← walkOver opts f.names 0 f.body)

/-! ## Loops -/

/-- The classes of growth from the least on, each with the scalars that exceed it. -/
def growthClasses : List (Scalar × List Scalar) := [(.m, [.w, .p]), (.w, [.p]), (.p, [])]

/-- The least growth of a variable among some classes. -/
def classifyAmong (R : Relation) (index : Nat) (x : String) :
    List (Scalar × List Scalar) → Except ChoiceError VariableResult
  | [] => return { name := x }
  | (growth, extra) :: classes => do
    let choices ← R.variableChoices choiceValues index x extra
    match firstBounds? R choices with
    | some bounds =>
      return { name := x, growth := some growth, bound := bounds.get? x, choices := some choices }
    | none => classifyAmong R index x classes

/-- The least growth of a variable that some choice allows. -/
def classify (R : Relation) (index : Nat) (x : String) : Except ChoiceError VariableResult :=
  classifyAmong R index x growthClasses

/-- The scalars under a choice that suits every variable that has one, if there is such a choice. -/
def sharedCells? (R : Relation) (all : Assoc Choices) : Option Cells := do
  let choices ← Choices.intersectAll? ((all.map (·.2)).filter (!·.isInfinite))
  return R.apply (← choices.first?)

/-- Whether nothing flows into column `j` from the given rows. -/
def isIndependent (cells : Cells) (rows : List Nat) (j : Nat) : Bool :=
  rows.all fun i => ((cells.rows[i]?.bind (·[j]?)).getD .o) == .o

/-- The growth of each variable when some have no bound: of the others, those that depend on one without
a bound have none either. -/
def classifyPartly (R : Relation) (index : Nat) :
    Except ChoiceError (Assoc VariableResult) := do
  let all ← R.allVariableChoices choiceValues index
  let failing := (all.zipIdx.filter (·.1.2.isInfinite)).map (·.2)
  let cells := sharedCells? R all
  let results ← all.zipIdx.mapM fun ((x, choices), j) => do
    let independent := (cells.map (isIndependent · failing j)).getD false
    if !choices.isInfinite && independent then return (x, ← classify R index x)
    else return (x, { name := x })
  return Assoc.ofPairs results

/-- The growth of each variable. -/
def classifyAll (out : Outcome) : Except ChoiceError (Assoc VariableResult) :=
  if out.isInfinite then classifyPartly out.relation out.index
  else do
    return Assoc.ofPairs (← out.relation.vars.mapM fun x => do
      return (x, ← classify out.relation out.index x))

/-- Analyzes a loop by itself. -/
def analyzeLoop (opts : Options) (loop : Stmt) : Analysis LoopResult := do
  let out ← walkOver { opts with complete := true } loop.names 0 [loop]
  let vars ← Analysis.ofChoices (classifyAll out)
  return { code := loop.text, vars }

/-! ## Programs -/

/-- Numbers about a program. -/
def programInfo (p : Program) : ProgramInfo :=
  let loops := p.functions.flatMap (·.loops)
  { functions := p.functions.length
    loops := loops.length
    functionVariables := (p.functions.map (·.names.length)).foldl (· + ·) 0
    loopVariables := (loops.map (·.names.length)).foldl (· + ·) 0 }

/-- Tells of each statement that is not understood. -/
def reportUncovered (name : String) (ss : List Stmt) : Analysis Unit :=
  Analysis.log (ss.mapIdx fun i s => .uncovered name (i + 1) ss.length s)

/-- The function to be analyzed: the part that is understood, or in strict mode all or nothing. -/
def coveredFunction (opts : Options) (f : Function) : Analysis (Option Function) := do
  if f.isCovered then return some f
  reportUncovered f.name f.unsupported
  if opts.strict then
    Analysis.log [.leftOut f.name]
    return none
  Analysis.log [.modified f.name]
  return some f.strip

/-- Analyzes a function if there is anything to analyze. -/
def analyzeCovered (opts : Options) (report : Report) (f : Function) : Analysis Report := do
  match ← coveredFunction opts f with
  | none => return report
  | some f =>
    try
      return report.addFunction (← analyzeFunction opts f)
    catch
      | .emptyBody name => do
        Analysis.log [.noStatements name]
        return report
      | e => throw e

/-- Analyzes every function of a program. -/
def analyzeProgram (opts : Options) (p : Program) : Analysis Report :=
  p.functions.foldlM (analyzeCovered opts) { program := programInfo p }

/-- The loop to be analyzed: the part that is understood, or in strict mode all or nothing. -/
def coveredLoop (opts : Options) (name : String) (loop : Stmt) : Analysis (Option Stmt) := do
  if loop.unsupported.isEmpty then return some loop
  reportUncovered name loop.unsupported
  return if opts.strict then none else loop.strip?

/-- Analyzes every loop of a function. -/
def analyzeFunctionLoops (opts : Options) (f : Function) : Analysis FunctionLoops := do
  Analysis.log [.analyzing f.name]
  let loops ← f.loops.filterMapM (coveredLoop opts f.name)
  return { name := f.name, loops := ← loops.mapM (analyzeLoop opts) }

/-- Analyzes every loop of a program. -/
def analyzeLoops (opts : Options) (p : Program) : Analysis Report :=
  p.functions.foldlM (fun report f => return report.addLoops (← analyzeFunctionLoops opts f))
    { program := programInfo p }

end GrowthFlow
