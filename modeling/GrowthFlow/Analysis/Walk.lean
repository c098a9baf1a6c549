import GrowthFlow.Analysis.Options
import GrowthFlow.Analysis.Effect
import GrowthFlow.Choice.Graph

/-!
# The walk over the statements

Every statement has a relation. Statements in a row are composed, the two halves of a branch are summed,
and the body of a loop is closed under repetition and then corrected. Each arithmetic assignment takes the
next choice index.

A correction tells under which demands it made a flow unbounded. These go into a witness graph; once the
graph covers every choice vector, nothing behind can change the verdict, and the walk stops unless it is
told to be complete.
-/

namespace GrowthFlow

open Lang

/-- What the walk knows at a point. -/
structure Walk where
  /-- The next choice index. -/
  index : Nat
  /-- The demands that make a flow unbounded, contracted. -/
  graph : WitnessGraph := .empty choiceValues.length
  /-- Whether these demands cover every choice vector. -/
  covered : Bool := false
  /-- The demands as the corrections gave them. -/
  promotions : List Witness := []
  /-- What happened so far. -/
  journal : List Event := []
deriving DecidableEq, Repr

/-- A step of the walk. Its journal is kept when the step fails. -/
abbrev WalkM := ExceptT AnalysisError (StateM Walk)

namespace Walk

/-- Whether the walk can stop here. -/
def exhausted (opts : Options) : WalkM Bool := do
  return (← get).covered && !opts.complete

/-- Takes the next choice index. -/
def nextIndex : WalkM Nat := do
  let walk ← get
  set { walk with index := walk.index + 1 }
  return walk.index

/-- Passes over a statement. -/
def passOver (s : Stmt) : WalkM Relation := do
  modify fun walk => { walk with journal := walk.journal ++ [.unsupported s] }
  return .empty

/-- The walk after a correction with the given demands. -/
def promote (promoted : List Witness) (walk : Walk) : Walk :=
  if promoted.isEmpty then walk
  else
    let graph := (promoted.foldl WitnessGraph.insert walk.graph).contract
    { walk with
      graph
      covered := walk.covered || graph.coversAll
      promotions := walk.promotions ++ promoted }

/-- The relation of an effect. -/
def perform (s : Stmt) : Effect → WalkM Relation
  | .nothing => return .empty
  | .flow R => return R
  | .choice x operands scalars => do
    return Effect.choiceRelation (← nextIndex) x operands scalars
  | .unsupported => passOver s

/-- The closure of a loop body. -/
def close (opts : Options) (R : Relation) : WalkM Relation :=
  match R.closureWithin? opts.limit with
  | some F => return F
  | none => throw (.limit opts.limit)

/-- A loop whose body has the relation `R`, and which may repeat without a bound. -/
def whileLoop (opts : Options) (R : Relation) : WalkM Relation := do
  if ← exhausted opts then return R
  let F ← close opts R
  modify (promote F.whilePromoted)
  return F.whileCorrection

/-- A loop whose body has the relation `R`, and which repeats as often as `guard` says. -/
def boundedLoop (opts : Options) (guard : String) (R : Relation) : WalkM Relation := do
  if ← exhausted opts then return R
  let F ← close opts R
  modify (promote F.boundedPromoted)
  return F.boundedCorrection guard

/-- A `for` loop: nothing of the guard's old value is left over from the body, and the rule is the one
that the options ask for. -/
def forLoop (opts : Options) (guard : String) (R : Relation) : WalkM Relation :=
  let R := (Relation.zero [guard]).compose R
  if opts.boundedFor then boundedLoop opts guard R else whileLoop opts R

/-- The relation of a body, given that of the statement it is. A body that is no block is a row of one
statement. -/
def bodyRelation (body : Stmt) (R : Relation) : Relation :=
  if body.isBlock then R else Relation.empty.compose R

mutual

/-- The relation of a statement. -/
def stmt (opts : Options) : Stmt → WalkM Relation
  | .assign x e => perform (.assign x e) (Effect.ofAssign x e)
  | .expr e => perform (.expr e) (Effect.ofExpr e)
  | .decl t vars =>
    if vars.any (·.init.isSome) then passOver (.decl t vars) else return .empty
  | .branch _ yes no => do
    let R := bodyRelation yes (← stmt opts yes)
    if ← exhausted opts then return R
    let S ← stmtOpt opts no
    if ← exhausted opts then return S
    return S.sum R
  | .whileLoop _ body => do
    whileLoop opts (bodyRelation body (← stmt opts body))
  | .doWhile body _ => do
    whileLoop opts (bodyRelation body (← stmt opts body))
  | .forLoop init c step body =>
    match (Stmt.forLoop init c step body).guard? with
    | some guard => do forLoop opts guard (bodyRelation body (← stmt opts body))
    | none => passOver (.forLoop init c step body)
  | .block body => sequence opts .empty body
  | .ret _ | .breakJump | .continueJump | .empty => return .empty

/-- The relation of a row of statements behind `R`. -/
def sequence (opts : Options) (R : Relation) : List Stmt → WalkM Relation
  | [] => return R
  | s :: ss => do
    let R := R.compose (← stmt opts s)
    if ← exhausted opts then return R
    sequence opts R ss

/-- The relation of the second half of a branch. -/
def stmtOpt (opts : Options) : Option Stmt → WalkM Relation
  | none => return .empty
  | some s => do return bodyRelation s (← stmt opts s)

end

end Walk

/-- The outcome of a walk over some statements. -/
structure Outcome where
  relation : Relation
  /-- The number of choice indices. -/
  index : Nat
  /-- The choices under which no flow is unbounded. -/
  choices : Choices
  /-- Whether the demands of the corrections cover every choice vector. -/
  covered : Bool
deriving DecidableEq, Repr

namespace Outcome

/-- Whether every choice leads to an unbounded flow. -/
def isInfinite (out : Outcome) : Bool := out.covered || out.choices.isInfinite

end Outcome

/-- An analysis keeps a journal, also when it fails. -/
abbrev Analysis := ExceptT AnalysisError (StateM (List Event))

namespace Analysis

/-- The result of an analysis and its journal. -/
def result {α : Type} (a : Analysis α) : Except AnalysisError α × List Event := a.run.run []

/-- Writes into the journal. -/
def log (es : List Event) : Analysis Unit := modify (· ++ es)

/-- The choices that were found. -/
def ofChoices {α : Type} : Except ChoiceError α → Analysis α
  | .ok a => return a
  | .error e => throw (.choices e)

end Analysis

/-- Walks over statements from a choice index on, over the given variables and any others that occur. -/
def walkOver (opts : Options) (vars : List String) (start : Nat) (body : List Stmt) :
    Analysis Outcome := do
  let (result, walk) := (Walk.sequence opts .empty body).run.run { index := start }
  Analysis.log walk.journal
  let R ← match result with
    | .ok R => pure R
    | .error e => throw e
  let relation := (Relation.identity vars).compose R
  let choices ←
    if walk.covered && !opts.complete then pure (Choices.infinite walk.index)
    else Analysis.ofChoices (relation.choices choiceValues walk.index [])
  return ⟨relation, walk.index, choices, walk.covered⟩

/-- Analyzes statements that are no function's. -/
def analyzeBody (opts : Options) (start : Nat) (body : List Stmt) : Analysis Outcome :=
  if body.isEmpty then throw (.emptyBody "<body>")
  else walkOver opts (Stmt.namesAll body) start body

end GrowthFlow
