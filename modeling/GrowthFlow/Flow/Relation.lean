import GrowthFlow.Flow.Matrix
import GrowthFlow.Flow.Cells
import GrowthFlow.Choice.Choices
import GrowthFlow.Assoc

/-!
# Relations

A relation is a flow matrix with a name for each row and column. Two relations are combined over the
variables of both: each is extended to all of them, and a variable it does not know keeps its value.

Variables have no meaning by their place. `Relation.same` compares two relations over the same set of
variables once their rows and columns are aligned.
-/

namespace GrowthFlow

/-- A flow matrix over named variables. -/
structure Relation where
  vars : List String
  matrix : FlowMatrix
  size_eq : matrix.size = vars.length
deriving DecidableEq, Repr

namespace Relation

/-- The relation with the given entries. -/
def ofFn (vars : List String) (f : Nat → Nat → Poly) : Relation :=
  ⟨vars, .ofFn vars.length f, by simp⟩

/-- The relation with the given matrix, if it has a row for each variable. -/
def ofMatrix (vars : List String) (matrix : FlowMatrix) : Except ShapeError Relation :=
  if h : matrix.size = vars.length then .ok ⟨vars, matrix, h⟩
  else .error (.names vars.length matrix.size)

/-- The entry in row `i` and column `j`. -/
def get (R : Relation) (i j : Nat) : Poly := R.matrix.get i j

/-- Every variable keeps its value. -/
def identity (vars : List String) : Relation :=
  ofFn vars fun i j => if i = j then .unit else .zero

/-- Nothing flows anywhere. -/
def zero (vars : List String) : Relation := ofFn vars fun _ _ => .zero

/-- The relation over no variables. -/
def empty : Relation := identity []

/-- The first place of a variable. -/
def position? (R : Relation) (x : String) : Option Nat := R.vars.idxOf? x

/-- Every variable keeps its value, but the given entries flow into `x`. -/
def assignment (vars : List String) (column : List Poly) (x : String) : Relation :=
  ofFn vars fun i j =>
    if vars.idxOf? x = some j ∧ i < column.length then column[i]?.getD .zero
    else if i = j then .unit else .zero

/-- The relation over more variables, which begin with its own. -/
def extend (R : Relation) (vars : List String) : Relation :=
  ⟨vars, R.matrix.resize vars.length, by simp [FlowMatrix.resize]⟩

/-- The relation over other variables: the flow between two that it knows, and no change elsewhere. -/
def realign (R : Relation) (vars : List String) : Relation :=
  ofFn vars fun i j =>
    match vars[i]?.bind R.position?, vars[j]?.bind R.position? with
    | some k, some l => R.get k l
    | _, _ => if i = j then .unit else .zero

/-- The variables of both, those of the first before the others. -/
def unionVariables (R S : Relation) : List String :=
  R.vars ++ S.vars.filter (!R.vars.contains ·)

/-- Both relations over the variables of both. -/
def align (R S : Relation) : Relation × Relation :=
  if R.vars = S.vars then (R, S)
  else if R.vars.isEmpty then (identity S.vars, S)
  else if S.vars.isEmpty then (R, identity R.vars)
  else
    let vars := unionVariables R S
    (R.extend vars, S.realign vars)

/-- `R`, then `S`. -/
def compose (R S : Relation) : Relation :=
  let (A, B) := align R S
  ofFn A.vars (A.matrix * B.matrix).get

/-- Either `R` or `S`. -/
def sum (R S : Relation) : Relation :=
  let (A, B) := align R S
  ofFn A.vars (A.matrix + B.matrix).get

/-- Whether two relations have the same variables and, once these are aligned, the same flows. -/
def same (R S : Relation) : Bool :=
  let (A, B) := align R S
  Ordered.ofList R.vars == Ordered.ofList S.vars && A.matrix == B.matrix

/-- Any number of repetitions. -/
def closure (R : Relation) : Relation := ofFn R.vars R.matrix.closure.get

/-- Any number of repetitions, if at most `limit` powers show that they are complete. -/
def closureWithin? (limit : Nat) (R : Relation) : Option Relation :=
  (R.matrix.closureWithin? limit).map fun F => ofFn R.vars F.get

/-! ## Loop corrections -/

/-- What an unbounded number of repetitions cannot keep: `p` anywhere, and `w` from a variable to
itself. -/
def unboundedAt (i j : Nat) (s : Scalar) : Bool := s == .p || (i == j && s == .w)

/-- After the closure of a loop that may repeat without a bound, growth that a repetition adds to is
unbounded. -/
def whileCorrection (R : Relation) : Relation :=
  ofFn R.vars fun i j => (R.get i j).escalate (unboundedAt i j)

/-- The demands under which the correction makes a flow unbounded, row by row. -/
def whilePromoted (R : Relation) : List Witness :=
  (List.range R.vars.length).flatMap fun i =>
    (List.range R.vars.length).flatMap fun j => (R.get i j).promoted (unboundedAt i j)

/-- The polynomial growth that flows into column `j` from other variables. -/
def charge (R : Relation) (j : Nat) : Poly :=
  .ofMonomials ((List.range R.vars.length).flatMap fun i =>
    if i = j then [] else (R.get i j).monomials.filter (·.scalar == .p))

/-- After the closure of a loop that repeats as often as `guard` says, a variable must not grow by
itself, and polynomial growth depends on the guard too. -/
def boundedCorrection (R : Relation) (guard : String) : Relation :=
  ofFn R.vars fun i j =>
    let entry := if i = j then (R.get i j).escalate (· != .m) else R.get i j
    if R.position? guard = some i then entry + R.charge j else entry

/-- The demands under which the correction makes a flow unbounded. -/
def boundedPromoted (R : Relation) : List Witness :=
  (List.range R.vars.length).flatMap fun i => (R.get i i).promoted (· != .m)

/-! ## Choices -/

/-- The scalars under a choice vector. Where no monomial counts, a variable still depends on itself as a
maximum. -/
def apply (R : Relation) (c : List Nat) : Cells where
  vars := R.vars
  rows := (List.range R.vars.length).map fun i =>
    (List.range R.vars.length).map fun j =>
      (R.get i j).evalOr (if i = j then .m else .o) c

/-- The choices under which no scalar is `i` or one of `extra`. -/
def choices (R : Relation) (domain : List Nat) (index : Nat) (extra : List Scalar) :
    Except ChoiceError Choices :=
  Choices.generate domain index (R.matrix.entries.flatMap (·.infinities extra))

/-- The choices under which no scalar in column `j` is `i` or one of `extra`. -/
def columnChoices (R : Relation) (domain : List Nat) (index j : Nat) (extra : List Scalar) :
    Except ChoiceError Choices :=
  Choices.generate domain index
    ((List.range R.vars.length).flatMap fun i => (R.get i j).infinities extra)

/-- The choices under which no scalar in the column of a variable is `i` or one of `extra`. -/
def variableChoices (R : Relation) (domain : List Nat) (index : Nat) (x : String)
    (extra : List Scalar) : Except ChoiceError Choices :=
  match R.position? x with
  | some j => R.columnChoices domain index j extra
  | none => .error (.unknownVariable x)

/-- The choices of every variable. -/
def allVariableChoices (R : Relation) (domain : List Nat) (index : Nat) :
    Except ChoiceError (Assoc Choices) := do
  return Assoc.ofPairs (← R.vars.mapM fun x => do
    return (x, ← R.variableChoices domain index x []))

/-- The variables into which the row of `x` flows without a bound under some choice. If `only` names
variables, `x` or the other one must be among them. -/
def infiniteTargets (R : Relation) (only : List String) (x : String) (i : Nat) : List String :=
  R.vars.zipIdx.filterMap fun (y, j) =>
    if (R.get i j).hasInfinity && (only.isEmpty || only.contains x || only.contains y) then some y
    else none

/-- The flows that are unbounded under some choice, as a variable and those it flows into. -/
def infiniteFlows (R : Relation) (only : List String) : Assoc (List String) :=
  Assoc.ofPairs ((R.vars.zipIdx.map fun (x, i) => (x, R.infiniteTargets only x i)).filter
    (!·.2.isEmpty))

/-- The unbounded flows in words: `x ➔ y, z ‖ y ➔ y`. -/
def infiniteFlowsText (R : Relation) (only : List String) : String :=
  " ‖ ".intercalate ((R.infiniteFlows only).map fun (x, ys) => x ++ " ➔ " ++ ", ".intercalate ys)

/-- The relation as a table. -/
def text (R : Relation) : String :=
  String.join (R.vars.zipIdx.map fun (x, i) =>
    tableLine (nameWidth R.vars) "  " x
      ((List.range R.vars.length).map fun j => (R.get i j).text))

end Relation

end GrowthFlow
