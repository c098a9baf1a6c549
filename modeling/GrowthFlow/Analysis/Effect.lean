import GrowthFlow.Flow.Relation
import GrowthFlow.Lang.Coverage

/-!
# Effects of simple statements

What an assignment or an expression statement does to the variables. An arithmetic operation on variables
can be typed in three ways, so its effect depends on a choice: for each operand there is one scalar for
each of the three values.
-/

namespace GrowthFlow

open Lang

/-- An operand of an arithmetic operation. -/
inductive Operand where
  | var (x : String)
  | const
deriving DecidableEq, Repr

namespace Operand

/-- The operand that an expression is below its casts. -/
def ofExpr? (e : Expr) : Option Operand :=
  match e.uncast with
  | .var x => some (.var x)
  | .const _ => some .const
  | _ => none

/-- The variable of an operand. -/
def name? : Operand → Option String
  | var x => some x
  | const => none

end Operand

/-- What a simple statement does. -/
inductive Effect where
  /-- No variable changes. -/
  | nothing
  /-- The same flow under every choice. -/
  | flow (R : Relation)
  /-- The operands flow into the target, each with one scalar for each value of a choice. -/
  | choice (target : String) (operands : List String) (scalars : List (List Scalar))
  /-- The statement is not understood. -/
  | unsupported
deriving DecidableEq, Repr

namespace Effect

/-- The scalars with which one operand, used once or twice, or two operands flow into a target. -/
def scalarsOf (op : BinaryOp) (operands : List String) (hasConst : Bool) : List (List Scalar) :=
  match operands with
  | [_] =>
    if hasConst then [[.m, .m, .m]]
    else if op = .mul then [[.w, .w, .w]]
    else [[.w, .p, .w]]
  | _ =>
    if op = .mul then [[.w, .w, .w], [.w, .w, .w]]
    else [[.w, .m, .p], [.w, .p, .m]]

/-- The different variables among two operands. -/
def operandNames (y z : Operand) : List String :=
  match y.name?, z.name? with
  | some a, some b => if a = b then [a] else [a, b]
  | some a, none => [a]
  | none, some b => [b]
  | none, none => []

/-- `x = y op z`. Two constants leave nothing of the old value and nothing to choose. -/
def arithmetic (x : String) (op : BinaryOp) (y z : Operand) : Effect :=
  match operandNames y z with
  | [] => flow (.zero [x])
  | operands => choice x operands (scalarsOf op operands (y.name?.isNone || z.name?.isNone))

/-- `x = y`: the target takes the value of the source and keeps nothing of its own. -/
def copy (x y : String) : Effect :=
  if x = y then nothing else flow (.assignment [x, y] [.zero, .unit] x)

/-- `x = e`. Below a unary operator the operand is not looked at. -/
def ofAssign (x : String) (e : Expr) : Effect :=
  match e.uncast with
  | .binary op l r =>
    match Operand.ofExpr? l, Operand.ofExpr? r with
    | some y, some z => if op.isArithmetic then arithmetic x op y z else unsupported
    | _, _ => unsupported
  | .const _ => flow (.zero [x])
  | .var y => copy x y
  | .unary _ _ => flow (.identity [x])
  | _ => unsupported

/-- The operation with one that `++` and `--` stand for. -/
def stepOp : UnaryOp → BinaryOp
  | .preInc | .postInc => .add
  | _ => .sub

/-- An expression as a statement: only `++` and `--` change a variable. -/
def ofExpr : Expr → Effect
  | .unary op e =>
    if op.isStep then
      match e.uncast with
      | .var x => arithmetic x (stepOp op) (.var x) .const
      | _ => nothing
    else nothing
  | .call f _ => if skippedCalls.contains f then nothing else unsupported
  | _ => nothing

/-- The relation of a choice at an index. The target comes first, then the operands. -/
def choiceRelation (index : Nat) (x : String) (operands : List String)
    (scalars : List (List Scalar)) : Relation :=
  let vars := x :: operands.filter (· != x)
  let column := vars.map fun y =>
    match operands.idxOf? y with
    | some k => Poly.ofChoice index (scalars[k]?.getD [])
    | none => .zero
  .assignment vars column x

end Effect

end GrowthFlow
