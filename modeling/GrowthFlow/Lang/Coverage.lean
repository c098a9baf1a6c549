import GrowthFlow.Lang.Names

/-!
# Coverage

Which statements the flow calculus understands. `Stmt.unsupported` lists the ones it does not, outermost
only, and `Stmt.strip?` removes them: a body that goes away becomes the empty statement, and a branch
loses its second half.
-/

namespace GrowthFlow.Lang

/-- Calls without an effect on any variable. -/
def skippedCalls : List String := ["assert", "assume"]

namespace Expr

/-- Whether the expression is a constant or a variable below its casts. -/
def isAtomic (e : Expr) : Bool :=
  match e.uncast with
  | const _ | var _ => true
  | _ => false

/-- Whether an operator with one operand may be applied to the expression. -/
def isUnaryOperand : Expr → Bool
  | var _ | const _ | cast _ _ | unary _ _ => true
  | _ => false

/-- Whether the calculus understands the expression: a constant or variable, one arithmetic operation
on two of them, operators with one operand and casts on top, or a call without effect. -/
def isSupported : Expr → Bool
  | const _ | var _ => true
  | binary op l r => op.isArithmetic && l.isAtomic && r.isAtomic
  | unary _ e => e.isUnaryOperand && e.isSupported
  | cast _ e => e.isSupported
  | call f _ => skippedCalls.contains f

/-- Whether the expression is a call. -/
def isCall : Expr → Bool
  | call _ _ => true
  | _ => false

end Expr

namespace Stmt

/-- Whether the calculus understands a statement that has no statements inside. A `for` loop counts as
such when it has no guard. -/
def isSupported : Stmt → Bool
  | assign _ e => !e.uncast.isCall && e.uncast.isSupported
  | expr e => e.isSupported
  | ret (some e) => e.isSupported
  | decl _ vars => vars.all (·.init.isNone)
  | forLoop init c step body => (forLoop init c step body).guard?.isSome
  | _ => true

mutual

/-- The statements the calculus does not understand. -/
def unsupported : Stmt → List Stmt
  | branch _ yes no => yes.unsupported ++ unsupportedOpt no
  | whileLoop _ body => body.unsupported
  | doWhile body _ => body.unsupported
  | forLoop init c step body =>
    if (forLoop init c step body).guard?.isSome then body.unsupported
    else [forLoop init c step body]
  | block body => unsupportedAll body
  | s => if s.isSupported then [] else [s]

/-- Those among several statements. -/
def unsupportedAll : List Stmt → List Stmt
  | [] => []
  | s :: ss => s.unsupported ++ unsupportedAll ss

/-- Those of a statement that may be missing. -/
def unsupportedOpt : Option Stmt → List Stmt
  | none => []
  | some s => s.unsupported

end

mutual

/-- The statement without what the calculus does not understand. -/
def strip? : Stmt → Option Stmt
  | branch c yes no => some (branch c (yes.strip?.getD empty) (stripOpt no))
  | whileLoop c body => some (whileLoop c (body.strip?.getD empty))
  | doWhile body c => some (doWhile (body.strip?.getD empty) c)
  | forLoop init c step body =>
    if (forLoop init c step body).guard?.isSome then
      some (forLoop init c step (body.strip?.getD empty))
    else none
  | block body => some (block (stripAll body))
  | s => if s.isSupported then some s else none

/-- What remains of several statements. -/
def stripAll : List Stmt → List Stmt
  | [] => []
  | s :: ss =>
    match s.strip? with
    | some s => s :: stripAll ss
    | none => stripAll ss

/-- What remains of a statement that may be missing. -/
def stripOpt : Option Stmt → Option Stmt
  | none => none
  | some s => s.strip?

end

end Stmt

namespace Function

/-- The statements of a function that the calculus does not understand. -/
def unsupported (f : Function) : List Stmt := Stmt.unsupportedAll f.body

/-- Whether the calculus understands the whole function. -/
def isCovered (f : Function) : Bool := f.unsupported.isEmpty

/-- The function without what the calculus does not understand. -/
def strip (f : Function) : Function := { f with body := Stmt.stripAll f.body }

end Function

end GrowthFlow.Lang
