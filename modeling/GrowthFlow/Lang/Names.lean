import GrowthFlow.Lang.Stmt
import GrowthFlow.Ordered

/-!
# The variables of a program, and the guards of its loops

The variables of a statement are the names that take part in a flow of values. The condition of a
branch moves no values, and neither do the arguments of a call, so their names do not count.

A `for` loop is understood when exactly one variable decides how often it runs and the body leaves that
variable alone: its *guard*. What the header initialises and steps are the iterators, and they are no
variables of the loop.
-/

namespace GrowthFlow.Lang

/-- A finite set of names, in increasing order. -/
abbrev Names := List String

/-- Names that are constants, not variables. -/
def constantNames : List String := ["true", "false"]

namespace Names

/-- Adds a name, unless it is a constant. -/
def add (x : String) (xs : Names) : Names := if constantNames.contains x then xs else Ordered.insert x xs

end Names

/-- The variables of an expression. -/
def Expr.names : Expr → Names
  | var x => Names.add x []
  | binary _ l r => Ordered.union l.names r.names
  | unary _ e => e.names
  | cast _ e => e.names
  | const _ => []
  | call _ _ => []

namespace Declarator

/-- The variable that is declared and those it is initialised from. -/
def names (d : Declarator) : Names := Names.add d.name ((d.init.map Expr.names).getD [])

end Declarator

namespace Stmt

/-- The variables that the first part of a `for` header sets. -/
def initTargets : Stmt → List String
  | decl _ vars => vars.map (·.name)
  | assign x _ => [x]
  | _ => []

/-- The variables that the first part of a `for` header copies. -/
def initSources : Stmt → List String
  | decl _ vars => vars.filterMap fun d => match d.init with
    | some (.var x) => some x
    | _ => none
  | assign _ (.var x) => [x]
  | _ => []

/-- The names that decide how often a `for` loop runs: those its condition reads or its first part
copies, and that neither the first part sets nor a step mentions. -/
def guardNames (init : List Stmt) (cond : Option Expr) (stepNames : Names) : Names :=
  let targets := init.flatMap initTargets
  let candidates :=
    Ordered.union (Ordered.ofList (init.flatMap initSources)) ((cond.map Expr.names).getD [])
  candidates.filter fun x => !(targets.contains x || stepNames.contains x)

/-- The only guard name, if the body leaves it alone. -/
def soleGuard? (guards bodyNames : Names) : Option String :=
  match guards with
  | [x] => if bodyNames.contains x then none else some x
  | _ => none

mutual

/-- The variables of a statement. -/
def names : Stmt → Names
  | assign x e => Names.add x e.names
  | expr e => e.names
  | decl _ vars => vars.foldr (fun d xs => Ordered.union d.names xs) []
  | branch _ yes no => Ordered.union yes.names (namesOpt no)
  | whileLoop c body => Ordered.union c.names body.names
  | doWhile body c => Ordered.union c.names body.names
  | forLoop init c step body =>
    let inner := body.names
    match soleGuard? (guardNames init c (namesAll step)) inner with
    | some x => Names.add x inner
    | none => inner
  | block body => namesAll body
  | ret e => (e.map Expr.names).getD []
  | breakJump | continueJump | empty => []

/-- The variables of several statements. -/
def namesAll : List Stmt → Names
  | [] => []
  | s :: ss => Ordered.union s.names (namesAll ss)

/-- The variables of a statement that may be missing. -/
def namesOpt : Option Stmt → Names
  | none => []
  | some s => s.names

end

/-- The guard names and the body's variables of a `for` loop. -/
def guards? : Stmt → Option (Names × Names)
  | forLoop init c step body => some (guardNames init c (namesAll step), body.names)
  | _ => none

/-- The guard of a `for` loop that is understood. -/
def guard? (s : Stmt) : Option String := do
  let (guards, bodyNames) ← s.guards?
  soleGuard? guards bodyNames

mutual

/-- The loops of a statement, each before those inside it. A `for` loop without a guard is left out, but
the loops inside it are not. -/
def loops : Stmt → List Stmt
  | whileLoop c body => whileLoop c body :: body.loops
  | doWhile body c => doWhile body c :: body.loops
  | forLoop init c step body =>
    if (forLoop init c step body).guard?.isSome then forLoop init c step body :: body.loops
    else body.loops
  | branch _ yes no => yes.loops ++ loopsOpt no
  | block body => loopsAll body
  | _ => []

/-- The loops of several statements. -/
def loopsAll : List Stmt → List Stmt
  | [] => []
  | s :: ss => s.loops ++ loopsAll ss

/-- The loops of a statement that may be missing. -/
def loopsOpt : Option Stmt → List Stmt
  | none => []
  | some s => s.loops

end

end Stmt

namespace Function

/-- The variables of a function: its parameters and those of its body. -/
def names (f : Function) : Names :=
  f.params.foldr (fun p xs => Names.add p.name xs) (Stmt.namesAll f.body)

/-- The loops of a function, each before those inside it. -/
def loops (f : Function) : List Stmt := Stmt.loopsAll f.body

end Function

end GrowthFlow.Lang
