import GrowthFlow.Lang.Expr

/-!
# Statements

Assignments, expression statements, declarations, branches, the three loops, blocks and jumps. A
compound assignment `x += e` is the assignment `x = x + e`. Equality is equality of trees and is
decidable (`Stmt.same_iff`).
-/

namespace GrowthFlow.Lang

/-- One declared variable, with its initial value if it has one. -/
structure Declarator where
  name : String
  init : Option Expr
deriving DecidableEq, Repr

/-- A statement of the C subset. -/
inductive Stmt where
  | assign (target : String) (value : Expr)
  | expr (e : Expr)
  | decl (type : TypeName) (vars : List Declarator)
  | branch (cond : Expr) (yes : Stmt) (no : Option Stmt)
  | whileLoop (cond : Expr) (body : Stmt)
  | doWhile (body : Stmt) (cond : Expr)
  | forLoop (init : List Stmt) (cond : Option Expr) (step : List Stmt) (body : Stmt)
  | block (body : List Stmt)
  | ret (value : Option Expr)
  | breakJump
  | continueJump
  | empty
deriving Repr, Inhabited

namespace Stmt

mutual

/-- Whether two statements are the same tree. -/
def same : Stmt → Stmt → Bool
  | assign x e, assign y f => x == y && e == f
  | expr e, expr f => e == f
  | decl t vs, decl u ws => t == u && vs == ws
  | branch c a b, branch c' a' b' => c == c' && same a a' && sameOpt b b'
  | whileLoop c a, whileLoop c' a' => c == c' && same a a'
  | doWhile a c, doWhile a' c' => same a a' && c == c'
  | forLoop i c s a, forLoop i' c' s' a' => sameAll i i' && c == c' && sameAll s s' && same a a'
  | block as, block bs => sameAll as bs
  | ret e, ret f => e == f
  | breakJump, breakJump => true
  | continueJump, continueJump => true
  | empty, empty => true
  | _, _ => false

/-- Whether two lists of statements are the same trees in the same order. -/
def sameAll : List Stmt → List Stmt → Bool
  | [], [] => true
  | a :: as, b :: bs => same a b && sameAll as bs
  | _, _ => false

/-- Whether two optional statements are both missing or the same tree. -/
def sameOpt : Option Stmt → Option Stmt → Bool
  | none, none => true
  | some a, some b => same a b
  | _, _ => false

end

mutual

theorem same_iff : (a b : Stmt) → (same a b = true ↔ a = b)
  | assign x e, b => by cases b <;> simp [same]
  | expr e, b => by cases b <;> simp [same]
  | decl t vs, b => by cases b <;> simp [same]
  | branch c a o, b => by
    cases b with
    | branch c' a' o' => simp [same, same_iff a a', sameOpt_iff o o', and_assoc]
    | _ => simp [same]
  | whileLoop c a, b => by
    cases b with
    | whileLoop c' a' => simp [same, same_iff a a']
    | _ => simp [same]
  | doWhile a c, b => by
    cases b with
    | doWhile a' c' => simp [same, same_iff a a']
    | _ => simp [same]
  | forLoop i c s a, b => by
    cases b with
    | forLoop i' c' s' a' =>
      simp [same, sameAll_iff i i', sameAll_iff s s', same_iff a a', and_assoc]
    | _ => simp [same]
  | block as, b => by
    cases b with
    | block bs => simp [same, sameAll_iff as bs]
    | _ => simp [same]
  | ret e, b => by cases b <;> simp [same]
  | breakJump, b => by cases b <;> simp [same]
  | continueJump, b => by cases b <;> simp [same]
  | empty, b => by cases b <;> simp [same]

theorem sameAll_iff : (as bs : List Stmt) → (sameAll as bs = true ↔ as = bs)
  | [], bs => by cases bs <;> simp [sameAll]
  | a :: as, bs => by
    cases bs with
    | nil => simp [sameAll]
    | cons b bs => simp [sameAll, same_iff a b, sameAll_iff as bs]

theorem sameOpt_iff : (a b : Option Stmt) → (sameOpt a b = true ↔ a = b)
  | none, b => by cases b <;> simp [sameOpt]
  | some a, b => by
    cases b with
    | none => simp [sameOpt]
    | some b => simp [sameOpt, same_iff a b]

end

instance : DecidableEq Stmt := fun a b => decidable_of_iff (same a b = true) (same_iff a b)

/-- Whether the statement is a block. -/
def isBlock : Stmt → Bool
  | block _ => true
  | _ => false

/-- The statements of a body: those of a block, or the statement itself. -/
def items : Stmt → List Stmt
  | block body => body
  | s => [s]

/-- Whether the statement is a loop of any kind. -/
def isLoop : Stmt → Bool
  | whileLoop _ _ | doWhile _ _ | forLoop _ _ _ _ => true
  | _ => false

end Stmt

/-- A named parameter of a function. -/
structure Param where
  type : TypeName
  name : String
deriving DecidableEq, Repr

/-- A function definition. -/
structure Function where
  returns : TypeName
  name : String
  params : List Param
  body : List Stmt
deriving DecidableEq, Repr

/-- A function definition and the characters it came from. -/
structure Definition where
  function : Function
  span : Span
deriving DecidableEq, Repr

/-- The function definitions of a source text, in order. -/
structure Program where
  definitions : List Definition
deriving DecidableEq, Repr

namespace Program

/-- The functions without their places. -/
def functions (p : Program) : List Function := p.definitions.map (·.function)

/-- The first function of the given name. -/
def function? (p : Program) (name : String) : Option Function :=
  p.functions.find? (·.name == name)

end Program

end GrowthFlow.Lang
