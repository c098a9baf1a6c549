import GrowthFlow.Lang.Token

/-!
# Expressions

Integer constants, variables, unary and binary operators, casts and calls. Two expressions are equal
exactly when they are the same tree, and equality is decidable (`Expr.same_iff`).
-/

namespace GrowthFlow.Lang

/-- A type, by the words it is spelled with. -/
abbrev TypeName := List String

/-- The words of a type with a blank between two of them. -/
def TypeName.text (type : TypeName) : String := " ".intercalate type

/-- Operators with one operand. -/
inductive UnaryOp where
  | neg | pos | not | preInc | preDec | postInc | postDec
deriving DecidableEq, Repr

namespace UnaryOp

/-- Operators that change their operand. -/
def isStep : UnaryOp → Bool
  | preInc | preDec | postInc | postDec => true
  | _ => false

/-- Operators written before their operand. -/
def isLeading : UnaryOp → Bool
  | postInc | postDec => false
  | _ => true

/-- The symbol an operator is written with. -/
def symbol : UnaryOp → Symbol
  | neg => .minus
  | pos => .plus
  | not => .bang
  | preInc | postInc => .increment
  | preDec | postDec => .decrement

/-- The operators written before their operand. -/
def leading : List UnaryOp := [preInc, preDec, neg, pos, not]

/-- The operators written after their operand. -/
def trailing : List UnaryOp := [postInc, postDec]

end UnaryOp

/-- Operators with two operands. -/
inductive BinaryOp where
  | add | sub | mul | div | mod | lt | gt | le | ge | eq | ne | and | or
deriving DecidableEq, Repr

namespace BinaryOp

/-- Every operator once, in the order in which the grammar tries those of one level. -/
def all : List BinaryOp := [or, and, eq, ne, le, ge, lt, gt, add, sub, mul, div, mod]

/-- The operators whose growth the flow calculus describes. -/
def isArithmetic : BinaryOp → Bool
  | add | sub | mul => true
  | _ => false

/-- Binding strength: a higher operator binds tighter. -/
def precedence : BinaryOp → Nat
  | or => 1
  | and => 2
  | eq | ne => 3
  | lt | gt | le | ge => 4
  | add | sub => 5
  | mul | div | mod => 6

/-- The symbol an operator is written with. -/
def symbol : BinaryOp → Symbol
  | add => .plus
  | sub => .minus
  | mul => .star
  | div => .slash
  | mod => .percent
  | lt => .less
  | gt => .greater
  | le => .lessEqual
  | ge => .greaterEqual
  | eq => .equal
  | ne => .notEqual
  | and => .andAnd
  | or => .orOr

/-- The operators of one binding strength. -/
def ofPrecedence (p : Nat) : List BinaryOp := all.filter (·.precedence == p)

/-- The operator with the given spelling. -/
def ofText? (text : String) : Option BinaryOp := all.find? (·.symbol.text == text)

end BinaryOp

/-- An expression of the C subset. -/
inductive Expr where
  | const (value : Int)
  | var (name : String)
  | unary (op : UnaryOp) (operand : Expr)
  | binary (op : BinaryOp) (left right : Expr)
  | cast (type : TypeName) (operand : Expr)
  | call (name : String) (args : List Expr)
deriving Repr, Inhabited

namespace Expr

mutual

/-- Whether two expressions are the same tree. -/
def same : Expr → Expr → Bool
  | const m, const n => m == n
  | var x, var y => x == y
  | unary op a, unary op' b => op == op' && same a b
  | binary op a b, binary op' a' b' => op == op' && same a a' && same b b'
  | cast t a, cast t' b => t == t' && same a b
  | call f as, call g bs => f == g && sameAll as bs
  | _, _ => false

/-- Whether two lists of expressions are the same trees in the same order. -/
def sameAll : List Expr → List Expr → Bool
  | [], [] => true
  | a :: as, b :: bs => same a b && sameAll as bs
  | _, _ => false

end

mutual

theorem same_iff : (a b : Expr) → (same a b = true ↔ a = b)
  | const m, b => by cases b <;> simp [same]
  | var x, b => by cases b <;> simp [same]
  | unary op a, b => by
    cases b with
    | unary op' b => simp [same, same_iff a b]
    | _ => simp [same]
  | binary op a b, c => by
    cases c with
    | binary op' a' b' => simp [same, same_iff a a', same_iff b b', and_assoc]
    | _ => simp [same]
  | cast t a, b => by
    cases b with
    | cast t' b => simp [same, same_iff a b]
    | _ => simp [same]
  | call f as, b => by
    cases b with
    | call g bs => simp [same, sameAll_iff as bs]
    | _ => simp [same]

theorem sameAll_iff : (as bs : List Expr) → (sameAll as bs = true ↔ as = bs)
  | [], bs => by cases bs <;> simp [sameAll]
  | a :: as, bs => by
    cases bs with
    | nil => simp [sameAll]
    | cons b bs => simp [sameAll, same_iff a b, sameAll_iff as bs]

end

instance : DecidableEq Expr := fun a b => decidable_of_iff (same a b = true) (same_iff a b)

/-- The expression below any casts. -/
def uncast : Expr → Expr
  | cast _ e => e.uncast
  | e => e

end Expr

end GrowthFlow.Lang
