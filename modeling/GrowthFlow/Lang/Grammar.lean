import GrowthFlow.Lang.Rule
import GrowthFlow.Lang.Stmt

/-!
# The grammar of the C subset

Expressions by binding strength, statements, and the top level: function definitions, among which
prototypes and global declarations are read and dropped.

The recursive rules take a depth. Every step down reads at least one lexeme before it, so the number of
lexemes is depth enough for a text of any nesting.
-/

namespace GrowthFlow.Lang

namespace Grammar

open Rule

/-- A name. -/
def ident : Rule String :=
  token fun
    | .ident name => some name
    | _ => none

/-- One word of a type. -/
def typeWord : Rule String :=
  token fun
    | .typeWord word => some word
    | _ => none

/-- A type: one or more type words. -/
def typeName : Rule TypeName := many1 typeWord

/-- A comma. -/
def comma : Rule Unit := symbol .comma

/-- A semicolon. -/
def semicolon : Rule Unit := symbol .semicolon

/-! ## Expressions -/

/-- One of the given unary operators. -/
def unaryOp (ops : List UnaryOp) : Rule UnaryOp := oneOf (ops.map fun op => (.symbol op.symbol, op))

/-- One of the given binary operators. -/
def binaryOp (ops : List BinaryOp) : Rule BinaryOp :=
  oneOf (ops.map fun op => (.symbol op.symbol, op))

/-- An integer constant. -/
def constant : Rule Expr :=
  token fun
    | .number n => some (.const n)
    | _ => none

/-- A variable, or a call with arguments that `expr` reads. -/
def varOrCall (expr : Rule Expr) : Rule Expr := do
  let name ← ident
  match ← optional (parens (sepBy expr comma)) with
  | some args => return .call name args
  | none => return .var name

/-- A constant, variable, call or parenthesised expression. -/
def atom (expr : Rule Expr) : Rule Expr :=
  constant <|> varOrCall expr <|> parens expr

/-- An atom with the operators written after it. -/
def trailed (expr : Rule Expr) : Rule Expr := do
  let e ← atom expr
  let ops ← many (unaryOp UnaryOp.trailing)
  return ops.foldl (fun e op => .unary op e) e

/-- An operand with the operators and casts written before it. -/
def unary (expr : Rule Expr) : Nat → Rule Expr
  | 0 => fail
  | depth + 1 =>
    (do
      let op ← unaryOp UnaryOp.leading
      return .unary op (← unary expr depth)) <|>
    (do
      let type ← parens typeName
      return .cast type (← unary expr depth)) <|>
    trailed expr

/-- A chain of operands, grouped to the left. -/
def chain (ops : List BinaryOp) (operand : Rule Expr) : Rule Expr := do
  let first ← operand
  let others ← many (do
    let op ← binaryOp ops
    return (op, ← operand))
  return others.foldl (fun left (op, right) => .binary op left right) first

/-- Chains of the operators that bind at least as tight as `strength` levels from the tightest. -/
def binary (operand : Rule Expr) : (levels strength : Nat) → Rule Expr
  | 0, _ => operand
  | levels + 1, strength =>
    chain (BinaryOp.ofPrecedence strength) (binary operand levels (strength + 1))

/-- An expression nested at most `depth` deep. -/
def expr : (depth : Nat) → Rule Expr
  | 0 => fail
  | depth + 1 => binary (unary (expr depth) (depth + 1)) 6 1

/-! ## Statements -/

/-- The assignment symbols, with the operator a compound one stands for. -/
def assignOp : Rule (Option BinaryOp) :=
  oneOf [(.symbol .assign, none), (.symbol .plusAssign, some .add), (.symbol .minusAssign, some .sub),
    (.symbol .timesAssign, some .mul), (.symbol .divAssign, some .div),
    (.symbol .modAssign, some .mod)]

/-- `x = e`, where `x += e` is read as `x = x + e`. -/
def assignment (expr : Rule Expr) : Rule Stmt := do
  let target ← ident
  let op ← assignOp
  let value ← expr
  match op with
  | none => return .assign target value
  | some op => return .assign target (.binary op (.var target) value)

/-- An assignment or an expression, without its semicolon. -/
def simple (expr : Rule Expr) : Rule Stmt :=
  assignment expr <|> (do return .expr (← expr))

/-- Assignments and expressions separated by commas. -/
def simpleList (expr : Rule Expr) : Rule (List Stmt) := sepBy (simple expr) comma

/-- `x` or `x = e`. -/
def declarator (expr : Rule Expr) : Rule Declarator := do
  let name ← ident
  let init ← optional (do symbol .assign; expr)
  return ⟨name, init⟩

/-- A declaration without its semicolon. -/
def declaration (expr : Rule Expr) : Rule Stmt := do
  let type ← typeName
  return .decl type (← sepBy1 (declarator expr) comma)

/-- The first part of a `for` header: one declaration, or a list of simple statements. -/
def forInit (expr : Rule Expr) : Rule (List Stmt) :=
  (do return [← declaration expr]) <|> simpleList expr

/-- A block of statements. -/
def block (stmt : Rule Stmt) : Rule Stmt := do
  return .block (← braces (many stmt))

/-- A branch; `else` belongs to the nearest one. -/
def branch (expr : Rule Expr) (stmt : Rule Stmt) : Rule Stmt := do
  keyword .ifWord
  let cond ← parens expr
  let yes ← stmt
  let no ← optional (do keyword .elseWord; stmt)
  return .branch cond yes no

/-- `while (c) s`. -/
def whileLoop (expr : Rule Expr) (stmt : Rule Stmt) : Rule Stmt := do
  keyword .whileWord
  let cond ← parens expr
  return .whileLoop cond (← stmt)

/-- `do s while (c);`. -/
def doWhile (expr : Rule Expr) (stmt : Rule Stmt) : Rule Stmt := do
  keyword .doWord
  let body ← stmt
  keyword .whileWord
  let cond ← parens expr
  semicolon
  return .doWhile body cond

/-- `for (init; cond; step) s`, where each part may be missing. -/
def forLoop (expr : Rule Expr) (stmt : Rule Stmt) : Rule Stmt := do
  keyword .forWord
  let (init, cond, step) ← parens (do
    let init ← forInit expr
    semicolon
    let cond ← optional expr
    semicolon
    return (init, cond, ← simpleList expr))
  return .forLoop init cond step (← stmt)

/-- `return;` or `return e;`. -/
def returnStmt (expr : Rule Expr) : Rule Stmt := do
  keyword .returnWord
  let value ← optional expr
  semicolon
  return .ret value

/-- A keyword and a semicolon. -/
def jump (k : Keyword) (s : Stmt) : Rule Stmt := do
  keyword k
  semicolon
  return s

/-- A rule followed by a semicolon. -/
def ended (r : Rule Stmt) : Rule Stmt := do
  let s ← r
  semicolon
  return s

/-- A statement nested at most `depth` deep. -/
def stmt : (depth : Nat) → Rule Stmt
  | 0 => fail
  | depth + 1 =>
    let e := expr (depth + 1)
    let s := stmt depth
    block s <|> branch e s <|> whileLoop e s <|> doWhile e s <|> forLoop e s <|> returnStmt e <|>
      jump .breakWord .breakJump <|> jump .continueWord .continueJump <|>
      ended (Rule.pure .empty) <|> ended (declaration e) <|> ended (simple e)

/-! ## The top level -/

/-- A parameter; one without a name is dropped. -/
def param : Rule (Option Param) := do
  let type ← typeName
  return (← optional ident).map (⟨type, ·⟩)

/-- A function definition, or a prototype, which is dropped. -/
def function (depth : Nat) : Rule (Option Function) := do
  let returns ← typeName
  let name ← ident
  let params ← parens (sepBy param comma)
  let body ← (do return some (← braces (many (stmt depth)))) <|> (do semicolon; return none)
  return body.map (⟨returns, name, params.filterMap id, ·⟩)

/-- A global declaration, which is dropped. -/
def globalDecl (depth : Nat) : Rule (Option Definition) := do
  let _ ← typeName
  let _ ← sepBy1 (declarator (expr depth)) comma
  semicolon
  return none

/-- One item of the top level. -/
def item (depth : Nat) : Rule (Option Definition) :=
  (do
    let (function?, span) ← withSpan (function depth)
    return function?.map (⟨·, span⟩)) <|>
  globalDecl depth

/-- The items of a whole text. -/
def program (depth : Nat) : Rule Program := do
  let items ← many (item depth)
  done
  return ⟨items.filterMap id⟩

end Grammar

/-- The program that the lexemes spell, or the furthest fault. -/
def Program.ofLexemes (ts : List Lexeme) : Except Fault Program :=
  match Grammar.program ts.length ts with
  | .ok p _ _ => .ok p
  | .fail fault => .error fault

end GrowthFlow.Lang
