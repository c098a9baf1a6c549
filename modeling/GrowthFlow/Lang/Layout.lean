import GrowthFlow.Lang.Stmt

/-!
# Printing programs

A printed program is a row of glyphs: tokens, single blanks, and line breaks that carry the nesting of
the line they start. The tokens alone are the program; blanks and line breaks only lay it out, and the
width of one nesting level is chosen when the row is turned into text.

A block stays on the line of the header it belongs to. Parentheses are written where the grammar needs
them: around an operator that binds looser than its surroundings, and around an operand whose own
operator would run into the one before or after it.
-/

namespace GrowthFlow.Lang

/-- A piece of printed text. -/
inductive Glyph where
  | token (t : Token)
  | space
  /-- A line break, and the nesting of the line that follows. -/
  | line (level : Nat)
deriving DecidableEq, Repr

namespace Glyph

/-- The text of a glyph, with `width` blanks to a level. -/
def text (width : Nat) : Glyph → String
  | token t => t.text
  | space => " "
  | line level => "\n" ++ String.ofList (List.replicate (level * width) ' ')

/-- The text of a row of glyphs. -/
def render (width : Nat) (gs : List Glyph) : String := String.join (gs.map (text width))

/-- The tokens of a row of glyphs. -/
def tokens (gs : List Glyph) : List Token :=
  gs.filterMap fun
    | token t => some t
    | _ => none

/-- A symbol. -/
def symbol (s : Symbol) : Glyph := token (.symbol s)

/-- A keyword. -/
def keyword (k : Keyword) : Glyph := token (.keyword k)

/-- A name. -/
def ident (name : String) : Glyph := token (.ident name)

/-- The words of a type, with a blank between two of them. -/
def type : TypeName → List Glyph
  | [] => []
  | [word] => [token (.typeWord word)]
  | word :: words => token (.typeWord word) :: space :: type words

/-- Glyphs in parentheses. -/
def parens (gs : List Glyph) : List Glyph := symbol .lparen :: gs ++ [symbol .rparen]

/-- Rows of glyphs with a comma and a blank between them. -/
def commas : List (List Glyph) → List Glyph
  | [] => []
  | [g] => g
  | g :: gs => g ++ symbol .comma :: space :: commas gs

end Glyph

open Glyph

namespace Expr

/-- Whether an operand starts with an operator. -/
def isLeadingUnary : Expr → Bool
  | unary op _ => op.isLeading
  | _ => false

/-- Whether an operand may stand before `++` or `--` as it is. -/
def isTrailable : Expr → Bool
  | const _ | var _ | call _ _ => true
  | unary op _ => !op.isLeading
  | _ => false

mutual

/-- The glyphs of an expression, in parentheses if it binds looser than `least`. -/
def glyphs (least : Nat) : Expr → List Glyph
  | const n => [.token (.number n)]
  | var x => [ident x]
  | unary op e =>
    if op.isLeading then
      symbol op.symbol :: (if e.isLeadingUnary then parens (glyphs 0 e) else glyphs 7 e)
    else
      (if e.isTrailable then glyphs 0 e else parens (glyphs 0 e)) ++ [symbol op.symbol]
  | binary op l r =>
    let inner := glyphs op.precedence l ++
      space :: symbol op.symbol :: space :: glyphs (op.precedence + 1) r
    if op.precedence < least then parens inner else inner
  | cast t e => parens (type t) ++ space :: glyphs 7 e
  | call f args => ident f :: parens (commas (glyphsAll args))

/-- The glyphs of each argument. -/
def glyphsAll : List Expr → List (List Glyph)
  | [] => []
  | e :: es => glyphs 0 e :: glyphsAll es

end

end Expr

namespace Declarator

/-- The glyphs of a declared variable. -/
def glyphs (d : Declarator) : List Glyph :=
  match d.init with
  | none => [ident d.name]
  | some e => ident d.name :: space :: symbol .assign :: space :: e.glyphs 0

end Declarator

namespace Stmt

/-- The glyphs of a statement that may stand in the header of a `for` loop, without a semicolon. -/
def simpleGlyphs? : Stmt → Option (List Glyph)
  | assign x e => some (ident x :: space :: symbol .assign :: space :: e.glyphs 0)
  | expr e => some (e.glyphs 0)
  | decl t vars => some (type t ++ space :: commas (vars.map Declarator.glyphs))
  | _ => none

/-- The glyphs of a body: a block goes on in the line, anything else on a line of its own. -/
def bodyGlyphs (level : Nat) (body : Stmt) (inner : Nat → List Glyph) : List Glyph :=
  if body.isBlock then space :: inner level else .line (level + 1) :: inner (level + 1)

/-- What separates a body from the keyword behind it. -/
def afterBody (level : Nat) (body : Stmt) : Glyph := if body.isBlock then space else .line level

mutual

/-- The glyphs of a statement whose lines stand at the given level. -/
def glyphs (level : Nat) : Stmt → List Glyph
  | block body => symbol .lbrace :: lineGlyphs (level + 1) body ++ [.line level, symbol .rbrace]
  | branch c yes no =>
    keyword .ifWord :: space :: parens (c.glyphs 0) ++
      bodyGlyphs level yes (fun n => glyphs n yes) ++ elseGlyphs level (afterBody level yes) no
  | whileLoop c body =>
    keyword .whileWord :: space :: parens (c.glyphs 0) ++
      bodyGlyphs level body (fun n => glyphs n body)
  | doWhile body c =>
    keyword .doWord :: bodyGlyphs level body (fun n => glyphs n body) ++
      afterBody level body :: keyword .whileWord :: space :: parens (c.glyphs 0) ++
      [symbol .semicolon]
  | forLoop init c step body =>
    keyword .forWord :: space :: parens (
        commas (headerGlyphs level init) ++ symbol .semicolon ::
        (match c with
          | some c => space :: c.glyphs 0
          | none => []) ++ symbol .semicolon ::
        (if step.isEmpty then [] else space :: commas (headerGlyphs level step))) ++
      bodyGlyphs level body (fun n => glyphs n body)
  | ret none => [keyword .returnWord, symbol .semicolon]
  | ret (some e) => keyword .returnWord :: space :: e.glyphs 0 ++ [symbol .semicolon]
  | breakJump => [keyword .breakWord, symbol .semicolon]
  | continueJump => [keyword .continueWord, symbol .semicolon]
  | empty => [symbol .semicolon]
  | assign x e => ident x :: space :: symbol .assign :: space :: e.glyphs 0 ++ [symbol .semicolon]
  | expr e => e.glyphs 0 ++ [symbol .semicolon]
  | decl t vars =>
    type t ++ space :: commas (vars.map Declarator.glyphs) ++ [symbol .semicolon]

/-- Each statement on lines of its own. -/
def lineGlyphs (level : Nat) : List Stmt → List Glyph
  | [] => []
  | s :: ss => .line level :: glyphs level s ++ lineGlyphs level ss

/-- The parts of a `for` header; a statement that has no place there is written as it is. -/
def headerGlyphs (level : Nat) : List Stmt → List (List Glyph)
  | [] => []
  | s :: ss => (simpleGlyphs? s).getD (glyphs level s) :: headerGlyphs level ss

/-- The second half of a branch, if it has one. -/
def elseGlyphs (level : Nat) (gap : Glyph) : Option Stmt → List Glyph
  | none => []
  | some s => gap :: keyword .elseWord :: bodyGlyphs level s (fun n => glyphs n s)

end

/-- The text of a statement, its first line at the left edge. -/
def text (s : Stmt) : String := render 4 (s.glyphs 0)

end Stmt

namespace Function

/-- The glyphs of a function definition, with a line break at its end. -/
def glyphs (f : Function) : List Glyph :=
  type f.returns ++ space :: ident f.name ::
    parens (commas (f.params.map fun p => type p.type ++ [space, ident p.name])) ++
    space :: symbol .lbrace :: Stmt.lineGlyphs 1 f.body ++ [.line 0, symbol .rbrace, .line 0]

/-- The text of a function definition. -/
def text (f : Function) : String := render 4 f.glyphs

end Function

namespace Program

/-- The glyphs of the functions, with an empty line between two of them. -/
def glyphsOf : List Function → List Glyph
  | [] => []
  | [f] => f.glyphs
  | f :: fs => f.glyphs ++ .line 0 :: glyphsOf fs

/-- The text of a program, with `width` blanks to a level. -/
def text (width : Nat) (p : Program) : String := render width (glyphsOf p.functions)

end Program

end GrowthFlow.Lang
