import GrowthFlow.Lang.Token

/-!
# Rules that remember the furthest failure

A `Rule` reads a value from the front of a list of lexemes. Besides its answer it carries a `Fault`:
the furthest place at which some attempt on the way came to a halt, and the tokens that would have
helped there. When the whole text cannot be read, that fault is what is reported.

Faults of abandoned alternatives matter only as long as no alternative succeeds: `orElse` forgets the
fault of its first rule once the second one succeeds.
-/

namespace GrowthFlow.Lang

/-- A place at which reading failed (no lexeme: the end of the text), and what was acceptable there. -/
structure Fault where
  found : Option Lexeme
  expected : List Token
deriving DecidableEq, Repr

namespace Fault

/-- Whether the first fault lies strictly before the second; the end of the text is last. -/
def before (a b : Fault) : Bool :=
  match a.found, b.found with
  | some x, some y => x.span.start < y.span.start
  | some _, none => true
  | none, _ => false

/-- The further of two faults; at the same place both say what was acceptable. -/
def join (a b : Fault) : Fault :=
  if a.before b then b
  else if b.before a then a
  else { a with expected := a.expected ++ b.expected.filter (!a.expected.contains ·) }

/-- The further of two faults that may be missing. -/
def joinOpt : Option Fault → Option Fault → Option Fault
  | some a, some b => some (a.join b)
  | some a, none => some a
  | none, b => b

/-- A fault at the front of the given lexemes. -/
def atFront (ts : List Lexeme) (expected : List Token) : Fault := ⟨ts.head?, expected⟩

end Fault

/-- The answer of a rule: a value, what is left, and the furthest fault met on the way; or a fault. -/
inductive Reply (α : Type) where
  | ok (value : α) (rest : List Lexeme) (hint : Option Fault)
  | fail (fault : Fault)

/-- A rule reads a value from the front of a list of lexemes. -/
def Rule (α : Type) : Type := List Lexeme → Reply α

namespace Rule

variable {α β : Type}

/-- Reads nothing. -/
protected def pure (a : α) : Rule α := fun ts => .ok a ts none

/-- One rule after another. -/
protected def bind (r : Rule α) (f : α → Rule β) : Rule β := fun ts =>
  match r ts with
  | .fail fault => .fail fault
  | .ok a rest hint =>
    match f a rest with
    | .ok b rest' hint' => .ok b rest' (Fault.joinOpt hint hint')
    | .fail fault => .fail ((hint.map fault.join).getD fault)

instance : Monad Rule where
  pure := Rule.pure
  bind := Rule.bind

/-- The second rule is tried where the first one fails. -/
protected def orElse (r : Rule α) (s : Unit → Rule α) : Rule α := fun ts =>
  match r ts with
  | .ok a rest hint => .ok a rest hint
  | .fail fault =>
    match s () ts with
    | .ok a rest hint => .ok a rest hint
    | .fail fault' => .fail (fault.join fault')

instance : OrElse (Rule α) where
  orElse := Rule.orElse

/-- Fails without a suggestion. -/
def fail : Rule α := fun ts => .fail (Fault.atFront ts [])

/-- A token that `f` accepts. -/
def token (f : Token → Option α) : Rule α
  | [] => .fail (Fault.atFront [] [])
  | t :: ts =>
    match f t.token with
    | some a => .ok a ts none
    | none => .fail (Fault.atFront (t :: ts) [])

/-- A token of the table; a fault names all of them. -/
def oneOf (table : List (Token × α)) : Rule α
  | [] => .fail (Fault.atFront [] (table.map (·.1)))
  | t :: ts =>
    match table.lookup t.token with
    | some a => .ok a ts none
    | none => .fail (Fault.atFront (t :: ts) (table.map (·.1)))

/-- Exactly the given token. -/
def exactly (t : Token) : Rule Unit := oneOf [(t, ())]

/-- The given symbol. -/
def symbol (s : Symbol) : Rule Unit := exactly (.symbol s)

/-- The given keyword. -/
def keyword (k : Keyword) : Rule Unit := exactly (.keyword k)

/-- A rule that may be absent: where it fails, nothing is read and its fault is remembered. -/
def optional (r : Rule α) : Rule (Option α) := fun ts =>
  match r ts with
  | .ok a rest hint => .ok (some a) rest hint
  | .fail fault => .ok none ts (some fault)

/-- A rule repeated at most `n` times, as often as it succeeds. -/
def upTo (r : Rule α) : Nat → Rule (List α)
  | 0 => Rule.pure []
  | n + 1 => do
    match ← optional r with
    | none => return []
    | some a => return a :: (← upTo r n)

/-- A rule that reads at least one lexeme, repeated as often as it succeeds. The last attempt is one
that fails, so there is one more of them than there are lexemes. -/
def many (r : Rule α) : Rule (List α) := fun ts => upTo r (ts.length + 1) ts

/-- One or more times. -/
def many1 (r : Rule α) : Rule (List α) := do
  return (← r) :: (← many r)

/-- One or more times, with a separator between two of them. -/
def sepBy1 (r : Rule α) (sep : Rule Unit) : Rule (List α) := do
  let first ← r
  let others ← many (do sep; r)
  return first :: others

/-- Any number of times, with a separator between two of them. -/
def sepBy (r : Rule α) (sep : Rule Unit) : Rule (List α) := do
  return (← optional (sepBy1 r sep)).getD []

/-- A rule between two symbols. -/
def between (opening closing : Symbol) (r : Rule α) : Rule α := do
  symbol opening
  let a ← r
  symbol closing
  return a

/-- A rule in parentheses. -/
def parens (r : Rule α) : Rule α := between .lparen .rparen r

/-- A rule in braces. -/
def braces (r : Rule α) : Rule α := between .lbrace .rbrace r

/-- Nothing is left. -/
def done : Rule Unit
  | [] => .ok () [] none
  | t :: ts => .fail (Fault.atFront (t :: ts) [])

/-- The range from the first to the last of some lexemes. -/
def spanOf (ts : List Lexeme) : Span :=
  ⟨(ts.head?.map (·.span.start)).getD 0, (ts.getLast?.map (·.span.stop)).getD 0⟩

/-- The value of a rule with the range of the lexemes it read. -/
def withSpan (r : Rule α) : Rule (α × Span) := fun ts =>
  match r ts with
  | .ok a rest hint => .ok (a, spanOf (ts.take (ts.length - rest.length))) rest hint
  | .fail fault => .fail fault

end Rule

end GrowthFlow.Lang
