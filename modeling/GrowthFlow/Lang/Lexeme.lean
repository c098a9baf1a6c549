import GrowthFlow.Lang.Token
import GrowthFlow.Text.Blank
import GrowthFlow.Text.Decimal

/-!
# From characters to lexemes

The text is a row of items with blanks around them. An item is a token, or a stretch that is skipped:
a comment or a line that starts with `#`. `readItem` says what stands at the front of a text;
`lexemes` reads all of it, or gives the place where no item could be read.

Every item that is read is at least one character wide, so the number of characters bounds the number
of items.
-/

namespace GrowthFlow.Lang

open GrowthFlow.Text

/-- Why and where the characters stop making sense: the place, and the character found there. -/
structure LexicalFault where
  span : Span
  found : Option Char
deriving DecidableEq, Repr

/-- What stands at the front of a text. -/
inductive Item where
  /-- A token and its width. -/
  | token (t : Token) (width : Nat)
  /-- A comment or directive of the given width. -/
  | skipped (width : Nat)
  /-- An integer that is too large, with its suffix. -/
  | tooLarge (width : Nat)
  /-- Nothing readable: the text is wrong at the given distance. -/
  | stuck (offset : Nat)
deriving DecidableEq, Repr

/-- The width of the current line, its line break included. -/
def lineWidth : List Char → Nat
  | [] => 0
  | c :: cs => if c == '\n' then 1 else lineWidth cs + 1

/-- The width up to and including the first `*/`. -/
def commentWidth? : List Char → Option Nat
  | [] => none
  | '*' :: '/' :: _ => some 2
  | _ :: cs => (commentWidth? cs).map (· + 1)

/-- A character that may start a name. -/
def isWordStart (c : Char) : Bool := c.isAlpha || c == '_'

/-- A character that may continue a name. -/
def isWordPart (c : Char) : Bool := c.isAlphanum || c == '_'

/-- A character of an integer's suffix. -/
def isSuffix (c : Char) : Bool := c == 'u' || c == 'U' || c == 'l' || c == 'L'

/-- The largest integer a source may spell. -/
def maxInteger : Nat := 9223372036854775807

/-- The digits at the front of a text that starts with a digit; a leading zero stands alone. -/
def leadingDigits (c : Char) (cs : List Char) : List Char :=
  if c == '0' then [c] else c :: cs.takeWhile Char.isDigit

/-- An integer with its suffix, at a text that starts with the digit `c`. -/
def readNumber (c : Char) (cs : List Char) : Item :=
  let digits := leadingDigits c cs
  let suffix := ((c :: cs).drop digits.length).takeWhile isSuffix
  let width := digits.length + suffix.length
  let value := decimalValue digits
  if value ≤ maxInteger then .token (.number value) width else .tooLarge width

/-- A keyword, type word or name, at a text that starts with the letter `c`. -/
def readWord (c : Char) (cs : List Char) : Item :=
  let word := c :: cs.takeWhile isWordPart
  .token (.ofWord (String.ofList word)) word.length

/-- The longest symbol at the front. A lone `&` or `|` is wrong at the character after it. -/
def readSymbol (c : Char) (cs : List Char) : Item :=
  match cs.head?.bind (Symbol.ofPair? c) with
  | some s => .token (.symbol s) 2
  | none =>
    match Symbol.ofChar? c with
    | some s => .token (.symbol s) 1
    | none => .stuck (if c == '&' || c == '|' then 1 else 0)

/-- The token, if any, at a text that starts with `c`. -/
def readToken (c : Char) (cs : List Char) : Item :=
  if c.isDigit then readNumber c cs
  else if isWordStart c then readWord c cs
  else readSymbol c cs

/-- The item at the front. A comment that is never closed is no comment: its `/` is a symbol. -/
def readItem : List Char → Item
  | [] => .stuck 0
  | '/' :: '/' :: cs => .skipped (lineWidth cs + 2)
  | '/' :: '*' :: cs =>
    match commentWidth? cs with
    | some width => .skipped (width + 2)
    | none => readToken '/' ('*' :: cs)
  | '#' :: cs => .skipped (lineWidth cs + 1)
  | c :: cs => readToken c cs

/-- The number of blanks at the front. -/
def blankWidth (cs : List Char) : Nat := (cs.takeWhile isBlank).length

/-- The fault at distance `offset` from the position `pos` of `cs`; the end of the text has no width. -/
def faultAt (pos : Nat) (cs : List Char) (offset : Nat) : LexicalFault :=
  match cs[offset]? with
  | some c => ⟨⟨pos + offset, pos + offset + 1⟩, some c⟩
  | none => ⟨⟨pos + offset, pos + offset⟩, none⟩

/-- The lexemes of a text that starts with an item at position `pos`. -/
def readItems : (fuel pos : Nat) → List Char → Except LexicalFault (List Lexeme)
  | 0, _, _ => .ok []
  | fuel + 1, pos, cs =>
    /- Reading goes on behind an item of the given width, if anything but blanks is left. -/
    let after (width : Nat) : Except LexicalFault (List Lexeme) :=
      let rest := cs.drop width
      let blanks := blankWidth rest
      match rest.drop blanks with
      | [] => .ok []
      | more => readItems fuel (pos + width + blanks) more
    match readItem cs with
    | .token t width => do
      let more ← after width
      return ⟨t, ⟨pos, pos + width⟩⟩ :: more
    | .skipped width => after width
    | .tooLarge width => .error ⟨⟨pos, pos + width⟩, none⟩
    | .stuck offset => .error (faultAt pos cs offset)

/-- The lexemes of a text. The empty text has none; a text of blanks alone is a fault at its end,
because an item is missing. -/
def lexemes (cs : List Char) : Except LexicalFault (List Lexeme) :=
  match cs with
  | [] => .ok []
  | _ => readItems cs.length (blankWidth cs) (cs.drop (blankWidth cs))

end GrowthFlow.Lang
