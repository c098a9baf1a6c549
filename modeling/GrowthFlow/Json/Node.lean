import GrowthFlow.Text.Decimal

/-!
# Reading JSON text

Reading never fails as a whole. Where the text stops being JSON the tree ends in `Node.broken`, and
nothing behind it is read. A decoder that walks the tree in reading order therefore meets the first
fault of the text first, whether it is one of form or one of meaning.

A number written without a fraction and an exponent is an integer; `-0` is not. A string with an
unpaired surrogate has no text: it can be passed over, but not used.
-/

namespace GrowthFlow.Json

/-- A JSON text as read. -/
inductive Node where
  | null
  | bool (b : Bool)
  | int (n : Int)
  /-- A number that is no integer. -/
  | real
  /-- A string; one with an unpaired surrogate has no text. -/
  | text (s : Option String)
  | list (items : List Node)
  /-- The fields of an object in reading order; keys may repeat. -/
  | record (fields : List (Option String × Node))
  /-- The text is no JSON from here on. -/
  | broken
deriving Repr, Inhabited

namespace Node

mutual

/-- Whether the text was JSON to its end. -/
def isComplete : Node → Bool
  | list items => allComplete items
  | record fields => fieldsComplete fields
  | broken => false
  | _ => true

/-- Whether every item is complete. -/
def allComplete : List Node → Bool
  | [] => true
  | n :: ns => n.isComplete && allComplete ns

/-- Whether every field is complete. -/
def fieldsComplete : List (Option String × Node) → Bool
  | [] => true
  | (_, n) :: fs => n.isComplete && fieldsComplete fs

end

end Node

/-- The blanks of JSON. -/
def isJsonBlank (c : Char) : Bool := c == ' ' || c == '\n' || c == '\t' || c == '\r'

/-- The text behind leading blanks. -/
def skipBlanks (cs : List Char) : List Char := cs.dropWhile isJsonBlank

/-! ## Numbers -/

/-- The digits at the front and what follows them. -/
def spanDigits (cs : List Char) : List Char × List Char :=
  (cs.takeWhile Char.isDigit, cs.dropWhile Char.isDigit)

/-- The text behind a fraction, if there is one; nothing if it is malformed. -/
def afterFraction : List Char → Option (Bool × List Char)
  | '.' :: cs =>
    match spanDigits cs with
    | ([], _) => none
    | (_, rest) => some (true, rest)
  | cs => some (false, cs)

/-- The text behind the digits of an exponent. -/
def afterExponentDigits (cs : List Char) : Option (Bool × List Char) :=
  match spanDigits cs with
  | ([], _) => none
  | (_, rest) => some (true, rest)

/-- The text behind an exponent, if there is one; nothing if it is malformed. -/
def afterExponent : List Char → Option (Bool × List Char)
  | [] => some (false, [])
  | c :: cs =>
    if c == 'e' || c == 'E' then
      match cs with
      | '+' :: cs => afterExponentDigits cs
      | '-' :: cs => afterExponentDigits cs
      | cs => afterExponentDigits cs
    else some (false, c :: cs)

/-- A number without its sign. -/
def readMagnitude (negative : Bool) (cs : List Char) : Node × Option (List Char) :=
  match spanDigits cs with
  | ([], _) => (.broken, none)
  | (digits, rest) =>
    if digits.length != 1 && digits.head? == some '0' then (.broken, none)
    else
      match afterFraction rest with
      | none => (.broken, none)
      | some (hasFraction, rest) =>
        match afterExponent rest with
        | none => (.broken, none)
        | some (hasExponent, rest) =>
          let n := Text.decimalValue digits
          if hasFraction || hasExponent || (negative && n == 0) then (.real, some rest)
          else (.int (if negative then -(n : Int) else n), some rest)

/-- A number. -/
def readNumber : List Char → Node × Option (List Char)
  | '-' :: cs => readMagnitude true cs
  | cs => readMagnitude false cs

/-! ## Strings -/

/-- The value of a hexadecimal digit. -/
def hexValue? (c : Char) : Option Nat :=
  if c.isDigit then some (c.toNat - '0'.toNat)
  else if 'a' ≤ c ∧ c ≤ 'f' then some (c.toNat - 'a'.toNat + 10)
  else if 'A' ≤ c ∧ c ≤ 'F' then some (c.toNat - 'A'.toNat + 10)
  else none

/-- Four hexadecimal digits. -/
def hexFour? : List Char → Option (Nat × List Char)
  | a :: b :: c :: d :: rest => do
    let a ← hexValue? a
    let b ← hexValue? b
    let c ← hexValue? c
    let d ← hexValue? d
    return (((a * 16 + b) * 16 + c) * 16 + d, rest)
  | _ => none

/-- The character of a one-letter escape. -/
def simpleEscape? : Char → Option Char
  | '"' => some '"'
  | '\\' => some '\\'
  | '/' => some '/'
  | 'b' => some '\x08'
  | 'f' => some '\x0c'
  | 'n' => some '\n'
  | 'r' => some '\r'
  | 't' => some '\t'
  | _ => none

/-- The low surrogate written at the front, if any. -/
def lowSurrogate? : List Char → Option (Nat × List Char)
  | '\\' :: 'u' :: cs => do
    let (n, rest) ← hexFour? cs
    if 0xdc00 ≤ n && n < 0xe000 then some (n, rest) else none
  | _ => none

/-- The characters of a string up to its closing quote, newest first in `acc`; no text once a surrogate
was unpaired. Nothing if the string is malformed. -/
def readChars : (fuel : Nat) → (acc : Option (List Char)) → List Char →
    Option (Option (List Char) × List Char)
  | 0, _, _ => none
  | fuel + 1, acc, cs =>
    match cs with
    | [] => none
    | '"' :: rest => some (acc, rest)
    | '\\' :: 'u' :: rest =>
      match hexFour? rest with
      | none => none
      | some (n, rest) =>
        if 0xd800 ≤ n && n < 0xdc00 then
          match lowSurrogate? rest with
          | some (m, rest) =>
            let c := Char.ofNat (0x10000 + (n - 0xd800) * 0x400 + (m - 0xdc00))
            readChars fuel (acc.map (c :: ·)) rest
          | none => readChars fuel none rest
        else if 0xdc00 ≤ n && n < 0xe000 then readChars fuel none rest
        else readChars fuel (acc.map (Char.ofNat n :: ·)) rest
    | '\\' :: e :: rest =>
      match simpleEscape? e with
      | some c => readChars fuel (acc.map (c :: ·)) rest
      | none => none
    | c :: rest => if c.toNat < 0x20 then none else readChars fuel (acc.map (c :: ·)) rest

/-- A string behind its opening quote. -/
def readString (cs : List Char) : Option (Option String × List Char) := do
  let (chars, rest) ← readChars (cs.length + 1) (some []) cs
  return (chars.map fun cs => String.ofList cs.reverse, rest)

/-! ## Values -/

/-- The value of a literal word, if the word is spelled out. -/
def readWord (word : String) (n : Node) (cs : List Char) : Node × Option (List Char) :=
  let w := word.toList
  if w.isPrefixOf cs then (n, some (cs.drop w.length)) else (.broken, none)

mutual

/-- A value behind its blanks. There is no rest once the text is broken. -/
def readValue : (fuel : Nat) → List Char → Node × Option (List Char)
  | 0, _ => (.broken, none)
  | fuel + 1, cs =>
    match cs with
    | '"' :: rest =>
      match readString rest with
      | some (s, rest) => (.text s, some rest)
      | none => (.broken, none)
    | '[' :: rest =>
      match skipBlanks rest with
      | ']' :: rest => (.list [], some rest)
      | rest =>
        let (items, rest) := readItems fuel rest
        (.list items, rest)
    | '\x7b' :: rest =>
      match skipBlanks rest with
      | '\x7d' :: rest => (.record [], some rest)
      | rest =>
        let (fields, rest) := readFields fuel rest
        (.record fields, rest)
    | 'n' :: _ => readWord "null" .null cs
    | 't' :: _ => readWord "true" (.bool true) cs
    | 'f' :: _ => readWord "false" (.bool false) cs
    | cs => readNumber cs

/-- The items of an array up to its closing bracket; at least one must follow. -/
def readItems : (fuel : Nat) → List Char → List Node × Option (List Char)
  | 0, _ => ([.broken], none)
  | fuel + 1, cs =>
    match readValue fuel cs with
    | (n, none) => ([n], none)
    | (n, some rest) =>
      match skipBlanks rest with
      | ',' :: rest =>
        let (ns, rest) := readItems fuel (skipBlanks rest)
        (n :: ns, rest)
      | ']' :: rest => ([n], some rest)
      | _ => ([n, .broken], none)

/-- The fields of an object up to its closing brace; at least one must follow. -/
def readFields : (fuel : Nat) → List Char → List (Option String × Node) × Option (List Char)
  | 0, _ => ([(none, .broken)], none)
  | fuel + 1, cs =>
    match cs with
    | '"' :: rest =>
      match readString rest with
      | none => ([(none, .broken)], none)
      | some (key, rest) =>
        match skipBlanks rest with
        | ':' :: rest =>
          match readValue fuel (skipBlanks rest) with
          | (n, none) => ([(key, n)], none)
          | (n, some rest) =>
            match skipBlanks rest with
            | ',' :: rest =>
              let (fs, rest) := readFields fuel (skipBlanks rest)
              ((key, n) :: fs, rest)
            | '\x7d' :: rest => ([(key, n)], some rest)
            | _ => ([(key, n), (none, .broken)], none)
        | _ => ([(key, .broken)], none)
    | _ => ([(none, .broken)], none)

end

/-- The value a text starts with, and whether only blanks follow it. -/
def Node.read (text : String) : Node × Bool :=
  let cs := skipBlanks text.toList
  let (n, rest) := readValue (2 * cs.length + 2) cs
  match rest with
  | some rest => (n, (skipBlanks rest).isEmpty)
  | none => (n, false)

end GrowthFlow.Json
