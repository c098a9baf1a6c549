/-!
# JSON values and their text

`Json` is a value to be written: numbers are integers, and the fields of an object stand in a fixed
order. `compact` writes it on one line; `pretty` gives every item its own line, indented by two blanks,
with empty arrays and objects closed up.
-/

namespace GrowthFlow

/-- A JSON value to be written. -/
inductive Json where
  | null
  | bool (b : Bool)
  | int (n : Int)
  | str (s : String)
  | arr (items : List Json)
  | obj (fields : List (String × Json))
deriving Repr, Inhabited

namespace Json

/-- A hexadecimal digit. -/
def hexDigit (n : Nat) : Char :=
  if n < 10 then Char.ofNat ('0'.toNat + n) else Char.ofNat ('a'.toNat + (n - 10))

/-- A character inside a string: quotes, backslashes and control characters are escaped. -/
def escape (c : Char) : List Char :=
  match c with
  | '"' => ['\\', '"']
  | '\\' => ['\\', '\\']
  | '\n' => ['\\', 'n']
  | '\r' => ['\\', 'r']
  | '\t' => ['\\', 't']
  | '\x08' => ['\\', 'b']
  | '\x0c' => ['\\', 'f']
  | c =>
    if c.toNat < 0x20 then ['\\', 'u', '0', '0', hexDigit (c.toNat / 16), hexDigit (c.toNat % 16)]
    else [c]

/-- A string with its quotes. -/
def quote (s : String) : List Char := '"' :: s.toList.flatMap escape ++ ['"']

/-- A line break and the indentation of a depth. -/
def lineBreak (depth : Nat) : List Char := '\n' :: List.replicate (2 * depth) ' '

/-- Texts one after another, separated by a comma and `gap`. -/
def commaSeparated (gap : List Char) : List (List Char) → List Char
  | [] => []
  | [t] => t
  | t :: ts => t ++ ',' :: gap ++ commaSeparated gap ts

mutual

/-- The characters of a value on one line. -/
def compactChars : Json → List Char
  | null => "null".toList
  | bool b => (if b then "true" else "false").toList
  | int n => n.repr.toList
  | str s => quote s
  | arr items => '[' :: commaSeparated [] (compactItems items) ++ [']']
  | obj fields => '\x7b' :: commaSeparated [] (compactFields fields) ++ ['\x7d']

/-- The characters of each item. -/
def compactItems : List Json → List (List Char)
  | [] => []
  | j :: js => compactChars j :: compactItems js

/-- The characters of each field. -/
def compactFields : List (String × Json) → List (List Char)
  | [] => []
  | (k, j) :: fs => (quote k ++ ':' :: compactChars j) :: compactFields fs

end

mutual

/-- The characters of a value whose lines stand at the given depth. -/
def prettyChars (depth : Nat) : Json → List Char
  | null => "null".toList
  | bool b => (if b then "true" else "false").toList
  | int n => n.repr.toList
  | str s => quote s
  | arr [] => ['[', ']']
  | arr items =>
    '[' :: lineBreak (depth + 1) ++
      commaSeparated (lineBreak (depth + 1)) (prettyItems (depth + 1) items) ++
      lineBreak depth ++ [']']
  | obj [] => ['\x7b', '\x7d']
  | obj fields =>
    '\x7b' :: lineBreak (depth + 1) ++
      commaSeparated (lineBreak (depth + 1)) (prettyFields (depth + 1) fields) ++
      lineBreak depth ++ ['\x7d']

/-- The characters of each item at the given depth. -/
def prettyItems (depth : Nat) : List Json → List (List Char)
  | [] => []
  | j :: js => prettyChars depth j :: prettyItems depth js

/-- The characters of each field at the given depth. -/
def prettyFields (depth : Nat) : List (String × Json) → List (List Char)
  | [] => []
  | (k, j) :: fs => (quote k ++ ':' :: ' ' :: prettyChars depth j) :: prettyFields depth fs

end

/-- The text of a value on one line. -/
def compact (j : Json) : String := String.ofList j.compactChars

/-- The text of a value, one item to a line. -/
def pretty (j : Json) : String := String.ofList (j.prettyChars 0)

/-- A natural number. -/
def nat (n : Nat) : Json := .int n

/-- A value or `null`. -/
def ofOption {α : Type} (f : α → Json) : Option α → Json
  | some a => f a
  | none => .null

/-- The items of a list. -/
def ofList {α : Type} (f : α → Json) (as : List α) : Json := .arr (as.map f)

/-- A list of strings. -/
def strings (ss : List String) : Json := ofList .str ss

end Json

end GrowthFlow
