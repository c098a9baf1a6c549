/-!
# Control characters made visible

A log may be read on a terminal, which acts on some characters instead of showing them. Those are written
by their number. Tabs and line breaks are layout and stay as they are.
-/

namespace GrowthFlow.Text

/-- The controls of the first half of Latin-1 that a terminal acts on: bell, backspace, form feed, escape
and delete. -/
def terminalControls : List Char := ['\x07', '\x08', '\x0c', '\x1b', '\x7f']

/-- The hexadecimal digits of a character's number. -/
def hexDigits (c : Char) : List Char := Nat.toDigits 16 c.toNat

/-- A character as it is shown: a control of the first half in two digits, one of the second half in
braces, and every other as itself. -/
def visibleChar (c : Char) : List Char :=
  if terminalControls.contains c then
    ['\\', 'x'] ++ (if c.toNat < 16 then ['0'] else []) ++ hexDigits c
  else if 0x80 ≤ c.toNat ∧ c.toNat ≤ 0x9f then
    ['\\', 'u', '\x7b'] ++ hexDigits c ++ ['\x7d']
  else [c]

/-- A text with its control characters made visible. -/
def visible (s : String) : String := String.ofList (s.toList.flatMap visibleChar)

end GrowthFlow.Text
