/-!
# Parts and lines of a text

Splitting at a character, and the lines of a text. A line break ends a line, so a text that ends in one
has no empty line behind it.
-/

namespace GrowthFlow.Text

/-- The parts of a text between the places where `sep` stands; there is one more part than such
places. -/
def splitAt (sep : Char) : List Char → List (List Char)
  | [] => [[]]
  | c :: cs =>
    if c = sep then [] :: splitAt sep cs
    else
      match splitAt sep cs with
      | [] => [[c]]
      | part :: parts => (c :: part) :: parts

/-- The first line of a text. -/
def firstLine (cs : List Char) : List Char := cs.takeWhile (· != '\n')

/-- The number of lines of a text. -/
def lineCount (cs : List Char) : Nat :=
  let breaks := cs.count '\n'
  match cs.getLast? with
  | none => 0
  | some c => if c = '\n' then breaks else breaks + 1

/-- The text on one line: every line break becomes a blank. -/
def onOneLine (s : String) : String :=
  String.ofList (s.toList.map fun c => if c = '\n' then ' ' else c)

end GrowthFlow.Text
