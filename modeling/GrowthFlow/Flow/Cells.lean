import GrowthFlow.Flow.Scalar

/-!
# Cells

What remains of a relation when every choice is made: one scalar for each pair of variables.
-/

namespace GrowthFlow

/-- The scalar that flows from the variable of each row into that of each column. -/
structure Cells where
  vars : List String
  rows : List (List Scalar)
deriving DecidableEq, Repr

/-- The longest name, counted in bytes. -/
def nameWidth (names : List String) : Nat := names.foldl (fun n x => max n x.utf8ByteSize) 0

/-- A name, filled up with blanks to a number of characters. -/
def padName (width : Nat) (name : String) : String :=
  name ++ String.ofList (List.replicate (width - name.length) ' ')

/-- One line of a table: a name, a bar, and the parts of the row. -/
def tableLine (width : Nat) (gap name : String) (parts : List String) : String :=
  padName width name ++ " | " ++ gap.intercalate parts ++ "\n"

namespace Cells

/-- The scalars that flow into the variable of a column, with the variables they come from. -/
def column (c : Cells) (j : Nat) : List (String × Scalar) :=
  (c.vars.zip c.rows).map fun (x, row) => (x, row[j]?.getD .o)

/-- The cells as a table. -/
def text (c : Cells) : String :=
  String.join ((c.vars.zip c.rows).map fun (x, row) =>
    tableLine (nameWidth c.vars) " " x (row.map Scalar.text))

end Cells

end GrowthFlow
