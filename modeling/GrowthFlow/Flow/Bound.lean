import GrowthFlow.Flow.Cells
import GrowthFlow.Assoc
import GrowthFlow.Ordered
import GrowthFlow.Text.Split

/-!
# Bounds

The bound of a variable has the form `max(x, y) + z`: a maximum of the variables that flow into it as `m`,
the sum of those that flow as `w`, and the product of those that flow as `p`. Its short form lists the
three sets: `x,y;;z`.
-/

namespace GrowthFlow

/-- The variables of a bound `max(linear, sum of weak) + product of poly`, each set in increasing
order. -/
structure Bound where
  linear : List String
  weak : List String
  poly : List String
deriving DecidableEq, Repr

namespace Bound

/-- The bound zero. -/
def empty : Bound := ⟨[], [], []⟩

/-- Adds a variable that flows in with a scalar; `o` and `i` add nothing. -/
def add (b : Bound) (s : Scalar) (x : String) : Bound :=
  match s with
  | .m => { b with linear := Ordered.insert x b.linear }
  | .w => { b with weak := Ordered.insert x b.weak }
  | .p => { b with poly := Ordered.insert x b.poly }
  | .o | .i => b

/-- The three sets, with `;` between them and `,` between their members. -/
def triple (b : Bound) : String :=
  ";".intercalate ([b.linear, b.weak, b.poly].map (",".intercalate ·))

/-- The members of a set in the short form. -/
def readSet (part : List Char) : List String :=
  Ordered.ofList (((Text.splitAt ',' part).filter (!·.isEmpty)).map String.ofList)

/-- Reads the short form. Missing sets are empty, and a fourth is not read. -/
def ofTriple (s : String) : Bound :=
  let sets := (Text.splitAt ';' s.toList).map readSet
  ⟨sets[0]?.getD [], sets[1]?.getD [], sets[2]?.getD []⟩

/-- Whether the bound is zero. -/
def isEmpty (b : Bound) : Bool := b.linear.isEmpty && b.weak.isEmpty && b.poly.isEmpty

/-- A maximum of which only one part has members. The compact form leaves out the zero. -/
def maximum (compact : Bool) (hasProduct : Bool) (part : String) (members : Nat) : String :=
  if compact then if members > 1 then "max(" ++ part ++ ")" else part
  else if members > 1 || hasProduct then "max(" ++ part ++ ",0)"
  else part

/-- The bound as an expression. -/
def text (compact : Bool) (b : Bound) : String :=
  let linear := ",".intercalate b.linear
  let weak := "+".intercalate b.weak
  let product := "*".intercalate b.poly
  let hasProduct := !b.poly.isEmpty
  match b.linear.isEmpty, b.weak.isEmpty with
  | true, true => if hasProduct then product else "0"
  | linearIsEmpty, weakIsEmpty =>
    let maximum :=
      if weakIsEmpty then maximum compact hasProduct linear b.linear.length
      else if linearIsEmpty then maximum compact hasProduct weak b.weak.length
      else "max(" ++ linear ++ "," ++ weak ++ ")"
    if hasProduct then maximum ++ "+" ++ product else maximum

/-- The bound as a statement on the final value of a variable. -/
def statement (compact : Bool) (x : String) (b : Bound) : String :=
  x ++ "′" ++ (if compact then "≤" else " ≤ ") ++ b.text compact

end Bound

/-- A bound for each of some variables. -/
abbrev Bounds := Assoc Bound

namespace Bounds

/-- The bounds that the cells allow: one for each column. -/
def ofCells (c : Cells) : Bounds :=
  Assoc.ofPairs (c.vars.zipIdx.map fun (x, j) =>
    (x, (c.column j).foldl (fun b (source, s) => b.add s source) .empty))

/-- All bounds in one line. A significant one says more than that a variable is bounded by itself. -/
def text (compact significant : Bool) (bs : Bounds) : String :=
  let shown := bs.filter fun (x, b) => !significant || x != b.text compact
  " ∧ ".intercalate (shown.map fun (x, b) => b.statement compact x)

end Bounds

end GrowthFlow
