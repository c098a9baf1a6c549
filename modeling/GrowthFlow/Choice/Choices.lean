import GrowthFlow.Choice.Box

/-!
# Choices

The choice vectors under which no flow is unbounded, given as boxes. There may be none; the result is
then called infinite.
-/

namespace GrowthFlow

/-- Boxes of choice vectors over `index` choice indices. -/
structure Choices where
  boxes : List Box
  index : Nat
deriving DecidableEq, Repr

/-- Why choices could not be found. -/
inductive ChoiceError where
  /-- A witness asks for a value at an index that no vector has. -/
  | outside (d : Delta) (size : Nat)
  /-- A box does not avoid the witness. -/
  | notAvoided (w : Witness)
  /-- A relation has no such variable. -/
  | unknownVariable (x : String)
deriving DecidableEq, Repr

namespace ChoiceError

/-- The reason in words. -/
def message : ChoiceError → String
  | outside d size => "witness delta " ++ d.text ++ " outside of " ++ size.repr ++ " choice indices"
  | notAvoided w => "choice vector does not avoid witness " ++ w.text
  | unknownVariable x => "unknown variable " ++ x

end ChoiceError

namespace Choices

/-- The vectors of `index` values of the domain that satisfy no witness. -/
def generate (domain : List Nat) (index : Nat) (ws : List Witness) : Except ChoiceError Choices :=
  let ws := Ordered.ofList ws
  match ws.flatten.find? (fun d => index ≤ d.index) with
  | some d => .error (.outside d index)
  | none =>
    let ws := Witnesses.simplify domain ws
    let boxes := Box.avoiding domain index ws
    match ws.find? (fun w => boxes.any (!·.avoids w)) with
    | some w => .error (.notAvoided w)
    | none => .ok ⟨boxes, index⟩

/-- No vector at all. -/
def infinite (index : Nat) : Choices := ⟨[], index⟩

/-- The boxes with the given values, in any order and with repeats. -/
def ofBoxes (boxes : List (List (List Nat))) : Choices where
  boxes := boxes.map (·.map Ordered.ofList)
  index := (boxes.head?.map (·.length)).getD 0

/-- Whether there is no box. -/
def isInfinite (c : Choices) : Bool := c.boxes.isEmpty

/-- The least values of the first box. -/
def first? (c : Choices) : Option (List Nat) :=
  c.boxes.head?.bind fun b => b.mapM List.head?

/-- The values that some box allows at an index. -/
def allowedAt (c : Choices) (index : Nat) : List Nat :=
  Ordered.ofList (c.boxes.filterMap (·[index]?)).flatten

/-- The largest number that is counted to. -/
def maxCount : Nat := Nat.pow 2 128 - 1

/-- The number of vectors of the boxes, each box counted on its own, as far as numbers go. -/
def count (c : Choices) : Nat :=
  min maxCount ((c.boxes.map fun b => min maxCount b.volume).foldl (· + ·) 0)

/-- Whether a vector, or the first part of one, lies in a box. -/
def allows (c : Choices) (v : List Nat) : Bool :=
  c.boxes.any fun b => decide (v.length ≤ b.length) && (v.zip b).all fun (x, values) => values.contains x

/-- The vectors of two boxes. -/
def meet (a b : Box) : Box := (a.zip b).map fun (x, y) => x.filter (y.contains ·)

/-- The vectors of both. -/
def intersection (c d : Choices) : Choices where
  boxes :=
    let meets := c.boxes.flatMap fun a => d.boxes.map (meet a)
    let proper := meets.filter (·.all (!·.isEmpty))
    Box.maximal (proper.foldl (fun bs b => if bs.contains b then bs else bs ++ [b]) [])
  index := max c.index d.index

/-- The vectors of all of several; there must be at least one. -/
def intersectAll? : List Choices → Option Choices
  | [] => none
  | c :: cs => some (cs.foldl intersection c)

/-- The text of the boxes. -/
def text (c : Choices) : String := " ".intercalate (c.boxes.map Box.text)

end Choices

end GrowthFlow
