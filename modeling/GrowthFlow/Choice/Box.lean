import GrowthFlow.Choice.Witness

/-!
# Boxes

A box gives the allowed values at each choice index. It avoids a witness when it leaves out the value of
one of its deltas; then no vector inside the box satisfies the witness. `Box.avoiding` finds the largest
boxes that avoid all witnesses.
-/

namespace GrowthFlow

/-- The allowed values at each choice index, each in increasing order. -/
abbrev Box := List (List Nat)

namespace Box

/-- Whether no vector of the box satisfies the witness. -/
def avoids (b : Box) (w : Witness) : Bool :=
  w.any fun d =>
    match b[d.index]? with
    | some values => !values.contains d.value
    | none => true

/-- The box without the value of a delta. -/
def exclude (b : Box) (d : Delta) : Box := b.modify d.index (·.filter (· != d.value))

/-- The number of values allowed at an index. -/
def width (b : Box) (index : Nat) : Nat := (b[index]?.map (·.length)).getD 0

/-- The boxes inside `b` that avoid every witness, by leaving out one value for each witness that is not
avoided yet. No index is left without a value. -/
def search : List Witness → Box → List Box
  | [], b => [b]
  | w :: ws, b =>
    if b.avoids w then search ws b
    else w.flatMap fun d => if b.width d.index > 1 then search ws (b.exclude d) else []

/-- Whether every vector of `b` is one of `a`. -/
def contains (a b : Box) : Bool :=
  a.length == b.length && (a.zip b).all fun (x, y) => y.all (x.contains ·)

/-- One more box among boxes of which none contains another. -/
def addMaximal (kept : List Box) (b : Box) : List Box :=
  if kept.any (·.contains b) then kept else kept.filter (!b.contains ·) ++ [b]

/-- The boxes that no other one contains. -/
def maximal (bs : List Box) : List Box := bs.foldl addMaximal []

/-- Every vector of `size` values of the domain. -/
def full (domain : List Nat) (size : Nat) : Box := List.replicate size (Ordered.ofList domain)

/-- The largest boxes that avoid every witness, in increasing order. -/
def avoiding (domain : List Nat) (size : Nat) (ws : Witnesses) : List Box :=
  Ordered.ofList (maximal (search (Witnesses.byLength ws) (full domain size)))

/-- The number of vectors of a box. -/
def volume (b : Box) : Nat := b.foldl (fun n values => n * values.length) 1

/-- The text of a box: `[[0,1],[2]]`. -/
def text (b : Box) : String :=
  "[" ++ ",".intercalate (b.map fun values =>
    "[" ++ ",".intercalate (values.map Nat.repr) ++ "]") ++ "]"

end Box

end GrowthFlow
