import GrowthFlow.Choice.Witness

/-!
# Witness graphs

Two witnesses are neighbours at an index when they differ only in the value they ask for there. A witness
whose neighbours at an index, with itself, take every value there can be contracted: the whole group gives
way to what it has in common. Once the empty witness appears, every choice vector is covered.

A contraction removes at least one witness and adds a shorter one, so the total number of deltas bounds
the number of contractions.
-/

namespace GrowthFlow

/-- Witnesses over choices with `degree` values, in the order in which they were added. -/
structure WitnessGraph where
  degree : Nat
  members : List Witness
deriving DecidableEq, Repr

namespace Witness

/-- The index at which two witnesses of one length differ, if they differ in one delta only and that one
sits at the same index in both. -/
def difference? : Witness → Witness → Option Nat
  | d :: v, e :: w =>
    if d = e then difference? v w
    else if d.index = e.index ∧ v = w then some d.index
    else none
  | _, _ => none

/-- The witness without its demand at an index. -/
def without (w : Witness) (index : Nat) : Witness := w.filter (·.index != index)

end Witness

namespace WitnessGraph

/-- A graph without witnesses. -/
def empty (degree : Nat) : WitnessGraph := ⟨degree, []⟩

/-- Adds a witness, unless it is there. -/
def insert (g : WitnessGraph) (w : Witness) : WitnessGraph :=
  if g.members.contains w then g else { g with members := g.members ++ [w] }

/-- The neighbours of a witness at an index. -/
def neighbours (g : WitnessGraph) (w : Witness) (index : Nat) : List Witness :=
  g.members.filter fun v => w.difference? v == some index

/-- Whether a witness and its neighbours at an index take every value there. -/
def isFull (g : WitnessGraph) (w : Witness) (index : Nat) : Bool :=
  (g.neighbours w index).length + 1 == g.degree

/-- The members of `group` and their neighbours at an index. -/
def widen (g : WitnessGraph) (index : Nat) (group : List Witness) : List Witness :=
  g.members.filter fun v => group.any fun w => w == v || w.difference? v == some index

/-- All witnesses that are reached from a group by neighbours at an index. -/
def reach (g : WitnessGraph) (index : Nat) : (fuel : Nat) → (group : List Witness) → List Witness
  | 0, group => group
  | fuel + 1, group =>
    let wider := g.widen index group
    if wider.length = group.length then group else reach g index fuel wider

/-- Replaces a witness and its group at an index by what they have in common, if they take every value
there. -/
def contractAt (g : WitnessGraph) (w : Witness) (index : Nat) : WitnessGraph :=
  if g.members.contains w && g.isFull w index then
    let group := g.reach index g.members.length [w]
    insert { g with members := g.members.filter (!group.contains ·) } (w.without index)
  else g

/-- Contracts a witness at each of its indices. -/
def contractNode (g : WitnessGraph) (w : Witness) : WitnessGraph :=
  w.foldl (fun g d => g.contractAt w d.index) g

/-- Contracts the witnesses of one length, as they stand before. -/
def contractLevel (g : WitnessGraph) (length : Nat) : WitnessGraph :=
  (g.members.filter (·.length == length)).foldl contractNode g

/-- The length of the longest witness. -/
def maxLength (g : WitnessGraph) : Nat := g.members.foldl (fun n w => max n w.length) 0

/-- Contracts every length once, from the longest to the shortest. -/
def contractOnce (g : WitnessGraph) : WitnessGraph :=
  (List.range g.maxLength).reverse.foldl (fun g n => g.contractLevel (n + 1)) g

/-- Contracts at most `n` times, until nothing changes. -/
def contractWithin : (n : Nat) → WitnessGraph → WitnessGraph
  | 0, g => g
  | n + 1, g =>
    let next := g.contractOnce
    if next = g then g else contractWithin n next

/-- The total number of deltas. -/
def weight (g : WitnessGraph) : Nat := g.members.foldl (fun n w => n + w.length) 0

/-- Contracts until nothing can be contracted. -/
def contract (g : WitnessGraph) : WitnessGraph := contractWithin (g.weight + 1) g

/-- Whether the empty witness is there: every choice vector is covered. -/
def coversAll (g : WitnessGraph) : Bool := g.members.contains []

/-- The witnesses from short to long, those of one length as they were added. -/
def nodes (g : WitnessGraph) : List Witness := Witnesses.byLength g.members

end WitnessGraph

end GrowthFlow
