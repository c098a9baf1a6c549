import GrowthFlow.Flow.Delta
import GrowthFlow.Ordered

/-!
# Witnesses

A witness is a list of deltas that no choice vector may satisfy, because a flow would be unbounded. A set
of witnesses covers the vectors that satisfy one of them. `simplify` shrinks a set without changing what
it covers:

* a witness that contains another one is dropped;
* witnesses that agree up to the value at one index, and that take every value there, give way to what
  they have in common;
* where the witnesses of length one leave a single value at an index, longer witnesses need not ask for
  that value.

Each change replaces witnesses by shorter ones. A witness of length `n` gives way to at most `n` others of
length `n - 1`, so the sum of the factorials of `length + 1` falls with every change and bounds their
number.
-/

namespace GrowthFlow

/-- Deltas that must not all be satisfied, in the order of their indices. -/
abbrev Witness := List Delta

namespace Witness

/-- Whether `d` is in the part of `w` of `size` deltas from `base` on, by halving it. -/
def searchFrom (w : Witness) (d : Delta) : (fuel base size : Nat) → Bool
  | 0, base, _ => w[base]? == some d
  | fuel + 1, base, size =>
    if size ≤ 1 then w[base]? == some d
    else
      let half := size / 2
      let above := match w[base + half]? with
        | some e => decide (d < e)
        | none => true
      searchFrom w d fuel (if above then base else base + half) (size - half)

/-- Whether a witness has a delta. Its deltas are in order, so halving finds it. -/
def has (w : Witness) (d : Delta) : Bool := w.searchFrom d w.length 0 w.length

/-- Whether the deltas of `small` are all in `large`. -/
def isPartOf (small large : Witness) : Bool := small.all large.has

/-- The text of a witness in messages. -/
def text (w : Witness) : String :=
  "[" ++ ", ".intercalate (w.map fun d =>
    "Delta \x7b index: " ++ d.index.repr ++ ", value: " ++ d.value.repr ++ " \x7d") ++ "]"

end Witness

/-- A finite set of witnesses, in increasing order. -/
abbrev Witnesses := List Witness

namespace Witnesses

/-- Adds a witness in front of those that are not shorter. -/
def insertByLength (w : Witness) : List Witness → List Witness
  | [] => [w]
  | v :: vs => if w.length ≤ v.length then w :: v :: vs else v :: insertByLength w vs

/-- The witnesses from short to long; those of one length keep their order. -/
def byLength (ws : List Witness) : List Witness := ws.foldr insertByLength []

/-- Leaves out every witness that contains another one. -/
def subsume (ws : Witnesses) : Witnesses :=
  Ordered.ofList ((byLength ws).foldl
    (fun kept w => if kept.any (·.isPartOf w) then kept else kept ++ [w]) [])

/-- Whether, whatever value of the domain stands at position `pos` of `w`, the set has that witness. -/
def coversAt (domain : List Nat) (ws : Witnesses) (w : Witness) (pos : Nat) (d : Delta) : Bool :=
  domain.all fun value => ws.contains (w.set pos ⟨value, d.index⟩)

/-- Adds what witnesses have in common that take every value at one index. -/
def saturate (domain : List Nat) (ws : Witnesses) : Witnesses :=
  ws.foldl (fun acc w =>
    (w.zipIdx).foldl (fun acc (d, pos) =>
      if ws.coversAt domain w pos d then Ordered.insert (w.eraseIdx pos) acc else acc) acc) ws

/-- The deltas of the witnesses of length one. -/
def singles (ws : Witnesses) : List Delta :=
  ws.filterMap fun
    | [d] => some d
    | _ => none

/-- The deltas that the witnesses of length one leave as the only way at their index. -/
def forced (domain : List Nat) (ws : Witnesses) : List Delta :=
  let singles := ws.singles
  (Ordered.ofList (singles.map (·.index))).filterMap fun index =>
    match domain.filter (fun v => !singles.contains ⟨v, index⟩) with
    | [v] => some ⟨v, index⟩
    | _ => none

/-- Longer witnesses without the deltas that are the only way. -/
def dropForced (domain : List Nat) (ws : Witnesses) : Witnesses :=
  let forced := ws.forced domain
  Ordered.ofList (ws.map fun w =>
    if w.length > 1 then w.filter (!forced.contains ·) else w)

/-- All three rules once. -/
def step (domain : List Nat) (ws : Witnesses) : Witnesses :=
  subsume (dropForced domain (subsume (saturate domain ws)))

/-- The rules at most `n` times, until they change nothing. -/
def simplifyWithin (domain : List Nat) : (n : Nat) → Witnesses → Witnesses
  | 0, ws => ws
  | n + 1, ws =>
    let next := ws.step domain
    if next = ws then ws else simplifyWithin domain n next

/-- The factorial. -/
def factorial : Nat → Nat
  | 0 => 1
  | n + 1 => (n + 1) * factorial n

/-- What falls with every change of a simplification. -/
def weight (ws : Witnesses) : Nat := (ws.map fun w => factorial (w.length + 1)).foldl (· + ·) 0

/-- The smallest set that the rules reach; it covers the same choice vectors. -/
def simplify (domain : List Nat) (ws : Witnesses) : Witnesses :=
  let ws := subsume ws
  simplifyWithin domain (ws.weight + 1) ws

end Witnesses

end GrowthFlow
