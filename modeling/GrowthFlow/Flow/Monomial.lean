import GrowthFlow.Flow.Scalar
import GrowthFlow.Flow.Delta

/-!
# Monomials

A monomial is a scalar under a condition: it counts when a choice vector satisfies all of its deltas,
and not at all otherwise. Its deltas are kept in the order of their indices, one to an index. Two demands
for different values at one index cannot be met together, so such a monomial is zero.
-/

namespace GrowthFlow

/-- A scalar that counts under the choices its deltas demand. -/
structure Monomial where
  scalar : Scalar
  deltas : List Delta
deriving DecidableEq, Repr, Inhabited

/-- Adds a delta to a list in the order of indices; nothing if the list demands another value there. -/
def insertDelta? (d : Delta) : List Delta → Option (List Delta)
  | [] => some [d]
  | e :: es =>
    if d.index < e.index then some (d :: e :: es)
    else if e.index < d.index then (insertDelta? d es).map (e :: ·)
    else if d.value = e.value then some (e :: es)
    else none

namespace Monomial

/-- The monomial that never counts. -/
def zero : Monomial := ⟨.o, []⟩

/-- A scalar without a condition. -/
def ofScalar (s : Scalar) : Monomial := ⟨s, []⟩

/-- Whether the monomial never counts. -/
def isZero (m : Monomial) : Bool := m.scalar == .o

/-- One more demand; a contradiction gives zero. -/
def insert (m : Monomial) (d : Delta) : Monomial :=
  if m.scalar = .o then zero
  else
    match insertDelta? d m.deltas with
    | some ds => ⟨m.scalar, ds⟩
    | none => zero

/-- A scalar under the given demands, in any order. -/
def ofDeltas (s : Scalar) (ds : List Delta) : Monomial := ds.foldl insert (ofScalar s)

/-- The product: scalars are multiplied and the demands of both are made. -/
protected def mul (a b : Monomial) : Monomial :=
  if a.scalar * b.scalar = .o then zero
  else b.deltas.foldl insert ⟨a.scalar * b.scalar, a.deltas⟩

instance : Mul Monomial := ⟨Monomial.mul⟩

/-- Whether a choice vector meets every demand. -/
def isMet (c : List Nat) (m : Monomial) : Bool := satisfies c m.deltas

/-- The scalar under a choice vector. -/
def eval (c : List Nat) (m : Monomial) : Scalar := if m.isMet c then m.scalar else .o

/-- Whether every demand of `b` is one of `a`. -/
def contains (a b : Monomial) : Bool := b.deltas.all (a.deltas.contains ·)

/-- Whether `a` makes `b` superfluous beside it: it counts whenever `b` does, for at least as much. -/
def absorbs (a b : Monomial) : Bool := b.contains a && decide (b.scalar ≤ a.scalar)

/-- The same demands with another scalar. -/
def withScalar (m : Monomial) (s : Scalar) : Monomial := ofDeltas s m.deltas

/-- The text of a monomial: `w.δ(0,1).δ(2,3)`. -/
def text (m : Monomial) : String := m.scalar.text ++ String.join (m.deltas.map fun d => "." ++ d.text)

end Monomial

end GrowthFlow
