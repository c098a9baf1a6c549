import GrowthFlow.Flow.Monomial

/-!
# Polynomials

A polynomial is a sum of monomials in normal form: strictly increasing by their deltas, none zero, and
none superfluous beside another one. The empty sum is zero. The normal form is unique, so two polynomials
that mean the same are equal, and it is by equality that a closure is seen to be complete.

Zero takes part in a product as the monomial `o`. That is what keeps an unbounded flow: `o` times `i` is
`i`.
-/

namespace GrowthFlow

/-- A sum of monomials. -/
structure Poly where
  monomials : List Monomial
deriving DecidableEq, Repr, Inhabited

/-- Adds a monomial to a list that increases by deltas; scalars under the same deltas are summed. -/
def insertMonomial (m : Monomial) : List Monomial → List Monomial
  | [] => [m]
  | n :: ns =>
    if m.deltas < n.deltas then m :: n :: ns
    else if n.deltas < m.deltas then n :: insertMonomial m ns
    else ⟨m.scalar + n.scalar, n.deltas⟩ :: ns

/-- The monomials of both lists, the second of which increases by deltas. -/
def mergeMonomials (ms ns : List Monomial) : List Monomial := ms.foldr insertMonomial ns

/-- Leaves out what another monomial makes superfluous. -/
def dropAbsorbed (ms : List Monomial) : List Monomial :=
  ms.filter fun m => !ms.any fun n => n != m && n.absorbs m

namespace Poly

/-- The empty sum. -/
def zero : Poly := ⟨[]⟩

/-- The sum of any monomials. -/
def ofMonomials (ms : List Monomial) : Poly :=
  ⟨dropAbsorbed (mergeMonomials (ms.filter (!·.isZero)) [])⟩

/-- A scalar without a condition. -/
def ofScalar (s : Scalar) : Poly := ofMonomials [.ofScalar s]

/-- The polynomial `m`. -/
def unit : Poly := ofScalar .m

/-- One scalar for each value at a choice index. -/
def ofChoice (index : Nat) (scalars : List Scalar) : Poly :=
  ofMonomials (scalars.mapIdx fun value s => .ofDeltas s [⟨value, index⟩])

/-- Whether the sum is empty. -/
def isZero (p : Poly) : Bool := p.monomials.isEmpty

/-- The sum of two polynomials. -/
protected def add (p q : Poly) : Poly :=
  if p.isZero then q
  else if q.isZero then p
  else ⟨dropAbsorbed (mergeMonomials p.monomials q.monomials)⟩

instance : Add Poly := ⟨Poly.add⟩

/-- The monomials that take part in a product. -/
def factors (p : Poly) : List Monomial := if p.isZero then [.zero] else p.monomials

/-- The product. Each factor of `q` gives a row of products with those of `p`; the rows are merged. -/
protected def mul (p q : Poly) : Poly :=
  let row (n : Monomial) : List Monomial := (ofMonomials (p.factors.map (· * n))).monomials
  ⟨dropAbsorbed ((q.factors.map row).foldr mergeMonomials [])⟩

instance : Mul Poly := ⟨Poly.mul⟩

/-- The largest scalar that counts under a choice vector. -/
def eval (c : List Nat) (p : Poly) : Scalar := (p.monomials.map (·.eval c)).foldl (· + ·) .o

/-- The largest scalar that counts under a choice vector, or `least` if none does. Zero is always
`o`. -/
def evalOr (least : Scalar) (c : List Nat) (p : Poly) : Scalar :=
  if p.isZero then .o
  else
    match (p.monomials.filter (·.isMet c)).map (·.scalar) with
    | [] => least
    | s :: ss => ss.foldl (· + ·) s

/-- The demands under which the scalar is `i` or one of `extra`. -/
def infinities (extra : List Scalar) (p : Poly) : List (List Delta) :=
  (p.monomials.filter fun m => m.scalar == .i || extra.contains m.scalar).map (·.deltas)

/-- Whether some scalar is `i`. -/
def hasInfinity (p : Poly) : Bool := p.monomials.any (·.scalar == .i)

/-- Turns the scalars that `f` picks into `i`. -/
def escalate (f : Scalar → Bool) (p : Poly) : Poly :=
  ofMonomials (p.monomials.map fun m => if f m.scalar then m.withScalar .i else m)

/-- The demands under which a scalar that `f` picks counts. -/
def promoted (f : Scalar → Bool) (p : Poly) : List (List Delta) :=
  (p.monomials.filter (f ·.scalar)).map (·.deltas)

/-- The text of a polynomial: its monomials with `+` between them, `o` for zero. -/
def text (p : Poly) : String :=
  if p.isZero then Scalar.o.text else "+".intercalate (p.monomials.map Monomial.text)

end Poly

end GrowthFlow
