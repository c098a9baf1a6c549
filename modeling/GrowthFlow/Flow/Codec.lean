import GrowthFlow.Flow.Relation
import GrowthFlow.Flow.Bound
import GrowthFlow.Json.Decode

/-!
# Flows in JSON

The written form of scalars, monomials, polynomials, matrices, relations, choices and bounds, and its
decoders. A decoder brings what it reads into normal form, so that a file written by hand is as good as
one that was saved.
-/

namespace GrowthFlow

open Json (Decoder Fields)

namespace Scalar

/-- The letter as a string. -/
def json (s : Scalar) : Json := .str s.text

/-- The scalar that a name stands for. -/
def ofName (name : Option String) : Except Json.DecodeError Scalar :=
  match name with
  | some name =>
    match Scalar.ofText name with
    | .ok s => .ok s
    | .error _ => Decoder.fail
  | none => Decoder.fail

/-- A letter, by itself or as the only key of an object, with nothing under it. -/
def decode : Decoder Scalar
  | .text name => ofName name
  | .record [(name, .null)] => ofName name
  | _ => Decoder.fail

end Scalar

namespace Delta

/-- The value, then the index. -/
def json (d : Delta) : Json := .arr [.nat d.value, .nat d.index]

/-- The value, then the index. -/
def decode : Decoder Delta := fun n => do
  let (value, index) ← Decoder.pair .byte .word n
  return { value, index }

end Delta

namespace Monomial

/-- The scalar and the deltas. -/
def json (m : Monomial) : Json :=
  .obj [("scalar", m.scalar.json), ("deltas", .ofList Delta.json m.deltas)]

/-- The fields of a monomial. -/
def fields : Fields Monomial :=
  ofDeltas <$> .required "scalar" Scalar.decode <*> .required "deltas" (.list Delta.decode)

/-- A monomial. -/
def decode : Decoder Monomial := fields.record

end Monomial

namespace Poly

/-- The monomials; zero is written as the zero monomial. -/
def json (p : Poly) : Json := .ofList Monomial.json p.factors

/-- A polynomial. -/
def decode : Decoder Poly := fun n => ofMonomials <$> Decoder.list Monomial.decode n

end Poly

namespace FlowMatrix

/-- The rows. -/
def json (M : FlowMatrix) : Json := .ofList (.ofList Poly.json) M.rows

/-- A square matrix. -/
def decode : Decoder FlowMatrix := .checked (.list (.list Poly.decode)) ofRows

end FlowMatrix

namespace Relation

/-- The variables and the matrix. -/
def json (R : Relation) : Json :=
  .obj [("variables", .strings R.vars), ("matrix", R.matrix.json)]

/-- The fields of a relation. -/
def fields : Fields (List String × FlowMatrix) :=
  Prod.mk <$> .required "variables" (.list .text) <*> .required "matrix" FlowMatrix.decode

/-- A relation with a row for each variable. -/
def decode : Decoder Relation := .checked fields.record fun (vars, M) => ofMatrix vars M

end Relation

namespace Cells

/-- The fields of cells. -/
def fields : Fields Cells :=
  Cells.mk <$> .required "variables" (.list .text) <*>
    .required "cells" (.list (.list Scalar.decode))

/-- Cells. -/
def decode : Decoder Cells := fields.record

/-- The variables and the scalars. -/
def json (c : Cells) : Json :=
  .obj [("variables", .strings c.vars), ("cells", .ofList (.ofList Scalar.json) c.rows)]

end Cells

namespace Choices

/-- The boxes. -/
def json (c : Choices) : Json := .ofList (.ofList (.ofList .nat)) c.boxes

/-- Choices. -/
def decode : Decoder Choices := fun n =>
  ofBoxes <$> Decoder.list (.list (.list .byte)) n

end Choices

namespace Bound

/-- The short form. -/
def json (b : Bound) : Json := .str b.triple

/-- A bound in its short form. -/
def decode : Decoder Bound := fun n => ofTriple <$> Decoder.text n

end Bound

namespace Bounds

/-- The bound of each variable. -/
def json (bs : Bounds) : Json := .obj (bs.mapValues Bound.json)

/-- The bound of each variable. -/
def decode : Decoder Bounds := .table Bound.decode

end Bounds

end GrowthFlow
