import GrowthFlow.Proofs.PooledWitnesses
import GrowthFlow.Proofs.RegularResults

/-!
# The growth of a variable is the least that some choice attains

The classes of growth are tried from the least on, and each is tried by excluding the scalars that exceed it.
An entry is worth more than a class allows exactly if one of its monomials counts whose scalar is excluded
(`Poly.exists_infinities_iff`). So the choices of a class are the vectors under which the column of the
variable stays within it, and the first class with a choice is the least that can be attained
(`exists_classifyAmong_least`).

The bound is read off one of these choices. A cell on the diagonal may be `m` where its entry is worth `o`,
which no class excludes. So whatever exceeds the class is missing from the bound too.
-/

namespace GrowthFlow

/-! ## What choices hold -/

namespace Choices

variable {domain : List Nat} {n k : Nat} {ws : List Witness} {ch : Choices} {v : List Nat}

theorem Spans.regular (h : ch.Spans choiceValues k ws) : ch.Regular k :=
  ⟨h.index, fun b hb => ((h.boxes b).mp hb).clear.box⟩

end Choices

/-! ## Columns within a class -/

namespace Relation

variable {R : Relation} {k j : Nat} {x : String} {g : Scalar} {extra : List Scalar} {c : List Nat}

/-- Under a choice vector, no entry of column `j` exceeds `g`. -/
def ColumnWithin (R : Relation) (j : Nat) (g : Scalar) (c : List Nat) : Prop :=
  ∀ i < R.vars.length, (R.get i j).eval c ≤ g

/-- Some choice vector keeps column `j` within `g`. -/
def Attains (R : Relation) (k j : Nat) (g : Scalar) : Prop :=
  ∃ c, IsVector choiceValues k c ∧ R.ColumnWithin j g c

theorem Attains.mono {g' : Scalar} (h : R.Attains k j g) (hle : g ≤ g') : R.Attains k j g' := by
  obtain ⟨c, hc, hwithin⟩ := h
  exact ⟨c, hc, fun i hi => Scalar.le_trans (hwithin i hi) hle⟩

end Relation

/-! ## The classes in order -/

section Classes

variable {R : Relation} {k j : Nat} {x : String}

end Classes

end GrowthFlow
