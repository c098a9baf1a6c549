import GrowthFlow.Proofs.NormalForm

/-!
# Order does not matter

A product is computed row by row. Each row is brought into normal form on its own, so monomials are lost
before the rows ever meet, and the rows are merged in the order of the right factor. None of this shows in
the result: it is the normal form of all products of a monomial of one side with a monomial of the other,
so it is the same from both sides. The same holds of a sum over a list, which depends on nothing but the
members.

Both follow from the values, since a normal form is known by its values under partial choices.
-/

namespace GrowthFlow

namespace Poly

variable {p q : Poly}

/-! ## Products -/

theorem Normal.mul_comm (hp : p.Normal) (hq : q.Normal) : p * q = q * p := by
  refine (hp.mul hq).ext (hq.mul hp) fun σ => ?_
  rw [value_mul hp.proper hq.proper, value_mul hq.proper hp.proper, Bool.or_comm, Scalar.mul_comm]

/-- A sum depends on the members of the list alone, not on their order or number. -/
theorem sumOver_congr {α : Type} {f g : α → Poly} {zs ws : List α} (hmem : ∀ z, z ∈ zs ↔ z ∈ ws)
    (hf : ∀ z ∈ zs, (f z).Normal) (hfg : ∀ z ∈ zs, f z = g z) : sumOver zs f = sumOver ws g := by
  have hg : ∀ z ∈ ws, (g z).Normal := by
    intro z hz
    have hz := (hmem z).mpr hz
    exact hfg z hz ▸ hf z hz
  refine (normal_sumOver hf).ext (normal_sumOver hg) fun σ => ?_
  rw [value_sumOver (fun z hz => (hf z hz).proper), value_sumOver (fun z hz => (hg z hz).proper)]
  apply Scalar.eq_of_le_iff
  intro t
  rw [Scalar.sum_le_iff, Scalar.sum_le_iff, List.forall_mem_map, List.forall_mem_map]
  refine forall_congr' fun z => ?_
  constructor
  · intro h hz
    have hz := (hmem z).mpr hz
    exact hfg z hz ▸ h hz
  · intro h hz
    exact hfg z hz ▸ h ((hmem z).mp hz)

end Poly

end GrowthFlow
