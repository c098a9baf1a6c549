import GrowthFlow.Proofs.MatrixPowers
import GrowthFlow.Proofs.RelationAlgebra

/-!
# Composing with no change

A relation that changes nothing should leave alone whatever it is composed with. It does so as long as
nothing is unbounded. But `o` times `i` is `i`, and the identity is `o` off its diagonal: in front of a
relation it takes an unbounded flow into a variable for one from *every* variable into it, and behind a
relation it takes an unbounded flow from a variable for one into every variable.

So under each choice a column that has an `i` becomes `i` throughout, or a row (`identity_compose_value`,
`compose_identity_value`), and the identity is neutral for exactly those relations in which this has
happened already (`identity_neutral_iff`).
-/

namespace GrowthFlow

/-- A sum against a row of the identity picks out one scalar, unless there is an `i` among them. -/
theorem Scalar.sum_diagonal {zs : List String} {x : String} (hx : x ∈ zs) (f : String → Scalar) :
    sum (zs.map fun z => (if x = z then m else o) * f z) =
      if ∃ z ∈ zs, f z = i then i else f x := by
  split
  · rename_i h
    obtain ⟨z, hz, hi⟩ := h
    exact sum_eq_i_iff.mpr (List.mem_map.mpr ⟨z, hz, mul_eq_i_iff.mpr (.inr hi)⟩)
  · rename_i h
    apply eq_of_le_iff
    intro t
    rw [sum_le_iff, List.forall_mem_map]
    refine ⟨fun hle => ?_, fun hle z hz => ?_⟩
    · have hself := hle x hx
      rwa [if_pos rfl, m_mul] at hself
    · -- off the diagonal only `i` would count
      by_cases hxz : x = z
      · rw [if_pos hxz, m_mul, ← hxz]
        exact hle
      · rw [if_neg hxz, o_mul fun hi => h ⟨z, hz, hi⟩]
        exact o_le t

/-- A product with an entry of the identity is the product of the scalars: such an entry is never silent,
and a silent factor is `o` anyway. -/
theorem value_unchanged_mul {P : Delta → Prop} {p : Poly} (hp : p.Proper P) (σ : Selection)
    (x z : String) :
    (unchanged x z * p).value σ = (if x = z then .m else .o) * p.value σ := by
  rw [Poly.value_mul (proper_unchanged x z) hp, silent_unchanged, value_unchanged, Bool.false_or]
  cases hs : p.silent σ with
  | false => rw [if_neg Bool.false_ne_true]
  | true =>
      rw [Poly.value_eq_o_of_silent hs, if_pos rfl]
      split
      · rfl
      · rfl

theorem value_mul_unchanged {P : Delta → Prop} {p : Poly} (hp : p.Proper P) (σ : Selection)
    (z y : String) :
    (p * unchanged z y).value σ = (if y = z then .m else .o) * p.value σ := by
  rw [← value_unchanged_mul hp, Poly.value_mul hp (proper_unchanged z y),
    Poly.value_mul (proper_unchanged y z) hp, silent_unchanged, silent_unchanged, value_unchanged,
    value_unchanged, Bool.or_comm, Scalar.mul_comm]
  simp only [eq_comm]

namespace Relation

variable {R : Relation} {vars : List String} {σ : Selection}

/-- Under every choice, an unbounded flow into a variable comes with one from each variable. -/
def UniformColumns (R : Relation) : Prop :=
  ∀ σ y, (∃ z ∈ R.vars, R.value σ z y = .i) → ∀ x ∈ R.vars, R.value σ x y = .i

/-- Under every choice, an unbounded flow from a variable comes with one into each variable. -/
def UniformRows (R : Relation) : Prop :=
  ∀ σ x, (∃ z ∈ R.vars, R.value σ x z = .i) → ∀ y ∈ R.vars, R.value σ x y = .i

theorem mem_unionVariables_left (hsub : ∀ x ∈ vars, x ∈ R.vars) {x : String} :
    x ∈ (identity vars).unionVariables R ↔ x ∈ R.vars := by
  rw [mem_unionVariables]
  exact or_iff_right_of_imp (hsub x)

theorem mem_unionVariables_right (hsub : ∀ x ∈ vars, x ∈ R.vars) {x : String} :
    x ∈ R.unionVariables (identity vars) ↔ x ∈ R.vars := by
  rw [mem_unionVariables]
  exact or_iff_left_of_imp (hsub x)

/-- **No change, then `R`**: the scalars of `R`, where a column with an `i` is `i` throughout. A name that
`R` does not know keeps its value. -/
theorem value_identity_compose (hR : R.Normal) (hnd : vars.Nodup) {x y : String}
    (hx : x ∈ (identity vars).unionVariables R) (hy : y ∈ (identity vars).unionVariables R) :
    ((identity vars).compose R).value σ x y =
      if ∃ z ∈ R.vars, R.value σ z y = .i then .i else R.value σ x y := by
  have hsome : (∃ z ∈ (identity vars).unionVariables R, R.value σ z y = .i) ↔
      ∃ z ∈ R.vars, R.value σ z y = .i :=
    ⟨fun ⟨z, _, hz⟩ => ⟨z, (mem_of_value_eq_i hz).1, hz⟩,
      fun ⟨z, hmem, hz⟩ => ⟨z, mem_unionVariables.mpr (Or.inr hmem), hz⟩⟩
  rw [value_compose_eq_sum (proper_identity hnd) hR.proper hx hy]
  simp only [entry_identity hnd, value_unchanged_mul (hR.proper.entries _ y)]
  rw [Scalar.sum_diagonal hx fun z => (R.entry z y).value σ]
  exact if_congr hsome rfl rfl

theorem identity_compose_value (hR : R.Normal) (hnd : vars.Nodup) (hsub : ∀ x ∈ vars, x ∈ R.vars)
    {x y : String} (hx : x ∈ R.vars) (hy : y ∈ R.vars) :
    ((identity vars).compose R).value σ x y =
      if ∃ z ∈ R.vars, R.value σ z y = .i then .i else R.value σ x y :=
  value_identity_compose hR hnd ((mem_unionVariables_left hsub).mpr hx)
    ((mem_unionVariables_left hsub).mpr hy)

/-- **`R`, then no change**: the scalars of `R`, where a row with an `i` is `i` throughout. -/
theorem compose_identity_value (hR : R.Normal) (hnd : vars.Nodup) (hsub : ∀ x ∈ vars, x ∈ R.vars)
    {x y : String} (hx : x ∈ R.vars) (hy : y ∈ R.vars) :
    (R.compose (identity vars)).value σ x y =
      if ∃ z ∈ R.vars, R.value σ x z = .i then .i else R.value σ x y := by
  have hy' := (mem_unionVariables_right hsub).mpr hy
  rw [value_compose_eq_sum hR.proper (proper_identity hnd) ((mem_unionVariables_right hsub).mpr hx) hy']
  simp only [entry_identity hnd, value_mul_unchanged (hR.proper.entries x _)]
  rw [Scalar.sum_diagonal hy' fun z => (R.entry x z).value σ]
  simp only [mem_unionVariables_right hsub]
  rfl

/-- A relation over the variables of `R` is the same as `R` if its scalars are, and only then. -/
theorem same_iff_value {S : Relation} (hS : S.Normal) (hR : R.Normal)
    (hvars : ∀ x, x ∈ S.vars ↔ x ∈ R.vars) :
    S.same R = true ↔ ∀ σ, ∀ x ∈ R.vars, ∀ y ∈ R.vars, S.value σ x y = R.value σ x y := by
  refine ⟨fun h σ x _ y _ => ?_, fun h => same_of_value hS hR hvars fun σ x y => ?_⟩
  · rw [value, value, ((same_iff hS.nodup hR.nodup).mp h).2 x y]
  · by_cases hmem : x ∈ R.vars ∧ y ∈ R.vars
    · exact h σ x hmem.1 y hmem.2
    · -- neither relation knows both names, so nothing flows between them
      have hout := Decidable.not_and_iff_not_or_not.mp hmem
      rw [value_of_not_mem hout, value_of_not_mem (hout.imp (mt (hvars x).mp) (mt (hvars y).mp))]

theorem normal_identity (hnd : vars.Nodup) : (identity vars).Normal :=
  normal_of_entry hnd fun x _ y _ => by
    rw [entry_identity hnd]
    exact normal_unchanged x y

theorem mem_identity_compose (hR : R.Normal) (hnd : vars.Nodup) (hsub : ∀ x ∈ vars, x ∈ R.vars)
    (x : String) : x ∈ ((identity vars).compose R).vars ↔ x ∈ R.vars := by
  rw [vars_compose _ _ hnd hR.nodup, mem_unionVariables_left hsub]

theorem mem_compose_identity (hR : R.Normal) (hnd : vars.Nodup) (hsub : ∀ x ∈ vars, x ∈ R.vars)
    (x : String) : x ∈ (R.compose (identity vars)).vars ↔ x ∈ R.vars := by
  rw [vars_compose _ _ hR.nodup hnd, mem_unionVariables_right hsub]

theorem identity_compose_same_iff (hR : R.Normal) (hnd : vars.Nodup)
    (hsub : ∀ x ∈ vars, x ∈ R.vars) :
    ((identity vars).compose R).same R = true ↔ R.UniformColumns := by
  rw [same_iff_value ((normal_identity hnd).compose hR) hR (mem_identity_compose hR hnd hsub)]
  refine ⟨fun h σ y hex x hx => ?_, fun h σ x hx y hy => ?_⟩
  · have hy : y ∈ R.vars := hex.elim fun z hz => (mem_of_value_eq_i hz.2).2
    rw [← h σ x hx y hy, identity_compose_value hR hnd hsub hx hy, if_pos hex]
  · rw [identity_compose_value hR hnd hsub hx hy]
    split
    · rename_i hex
      exact (h σ y hex x hx).symm
    · rfl

theorem compose_identity_same_iff (hR : R.Normal) (hnd : vars.Nodup)
    (hsub : ∀ x ∈ vars, x ∈ R.vars) :
    (R.compose (identity vars)).same R = true ↔ R.UniformRows := by
  rw [same_iff_value (hR.compose (normal_identity hnd)) hR (mem_compose_identity hR hnd hsub)]
  refine ⟨fun h σ x hex y hy => ?_, fun h σ x hx y hy => ?_⟩
  · have hx : x ∈ R.vars := hex.elim fun z hz => (mem_of_value_eq_i hz.2).1
    rw [← h σ x hx y hy, compose_identity_value hR hnd hsub hx hy, if_pos hex]
  · rw [compose_identity_value hR hnd hsub hx hy]
    split
    · rename_i hex
      exact (h σ x hex y hy).symm
    · rfl

theorem Bounded.uniform (hR : R.Bounded) : R.UniformColumns ∧ R.UniformRows :=
  ⟨fun σ y hex => hex.elim fun z hz => absurd hz.2 (hR.value_ne_i σ z y),
    fun σ x hex => hex.elim fun z hz => absurd hz.2 (hR.value_ne_i σ x z)⟩

/-- **When the identity is neutral.** Composed with the identity over some of its variables, a relation keeps
its variables. Under each choice it keeps its scalars too, except that in front of it the identity fills up
each column that has an `i`, and behind it each row. So the identity is neutral in front exactly if the
columns of the relation are uniform, and behind it exactly if its rows are; without `i` it is both. -/
theorem identity_neutral_iff (hR : R.Normal) (hnd : vars.Nodup) (hsub : ∀ x ∈ vars, x ∈ R.vars) :
    ((∀ x, x ∈ ((identity vars).compose R).vars ↔ x ∈ R.vars) ∧
      (∀ x, x ∈ (R.compose (identity vars)).vars ↔ x ∈ R.vars)) ∧
    (∀ σ, ∀ x ∈ R.vars, ∀ y ∈ R.vars,
      ((identity vars).compose R).value σ x y =
          (if ∃ z ∈ R.vars, R.value σ z y = .i then .i else R.value σ x y) ∧
        (R.compose (identity vars)).value σ x y =
          (if ∃ z ∈ R.vars, R.value σ x z = .i then .i else R.value σ x y)) ∧
    (((identity vars).compose R).same R = true ↔ R.UniformColumns) ∧
    ((R.compose (identity vars)).same R = true ↔ R.UniformRows) ∧
    (R.InfinityFree →
      ((identity vars).compose R).same R = true ∧ (R.compose (identity vars)).same R = true) := by
  have hfront := identity_compose_same_iff hR hnd hsub
  have hbehind := compose_identity_same_iff hR hnd hsub
  refine ⟨⟨mem_identity_compose hR hnd hsub, mem_compose_identity hR hnd hsub⟩,
    fun σ x hx y hy => ⟨identity_compose_value hR hnd hsub hx hy,
      compose_identity_value hR hnd hsub hx hy⟩, hfront, hbehind, fun hfree => ?_⟩
  obtain ⟨hcolumns, hrows⟩ := (hfree.bounded hR).uniform
  exact ⟨hfront.mpr hcolumns, hbehind.mpr hrows⟩

/-- Both variables flow into `y` without a bound, and nothing flows into `x` that way: the identity is
neutral in front of this relation, and not behind it. -/
theorem identity_neutral_iff_full_column :
    let R : Relation := .assignment ["x", "y"] [.ofScalar .i, .ofScalar .i] "y"
    (R.Normal ∧ ["y"].Nodup ∧ ∀ x ∈ ["y"], x ∈ R.vars) ∧ R.UniformColumns ∧ ¬ R.UniformRows := by
  intro R
  have hR : R.Normal := ⟨by decide, by decide⟩
  have hsub : ∀ x ∈ ["y"], x ∈ R.vars := by decide
  obtain ⟨_, _, hfront, hbehind, _⟩ := identity_neutral_iff hR (by decide) hsub
  exact ⟨⟨hR, by decide, hsub⟩, hfront.mp (by decide), fun h => absurd (hbehind.mpr h) (by decide)⟩

/-- Only `x` flows into `y` without a bound. Whichever of its variables the identity lists, it is neutral
neither in front nor behind. -/
theorem identity_not_neutral :
    let R : Relation := .assignment ["x", "y"] [.ofScalar .i, .unit] "y"
    R.Normal ∧ ∀ vars ∈ [[], ["x"], ["y"], ["x", "y"], ["y", "x"]],
      ((identity vars).compose R).same R = false ∧ (R.compose (identity vars)).same R = false := by
  intro R
  exact ⟨⟨by decide, by decide⟩, by decide⟩

end Relation

end GrowthFlow
