import GrowthFlow.Proofs.Entries
import GrowthFlow.Proofs.SafeChoices

/-!
# Relations under a choice

Once a choice is made, every entry of a relation is a scalar. A sum of relations is then the larger of
two scalars. For a composition it is not that simple: a polynomial that has monomials, none of which
counts under the choice, is *silent*, and a product with a silent factor is `o` even if the other factor
is `i`. So composition follows the scalars only as long as nothing is unbounded (`value_compose`), and an
unbounded entry lives on exactly if it meets an entry that is not silent (`unbounded_compose_iff`).
-/

namespace GrowthFlow

theorem proper_unchanged {P : Delta → Prop} (x y : String) : (unchanged x y).Proper P := by
  unfold unchanged
  split
  · exact Poly.proper_unit
  · exact Poly.proper_zero P

theorem silent_unchanged (σ : Selection) (x y : String) : (unchanged x y).silent σ = false := by
  unfold unchanged
  split
  · exact Poly.silent_unit σ
  · exact Poly.silent_zero σ

theorem value_unchanged (σ : Selection) (x y : String) :
    (unchanged x y).value σ = if x = y then .m else .o := by
  unfold unchanged
  split
  · exact Poly.value_unit σ
  · exact Poly.value_zero σ

theorem value_unchanged_ne_i (σ : Selection) (x y : String) : (unchanged x y).value σ ≠ .i := by
  rw [value_unchanged]
  split
  · decide
  · decide

namespace Relation

/-- The scalar between two names under a choice. -/
def value (R : Relation) (σ : Selection) (x y : String) : Scalar := (R.entry x y).value σ

/-- What holds of every relation of a walk: a variable has one place, and the entries are proper, with
demands among those that `P` allows. -/
structure Proper (P : Delta → Prop) (R : Relation) : Prop where
  nodup : R.vars.Nodup
  entries : ∀ x y, (R.entry x y).Proper P

/-- Some flow is unbounded under a choice. -/
def Unbounded (R : Relation) (σ : Selection) : Prop := ∃ x y, R.value σ x y = .i

variable {P : Delta → Prop} {R S : Relation} {σ : Selection}

theorem value_of_not_mem {x y : String} (h : x ∉ R.vars ∨ y ∉ R.vars) (σ : Selection) :
    R.value σ x y = if x = y then .m else .o := by
  rw [value, entry_of_not_mem h, value_unchanged]

/-- An unbounded flow is one between variables of the relation. -/
theorem mem_of_value_eq_i {x y : String} (h : R.value σ x y = .i) : x ∈ R.vars ∧ y ∈ R.vars := by
  apply Classical.byContradiction
  intro hnot
  rw [value, entry_of_not_mem (Decidable.not_and_iff_not_or_not.mp hnot)] at h
  exact value_unchanged_ne_i σ x y h

theorem proper_of_mem (hnd : R.vars.Nodup)
    (h : ∀ x ∈ R.vars, ∀ y ∈ R.vars, (R.entry x y).Proper P) : R.Proper P := by
  refine ⟨hnd, fun x y => ?_⟩
  by_cases hmem : x ∈ R.vars ∧ y ∈ R.vars
  · exact h x hmem.1 y hmem.2
  · rw [entry_of_not_mem (Decidable.not_and_iff_not_or_not.mp hmem)]
    exact proper_unchanged x y

theorem Proper.mono {Q : Delta → Prop} (h : R.Proper P) (hPQ : ∀ d, P d → Q d) : R.Proper Q :=
  ⟨h.nodup, fun x y => (h.entries x y).mono hPQ⟩

/-! ## Relations without a choice -/

theorem proper_identity {vars : List String} (hnd : vars.Nodup) : (identity vars).Proper P := by
  refine ⟨hnd, fun x y => ?_⟩
  rw [entry_identity hnd]
  exact proper_unchanged x y

theorem value_identity {vars : List String} (hnd : vars.Nodup) (σ : Selection) (x y : String) :
    (identity vars).value σ x y = if x = y then .m else .o := by
  rw [value, entry_identity hnd, value_unchanged]

theorem not_unbounded_identity {vars : List String} (hnd : vars.Nodup) (σ : Selection) :
    ¬ (identity vars).Unbounded σ := by
  rintro ⟨x, y, h⟩
  rw [value, entry_identity hnd] at h
  exact value_unchanged_ne_i σ x y h

theorem entry_zero {vars : List String} (hnd : vars.Nodup) {x y : String} (hx : x ∈ vars)
    (hy : y ∈ vars) : (zero vars).entry x y = .zero := by
  obtain ⟨i, _, hi⟩ := exists_place hx
  obtain ⟨j, _, hj⟩ := exists_place hy
  exact entry_ofFn hnd hi hj _

theorem proper_zero {vars : List String} (hnd : vars.Nodup) : (zero vars).Proper P := by
  refine proper_of_mem hnd fun x hx y hy => ?_
  rw [entry_zero hnd hx hy]
  exact Poly.proper_zero P

theorem not_unbounded_zero {vars : List String} (hnd : vars.Nodup) (σ : Selection) :
    ¬ (zero vars).Unbounded σ := by
  rintro ⟨x, y, h⟩
  obtain ⟨hx, hy⟩ := mem_of_value_eq_i h
  rw [value, entry_zero hnd hx hy, Poly.value_zero] at h
  cases h

/-- An assignment by name: a column for its target, and no change elsewhere. -/
theorem entry_assignment {vars : List String} (hnd : vars.Nodup) {x y t : String} (hx : x ∈ vars)
    (hy : y ∈ vars) (f : String → Poly) :
    (assignment vars (vars.map f) t).entry x y = if y = t then f x else unchanged x y := by
  obtain ⟨i, hi', hi⟩ := exists_place hx
  obtain ⟨j, _, hj⟩ := exists_place hy
  have hcolumn : (vars.map f)[i]?.getD .zero = f x := by
    rw [List.getElem?_map, hi]
    rfl
  have htarget : vars.idxOf? t = some j ↔ y = t := by
    rw [idxOf?_iff hnd, hj, Option.some.injEq]
  unfold assignment
  rw [entry_ofFn hnd hi hj, List.length_map, hcolumn]
  simp only [htarget, hi', and_true, FlowMatrix.place_eq_iff hnd hi hj]
  rfl

theorem proper_assignment {vars : List String} (hnd : vars.Nodup) {t : String} {f : String → Poly}
    (hf : ∀ x ∈ vars, (f x).Proper P) : (assignment vars (vars.map f) t).Proper P := by
  refine proper_of_mem hnd fun x hx y hy => ?_
  rw [entry_assignment hnd hx hy]
  split
  · exact hf x hx
  · exact proper_unchanged x y

theorem not_unbounded_assignment {vars : List String} (hnd : vars.Nodup) {t : String}
    {f : String → Poly} (hf : ∀ x ∈ vars, (f x).value σ ≠ .i) :
    ¬ (assignment vars (vars.map f) t).Unbounded σ := by
  rintro ⟨x, y, h⟩
  obtain ⟨hx, hy⟩ := mem_of_value_eq_i h
  rw [value, entry_assignment hnd hx hy] at h
  split at h
  · exact hf x hx h
  · exact value_unchanged_ne_i σ x y h

/-! ## Sums -/

theorem Proper.sum (hR : R.Proper P) (hS : S.Proper P) : (R.sum S).Proper P := by
  have hvars := vars_sum R S hR.nodup hS.nodup
  refine proper_of_mem (hvars ▸ nodup_unionVariables hR.nodup hS.nodup) fun x hx y hy => ?_
  rw [hvars] at hx hy
  rw [entry_sum hR.nodup hS.nodup hx hy]
  exact (hR.entries x y).add (hS.entries x y)

/-- The sum of two relations has the larger of their scalars. -/
theorem value_sum (hR : R.Proper P) (hS : S.Proper P) {x y : String}
    (hx : x ∈ R.unionVariables S) (hy : y ∈ R.unionVariables S) :
    (R.sum S).value σ x y = R.value σ x y + S.value σ x y := by
  rw [value, entry_sum hR.nodup hS.nodup hx hy, Poly.value_add (hR.entries x y) (hS.entries x y)]
  rfl

theorem unbounded_sum_iff (hR : R.Proper P) (hS : S.Proper P) :
    (R.sum S).Unbounded σ ↔ R.Unbounded σ ∨ S.Unbounded σ := by
  have hvars := vars_sum R S hR.nodup hS.nodup
  constructor
  · rintro ⟨x, y, h⟩
    obtain ⟨hx, hy⟩ := mem_of_value_eq_i h
    rw [hvars] at hx hy
    rw [value_sum hR hS hx hy, Scalar.add_eq_i_iff] at h
    exact h.imp (fun h => ⟨x, y, h⟩) fun h => ⟨x, y, h⟩
  · rintro (⟨x, y, h⟩ | ⟨x, y, h⟩)
    · obtain ⟨hx, hy⟩ := mem_of_value_eq_i h
      refine ⟨x, y, ?_⟩
      rw [value_sum hR hS (mem_unionVariables.mpr (.inl hx)) (mem_unionVariables.mpr (.inl hy))]
      exact Scalar.add_eq_i_iff.mpr (.inl h)
    · obtain ⟨hx, hy⟩ := mem_of_value_eq_i h
      refine ⟨x, y, ?_⟩
      rw [value_sum hR hS (mem_unionVariables.mpr (.inr hx)) (mem_unionVariables.mpr (.inr hy))]
      exact Scalar.add_eq_i_iff.mpr (.inr h)

/-! ## Compositions -/

theorem Proper.compose (hR : R.Proper P) (hS : S.Proper P) : (R.compose S).Proper P := by
  have hvars := vars_compose R S hR.nodup hS.nodup
  refine proper_of_mem (hvars ▸ nodup_unionVariables hR.nodup hS.nodup) fun x hx y hy => ?_
  rw [hvars] at hx hy
  rw [entry_compose hR.nodup hS.nodup hx hy]
  exact Poly.proper_sumOver fun z _ => (hR.entries x z).mul (hS.entries z y)

/-- A scalar of a composition is the largest that flows through one of the variables. -/
theorem value_compose_eq_sum (hR : R.Proper P) (hS : S.Proper P) {x y : String}
    (hx : x ∈ R.unionVariables S) (hy : y ∈ R.unionVariables S) :
    (R.compose S).value σ x y =
      .sum ((R.unionVariables S).map fun z => (R.entry x z * S.entry z y).value σ) := by
  rw [value, entry_compose hR.nodup hS.nodup hx hy,
    Poly.value_sumOver fun z _ => (hR.entries x z).mul (hS.entries z y)]

/-- As long as nothing is unbounded, a composition is the product of the scalars. -/
theorem value_compose (hR : R.Proper P) (hS : S.Proper P) (hRb : ¬ R.Unbounded σ)
    (hSb : ¬ S.Unbounded σ) {x y : String} (hx : x ∈ R.unionVariables S)
    (hy : y ∈ R.unionVariables S) :
    (R.compose S).value σ x y =
      .sum ((R.unionVariables S).map fun z => R.value σ x z * S.value σ z y) := by
  rw [value_compose_eq_sum hR hS hx hy]
  congr 1
  refine List.map_congr_left fun z _ => ?_
  exact Poly.value_mul_of_ne_i (hR.entries x z) (hS.entries z y) (fun h => hRb ⟨x, z, h⟩)
    fun h => hSb ⟨z, y, h⟩

/-- An unbounded flow of `R` or of `S` goes through a variable of both and meets an entry that counts
there. -/
def Carries (σ : Selection) (R S : Relation) : Prop :=
  ∃ x ∈ R.unionVariables S, ∃ y ∈ R.unionVariables S, ∃ z ∈ R.unionVariables S,
    (R.value σ x z = .i ∧ (S.entry z y).silent σ = false) ∨
      ((R.entry x z).silent σ = false ∧ S.value σ z y = .i)

/-- **What becomes of an unbounded flow**: a composition is unbounded exactly if one of its parts is, and
the unbounded entry meets one that is not silent. -/
theorem unbounded_compose_iff (hR : R.Proper P) (hS : S.Proper P) :
    (R.compose S).Unbounded σ ↔ Carries σ R S := by
  have hvars := vars_compose R S hR.nodup hS.nodup
  have hentry : ∀ x ∈ R.unionVariables S, ∀ y ∈ R.unionVariables S,
      ((R.compose S).value σ x y = .i ↔ ∃ z ∈ R.unionVariables S,
        (R.value σ x z = .i ∧ (S.entry z y).silent σ = false) ∨
          ((R.entry x z).silent σ = false ∧ S.value σ z y = .i)) := by
    intro x hx y hy
    rw [value_compose_eq_sum hR hS hx hy, Scalar.sum_eq_i_iff, List.mem_map]
    refine exists_congr fun z => and_congr_right fun _ => ?_
    exact Poly.value_mul_eq_i_iff (hR.entries x z) (hS.entries z y)
  constructor
  · rintro ⟨x, y, h⟩
    obtain ⟨hx, hy⟩ := mem_of_value_eq_i h
    rw [hvars] at hx hy
    exact ⟨x, hx, y, hy, (hentry x hx y hy).mp h⟩
  · rintro ⟨x, hx, y, hy, h⟩
    exact ⟨x, y, (hentry x hx y hy).mpr h⟩

theorem unbounded_of_carries (h : Carries σ R S) : R.Unbounded σ ∨ S.Unbounded σ := by
  obtain ⟨x, _, y, _, z, _, ⟨h, _⟩ | ⟨_, h⟩⟩ := h
  · exact .inl ⟨x, z, h⟩
  · exact .inr ⟨z, y, h⟩

/-- A part in which nothing is silent carries every unbounded flow of the other one. -/
theorem carries_identity {vars : List String} (hnd : vars.Nodup) (h : R.Unbounded σ) :
    Carries σ (identity vars) R := by
  obtain ⟨x, y, h⟩ := h
  obtain ⟨hx, hy⟩ := mem_of_value_eq_i h
  have hmem : ∀ {z}, z ∈ R.vars → z ∈ (identity vars).unionVariables R :=
    fun hz => mem_unionVariables.mpr (.inr hz)
  refine ⟨x, hmem hx, y, hmem hy, x, hmem hx, .inr ⟨?_, h⟩⟩
  rw [entry_identity hnd]
  exact silent_unchanged σ x x

/-- Leading variables that change nothing keep the verdict. -/
theorem unbounded_identity_compose_iff {vars : List String} (hnd : vars.Nodup) (hR : R.Proper P) :
    ((identity vars).compose R).Unbounded σ ↔ R.Unbounded σ := by
  rw [unbounded_compose_iff (proper_identity hnd) hR]
  constructor
  · intro h
    exact (unbounded_of_carries h).resolve_left (not_unbounded_identity hnd σ)
  · exact carries_identity hnd

/-! ## The choices that are left -/

theorem mem_matrix_entries (hnd : R.vars.Nodup) {p : Poly} :
    p ∈ R.matrix.entries ↔ ∃ x ∈ R.vars, ∃ y ∈ R.vars, R.entry x y = p := by
  rw [FlowMatrix.mem_entries, R.size_eq]
  constructor
  · rintro ⟨i, j, hi, hj, rfl⟩
    refine ⟨R.vars[i], List.getElem_mem hi, R.vars[j], List.getElem_mem hj, ?_⟩
    exact entry_of_places hnd (List.getElem?_eq_getElem hi) (List.getElem?_eq_getElem hj)
  · rintro ⟨x, hx, y, hy, rfl⟩
    obtain ⟨i, hi', hi⟩ := exists_place hx
    obtain ⟨j, hj', hj⟩ := exists_place hy
    exact ⟨i, j, hi', hj', (entry_of_places hnd hi hj).symm⟩

/-- The demands under which some entry is unbounded. -/
def witnesses (R : Relation) : List Witness := R.matrix.entries.flatMap (·.infinities [])

theorem mem_witnesses (hnd : R.vars.Nodup) {w : Witness} :
    w ∈ R.witnesses ↔ ∃ x ∈ R.vars, ∃ y ∈ R.vars, w ∈ (R.entry x y).infinities [] := by
  unfold witnesses
  rw [List.mem_flatMap]
  constructor
  · rintro ⟨p, hp, hw⟩
    obtain ⟨x, hx, y, hy, rfl⟩ := (mem_matrix_entries hnd).mp hp
    exact ⟨x, hx, y, hy, hw⟩
  · rintro ⟨x, hx, y, hy, hw⟩
    exact ⟨R.entry x y, (mem_matrix_entries hnd).mpr ⟨x, hx, y, hy, rfl⟩, hw⟩

theorem covers_witnesses_iff (hnd : R.vars.Nodup) {v : List Nat} :
    Covers R.witnesses v ↔ R.Unbounded (.ofVector v) := by
  constructor
  · rintro ⟨w, hw, hsat⟩
    obtain ⟨x, _, y, _, hw⟩ := (mem_witnesses hnd).mp hw
    exact ⟨x, y, Poly.value_eq_i_iff.mpr ⟨w, hw, hsat⟩⟩
  · rintro ⟨x, y, h⟩
    obtain ⟨hx, hy⟩ := mem_of_value_eq_i h
    obtain ⟨w, hw, hsat⟩ := Poly.value_eq_i_iff.mp h
    exact ⟨w, (mem_witnesses hnd).mpr ⟨x, hx, y, hy, hw⟩, hsat⟩

theorem fits_witnesses {n : Nat} (hR : R.Proper fun d => d.index < n) : Fits n R.witnesses := by
  intro w hw
  obtain ⟨x, _, y, _, hw⟩ := (mem_witnesses hR.nodup).mp hw
  obtain ⟨m, hm, _, rfl⟩ := Poly.mem_infinities.mp hw
  have hformed := (hR.entries x y m hm).2
  exact ⟨hformed.sorted, hformed.demands⟩

/-- **The choices of a relation**: they are found, a choice vector is allowed exactly if it leaves no flow
unbounded, and none is left exactly if each of them leaves one. -/
theorem choices_spec {domain : List Nat} {n : Nat} (hd : domain ≠ [])
    (hR : R.Proper fun d => d.index < n) :
    ∃ ch, R.choices domain n [] = .ok ch ∧
      (∀ v, IsVector domain n v → (ch.allows v = true ↔ ¬ R.Unbounded (.ofVector v))) ∧
      (ch.isInfinite = true ↔ ∀ v, IsVector domain n v → R.Unbounded (.ofVector v)) := by
  have hfits := fits_witnesses hR
  obtain ⟨ch, hch, hexact⟩ := Choices.exact_of_fits hd hfits
  refine ⟨ch, hch, ?_, ?_⟩
  · intro v hv
    rw [hexact.allows_vector hd hfits hv, covers_witnesses_iff hR.nodup]
  · rw [hexact.isInfinite_iff hd hfits]
    constructor
    · intro h v hv
      refine Classical.byContradiction fun hnot => h v ⟨hv, ?_⟩
      rw [covers_witnesses_iff hR.nodup]
      exact hnot
    · intro h v hsafe
      exact hsafe.uncovered ((covers_witnesses_iff hR.nodup).mpr (h v hsafe.vector))

end Relation

end GrowthFlow
