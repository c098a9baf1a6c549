import GrowthFlow.Proofs.Convergence

/-!
# The laws of the closure

The closure has the identity and the matrix below it, repeating it once more adds nothing, and it is its own
closure. All of this holds with `i` among the entries, although products with `i` are neither monotone nor
associative.

What makes up for that are two facts about the closure under a choice. A column that has an `i` has it in
every row (`closure_eq_i`), so it does not matter through which row an `i` is lost. And a flow behind a flow
is a flow of the closure (`closure_mul_le`): a row of the closure, continued by whatever another row was
built from, stays within the closure. Both follow a row from its start, by `reach_induction`.

One case is left, an `i` behind which the closure has zero, which keeps the `i`. Zero in the closure means
zero in the matrix, under all choices, and that would have kept the `i` too (`closure_eq_i_of_zero`).

That the closure is its own closure, and that it is the least matrix with its laws, is one argument
(`reach_le_of_closed`). It needs that columns with an `i` are full of it, which the closure sees to and a
matrix without `i` has for nothing.
-/

namespace GrowthFlow

namespace Poly

theorem Normal.isZero_of_value {p : Poly} (hp : p.Normal) (h : ∀ σ, p.value σ = .o) :
    p.isZero = true := by
  have hzero : p = .zero := hp.ext normal_zero fun σ => (h σ).trans (value_zero σ).symm
  rw [hzero]
  rfl

/-- Worth nothing without being silent: only zero is. -/
theorem isZero_iff_quiet {p : Poly} {σ : Selection} (h : p.value σ = .o) :
    p.isZero = true ↔ p.silent σ = false := by
  rw [silent, h]
  simp

end Poly

namespace FlowMatrix

variable {M N : FlowMatrix} {σ : Selection} {i j z : Nat}

theorem Normal.closure (hM : M.Normal) : M.closure.Normal := by
  rw [closure_eq hM]
  exact hM.powerSum _

theorem size_closure (hM : M.Normal) : M.closure.size = M.size := by
  rw [closure_eq hM, size_powerSum]

theorem closure_value (hM : M.Normal) (σ : Selection) (i j : Nat) :
    M.closure.value σ i j = M.reach σ (2 * M.size) i j := by
  rw [closure_eq hM]
  rfl

/-- What is made of a scalar of the first factor is in the product. -/
theorem mul_le_mul_value (hM : M.Normal) (hN : N.Normal) (hsize : N.size = M.size) (hi : i < M.size)
    (hj : j < M.size) (hz : z < M.size) (hne : M.value σ i z ≠ .o)
    (hquiet : (N.get z j).silent σ = false) :
    M.value σ i z * N.value σ z j ≤ (M * N).value σ i j := by
  have hcarry := Poly.carry_le_value_mul (σ := σ) (hM.get hi hz).proper
    (hN.get (hsize ▸ hz) (hsize ▸ hj)).proper
  rw [show (M.get i z).value σ = M.value σ i z from rfl, Poly.carry_of_ne_o hne hquiet] at hcarry
  rw [value_mul hM hN hsize hi hj]
  exact Scalar.le_trans hcarry (Scalar.le_sum (List.mem_map.mpr ⟨z, List.mem_range.mpr hz, rfl⟩))

section Closed

variable (hM : M.Normal) (hi : i < M.size) (hj : j < M.size) (hz : z < M.size)

include hM hi

theorem m_le_closure : .m ≤ M.closure.value σ i i := by
  rw [closure_value hM]
  exact Scalar.le_trans (m_le_reach_zero hi) (reach_mono hM hi hi (Nat.zero_le _))

include hj

theorem reach_le_closure (k : Nat) : M.reach σ k i j ≤ M.closure.value σ i j := by
  rw [closure_value hM]
  exact Scalar.le_trans (le_reach_double hM hi hj) (reach_mono hM hi hj (Nat.sub_le _ 1))

theorem value_le_closure : M.value σ i j ≤ M.closure.value σ i j :=
  Scalar.le_trans (value_le_reach_one hM hi hj) (reach_le_closure hM hi hj 1)

include hz

/-- The closure has what an entry makes of it. -/
theorem carry_le_closure :
    (M.get z j).carry σ (M.closure.value σ i z) ≤ M.closure.value σ i j := by
  by_cases ho : (M.get z j).carry σ (M.closure.value σ i z) = .o
  · rw [ho]
    exact Scalar.o_le _
  · refine Scalar.le_trans ?_ (reach_le_closure hM hi hj (2 * M.size + 1))
    rw [le_reach_succ_iff hM hi hj ho]
    refine .inr ⟨z, hz, ?_⟩
    rw [closure_value hM]
    exact Scalar.le_refl _

theorem closure_eq_i_of_value (h : M.value σ z j = .i) : M.closure.value σ i j = .i := by
  have hle := reach_le_closure (σ := σ) hM hi hj 1
  rw [reach_one_eq_i hM hi hj hz h] at hle
  exact Scalar.i_le_iff.mp hle

/-- An `i` that an entry of the matrix does not lose is in the closure. -/
theorem closure_eq_i_of_quiet (h : M.closure.value σ i z = .i)
    (hquiet : (M.get z j).silent σ = false) : M.closure.value σ i j = .i := by
  have hcarry := carry_le_closure (σ := σ) hM hi hj hz
  rw [h, Poly.carry_of_ne_o (by decide) hquiet, Scalar.mul_eq_i_iff.mpr (.inl rfl)] at hcarry
  exact Scalar.i_le_iff.mp hcarry

/-- **A column that has an `i` has it in every row.** -/
theorem closure_eq_i (h : M.closure.value σ z j = .i) : M.closure.value σ i j = .i := by
  have hrow : ∀ k y t, y < M.size → t ≠ .o → t ≤ M.reach σ k z y → t = .i →
      M.closure.value σ i y = .i := by
    refine reach_induction hM hz (C := fun y t => t = .i → M.closure.value σ i y = .i) ?_ ?_ ?_
    · intro t _ hm hti
      rw [hti] at hm
      exact absurd hm (by decide)
    · intro w y t hw hy hcol _
      exact closure_eq_i_of_value hM hi hy hw hcol
    · intro w y a t hw hy ih _ hquiet _ hle hti
      rw [hti, Scalar.i_le_iff, Scalar.mul_eq_i_iff] at hle
      rcases hle with ha | hentry
      · exact closure_eq_i_of_quiet hM hi hy hw (ih ha) hquiet
      · exact closure_eq_i_of_value hM hi hy hw hentry
  rw [closure_value hM] at h
  exact hrow _ j .i hj (by decide) (Scalar.i_le_iff.mpr h) rfl

/-- **A flow behind a flow is a flow of the closure.** -/
theorem closure_mul_le (hne : M.closure.value σ i z ≠ .o) {t : Scalar} (ht : t ≠ .o)
    (h : t ≤ M.closure.value σ z j) : M.closure.value σ i z * t ≤ M.closure.value σ i j := by
  rw [closure_value hM] at h
  -- The row of `z`, put behind what flows from `i` to `z`.
  refine reach_induction hM hz (C := fun y t => M.closure.value σ i z * t ≤ M.closure.value σ i y)
    ?_ ?_ ?_ _ j t hj ht h
  · intro t _ hm
    have hle := Scalar.mul_le_mul (Scalar.le_refl (M.closure.value σ i z)) hm
    rwa [Scalar.mul_m] at hle
  · intro w y t hw hy hcol
    rw [closure_eq_i_of_value hM hi hy hw hcol]
    exact Scalar.le_i _
  · intro w y a t hw hy ih ha hquiet _ hle
    have hnext : M.closure.value σ i w ≠ .o := by
      refine Scalar.ne_o_of_le ?_ ih
      rw [Ne, Scalar.mul_eq_o_iff]
      rintro (⟨ho, _⟩ | ⟨ho, _⟩)
      · exact hne ho
      · exact ha ho
    have hcarry := carry_le_closure (σ := σ) hM hi hy hw
    rw [Poly.carry_of_ne_o hnext hquiet] at hcarry
    calc M.closure.value σ i z * t
        ≤ M.closure.value σ i z * (a * M.value σ w y) := Scalar.mul_le_mul (Scalar.le_refl _) hle
      _ = M.closure.value σ i z * a * M.value σ w y := (Scalar.mul_assoc _ _ _).symm
      _ ≤ M.closure.value σ i w * M.value σ w y := Scalar.mul_le_mul ih (Scalar.le_refl _)
      _ ≤ M.closure.value σ i y := hcarry

/-- An `i` before a zero of the closure is in the closure. -/
theorem closure_eq_i_of_zero (h : M.closure.value σ i z = .i)
    (hzero : (M.closure.get z j).isZero = true) : M.closure.value σ i j = .i := by
  have hentry : (M.get z j).isZero = true := by
    refine (hM.get hz hj).isZero_of_value fun τ => ?_
    have hle := value_le_closure (σ := τ) hM hz hj
    rw [show M.closure.value τ z j = .o from Poly.value_eq_o_of_isZero hzero τ] at hle
    exact Scalar.le_antisymm hle (Scalar.o_le _)
  have hquiet := (Poly.isZero_iff_quiet (Poly.value_eq_o_of_isZero hentry σ)).mp hentry
  exact closure_eq_i_of_quiet hM hi hj hz h hquiet

/-- **No two flows of the closure make more than the closure has.** -/
theorem closure_term_le :
    (M.closure.get i z * M.closure.get z j).value σ ≤ M.closure.value σ i j := by
  have hF : ∀ {x y : Nat}, x < M.size → y < M.size → (M.closure.get x y).Proper fun _ => True := by
    intro x y hx hy
    rw [← size_closure hM] at hx hy
    exact (hM.closure.get hx hy).proper
  by_cases hcol : M.closure.value σ z j = .i
  · rw [closure_eq_i hM hi hj hz hcol]
    exact Scalar.le_i _
  · rw [Poly.value_mul_eq_carry (hF hi hz) (hF hz hj) (.inr hcol)]
    by_cases ho : (M.closure.get z j).carry σ (M.closure.value σ i z) = .o
    · exact Scalar.le_trans (ho ▸ Scalar.le_refl _) (Scalar.o_le _)
    · obtain ⟨hne, hquiet, hle⟩ := (Poly.le_carry_iff ho).mp (Scalar.le_refl _)
      refine Scalar.le_trans hle ?_
      by_cases hb : M.closure.value σ z j = .o
      · -- Not silent and worth nothing is zero, and behind anything but `i` it makes nothing.
        have hzero := (Poly.isZero_iff_quiet hb).mpr hquiet
        by_cases hi' : M.closure.value σ i z = .i
        · rw [closure_eq_i_of_zero hM hi hj hz hi' hzero]
          exact Scalar.le_i _
        · rw [show (M.closure.get z j).value σ = .o from hb, Scalar.mul_o hi']
          exact Scalar.o_le _
      · exact closure_mul_le hM hi hj hz hne hb (Scalar.le_refl _)

end Closed

/-! ## The laws -/

theorem closure_add_identity (hM : M.Normal) : M.closure + identity M.size = M.closure := by
  have hsize := size_closure hM
  rw [add_eq_left_iff hM.closure (normal_identity _) (by rw [size_identity, hsize])]
  intro σ i j hi hj
  rw [hsize] at hi hj
  exact reach_le_closure hM hi hj 0

theorem closure_add_self (hM : M.Normal) : M.closure + M = M.closure := by
  have hsize := size_closure hM
  rw [add_eq_left_iff hM.closure hM hsize.symm]
  intro σ i j hi hj
  rw [hsize] at hi hj
  exact value_le_closure hM hi hj

theorem closure_add_mul (hM : M.Normal) : M.closure + M.closure * M = M.closure := by
  have hF := hM.closure
  have hsize := size_closure hM
  rw [add_eq_left_iff hF (hF.mul hM hsize.symm) (size_mul _ _)]
  intro σ i j hi hj
  rw [value_mul hF hM hsize.symm hi hj, Scalar.sum_le_iff, List.forall_mem_map, hsize]
  intro z hz
  rw [List.mem_range] at hz
  have hFz := (hF.get hi (hsize.symm ▸ hz)).proper
  rw [hsize] at hi hj
  by_cases hcol : M.value σ z j = .i
  · rw [closure_eq_i_of_value hM hi hj hz hcol]
    exact Scalar.le_i _
  · rw [Poly.value_mul_eq_carry hFz (hM.get hz hj).proper (.inr hcol)]
    exact carry_le_closure hM hi hj hz

theorem closure_mul_closure (hM : M.Normal) : M.closure * M.closure = M.closure := by
  have hF := hM.closure
  have hsize := size_closure hM
  refine ext_value (hF.mul hF rfl) hF (size_mul _ _) fun σ i j hi hj => ?_
  rw [size_mul] at hi hj
  have hi' : i < M.size := hsize ▸ hi
  have hj' : j < M.size := hsize ▸ hj
  apply Scalar.le_antisymm
  · rw [value_mul hF hF rfl hi hj, Scalar.sum_le_iff, List.forall_mem_map]
    intro z hz
    rw [List.mem_range, hsize] at hz
    exact closure_term_le hM hi' hj' hz
  · by_cases ho : M.closure.value σ i j = .o
    · rw [ho]
      exact Scalar.o_le _
    · -- Stay at `i` first.
      have hstay := m_le_closure (σ := σ) hM hi'
      have hle := Scalar.mul_le_mul hstay (Scalar.le_refl (M.closure.value σ i j))
      rw [Scalar.m_mul] at hle
      exact Scalar.le_trans hle (mul_le_mul_value hF hF rfl hi hj hi
        (Scalar.ne_o_of_le (by decide) hstay) (Poly.silent_eq_false ho))

/-- **What a repetition does not leave bounds every repetition.** `X` has something at the start of its row,
a repetition of `M` stays within it, and where `M` has an `i` in a column, so has the row. -/
theorem reach_le_of_closed {X : FlowMatrix} (hM : M.Normal) (hX : X.Normal) (hsize : X.size = M.size)
    (hi : i < M.size) (hstart : .m ≤ X.value σ i i)
    (hcolumn : ∀ z y, z < M.size → y < M.size → M.value σ z y = .i → X.value σ i y = .i)
    (hmul : ∀ y, y < M.size → (X * M).value σ i y ≤ X.value σ i y) (hj : j < M.size) (k : Nat) :
    M.reach σ k i j ≤ X.value σ i j := by
  by_cases ho : M.reach σ k i j = .o
  · rw [ho]
    exact Scalar.o_le _
  · refine reach_induction hM hi (C := fun y t => t ≤ X.value σ i y) ?_ ?_ ?_ k j _ hj ho
      (Scalar.le_refl _)
    · intro t _ hm
      exact Scalar.le_trans hm hstart
    · intro z y t hz hy hcol
      rw [hcolumn z y hz hy hcol]
      exact Scalar.le_i t
    · intro z y a t hz hy ih ha hquiet _ hle
      have hbound := hmul y hy
      rw [← hsize] at hi hz hy
      calc t
          ≤ a * M.value σ z y := hle
        _ ≤ X.value σ i z * M.value σ z y := Scalar.mul_le_mul ih (Scalar.le_refl _)
        _ ≤ (X * M).value σ i y :=
            mul_le_mul_value hX hM hsize.symm hi hy hz (Scalar.ne_o_of_le ha ih) hquiet
        _ ≤ X.value σ i y := hbound

theorem closure_closure (hM : M.Normal) : M.closure.closure = M.closure := by
  have hF := hM.closure
  have hsize := size_closure hM
  refine ext_value hF.closure hF (size_closure hF) fun σ i j hi hj => ?_
  rw [size_closure hF] at hi hj
  refine Scalar.le_antisymm ?_ (value_le_closure hF hi hj)
  have hi' : i < M.size := hsize ▸ hi
  rw [closure_value hF]
  refine reach_le_of_closed hF hF rfl hi (m_le_closure hM hi') ?_ ?_ hj _
  · intro z y hz hy hcol
    rw [hsize] at hz hy
    exact closure_eq_i hM hi' hy hz hcol
  · intro y _
    rw [closure_mul_closure hM]
    exact Scalar.le_refl _

theorem add_closure_of_closed {X : FlowMatrix} (hM : M.Normal)
    (hfree : ∀ p ∈ M.entries, p.hasInfinity = false) (hX : X.Normal) (hsize : X.size = M.size)
    (hid : X + identity M.size = X) (hmul : X + X * M = X) : X + M.closure = X := by
  rw [add_eq_left_iff hX (normal_identity _) (by rw [size_identity, hsize])] at hid
  rw [add_eq_left_iff hX (hX.mul hM hsize.symm) (size_mul _ _)] at hmul
  rw [add_eq_left_iff hX hM.closure (by rw [size_closure hM, hsize]), hsize]
  rw [hsize] at hid hmul
  intro σ i j hi hj
  rw [closure_value hM]
  refine reach_le_of_closed hM hX hsize hi ?_ ?_ (fun y hy => hmul σ i y hi hy) hj _
  · exact Scalar.le_trans (m_le_reach_zero hi) (hid σ i i hi hi)
  · intro z y hz hy hcol
    have hentry := hfree _ (mem_entries.mpr ⟨z, y, hz, hy, rfl⟩)
    exact absurd hcol (Poly.value_ne_i_of_hasInfinity hentry σ)

/-- **The closure is closed, and the least that is.** It has the identity and the matrix below it, repeating
the matrix or the closure adds nothing to it, and it is its own closure. Without `i` in the matrix, every
matrix that has the identity below it and that a repetition does not leave has the closure below it. -/
theorem closure_closed_and_least (hM : M.Normal) :
    (M.closure + identity M.size = M.closure ∧ M.closure + M = M.closure ∧
        M.closure + M.closure * M = M.closure ∧ M.closure * M.closure = M.closure ∧
        M.closure.closure = M.closure) ∧
      ((∀ p ∈ M.entries, p.hasInfinity = false) → ∀ X : FlowMatrix, X.Normal → X.size = M.size →
        X + identity M.size = X → X + X * M = X → X + M.closure = X) := by
  refine ⟨⟨closure_add_identity hM, closure_add_self hM, closure_add_mul hM, closure_mul_closure hM,
    closure_closure hM⟩, ?_⟩
  intro hfree X hX hsize hid hmul
  exact add_closure_of_closed hM hfree hX hsize hid hmul

/-- A matrix in which a silent entry follows an `i`, and one without `i`, with a matrix that its repetition
does not leave and that is not its closure. -/
theorem closure_closed_and_least_two_variables :
    let M : FlowMatrix := ⟨[[.zero, ⟨[⟨.i, [⟨0, 0⟩]⟩]⟩], [.unit, ⟨[⟨.w, [⟨1, 0⟩]⟩]⟩]], by decide⟩
    let N : FlowMatrix := ⟨[[.zero, ⟨[⟨.w, [⟨0, 0⟩]⟩]⟩], [⟨[⟨.p, [⟨1, 1⟩]⟩]⟩, .zero]], by decide⟩
    let X : FlowMatrix := ofFn 2 fun _ _ => ⟨[⟨.p, []⟩]⟩
    (M.Normal ∧ M.closure * M.closure = M.closure ∧ M.closure.closure = M.closure) ∧
      N.Normal ∧ X.Normal ∧ X + X * N = X ∧ X + N.closure = X ∧ X ≠ N.closure := by
  intro M N X
  have hM : M.Normal := by decide
  have hN : N.Normal := by decide
  have hX : X.Normal := by decide
  have hfree : ∀ p ∈ N.entries, p.hasInfinity = false := by decide
  have hmul : X + X * N = X := by decide +kernel
  obtain ⟨⟨_, _, _, hsquare, hclosure⟩, _⟩ := closure_closed_and_least hM
  have hleast := (closure_closed_and_least hN).2 hfree X hX rfl (by decide +kernel) hmul
  have hne : X ≠ N.closure := by
    rw [closure_eq hN]
    decide +kernel
  exact ⟨⟨hM, hsquare, hclosure⟩, hN, hX, hmul, hleast, hne⟩

end FlowMatrix

end GrowthFlow
