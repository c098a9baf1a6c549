import GrowthFlow.Proofs.NormalForm
import GrowthFlow.Proofs.RelationValue

/-!
# The algebra of relations

Two relations are the same when they have the same variables and, by name, the same entries (`same_iff`).
Entries are polynomials in normal form, so they are equal once they are worth the same under every choice.
A law about relations is therefore a law about scalars, provided that the operations are the expected ones
on scalars, for all names and not only for the variables that the operands happen to list.

For sums this is immediate. For compositions it holds as long as nothing is unbounded: a scalar of a
composition is then the least upper bound of the products through *any* name (`compose_le_iff`), since a
name that neither relation knows only leads from itself to itself. Associativity and the distributive laws
follow from those of the scalars. With `i` in an entry they fail, because a silent entry in between loses
it.
-/

namespace GrowthFlow

/-! ## Products of bounded scalars -/

namespace Scalar

/-- A bound of a product is a bound of its first factor, as long as the second one is not `i`. -/
theorem exists_residual {c : Scalar} (hc : c ≠ i) (t : Scalar) :
    ∃ u, ∀ a, a * c ≤ t ↔ a ≤ u := by
  -- What `c` leaves below `t`: all that is bounded if it is `o`, nothing if it exceeds `t`, else `t`.
  by_cases ho : c = o ∧ t ≠ i
  · refine ⟨p, fun a => ?_⟩
    revert a c t
    decide
  · by_cases hct : c ≤ t
    · refine ⟨t, fun a => ?_⟩
      revert a c t
      decide
    · refine ⟨o, fun a => ?_⟩
      revert a c t
      decide

/-- Multiplication keeps least upper bounds. -/
theorem lub_mul_le_iff {ι : Type} {f : ι → Scalar} {s c : Scalar} (hs : ∀ t, s ≤ t ↔ ∀ k, f k ≤ t)
    (hc : c ≠ i) {t : Scalar} : s * c ≤ t ↔ ∀ k, f k * c ≤ t := by
  obtain ⟨u, hu⟩ := exists_residual hc t
  rw [hu, hs]
  exact forall_congr' fun k => (hu (f k)).symm

theorem mul_lub_le_iff {ι : Type} {f : ι → Scalar} {s c : Scalar} (hs : ∀ t, s ≤ t ↔ ∀ k, f k ≤ t)
    (hc : c ≠ i) {t : Scalar} : c * s ≤ t ↔ ∀ k, c * f k ≤ t := by
  rw [mul_comm, lub_mul_le_iff hs hc]
  exact forall_congr' fun k => by rw [mul_comm]

end Scalar

theorem normal_unchanged (x y : String) : (unchanged x y).Normal := by
  unfold unchanged
  split
  · exact Poly.normal_unit
  · exact Poly.normal_zero

namespace Relation

variable {R S T : Relation} {σ : Selection}

/-! ## The same entries by name -/

/-- In one layout, the entries by name determine the matrix. -/
theorem matrix_eq_of_entries (hnd : R.vars.Nodup) (hvars : R.vars = S.vars)
    (h : ∀ x y, R.entry x y = S.entry x y) : R.matrix = S.matrix := by
  refine FlowMatrix.ext_get (by rw [R.size_eq, S.size_eq, hvars]) ?_
  intro i j hi hj
  rw [R.size_eq] at hi hj
  have hx : R.vars[i]? = some R.vars[i] := List.getElem?_eq_getElem hi
  have hy : R.vars[j]? = some R.vars[j] := List.getElem?_eq_getElem hj
  have hR := entry_of_places hnd hx hy
  have hS := entry_of_places (hvars ▸ hnd) ((congrArg (·[i]?) hvars).symm.trans hx)
    ((congrArg (·[j]?) hvars).symm.trans hy)
  rw [h, hS] at hR
  exact hR.symm

/-- **Sameness by name.** Two relations are the same exactly if they have the same variables and the same
entry between any two names. -/
theorem same_iff (hR : R.vars.Nodup) (hS : S.vars.Nodup) :
    R.same S = true ↔
      (∀ x, x ∈ R.vars ↔ x ∈ S.vars) ∧ ∀ x y, R.entry x y = S.entry x y := by
  obtain ⟨hA, hB, hentryA, hentryB⟩ := align_spec hR hS
  have hnd := nodup_unionVariables hR hS
  show (Ordered.ofList R.vars == Ordered.ofList S.vars &&
    (align R S).1.matrix == (align R S).2.matrix) = true ↔ _
  rw [Bool.and_eq_true, beq_iff_eq, beq_iff_eq]
  refine and_congr ?_ ?_
  · constructor
    · intro h x
      rw [← Ordered.mem_ofList, h, Ordered.mem_ofList]
    · intro h
      refine (Ordered.increasing_ofList R.vars).ext (Ordered.increasing_ofList S.vars) fun x => ?_
      rw [Ordered.mem_ofList, Ordered.mem_ofList]
      exact h x
  · constructor
    · intro h x y
      rw [← hentryA, ← hentryB, entry, entry, h, hA, hB]
    · intro h
      refine matrix_eq_of_entries (hA ▸ hnd) (hA.trans hB.symm) fun x y => ?_
      rw [hentryA, hentryB]
      exact h x y

/-! ## Relations with normal entries -/

/-- A variable has one place, and the entries are in normal form. -/
structure Normal (R : Relation) : Prop where
  nodup : R.vars.Nodup
  entries : ∀ p ∈ R.matrix.entries, p.Normal

theorem Normal.entry (hR : R.Normal) (x y : String) : (R.entry x y).Normal := by
  by_cases hmem : x ∈ R.vars ∧ y ∈ R.vars
  · exact hR.entries _ ((mem_matrix_entries hR.nodup).mpr ⟨x, hmem.1, y, hmem.2, rfl⟩)
  · rw [entry_of_not_mem (Decidable.not_and_iff_not_or_not.mp hmem)]
    exact normal_unchanged x y

theorem normal_of_entry (hnd : R.vars.Nodup)
    (h : ∀ x ∈ R.vars, ∀ y ∈ R.vars, (R.entry x y).Normal) : R.Normal := by
  refine ⟨hnd, fun p hp => ?_⟩
  obtain ⟨x, hx, y, hy, rfl⟩ := (mem_matrix_entries hnd).mp hp
  exact h x hx y hy

theorem Normal.proper (hR : R.Normal) : R.Proper fun _ => True :=
  ⟨hR.nodup, fun x y => (hR.entry x y).proper⟩

theorem Normal.compose (hR : R.Normal) (hS : S.Normal) : (R.compose S).Normal := by
  have hvars := vars_compose R S hR.nodup hS.nodup
  refine normal_of_entry (hvars ▸ nodup_unionVariables hR.nodup hS.nodup) fun x hx y hy => ?_
  rw [hvars] at hx hy
  rw [entry_compose hR.nodup hS.nodup hx hy]
  exact Poly.normal_sumOver fun z _ => (hR.entry x z).mul (hS.entry z y)

theorem Normal.sum (hR : R.Normal) (hS : S.Normal) : (R.sum S).Normal := by
  have hvars := vars_sum R S hR.nodup hS.nodup
  refine normal_of_entry (hvars ▸ nodup_unionVariables hR.nodup hS.nodup) fun x hx y hy => ?_
  rw [hvars] at hx hy
  rw [entry_sum hR.nodup hS.nodup hx hy]
  exact (hR.entry x y).add (hS.entry x y)

theorem mem_vars_compose (hR : R.Normal) (hS : S.Normal) {x : String} :
    x ∈ (R.compose S).vars ↔ x ∈ R.vars ∨ x ∈ S.vars := by
  rw [vars_compose R S hR.nodup hS.nodup, mem_unionVariables]

theorem mem_vars_sum (hR : R.Normal) (hS : S.Normal) {x : String} :
    x ∈ (R.sum S).vars ↔ x ∈ R.vars ∨ x ∈ S.vars := by
  rw [vars_sum R S hR.nodup hS.nodup, mem_unionVariables]

/-- Relations over the same variables are the same if they are worth the same under every choice. -/
theorem same_of_value (hR : R.Normal) (hS : S.Normal) (hvars : ∀ x, x ∈ R.vars ↔ x ∈ S.vars)
    (h : ∀ σ x y, R.value σ x y = S.value σ x y) : R.same S = true := by
  refine (same_iff hR.nodup hS.nodup).mpr ⟨hvars, fun x y => ?_⟩
  exact (hR.entry x y).ext (hS.entry x y) fun σ => h σ x y

/-! ## Sums and compositions between any two names -/

/-- A sum has the larger scalar between any two names. -/
theorem sum_value (hR : R.Normal) (hS : S.Normal) (σ : Selection) (x y : String) :
    (R.sum S).value σ x y = R.value σ x y + S.value σ x y := by
  by_cases hmem : x ∈ R.unionVariables S ∧ y ∈ R.unionVariables S
  · exact value_sum hR.proper hS.proper hmem.1 hmem.2
  · -- one of the two is known to neither, so all three scalars are those of no change
    have hout := Decidable.not_and_iff_not_or_not.mp hmem
    have hR' : x ∉ R.vars ∨ y ∉ R.vars :=
      hout.imp (fun h hx => h (mem_unionVariables.mpr (.inl hx)))
        fun h hy => h (mem_unionVariables.mpr (.inl hy))
    have hS' : x ∉ S.vars ∨ y ∉ S.vars :=
      hout.imp (fun h hx => h (mem_unionVariables.mpr (.inr hx)))
        fun h hy => h (mem_unionVariables.mpr (.inr hy))
    rw [← vars_sum R S hR.nodup hS.nodup] at hout
    rw [value_of_not_mem hout, value_of_not_mem hR', value_of_not_mem hS', Scalar.add_self]

/-- No flow is unbounded under any choice. -/
def Bounded (R : Relation) : Prop := ∀ σ, ¬ R.Unbounded σ

theorem Bounded.value_ne_i (hR : R.Bounded) (σ : Selection) (x y : String) : R.value σ x y ≠ .i :=
  fun h => hR σ ⟨x, y, h⟩

theorem Bounded.compose (hRn : R.Normal) (hSn : S.Normal) (hR : R.Bounded) (hS : S.Bounded) :
    (R.compose S).Bounded := by
  intro σ h
  have hcarries := (unbounded_compose_iff hRn.proper hSn.proper).mp h
  exact (unbounded_of_carries hcarries).elim (hR σ) (hS σ)

theorem Bounded.sum (hRn : R.Normal) (hSn : S.Normal) (hR : R.Bounded) (hS : S.Bounded) :
    (R.sum S).Bounded := by
  intro σ h
  exact ((unbounded_sum_iff hRn.proper hSn.proper).mp h).elim (hR σ) (hS σ)

/-- A product that goes through an unknown name is `o`, unless it starts and ends there. -/
theorem mul_eq_o_of_unknown (hR : R.Bounded) (hS : S.Bounded) {x y z : String}
    (hz : z ∉ R.vars ∧ z ∉ S.vars) (hne : x ≠ z ∨ z ≠ y) :
    R.value σ x z * S.value σ z y = .o := by
  rcases hne with hne | hne
  · rw [value_of_not_mem (.inr hz.1), if_neg hne]
    exact Scalar.o_mul (hS.value_ne_i σ z y)
  · rw [value_of_not_mem (R := S) (.inl hz.2), if_neg hne]
    exact Scalar.mul_o (hR.value_ne_i σ x z)

/-- **Composition of bounded relations.** Between any two names, the scalar is the least upper bound of the
products through any name. -/
theorem compose_le_iff (hRn : R.Normal) (hSn : S.Normal) (hR : R.Bounded) (hS : S.Bounded)
    {x y : String} {t : Scalar} :
    (R.compose S).value σ x y ≤ t ↔ ∀ z, R.value σ x z * S.value σ z y ≤ t := by
  have hunknown : ∀ {z}, z ∉ R.unionVariables S → z ∉ R.vars ∧ z ∉ S.vars := by
    intro z hz
    exact ⟨fun h => hz (mem_unionVariables.mpr (.inl h)),
      fun h => hz (mem_unionVariables.mpr (.inr h))⟩
  have hvars := vars_compose R S hRn.nodup hSn.nodup
  by_cases hx : x ∈ R.unionVariables S
  · by_cases hy : y ∈ R.unionVariables S
    · -- The sum is over the variables of both; other names add nothing to it.
      rw [value_compose hRn.proper hSn.proper (hR σ) (hS σ) hx hy, Scalar.sum_le_iff,
        List.forall_mem_map]
      refine ⟨fun h z => ?_, fun h z _ => h z⟩
      by_cases hz : z ∈ R.unionVariables S
      · exact h z hz
      · have hxz : x ≠ z := fun hxz => hz (hxz ▸ hx)
        rw [mul_eq_o_of_unknown hR hS (hunknown hz) (.inl hxz)]
        exact Scalar.o_le t
    · -- Nothing known flows into `y`.
      have hxy : x ≠ y := fun hxy => hy (hxy ▸ hx)
      rw [value_of_not_mem (.inr (hvars ▸ hy)), if_neg hxy]
      refine iff_of_true (Scalar.o_le t) fun z => ?_
      by_cases hzy : z = y
      · rw [hzy, mul_eq_o_of_unknown hR hS (hunknown hy) (.inl hxy)]
        exact Scalar.o_le t
      · rw [value_of_not_mem (R := S) (.inr (hunknown hy).2), if_neg hzy,
          Scalar.mul_o (hR.value_ne_i σ x z)]
        exact Scalar.o_le t
  · -- `x` flows nowhere but into itself.
    have hRx : ∀ z, R.value σ x z = if x = z then .m else .o :=
      fun z => value_of_not_mem (.inl (hunknown hx).1) σ
    have hSx : S.value σ x y = if x = y then .m else .o :=
      value_of_not_mem (.inl (hunknown hx).2) σ
    rw [value_of_not_mem (.inl (hvars ▸ hx)), ← hSx]
    constructor
    · intro h z
      rw [hRx]
      split
      · rename_i hxz
        rw [Scalar.m_mul, ← hxz]
        exact h
      · rw [Scalar.o_mul (hS.value_ne_i σ z y)]
        exact Scalar.o_le t
    · intro h
      have hself := h x
      rwa [hRx, if_pos rfl, Scalar.m_mul] at hself

/-! ## The laws -/

section Laws

variable (hRn : R.Normal) (hSn : S.Normal) (hTn : T.Normal) (hR : R.Bounded) (hS : S.Bounded)
  (hT : T.Bounded)

include hRn hSn

theorem same_sum_comm : (R.sum S).same (S.sum R) = true := by
  refine same_of_value (hRn.sum hSn) (hSn.sum hRn) (fun x => ?_) fun σ x y => ?_
  · rw [mem_vars_sum hRn hSn, mem_vars_sum hSn hRn, or_comm]
  · rw [sum_value hRn hSn, sum_value hSn hRn, Scalar.add_comm]

include hTn

theorem same_sum_assoc : ((R.sum S).sum T).same (R.sum (S.sum T)) = true := by
  refine same_of_value ((hRn.sum hSn).sum hTn) (hRn.sum (hSn.sum hTn)) (fun x => ?_)
    fun σ x y => ?_
  · rw [mem_vars_sum (hRn.sum hSn) hTn, mem_vars_sum hRn hSn, mem_vars_sum hRn (hSn.sum hTn),
      mem_vars_sum hSn hTn, or_assoc]
  · rw [sum_value (hRn.sum hSn) hTn, sum_value hRn hSn, sum_value hRn (hSn.sum hTn),
      sum_value hSn hTn, Scalar.add_assoc]

include hR hS hT

theorem same_compose_assoc : ((R.compose S).compose T).same (R.compose (S.compose T)) = true := by
  have hRS := hRn.compose hSn
  have hST := hSn.compose hTn
  refine same_of_value (hRS.compose hTn) (hRn.compose hST) (fun x => ?_) fun σ x y => ?_
  · rw [mem_vars_compose hRS hTn, mem_vars_compose hRn hSn, mem_vars_compose hRn hST,
      mem_vars_compose hSn hTn, or_assoc]
  · apply Scalar.eq_of_le_iff
    intro t
    rw [compose_le_iff hRS hTn (hR.compose hRn hSn hS) hT,
      compose_le_iff hRn hST hR (hS.compose hSn hTn hT)]
    -- Both sides bound every product along `x`, `z`, `w`, `y`.
    have hleft : ∀ w, (R.compose S).value σ x w * T.value σ w y ≤ t ↔
        ∀ z, R.value σ x z * S.value σ z w * T.value σ w y ≤ t := fun w =>
      Scalar.lub_mul_le_iff (fun _ => compose_le_iff hRn hSn hR hS) (hT.value_ne_i σ w y)
    have hright : ∀ z, R.value σ x z * (S.compose T).value σ z y ≤ t ↔
        ∀ w, R.value σ x z * (S.value σ z w * T.value σ w y) ≤ t := fun z =>
      Scalar.mul_lub_le_iff (fun _ => compose_le_iff hSn hTn hS hT) (hR.value_ne_i σ x z)
    simp only [hleft, hright, Scalar.mul_assoc]
    exact forall_comm

theorem same_compose_sum :
    (R.compose (S.sum T)).same ((R.compose S).sum (R.compose T)) = true := by
  have hsum := hSn.sum hTn
  have hRS := hRn.compose hSn
  have hRT := hRn.compose hTn
  refine same_of_value (hRn.compose hsum) (hRS.sum hRT) (fun x => ?_) fun σ x y => ?_
  · rw [mem_vars_compose hRn hsum, mem_vars_sum hSn hTn, mem_vars_sum hRS hRT,
      mem_vars_compose hRn hSn, mem_vars_compose hRn hTn, or_or_distrib_left]
  · apply Scalar.eq_of_le_iff
    intro t
    rw [compose_le_iff hRn hsum hR (hS.sum hSn hTn hT), sum_value hRS hRT, Scalar.add_le_iff,
      compose_le_iff hRn hSn hR hS, compose_le_iff hRn hTn hR hT]
    simp only [sum_value hSn hTn, Scalar.mul_add, Scalar.add_le_iff]
    exact forall_and

theorem same_sum_compose :
    ((S.sum T).compose R).same ((S.compose R).sum (T.compose R)) = true := by
  have hsum := hSn.sum hTn
  have hSR := hSn.compose hRn
  have hTR := hTn.compose hRn
  refine same_of_value (hsum.compose hRn) (hSR.sum hTR) (fun x => ?_) fun σ x y => ?_
  · rw [mem_vars_compose hsum hRn, mem_vars_sum hSn hTn, mem_vars_sum hSR hTR,
      mem_vars_compose hSn hRn, mem_vars_compose hTn hRn, or_or_distrib_right]
  · apply Scalar.eq_of_le_iff
    intro t
    rw [compose_le_iff hsum hRn (hS.sum hSn hTn hT) hR, sum_value hSR hTR, Scalar.add_le_iff,
      compose_le_iff hSn hRn hS hR, compose_le_iff hTn hRn hT hR]
    simp only [sum_value hSn hTn, Scalar.mul_comm _ (R.value σ _ _), Scalar.mul_add,
      Scalar.add_le_iff]
    exact forall_and

end Laws

theorem same_sum_self (hR : R.Normal) : (R.sum R).same R = true := by
  refine same_of_value (hR.sum hR) hR (fun x => ?_) fun σ x y => ?_
  · rw [mem_vars_sum hR hR, or_self]
  · rw [sum_value hR hR, Scalar.add_self]

/-- No entry has a monomial `i`. -/
def InfinityFree (R : Relation) : Prop := ∀ p ∈ R.matrix.entries, p.hasInfinity = false

theorem InfinityFree.bounded (hRn : R.Normal) (hR : R.InfinityFree) : R.Bounded := by
  rintro σ ⟨x, y, h⟩
  obtain ⟨hx, hy⟩ := mem_of_value_eq_i h
  have hentry := hR _ ((mem_matrix_entries hRn.nodup).mpr ⟨x, hx, y, hy, rfl⟩)
  exact Poly.value_ne_i_of_hasInfinity hentry σ h

/-- **The algebra of relations without `i`.** Composition is associative, summation is associative,
commutative and idempotent, and composition distributes over it from both sides, whatever variables the
relations have. -/
theorem algebra_of_infinityFree (hRn : R.Normal) (hSn : S.Normal) (hTn : T.Normal)
    (hR : R.InfinityFree) (hS : S.InfinityFree) (hT : T.InfinityFree) :
    ((R.compose S).compose T).same (R.compose (S.compose T)) = true ∧
      (((R.sum S).sum T).same (R.sum (S.sum T)) = true ∧ (R.sum S).same (S.sum R) = true ∧
        (R.sum R).same R = true) ∧
      (R.compose (S.sum T)).same ((R.compose S).sum (R.compose T)) = true ∧
      ((S.sum T).compose R).same ((S.compose R).sum (T.compose R)) = true := by
  have hRb := hR.bounded hRn
  have hSb := hS.bounded hSn
  have hTb := hT.bounded hTn
  exact ⟨same_compose_assoc hRn hSn hTn hRb hSb hTb,
    ⟨same_sum_assoc hRn hSn hTn, same_sum_comm hRn hSn, same_sum_self hRn⟩,
    same_compose_sum hRn hSn hTn hRb hSb hTb, same_sum_compose hRn hSn hTn hRb hSb hTb⟩

/-- Two assignments that share a variable and a choice, and the relation over no variables. The two sides of
commutativity are laid out differently. -/
theorem algebra_of_infinityFree_two_assignments :
    let R : Relation := .assignment ["x", "y"] [.ofChoice 0 [.m, .p, .w], .ofChoice 0 [.p, .m, .w]] "x"
    let S : Relation := .assignment ["z", "x"] [.ofChoice 0 [.p, .w, .m], .ofChoice 1 [.w, .m, .p]] "z"
    (R.Normal ∧ S.Normal ∧ empty.Normal ∧ R.InfinityFree ∧ S.InfinityFree ∧ empty.InfinityFree) ∧
      ((R.compose S).compose empty).same (R.compose (S.compose empty)) = true ∧
      (R.sum S).same (S.sum R) = true ∧ (R.sum S).vars ≠ (S.sum R).vars ∧
      ((S.sum empty).compose R).same ((S.compose R).sum (empty.compose R)) = true := by
  intro R S
  have hRn : R.Normal := ⟨by decide, by decide⟩
  have hSn : S.Normal := ⟨by decide, by decide⟩
  have hEn : empty.Normal := ⟨by decide, by decide⟩
  have hR : R.InfinityFree := by unfold InfinityFree; decide
  have hS : S.InfinityFree := by unfold InfinityFree; decide
  have hE : empty.InfinityFree := by unfold InfinityFree; decide
  obtain ⟨hassoc, ⟨_, hcomm, _⟩, _, hright⟩ := algebra_of_infinityFree hRn hSn hEn hR hS hE
  exact ⟨⟨hRn, hSn, hEn, hR, hS, hE⟩, hassoc, hcomm, by decide, hright⟩

end Relation

end GrowthFlow
