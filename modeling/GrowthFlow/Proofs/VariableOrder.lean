import GrowthFlow.Proofs.PolyAlgebra
import GrowthFlow.Proofs.RegularRuns

/-!
# The order of the variables

Every operation lays its result out in the order in which it meets the variables, and two relations are
compared only after one of them is brought into the layout of the other. So nothing may depend on a layout:
relations that are the same must stay the same under every operation, and must lead to the same choices.

Sameness compares variables as a set and entries by name, and so it is an equivalence. Each operation was
described by name before; what is left here is that a sum over the variables, a charge and a list of demands
depend on them as a set. This holds with unbounded entries too, where composition has few laws.
-/

namespace GrowthFlow

/-- The search starts from the witnesses as a set. -/
theorem Choices.generate_congr {ws vs : List Witness} (h : ∀ w, w ∈ ws ↔ w ∈ vs) (domain : List Nat)
    (n : Nat) : generate domain n ws = generate domain n vs := by
  have hsame : Ordered.ofList ws = Ordered.ofList vs :=
    Ordered.Increasing.ext (Ordered.increasing_ofList ws) (Ordered.increasing_ofList vs) fun w => by
      rw [Ordered.mem_ofList, Ordered.mem_ofList, h]
  unfold generate
  rw [hsame]

namespace Relation

variable {R R' S S' T : Relation}

/-! ## Alike by name -/

/-- The same variables as a set, and the same entry between any two names. -/
structure Alike (R S : Relation) : Prop where
  vars : ∀ x, x ∈ R.vars ↔ x ∈ S.vars
  entries : ∀ x y, R.entry x y = S.entry x y

theorem same_iff_alike (hR : R.vars.Nodup) (hS : S.vars.Nodup) : R.same S = true ↔ R.Alike S :=
  (same_iff hR hS).trans ⟨fun h => ⟨h.1, h.2⟩, fun h => ⟨h.vars, h.entries⟩⟩

theorem Alike.same (h : R.Alike S) (hR : R.vars.Nodup) (hS : S.vars.Nodup) : R.same S = true :=
  (same_iff_alike hR hS).mpr h

theorem Alike.refl (R : Relation) : R.Alike R := ⟨fun _ => Iff.rfl, fun _ _ => rfl⟩

theorem Alike.symm (h : R.Alike S) : S.Alike R :=
  ⟨fun x => (h.vars x).symm, fun x y => (h.entries x y).symm⟩

theorem Alike.trans (h : R.Alike S) (h' : S.Alike T) : R.Alike T :=
  ⟨fun x => (h.vars x).trans (h'.vars x), fun x y => (h.entries x y).trans (h'.entries x y)⟩

theorem same_equivalence :
    Equivalence fun R S : { R : Relation // R.vars.Nodup } => R.1.same S.1 = true where
  refl R := (Alike.refl R.1).same R.2 R.2
  symm {R S} h := by
    rw [same_iff_alike R.2 S.2] at h
    exact h.symm.same S.2 R.2
  trans {R S T} h h' := by
    rw [same_iff_alike R.2 S.2] at h
    rw [same_iff_alike S.2 T.2] at h'
    exact (h.trans h').same R.2 T.2

/-- Between the variables it has to be checked; elsewhere nothing changes. -/
theorem alike_of_mem (hvars : ∀ x, x ∈ R.vars ↔ x ∈ S.vars)
    (h : ∀ x ∈ R.vars, ∀ y ∈ R.vars, R.entry x y = S.entry x y) : R.Alike S := by
  refine ⟨hvars, fun x y => ?_⟩
  by_cases hmem : x ∈ R.vars ∧ y ∈ R.vars
  · exact h x hmem.1 y hmem.2
  · have hout := Decidable.not_and_iff_not_or_not.mp hmem
    rw [entry_of_not_mem hout]
    rw [hvars x, hvars y] at hout
    rw [entry_of_not_mem hout]

theorem Alike.length_eq (h : R.Alike R') (hR : R.vars.Nodup) (hR' : R'.vars.Nodup) :
    R.vars.length = R'.vars.length :=
  ((List.perm_ext_iff_of_nodup hR hR').mpr h.vars).length_eq

/-! ## Operations -/

theorem alike_identity {vars vars' : List String} (hnd : vars.Nodup) (hnd' : vars'.Nodup)
    (h : ∀ x, x ∈ vars ↔ x ∈ vars') : (identity vars).Alike (identity vars') :=
  ⟨h, fun x y => (entry_identity hnd x y).trans (entry_identity hnd' x y).symm⟩

section Operations

variable (hR : R.Normal) (hR' : R'.Normal) (h : R.Alike R')

theorem Alike.unionVariables (h : R.Alike R') (h' : S.Alike S') (x : String) :
    x ∈ R.unionVariables S ↔ x ∈ R'.unionVariables S' := by
  rw [mem_unionVariables, mem_unionVariables, h.vars, h'.vars]

include hR hR' h

theorem Alike.compose (hS : S.Normal) (hS' : S'.Normal) (h' : S.Alike S') :
    (R.compose S).Alike (R'.compose S') := by
  have hvars := vars_compose R S hR.nodup hS.nodup
  have hvars' := vars_compose R' S' hR'.nodup hS'.nodup
  have hunion := h.unionVariables h'
  refine alike_of_mem (by rw [hvars, hvars']; exact hunion) fun x hx y hy => ?_
  rw [hvars] at hx hy
  rw [entry_compose hR.nodup hS.nodup hx hy,
    entry_compose hR'.nodup hS'.nodup ((hunion x).mp hx) ((hunion y).mp hy)]
  -- The variables in between come in another order, but they are the same.
  refine Poly.sumOver_congr hunion (fun z _ => (hR.entry x z).mul (hS.entry z y)) fun z _ => ?_
  rw [h.entries, h'.entries]

theorem Alike.sum (hS : S.Normal) (hS' : S'.Normal) (h' : S.Alike S') :
    (R.sum S).Alike (R'.sum S') := by
  have hvars := vars_sum R S hR.nodup hS.nodup
  have hvars' := vars_sum R' S' hR'.nodup hS'.nodup
  have hunion := h.unionVariables h'
  refine alike_of_mem (by rw [hvars, hvars']; exact hunion) fun x hx y hy => ?_
  rw [hvars] at hx hy
  rw [entry_sum hR.nodup hS.nodup hx hy,
    entry_sum hR'.nodup hS'.nodup ((hunion x).mp hx) ((hunion y).mp hy), h.entries, h'.entries]

theorem Alike.power : ∀ k, (R.power k).Alike (R'.power k)
  | 0 => alike_identity hR.nodup hR'.nodup h.vars
  | k + 1 => (Alike.power k).compose (hR.power k) (hR'.power k) hR hR' h

theorem Alike.powerSum : ∀ k, (R.powerSum k).Alike (R'.powerSum k)
  | 0 => alike_identity hR.nodup hR'.nodup h.vars
  | k + 1 => (Alike.powerSum k).sum (hR.powerSum k) (hR'.powerSum k) (hR.power (k + 1))
      (hR'.power (k + 1)) (h.power hR hR' (k + 1))

omit hR' h in
/-- The closure is a sum of powers, whose number depends on that of the variables alone. -/
theorem closure_eq_powerSum : R.closure = R.powerSum (2 * R.vars.length) := by
  have hclosure : R.matrix.closure = (R.powerSum (2 * R.vars.length)).matrix := by
    rw [FlowMatrix.closure_eq hR.entries, R.size_eq, matrix_powerSum]
  refine ext_matrix (vars_powerSum R _).symm ?_
  rw [← hclosure]
  exact FlowMatrix.ofFn_get (by rw [hclosure, size_eq, vars_powerSum])

theorem Alike.closure : R.closure.Alike R'.closure := by
  rw [closure_eq_powerSum hR, closure_eq_powerSum hR', h.length_eq hR.nodup hR'.nodup]
  exact h.powerSum hR hR' _

theorem Alike.whileCorrection : R.whileCorrection.Alike R'.whileCorrection := by
  refine alike_of_mem h.vars fun x hx y hy => ?_
  rw [entry_whileCorrection hR.nodup hx hy,
    entry_whileCorrection hR'.nodup ((h.vars x).mp hx) ((h.vars y).mp hy), h.entries]

omit hR' in
theorem Alike.chargeInto (y : String) : R.chargeInto y = R'.chargeInto y := by
  refine (Poly.ofMonomials_congr (fun m hm => (charge_formed hR.proper y m hm).sorted) fun m => ?_).symm
  simp only [List.mem_flatMap, h.entries, h.vars]

theorem Alike.boundedCorrection (guard : String) :
    (R.boundedCorrection guard).Alike (R'.boundedCorrection guard) := by
  refine alike_of_mem h.vars fun x hx y hy => ?_
  rw [entry_boundedCorrection hR.nodup hx hy,
    entry_boundedCorrection hR'.nodup ((h.vars x).mp hx) ((h.vars y).mp hy), h.entries,
    h.chargeInto hR]

end Operations

/-- The same relations leave the same choices. -/
theorem choices_of_same (hR : R.vars.Nodup) (hS : S.vars.Nodup) (h : R.same S = true)
    (domain : List Nat) (index : Nat) (extra : List Scalar) :
    R.choices domain index extra = S.choices domain index extra := by
  obtain ⟨hvars, hentry⟩ := (same_iff hR hS).mp h
  refine Choices.generate_congr (fun w => ?_) domain index
  simp only [List.mem_flatMap, mem_matrix_entries hR, mem_matrix_entries hS, hvars, hentry]

/-- **The order of the variables does not matter.** Sameness is an equivalence of relations whose variables
are all different. If their entries are in normal form, as those of all operations are, every operation makes
the same of what is the same; and the choices found are equal, or the search fails in the same way. -/
theorem same_congruence :
    (Equivalence fun R S : { R : Relation // R.vars.Nodup } => R.1.same S.1 = true) ∧
      ∀ {R R' S S' : Relation}, R.Normal → R'.Normal → S.Normal → S'.Normal →
        R.same R' = true → S.same S' = true →
        (R.compose S).same (R'.compose S') = true ∧
          (R.sum S).same (R'.sum S') = true ∧
          R.closure.same R'.closure = true ∧
          R.whileCorrection.same R'.whileCorrection = true ∧
          (∀ guard, (R.boundedCorrection guard).same (R'.boundedCorrection guard) = true) ∧
          ∀ domain n extra, R.choices domain n extra = R'.choices domain n extra := by
  refine ⟨same_equivalence, fun {R R' S S'} hR hR' hS hS' h h' => ?_⟩
  have hchoices := choices_of_same hR.nodup hR'.nodup h
  rw [same_iff_alike hR.nodup hR'.nodup] at h
  rw [same_iff_alike hS.nodup hS'.nodup] at h'
  exact ⟨(h.compose hR hR' hS hS' h').same (hR.compose hS).nodup (hR'.compose hS').nodup,
    (h.sum hR hR' hS hS' h').same (hR.sum hS).nodup (hR'.sum hS').nodup,
    (h.closure hR hR').same hR.nodup hR'.nodup,
    (h.whileCorrection hR hR').same hR.nodup hR'.nodup,
    fun guard => (h.boundedCorrection hR hR' guard).same hR.nodup hR'.nodup, hchoices⟩

/-- Two layouts of an assignment that is unbounded under some choices, and two of another one. -/
theorem same_congruence_two_layouts :
    let R : Relation := .assignment ["x", "y"] [.ofChoice 0 [.m, .i, .w], .ofChoice 0 [.p, .m, .i]] "x"
    let R' : Relation := .assignment ["y", "x"] [.ofChoice 0 [.p, .m, .i], .ofChoice 0 [.m, .i, .w]] "x"
    let S : Relation := .assignment ["z", "x"] [.ofChoice 0 [.p, .w, .m], .ofChoice 1 [.w, .m, .i]] "z"
    let S' : Relation := .assignment ["x", "z"] [.ofChoice 1 [.w, .m, .i], .ofChoice 0 [.p, .w, .m]] "z"
    (R.Normal ∧ R'.Normal ∧ S.Normal ∧ S'.Normal) ∧ R.same R' = true ∧ S.same S' = true ∧
      (R.compose S).vars ≠ (R'.compose S').vars ∧
      (R.compose S).same (R'.compose S') = true ∧ (R.sum S).same (R'.sum S') = true ∧
      R.closure.same R'.closure = true ∧
      (R.boundedCorrection "y").same (R'.boundedCorrection "y") = true ∧
      R.choices choiceValues 1 [] = R'.choices choiceValues 1 [] := by
  intro R R' S S'
  have hR : R.Normal := ⟨by decide, by decide⟩
  have hR' : R'.Normal := ⟨by decide, by decide⟩
  have hS : S.Normal := ⟨by decide, by decide⟩
  have hS' : S'.Normal := ⟨by decide, by decide⟩
  have h : R.same R' = true := by decide
  have h' : S.same S' = true := by decide
  obtain ⟨hcompose, hsum, hclosure, _, hbounded, hchoices⟩ := same_congruence.2 hR hR' hS hS' h h'
  exact ⟨⟨hR, hR', hS, hS'⟩, h, h', by decide, hcompose, hsum, hclosure, hbounded "y",
    hchoices choiceValues 1 []⟩

end Relation

end GrowthFlow
