import GrowthFlow.Proofs.MatrixPowers
import GrowthFlow.Proofs.RelationValue

/-!
# Repetition

The closure of a relation is the sum of its powers up to one after which the sum stays the same. That
stop is a single test on the polynomials, yet it settles every choice at once: under a choice that leaves
the relation bounded, no further power exceeds the closure (`closure_le_iff`). Whether something is
unbounded does not change by repetition (`unbounded_closure_iff`).

A correction then makes flows unbounded exactly where the demands that it reports are met
(`unbounded_correct_iff`).
-/

namespace GrowthFlow

namespace Relation

/-- A number of repetitions. -/
def power (R : Relation) : Nat → Relation
  | 0 => identity R.vars
  | k + 1 => (R.power k).compose R

/-- At most a number of repetitions. -/
def powerSum (R : Relation) : Nat → Relation
  | 0 => identity R.vars
  | k + 1 => (R.powerSum k).sum (R.power (k + 1))

theorem vars_power (R : Relation) : ∀ k, (R.power k).vars = R.vars
  | 0 => rfl
  | k + 1 => (compose_of_vars_eq (R.vars_power k)).1.trans (R.vars_power k)

theorem vars_powerSum (R : Relation) : ∀ k, (R.powerSum k).vars = R.vars
  | 0 => rfl
  | k + 1 => by
      have hvars : (R.powerSum k).vars = (R.power (k + 1)).vars :=
        (R.vars_powerSum k).trans (R.vars_power (k + 1)).symm
      exact (sum_of_vars_eq hvars).1.trans (R.vars_powerSum k)

theorem matrix_identity (R : Relation) :
    (identity R.vars).matrix = FlowMatrix.identity R.matrix.size := by
  rw [R.size_eq]
  rfl

theorem matrix_power (R : Relation) : ∀ k, (R.power k).matrix = R.matrix.power k
  | 0 => R.matrix_identity
  | k + 1 => by
      have hmatrix : (R.power (k + 1)).matrix = (R.power k).matrix * R.matrix :=
        (compose_of_vars_eq (R.vars_power k)).2
      rw [hmatrix, matrix_power R k]
      rfl

theorem matrix_powerSum (R : Relation) : ∀ k, (R.powerSum k).matrix = R.matrix.powerSum k
  | 0 => R.matrix_identity
  | k + 1 => by
      have hvars : (R.powerSum k).vars = (R.power (k + 1)).vars :=
        (R.vars_powerSum k).trans (R.vars_power (k + 1)).symm
      have hmatrix : (R.powerSum (k + 1)).matrix = (R.powerSum k).matrix + (R.power (k + 1)).matrix :=
        (sum_of_vars_eq hvars).2
      rw [hmatrix, matrix_powerSum R k, matrix_power R (k + 1)]
      rfl

theorem ext_matrix {R S : Relation} (hvars : R.vars = S.vars) (hmatrix : R.matrix = S.matrix) :
    R = S := by
  cases R
  cases S
  cases hvars
  cases hmatrix
  rfl

/-- A closure that is found with the second power. -/
theorem closureWithin?_of_two (limit : Nat) {R F : Relation}
    (hone : FlowMatrix.identity R.vars.length * R.matrix = R.matrix)
    (hsum : FlowMatrix.identity R.vars.length + R.matrix = F.matrix)
    (hne : F.matrix ≠ FlowMatrix.identity R.vars.length)
    (hdone : F.matrix + R.matrix * R.matrix = F.matrix) (hvars : R.vars = F.vars) :
    R.closureWithin? (limit + 2) = some F := by
  have hsearch : R.matrix.sumPowers (limit + 2) (.identity R.matrix.size) (.identity R.matrix.size) =
      (true, F.matrix) := by
    rw [R.size_eq, FlowMatrix.sumPowers, FlowMatrix.sumPowers]
    simp only [hone, hsum, if_neg hne, hdone, if_true]
  unfold closureWithin? FlowMatrix.closureWithin?
  rw [hsearch]
  exact congrArg some (ext_matrix hvars (FlowMatrix.ofFn_get (by rw [F.size_eq, hvars])))

theorem closureWithin?_some {limit : Nat} {R F : Relation} (h : R.closureWithin? limit = some F) :
    ∃ j, F = R.powerSum j ∧ R.powerSum (j + 1) = R.powerSum j := by
  unfold closureWithin? FlowMatrix.closureWithin? at h
  obtain ⟨G, hG, rfl⟩ := Option.map_eq_some_iff.mp h
  split at hG
  · rename_i sum hsum
    cases hG
    obtain ⟨j, hj, hstop⟩ := R.matrix.sumPowers_stop limit 0 hsum
    rw [← matrix_powerSum, ← matrix_powerSum] at hstop
    rw [← matrix_powerSum] at hj
    refine ⟨j, ext_matrix (vars_powerSum R j).symm ?_, ext_matrix ?_ hstop⟩
    · rw [hj]
      refine FlowMatrix.ofFn_get ?_
      rw [size_eq, vars_powerSum]
    · rw [vars_powerSum, vars_powerSum]
  · cases hG

/-! ## Powers under a choice -/

variable {P : Delta → Prop} {R F : Relation} {σ : Selection}

theorem Proper.power (hR : R.Proper P) : ∀ k, (R.power k).Proper P
  | 0 => proper_identity hR.nodup
  | k + 1 => (Proper.power hR k).compose hR

theorem Proper.powerSum (hR : R.Proper P) : ∀ k, (R.powerSum k).Proper P
  | 0 => proper_identity hR.nodup
  | k + 1 => (Proper.powerSum hR k).sum (hR.power (k + 1))

theorem Proper.closure {limit : Nat} (hR : R.Proper P) (h : R.closureWithin? limit = some F) :
    F.Proper P := by
  obtain ⟨j, rfl, _⟩ := closureWithin?_some h
  exact hR.powerSum j

theorem vars_closure {limit : Nat} (h : R.closureWithin? limit = some F) : F.vars = R.vars := by
  obtain ⟨j, rfl, _⟩ := closureWithin?_some h
  exact vars_powerSum R j

theorem value_powerSum_succ (hR : R.Proper P) (k : Nat) (x y : String) :
    (R.powerSum (k + 1)).value σ x y =
      (R.powerSum k).value σ x y + (R.power (k + 1)).value σ x y := by
  have hvars : (R.powerSum k).vars = (R.power (k + 1)).vars :=
    (R.vars_powerSum k).trans (R.vars_power (k + 1)).symm
  by_cases hmem : x ∈ R.vars ∧ y ∈ R.vars
  · have hunion : (R.powerSum k).unionVariables (R.power (k + 1)) = R.vars :=
      (unionVariables_of_vars_eq hvars).trans (R.vars_powerSum k)
    exact value_sum (hR.powerSum k) (hR.power (k + 1)) (hunion ▸ hmem.1) (hunion ▸ hmem.2)
  · have hout := Decidable.not_and_iff_not_or_not.mp hmem
    rw [value_of_not_mem (by rwa [vars_powerSum]), value_of_not_mem (by rwa [vars_powerSum]),
      value_of_not_mem (by rwa [vars_power]), Scalar.add_self]

theorem value_power_le_powerSum (hR : R.Proper P) {k j : Nat} (hkj : k ≤ j) (x y : String) :
    (R.power k).value σ x y ≤ (R.powerSum j).value σ x y :=
  Scalar.le_running (f := fun k => (R.power k).value σ x y)
    (s := fun k => (R.powerSum k).value σ x y) rfl
    (fun k => value_powerSum_succ hR k x y) hkj

/-- The sum of some powers is, at each entry, one of them. -/
theorem exists_value_power_eq (hR : R.Proper P) (x y : String) (j : Nat) :
    ∃ k, k ≤ j ∧ (R.powerSum j).value σ x y = (R.power k).value σ x y :=
  Scalar.exists_running_eq (f := fun k => (R.power k).value σ x y)
    (s := fun k => (R.powerSum k).value σ x y) rfl
    (fun k => value_powerSum_succ hR k x y) j

/-! ## Repetition makes nothing unbounded, and nothing bounded -/

theorem not_unbounded_power (hR : R.Proper P) (hb : ¬ R.Unbounded σ) :
    ∀ k, ¬ (R.power k).Unbounded σ
  | 0 => not_unbounded_identity hR.nodup σ
  | k + 1 => by
      intro h
      rcases unbounded_of_carries ((unbounded_compose_iff (hR.power k) hR).mp h) with h | h
      · exact not_unbounded_power hR hb k h
      · exact hb h

/-- The closure of a relation is unbounded under the same choices as the relation. -/
theorem unbounded_closure_iff {limit : Nat} (hR : R.Proper P)
    (h : R.closureWithin? limit = some F) : F.Unbounded σ ↔ R.Unbounded σ := by
  obtain ⟨j, rfl, hstop⟩ := closureWithin?_some h
  constructor
  · rintro ⟨x, y, hi⟩
    obtain ⟨k, _, heq⟩ := exists_value_power_eq (σ := σ) hR x y j
    apply Classical.byContradiction
    intro hb
    exact not_unbounded_power hR hb k ⟨x, y, heq ▸ hi⟩
  · -- The sum up to `j` is that up to `j + 1`, which has the first power in it.
    intro hunb
    obtain ⟨x, y, hi⟩ := (unbounded_identity_compose_iff hR.nodup hR).mpr hunb
    refine ⟨x, y, Scalar.le_antisymm (Scalar.le_i _) ?_⟩
    rw [← hstop, ← hi]
    exact value_power_le_powerSum hR (Nat.succ_le_succ (Nat.zero_le j)) x y

/-! ## The closure is complete under every choice -/

theorem value_power_succ (hR : R.Proper P) (hb : ¬ R.Unbounded σ) (k : Nat) {x y : String}
    (hx : x ∈ R.vars) (hy : y ∈ R.vars) :
    (R.power (k + 1)).value σ x y =
      .sum (R.vars.map fun z => (R.power k).value σ x z * R.value σ z y) := by
  have hunion : (R.power k).unionVariables R = R.vars :=
    (unionVariables_of_vars_eq (R.vars_power k)).trans (R.vars_power k)
  have hcompose := value_compose (hR.power k) hR (not_unbounded_power hR hb k) hb
    (hunion ▸ hx) (hunion ▸ hy)
  rw [hunion] at hcompose
  exact hcompose

/-- **The closure is the least upper bound of all powers**, although the search for it looked at some of
them only. -/
theorem closure_le_iff {limit : Nat} (hR : R.Proper P) (hb : ¬ R.Unbounded σ)
    (h : R.closureWithin? limit = some F) {x y : String} (hx : x ∈ R.vars) (hy : y ∈ R.vars)
    {t : Scalar} : F.value σ x y ≤ t ↔ ∀ k, (R.power k).value σ x y ≤ t := by
  obtain ⟨j, rfl, hstop⟩ := closureWithin?_some h
  have hall : ∀ k, ∀ y ∈ R.vars, (R.power k).value σ x y ≤ (R.powerSum j).value σ x y := by
    refine Scalar.rows_le_of_stop (fun k y hy => value_power_succ hR hb k hx hy) ?_
      fun y _ => exists_value_power_eq hR x y j
    -- This is all that the stop of the search says about this choice: one more power adds nothing.
    intro k hk y _
    rw [← hstop]
    exact value_power_le_powerSum hR hk x y
  constructor
  · exact fun hle k => Scalar.le_trans (hall k y hy) hle
  · intro hle
    obtain ⟨k, _, heq⟩ := exists_value_power_eq (σ := σ) hR x y j
    rw [heq]
    exact hle k

/-! ## Corrections by name -/

/-- What an unbounded number of repetitions cannot keep between two names. -/
def unboundedBetween (x y : String) (s : Scalar) : Bool := s == .p || (x == y && s == .w)

theorem unboundedAt_eq {vars : List String} (hnd : vars.Nodup) {x y : String} {i j : Nat}
    (hi : vars[i]? = some x) (hj : vars[j]? = some y) :
    unboundedAt i j = unboundedBetween x y := by
  have hsame : (i == j) = (x == y) := by
    rw [Bool.eq_iff_iff, beq_iff_eq, beq_iff_eq, FlowMatrix.place_eq_iff hnd hi hj]
  funext s
  unfold unboundedAt unboundedBetween
  rw [hsame]

theorem entry_whileCorrection (hnd : R.vars.Nodup) {x y : String} (hx : x ∈ R.vars)
    (hy : y ∈ R.vars) :
    R.whileCorrection.entry x y = (R.entry x y).escalate (unboundedBetween x y) := by
  obtain ⟨i, _, hi⟩ := exists_place hx
  obtain ⟨j, _, hj⟩ := exists_place hy
  unfold whileCorrection
  rw [entry_ofFn hnd hi hj, entry_of_places hnd hi hj, unboundedAt_eq hnd hi hj]

theorem mem_whilePromoted (hnd : R.vars.Nodup) {w : Witness} :
    w ∈ R.whilePromoted ↔
      ∃ x ∈ R.vars, ∃ y ∈ R.vars, w ∈ (R.entry x y).promoted (unboundedBetween x y) := by
  have hinner : ∀ i x, R.vars[i]? = some x →
      ((List.range R.vars.length).flatMap fun j => (R.get i j).promoted (unboundedAt i j)) =
        R.vars.flatMap fun y => (R.entry x y).promoted (unboundedBetween x y) := by
    intro i x hi
    rw [List.flatMap_def, List.flatMap_def]
    congr 1
    refine map_range_length R.vars fun j y hj => ?_
    rw [entry_of_places hnd hi hj, unboundedAt_eq hnd hi hj]
  unfold whilePromoted
  rw [List.flatMap_def, map_range_length R.vars hinner, ← List.flatMap_def]
  simp only [List.mem_flatMap]

/-- The polynomial growth that flows into a variable from others. -/
def chargeInto (R : Relation) (y : String) : Poly :=
  .ofMonomials (R.vars.flatMap fun x =>
    if x = y then [] else (R.entry x y).monomials.filter (·.scalar == .p))

theorem charge_eq (hnd : R.vars.Nodup) {y : String} {j : Nat} (hj : R.vars[j]? = some y) :
    R.charge j = R.chargeInto y := by
  unfold charge chargeInto
  rw [List.flatMap_def, List.flatMap_def]
  congr 2
  refine map_range_length R.vars fun i x hi => ?_
  simp only [FlowMatrix.place_eq_iff hnd hi hj, entry_of_places hnd hi hj]

theorem entry_boundedCorrection (hnd : R.vars.Nodup) {guard x y : String} (hx : x ∈ R.vars)
    (hy : y ∈ R.vars) :
    (R.boundedCorrection guard).entry x y =
      let entry := if x = y then (R.entry x y).escalate (· != .m) else R.entry x y
      if x = guard then entry + R.chargeInto y else entry := by
  obtain ⟨i, _, hi⟩ := exists_place hx
  obtain ⟨j, _, hj⟩ := exists_place hy
  have hguard : R.position? guard = some i ↔ x = guard := by
    unfold position?
    rw [idxOf?_iff hnd, hi, Option.some.injEq]
  unfold boundedCorrection
  rw [entry_ofFn hnd hi hj, entry_of_places hnd hi hj, charge_eq hnd hj]
  simp only [hguard, FlowMatrix.place_eq_iff hnd hi hj]

/-- What a guarded loop reports between two names: anything but `m` from a variable to itself. -/
def selfPromoted (R : Relation) (x y : String) : List Witness :=
  if x = y then (R.entry x y).promoted (· != .m) else []

theorem mem_boundedPromoted (hnd : R.vars.Nodup) {w : Witness} :
    w ∈ R.boundedPromoted ↔ ∃ x ∈ R.vars, ∃ y ∈ R.vars, w ∈ R.selfPromoted x y := by
  unfold boundedPromoted
  rw [List.flatMap_def, map_range_length R.vars (f := fun x => (R.entry x x).promoted (· != .m))
    fun i x hi => by rw [entry_of_places hnd hi hi], ← List.flatMap_def, List.mem_flatMap]
  constructor
  · rintro ⟨x, hx, hw⟩
    exact ⟨x, hx, x, hx, by rwa [selfPromoted, if_pos rfl]⟩
  · rintro ⟨x, hx, y, _, hw⟩
    unfold selfPromoted at hw
    split at hw
    · rename_i hxy
      exact ⟨x, hx, hxy ▸ hw⟩
    · exact absurd hw List.not_mem_nil

/-! ## Corrections under a choice -/

theorem charge_formed (hR : R.Proper P) (y : String) :
    ∀ m ∈ R.vars.flatMap fun x =>
      if x = y then [] else (R.entry x y).monomials.filter (·.scalar == .p), m.Formed P := by
  intro m hm
  obtain ⟨x, _, hm⟩ := List.mem_flatMap.mp hm
  split at hm
  · exact absurd hm List.not_mem_nil
  · exact (hR.entries x y m (List.mem_filter.mp hm).1).2

theorem proper_chargeInto (hR : R.Proper P) (y : String) : (R.chargeInto y).Proper P :=
  Poly.proper_ofMonomials (charge_formed hR y)

theorem chargeInto_le_iff (hR : R.Proper P) {y : String} {t : Scalar} :
    (R.chargeInto y).value σ ≤ t ↔ ∀ x ∈ R.vars, x ≠ y → ∀ m ∈ (R.entry x y).monomials,
      m.scalar = .p → σ.meets m.deltas = true → .p ≤ t := by
  unfold chargeInto
  rw [Poly.value_ofMonomials_le_iff (charge_formed hR y)]
  constructor
  · intro h x hx hxy m hm hp hmet
    have hmem : m ∈ R.vars.flatMap fun x =>
        if x = y then [] else (R.entry x y).monomials.filter (·.scalar == .p) := by
      refine List.mem_flatMap.mpr ⟨x, hx, ?_⟩
      rw [if_neg hxy]
      exact List.mem_filter.mpr ⟨hm, beq_iff_eq.mpr hp⟩
    exact hp ▸ Monomial.value_le_iff.mp (h m hmem) hmet
  · intro h m hm
    obtain ⟨x, hx, hm⟩ := List.mem_flatMap.mp hm
    split at hm
    · exact absurd hm List.not_mem_nil
    · rename_i hxy
      obtain ⟨hm, hp⟩ := List.mem_filter.mp hm
      refine Monomial.value_le_iff.mpr fun hmet => ?_
      rw [beq_iff_eq.mp hp]
      exact h x hx hxy m hm (beq_iff_eq.mp hp) hmet

theorem chargeInto_ne_i (hR : R.Proper P) (y : String) : (R.chargeInto y).value σ ≠ .i := by
  have hle : (R.chargeInto y).value σ ≤ .p :=
    (chargeInto_le_iff hR).mpr fun _ _ _ _ _ _ _ => Scalar.le_refl _
  intro h
  rw [h] at hle
  exact absurd hle (by decide)

/-- As long as nothing is unbounded, the charge into a variable is `p` exactly if that flows into it from
another one. -/
theorem value_chargeInto (hR : R.Proper P) (hb : ¬ R.Unbounded σ) (y : String) :
    (R.chargeInto y).value σ =
      if R.vars.any fun x => x != y && R.value σ x y == .p then .p else .o := by
  apply Scalar.eq_of_le_iff
  intro t
  rw [chargeInto_le_iff hR]
  split
  · rename_i h
    obtain ⟨x, hx, hand⟩ := List.any_eq_true.mp h
    simp only [Bool.and_eq_true, bne_iff_ne, beq_iff_eq] at hand
    obtain ⟨m, hm, hmet, heq⟩ := Poly.exists_monomial (σ := σ) (p := R.entry x y)
      (by rw [show (R.entry x y).value σ = .p from hand.2]; decide)
    constructor
    · exact fun hle => hle x hx hand.1 m hm (heq.trans hand.2) hmet
    · exact fun hle _ _ _ _ _ _ _ => hle
  · rename_i h
    refine ⟨fun _ => Scalar.o_le t, fun _ x hx hxy m hm hp hmet => ?_⟩
    -- A met `p` is the whole scalar, because nothing is unbounded.
    have hle : .p ≤ R.value σ x y := hp ▸ Poly.le_value hm hmet
    have heq : R.value σ x y = .p := Scalar.eq_p_of_le hle fun hi => hb ⟨x, y, hi⟩
    exact absurd (List.any_eq_true.mpr ⟨x, hx, by simp [hxy, heq]⟩) h

/-- The correction of a loop: one that repeats as often as a guard says, or without a bound. -/
def correct (R : Relation) : Option String → Relation
  | none => R.whileCorrection
  | some guard => R.boundedCorrection guard

/-- The demands that the correction reports. -/
def promoted (R : Relation) : Option String → List Witness
  | none => R.whilePromoted
  | some _ => R.boundedPromoted

@[simp] theorem vars_correct (R : Relation) (guard : Option String) :
    (R.correct guard).vars = R.vars := by
  cases guard with
  | none => rfl
  | some guard => rfl

theorem Proper.correct (hR : R.Proper P) (guard : Option String) : (R.correct guard).Proper P := by
  refine proper_of_mem (by rw [vars_correct]; exact hR.nodup) fun x hx y hy => ?_
  rw [vars_correct] at hx hy
  cases guard with
  | none =>
      show (R.whileCorrection.entry x y).Proper P
      rw [entry_whileCorrection hR.nodup hx hy]
      exact (hR.entries x y).escalate _
  | some guard =>
      show ((R.boundedCorrection guard).entry x y).Proper P
      rw [entry_boundedCorrection hR.nodup hx hy]
      have hentry : (if x = y then (R.entry x y).escalate (· != .m) else R.entry x y).Proper P := by
        split
        · exact (hR.entries x y).escalate _
        · exact hR.entries x y
      simp only
      split
      · exact hentry.add (proper_chargeInto hR y)
      · exact hentry

/-- Every demand that a correction reports is sorted and is one of the relation's. -/
theorem Proper.promoted (hR : R.Proper P) {guard : Option String} {w : Witness}
    (hw : w ∈ R.promoted guard) : Sorted w ∧ ∀ d ∈ w, P d := by
  have hentry : ∀ x y (f : Scalar → Bool), w ∈ (R.entry x y).promoted f →
      Sorted w ∧ ∀ d ∈ w, P d := by
    intro x y f hw
    obtain ⟨m, hm, _, rfl⟩ := Poly.mem_promoted.mp hw
    have hformed := (hR.entries x y m hm).2
    exact ⟨hformed.sorted, hformed.demands⟩
  cases guard with
  | none =>
      obtain ⟨x, _, y, _, hw⟩ := (mem_whilePromoted hR.nodup).mp hw
      exact hentry x y _ hw
  | some guard =>
      obtain ⟨x, _, y, _, hw⟩ := (mem_boundedPromoted hR.nodup).mp hw
      unfold selfPromoted at hw
      split at hw
      · exact hentry x y _ hw
      · exact absurd hw List.not_mem_nil

/-- Where each scalar is `i` if it was before or if one of the demands at its place is met, the whole is
unbounded if it was before or if one of all the demands is met. -/
theorem unbounded_iff_of_values {S : Relation} {demands : String → String → List Witness}
    {ws : List Witness} (hvars : S.vars = R.vars)
    (hws : ∀ {w}, w ∈ ws ↔ ∃ x ∈ R.vars, ∃ y ∈ R.vars, w ∈ demands x y)
    (hvalue : ∀ x ∈ R.vars, ∀ y ∈ R.vars,
      (S.value σ x y = .i ↔ (demands x y).any σ.meets = true ∨ R.value σ x y = .i)) :
    S.Unbounded σ ↔ R.Unbounded σ ∨ ∃ w ∈ ws, σ.meets w = true := by
  constructor
  · rintro ⟨x, y, h⟩
    obtain ⟨hx, hy⟩ := mem_of_value_eq_i h
    rw [hvars] at hx hy
    rcases (hvalue x hx y hy).mp h with h | h
    · obtain ⟨w, hw, hmet⟩ := List.any_eq_true.mp h
      exact .inr ⟨w, hws.mpr ⟨x, hx, y, hy, hw⟩, hmet⟩
    · exact .inl ⟨x, y, h⟩
  · rintro (⟨x, y, h⟩ | ⟨w, hw, hmet⟩)
    · obtain ⟨hx, hy⟩ := mem_of_value_eq_i h
      exact ⟨x, y, (hvalue x hx y hy).mpr (.inr h)⟩
    · obtain ⟨x, hx, y, hy, hw⟩ := hws.mp hw
      exact ⟨x, y, (hvalue x hx y hy).mpr (.inl (List.any_eq_true.mpr ⟨w, hw, hmet⟩))⟩

theorem unbounded_whileCorrection_iff (hR : R.Proper P) :
    R.whileCorrection.Unbounded σ ↔ R.Unbounded σ ∨ ∃ w ∈ R.whilePromoted, σ.meets w = true := by
  refine unbounded_iff_of_values rfl (mem_whilePromoted hR.nodup) fun x hx y hy => ?_
  rw [value, entry_whileCorrection hR.nodup hx hy]
  exact Poly.value_escalate_eq_i_iff (hR.entries x y)

theorem unbounded_boundedCorrection_iff (hR : R.Proper P) {guard : String} :
    (R.boundedCorrection guard).Unbounded σ ↔
      R.Unbounded σ ∨ ∃ w ∈ R.boundedPromoted, σ.meets w = true := by
  refine unbounded_iff_of_values rfl (mem_boundedPromoted hR.nodup) fun x hx y hy => ?_
  have hentry : (if x = y then (R.entry x y).escalate (· != .m) else R.entry x y).Proper P ∧
      ((if x = y then (R.entry x y).escalate (· != .m) else R.entry x y).value σ = .i ↔
        (R.selfPromoted x y).any σ.meets = true ∨ R.value σ x y = .i) := by
    unfold selfPromoted
    split
    · exact ⟨(hR.entries x y).escalate _, Poly.value_escalate_eq_i_iff (hR.entries x y)⟩
    · exact ⟨hR.entries x y, .inr, fun hor => hor.resolve_left Bool.false_ne_true⟩
  rw [value, entry_boundedCorrection hR.nodup hx hy]
  simp only
  split
  · -- The charge is at most `p`, so it makes nothing unbounded.
    rw [Poly.value_add hentry.1 (proper_chargeInto hR y), Scalar.add_eq_i_iff, hentry.2]
    exact or_iff_left (chargeInto_ne_i hR y)
  · exact hentry.2

/-- **What a correction makes unbounded**: exactly the choices that meet one of the demands it reports. -/
theorem unbounded_correct_iff (hR : R.Proper P) {guard : Option String} :
    (R.correct guard).Unbounded σ ↔
      R.Unbounded σ ∨ ∃ w ∈ R.promoted guard, σ.meets w = true := by
  cases guard with
  | none => exact unbounded_whileCorrection_iff hR
  | some guard => exact unbounded_boundedCorrection_iff hR

end Relation

end GrowthFlow
