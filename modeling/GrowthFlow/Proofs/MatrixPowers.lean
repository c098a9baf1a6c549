import GrowthFlow.Proofs.Entries
import GrowthFlow.Proofs.NormalForm

/-!
# Powers of a matrix

The closure of a matrix is searched for by summing up its powers. Here the sums are taken as they are,
`powerSum k` for at most `k` repetitions, and described by their scalars under one choice (`reach`).

The difficulty is `i`. A product is not monotone: a silent factor loses an `i`, and zero, which is worth no
more than a silent factor, keeps it. So the scalars of a power do not follow from those of the power before.
Those of the *sums* do. The first power carries an `i` of the matrix into its whole column, because the
identity has no silent entry; from then on that `i` is in every sum, whatever later powers lose. What is
left is a step that is monotone and takes nothing to nothing (`Poly.carry`), and the sums obey

  reach (k + 1) = reach 1 + the largest scalar carried from reach k        (`le_reach_succ_iff`).

In particular a sum that the next power leaves alone is left alone by all later ones
(`powerSum_eq_of_stop`).
-/

namespace GrowthFlow

/-! ## What a flow makes of a scalar -/

namespace Poly

variable {P : Delta → Prop} {p q : Poly} {σ : Selection} {a b t : Scalar}

/-- What a flow makes of a scalar before it: nothing if there is nothing, or if the flow is silent. -/
def carry (σ : Selection) (q : Poly) (a : Scalar) : Scalar :=
  if a = .o ∨ q.silent σ = true then .o else a * q.value σ

theorem carry_of_ne_o (ha : a ≠ .o) (hq : q.silent σ = false) : q.carry σ a = a * q.value σ :=
  if_neg (not_or.mpr ⟨ha, by rw [hq]; exact Bool.false_ne_true⟩)

theorem le_carry_iff (ht : t ≠ .o) :
    t ≤ q.carry σ a ↔ a ≠ .o ∧ q.silent σ = false ∧ t ≤ a * q.value σ := by
  unfold carry
  split
  · rename_i h
    constructor
    · intro hle
      exact absurd (Scalar.le_antisymm hle (Scalar.o_le t)) ht
    · rintro ⟨ha, hq, _⟩
      rcases h with h | h
      · exact absurd h ha
      · exact absurd (hq.symm.trans h) Bool.false_ne_true
  · rename_i h
    rw [not_or, Bool.not_eq_true] at h
    exact ⟨fun hle => ⟨h.1, h.2, hle⟩, fun hle => hle.2.2⟩

theorem carry_mono (h : a ≤ b) : q.carry σ a ≤ q.carry σ b := by
  by_cases ho : q.carry σ a = .o
  · rw [ho]
    exact Scalar.o_le _
  · obtain ⟨ha, hq, hle⟩ := (le_carry_iff ho).mp (Scalar.le_refl _)
    have hb : b ≠ .o := Scalar.ne_o_of_le ha h
    rw [le_carry_iff ho]
    exact ⟨hb, hq, Scalar.le_trans hle (Scalar.mul_le_mul h (Scalar.le_refl _))⟩

theorem value_eq_o_of_silent (h : q.silent σ = true) : q.value σ = .o := by
  simp only [silent, Bool.and_eq_true, beq_iff_eq] at h
  exact h.2

theorem silent_eq_false (h : q.value σ ≠ .o) : q.silent σ = false := by
  cases hs : q.silent σ with
  | false => rfl
  | true => exact absurd (value_eq_o_of_silent hs) h

theorem carry_m : q.carry σ .m = q.value σ := by
  cases hs : q.silent σ with
  | false => rw [carry_of_ne_o (by decide) hs, Scalar.m_mul]
  | true =>
      rw [value_eq_o_of_silent hs]
      exact if_pos (.inr hs)

/-- A product is what the second factor makes of the first, but for zero before `i`. -/
theorem value_mul_eq_carry (hp : p.Proper P) (hq : q.Proper P)
    (h : p.value σ ≠ .o ∨ q.value σ ≠ .i) : (p * q).value σ = q.carry σ (p.value σ) := by
  rw [value_mul hp hq]
  by_cases ho : p.value σ = .o
  · have hqi : q.value σ ≠ .i := h.resolve_left fun hne => hne ho
    rw [show q.carry σ (p.value σ) = .o from if_pos (.inl ho), ho, Scalar.o_mul hqi, ite_self]
  · rw [silent_eq_false ho, Bool.false_or]
    cases hs : q.silent σ with
    | false => rw [carry_of_ne_o ho hs, if_neg Bool.false_ne_true]
    | true => rw [show q.carry σ (p.value σ) = .o from if_pos (.inr hs), if_pos rfl]

theorem carry_le_value_mul (hp : p.Proper P) (hq : q.Proper P) :
    q.carry σ (p.value σ) ≤ (p * q).value σ := by
  by_cases ho : p.value σ = .o
  · rw [show q.carry σ (p.value σ) = .o from if_pos (.inl ho)]
    exact Scalar.o_le _
  · rw [value_mul_eq_carry hp hq (.inl ho)]
    exact Scalar.le_refl _

end Poly

/-! ## Matrices by their scalars -/

namespace FlowMatrix

variable {M N : FlowMatrix} {σ : Selection} {i j : Nat}

/-- All entries are in normal form. -/
def Normal (M : FlowMatrix) : Prop := ∀ p ∈ M.entries, p.Normal

instance (M : FlowMatrix) : Decidable M.Normal :=
  inferInstanceAs (Decidable (∀ p ∈ M.entries, p.Normal))

theorem Normal.get (hM : M.Normal) (hi : i < M.size) (hj : j < M.size) : (M.get i j).Normal :=
  hM _ (mem_entries.mpr ⟨i, j, hi, hj, rfl⟩)

theorem normal_ofFn {n : Nat} {f : Nat → Nat → Poly}
    (h : ∀ i j, i < n → j < n → (f i j).Normal) : (ofFn n f).Normal := by
  intro p hp
  obtain ⟨i, j, hi, hj, rfl⟩ := mem_entries.mp hp
  rw [size_ofFn] at hi hj
  rw [get_ofFn f hi hj]
  exact h i j hi hj

/-- The scalar at a place under a choice. -/
def value (M : FlowMatrix) (σ : Selection) (i j : Nat) : Scalar := (M.get i j).value σ

/-- Matrices with normal entries are equal if they are worth the same under every choice. -/
theorem ext_value (hM : M.Normal) (hN : N.Normal) (hsize : M.size = N.size)
    (h : ∀ σ i j, i < M.size → j < M.size → M.value σ i j = N.value σ i j) : M = N := by
  refine ext_get hsize fun i j hi hj => ?_
  exact (hM.get hi hj).ext (hN.get (hsize ▸ hi) (hsize ▸ hj)) fun σ => h σ i j hi hj

@[simp] theorem size_identity (n : Nat) : (identity n).size = n := size_ofFn ..

theorem get_identity {n : Nat} (hi : i < n) (hj : j < n) :
    (identity n).get i j = if i = j then .unit else .zero :=
  get_ofFn _ hi hj

theorem get_add (hsize : N.size = M.size) (hi : i < M.size) (hj : j < M.size) :
    (M + N).get i j = M.get i j + N.get i j := by
  refine get_ofFn _ ?_ ?_
  · omega
  · omega

theorem get_mul (hi : i < M.size) (hj : j < M.size) :
    (M * N).get i j = .sumOver (List.range M.size) fun k => M.get i k * N.get k j :=
  get_ofFn _ hi hj

theorem normal_identity (n : Nat) : (identity n).Normal := by
  refine normal_ofFn fun i j _ _ => ?_
  split
  · exact Poly.normal_unit
  · exact Poly.normal_zero

theorem Normal.add (hM : M.Normal) (hN : N.Normal) (hsize : N.size = M.size) : (M + N).Normal := by
  refine normal_ofFn fun i j hi hj => ?_
  have hmin : min M.size N.size = M.size := by omega
  rw [hmin] at hi hj
  exact (hM.get hi hj).add (hN.get (hsize ▸ hi) (hsize ▸ hj))

theorem Normal.mul (hM : M.Normal) (hN : N.Normal) (hsize : N.size = M.size) : (M * N).Normal := by
  refine normal_ofFn fun i j hi hj => Poly.normal_sumOver fun k hk => ?_
  have hk := List.mem_range.mp hk
  exact (hM.get hi hk).mul (hN.get (hsize ▸ hk) (hsize ▸ hj))

theorem value_identity {n : Nat} (hi : i < n) (hj : j < n) :
    (identity n).value σ i j = if i = j then .m else .o := by
  rw [value, get_identity hi hj]
  split
  · exact Poly.value_unit σ
  · exact Poly.value_zero σ

theorem silent_identity {n : Nat} (hi : i < n) (hj : j < n) :
    ((identity n).get i j).silent σ = false := by
  rw [get_identity hi hj]
  split
  · exact Poly.silent_unit σ
  · exact Poly.silent_zero σ

theorem value_add (hM : M.Normal) (hN : N.Normal) (hsize : N.size = M.size) (hi : i < M.size)
    (hj : j < M.size) : (M + N).value σ i j = M.value σ i j + N.value σ i j := by
  rw [value, get_add hsize hi hj]
  exact Poly.value_add (hM.get hi hj).proper (hN.get (hsize ▸ hi) (hsize ▸ hj)).proper σ

theorem value_mul (hM : M.Normal) (hN : N.Normal) (hsize : N.size = M.size) (hi : i < M.size)
    (hj : j < M.size) :
    (M * N).value σ i j =
      .sum ((List.range M.size).map fun k => (M.get i k * N.get k j).value σ) := by
  rw [value, get_mul hi hj]
  refine Poly.value_sumOver (P := fun _ => True) (fun k hk => ?_) σ
  have hk := List.mem_range.mp hk
  exact (hM.get hi hk).proper.mul (hN.get (hsize ▸ hk) (hsize ▸ hj)).proper

/-- A sum is what it was exactly if nothing in it is larger. -/
theorem add_eq_left_iff (hM : M.Normal) (hN : N.Normal) (hsize : N.size = M.size) :
    M + N = M ↔ ∀ σ i j, i < M.size → j < M.size → N.value σ i j ≤ M.value σ i j := by
  have hsum : (M + N).size = M.size := by
    rw [size_add]
    omega
  constructor
  · intro h σ i j hi hj
    have hvalue := value_add (σ := σ) hM hN hsize hi hj
    rw [h] at hvalue
    rw [hvalue]
    exact Scalar.le_add_right _ _
  · intro h
    refine ext_value (hM.add hN hsize) hM hsum fun σ i j hi hj => ?_
    rw [hsum] at hi hj
    rw [value_add hM hN hsize hi hj]
    apply Scalar.eq_of_le_iff
    intro t
    rw [Scalar.add_le_iff]
    exact ⟨fun hle => hle.1, fun hle => ⟨hle, Scalar.le_trans (h σ i j hi hj) hle⟩⟩

/-! ## The search for the closure -/

/-- A number of repetitions. -/
def power (M : FlowMatrix) : Nat → FlowMatrix
  | 0 => identity M.size
  | k + 1 => M.power k * M

/-- At most a number of repetitions. -/
def powerSum (M : FlowMatrix) : Nat → FlowMatrix
  | 0 => identity M.size
  | k + 1 => M.powerSum k + M.power (k + 1)

@[simp] theorem size_power (M : FlowMatrix) : ∀ k, (M.power k).size = M.size
  | 0 => size_identity M.size
  | k + 1 => (size_mul (M.power k) M).trans (M.size_power k)

@[simp] theorem size_powerSum (M : FlowMatrix) : ∀ k, (M.powerSum k).size = M.size
  | 0 => size_identity M.size
  | k + 1 => by
      have hsize := size_add (M.powerSum k) (M.power (k + 1))
      rw [M.size_powerSum k, M.size_power, Nat.min_self] at hsize
      exact hsize

/-- The search ends at a sum of powers that the next power leaves alone. -/
theorem sumPowers_stop (M : FlowMatrix) : ∀ (limit k : Nat) {F : FlowMatrix},
    M.sumPowers limit (M.powerSum k) (M.power k) = (true, F) →
    ∃ j, F = M.powerSum j ∧ M.powerSum (j + 1) = M.powerSum j
  | 0, _, _, h => absurd (congrArg Prod.fst h) Bool.false_ne_true
  | limit + 1, k, F, h => by
      change (if M.powerSum (k + 1) = M.powerSum k then (true, M.powerSum k)
        else M.sumPowers limit (M.powerSum (k + 1)) (M.power (k + 1))) = (true, F) at h
      split at h
      · rename_i hstop
        exact ⟨k, (congrArg Prod.snd h).symm, hstop⟩
      · exact sumPowers_stop M limit (k + 1) h

/-- If there is such a sum within the limit, the search ends. -/
theorem sumPowers_finds (M : FlowMatrix) {j : Nat} (hstop : M.powerSum (j + 1) = M.powerSum j) :
    ∀ limit k : Nat, k ≤ j → j < k + limit →
      (M.sumPowers limit (M.powerSum k) (M.power k)).1 = true
  | 0, k, hk, hj => by omega
  | limit + 1, k, hk, hj => by
      change (if M.powerSum (k + 1) = M.powerSum k then (true, M.powerSum k)
        else M.sumPowers limit (M.powerSum (k + 1)) (M.power (k + 1))).1 = true
      split
      · rfl
      · rename_i hne
        have hkj : k ≠ j := fun hkj => hne (hkj ▸ hstop)
        exact sumPowers_finds M hstop limit (k + 1) (by omega) (by omega)

/-! ## Sums of powers under a choice -/

/-- The scalar between two places after at most `k` repetitions. -/
def reach (M : FlowMatrix) (σ : Selection) (k i j : Nat) : Scalar := (M.powerSum k).value σ i j

theorem Normal.power (hM : M.Normal) : ∀ k, (M.power k).Normal
  | 0 => normal_identity M.size
  | k + 1 => (Normal.power hM k).mul hM (M.size_power k).symm

theorem Normal.powerSum (hM : M.Normal) : ∀ k, (M.powerSum k).Normal
  | 0 => normal_identity M.size
  | k + 1 => by
      refine (Normal.powerSum hM k).add (hM.power (k + 1)) ?_
      rw [size_power, size_powerSum]

section Reach

variable (hM : M.Normal) {k : Nat} {t : Scalar} (hi : i < M.size) (hj : j < M.size)

include hi

theorem m_le_reach_zero : .m ≤ M.reach σ 0 i i := by
  have hvalue : M.reach σ 0 i i = .m := (value_identity hi hi).trans (if_pos rfl)
  rw [hvalue]
  exact Scalar.le_refl _

include hj

theorem reach_zero_cases (ht : t ≠ .o) (h : t ≤ M.reach σ 0 i j) : i = j ∧ t ≤ .m := by
  rw [show M.reach σ 0 i j = if i = j then .m else .o from value_identity hi hj] at h
  by_cases hij : i = j
  · rw [if_pos hij] at h
    exact ⟨hij, h⟩
  · rw [if_neg hij] at h
    exact absurd (Scalar.le_antisymm h (Scalar.o_le t)) ht

include hM

theorem reach_succ : M.reach σ (k + 1) i j = M.reach σ k i j + (M.power (k + 1)).value σ i j := by
  have hsize : (M.power (k + 1)).size = (M.powerSum k).size := by rw [size_power, size_powerSum]
  rw [← M.size_powerSum k] at hi hj
  exact value_add (hM.powerSum k) (hM.power (k + 1)) hsize hi hj

theorem proper_power (k : Nat) : ((M.power k).get i j).Proper fun _ => True := by
  rw [← M.size_power k] at hi hj
  exact ((hM.power k).get hi hj).proper

theorem power_le_reach {l : Nat} (hl : l ≤ k) : (M.power l).value σ i j ≤ M.reach σ k i j :=
  Scalar.le_running (f := fun l => (M.power l).value σ i j) (s := fun k => M.reach σ k i j) rfl
    (fun _ => reach_succ hM hi hj) hl

theorem exists_power_eq_reach (σ : Selection) (k : Nat) :
    ∃ l, l ≤ k ∧ M.reach σ k i j = (M.power l).value σ i j :=
  Scalar.exists_running_eq (f := fun l => (M.power l).value σ i j)
    (s := fun k => M.reach σ k i j) rfl (fun _ => reach_succ hM hi hj) k

theorem reach_mono {l : Nat} (hl : l ≤ k) : M.reach σ l i j ≤ M.reach σ k i j := by
  obtain ⟨m, hm, heq⟩ := exists_power_eq_reach hM hi hj σ l
  rw [heq]
  exact power_le_reach hM hi hj (Nat.le_trans hm hl)

/-- A scalar of a power goes through some place. -/
theorem le_power_succ_iff (ht : t ≠ .o) :
    t ≤ (M.power (k + 1)).value σ i j ↔
      ∃ z, z < M.size ∧ t ≤ ((M.power k).get i z * M.get z j).value σ := by
  have hsize := M.size_power k
  have hvalue := value_mul (σ := σ) (hM.power k) hM hsize.symm (hsize.symm ▸ hi) (hsize.symm ▸ hj)
  rw [show (M.power (k + 1)).value σ i j = _ from hvalue, Scalar.le_sum_iff ht, hsize]
  constructor
  · rintro ⟨s, hs, hle⟩
    obtain ⟨z, hz, rfl⟩ := List.mem_map.mp hs
    exact ⟨z, List.mem_range.mp hz, hle⟩
  · rintro ⟨z, hz, hle⟩
    exact ⟨_, List.mem_map.mpr ⟨z, List.mem_range.mpr hz, rfl⟩, hle⟩

/-- What one place makes of a scalar of a power is in the next one. -/
theorem carry_le_power {z : Nat} (hz : z < M.size) :
    (M.get z j).carry σ ((M.power k).value σ i z) ≤ (M.power (k + 1)).value σ i j := by
  by_cases ho : (M.get z j).carry σ ((M.power k).value σ i z) = .o
  · rw [ho]
    exact Scalar.o_le _
  · rw [le_power_succ_iff hM hi hj ho]
    exact ⟨z, hz, Poly.carry_le_value_mul (proper_power hM hi hz k) (hM.get hz hj).proper⟩

/-- The first power has the matrix in it. -/
theorem value_le_reach_one : M.value σ i j ≤ M.reach σ 1 i j := by
  have hcarry := carry_le_power (σ := σ) (k := 0) hM hi hj hi
  have hself : (M.power 0).value σ i i = .m := (value_identity hi hi).trans (if_pos rfl)
  rw [hself, Poly.carry_m] at hcarry
  exact Scalar.le_trans hcarry (power_le_reach hM hi hj (Nat.le_refl 1))

/-- The first power carries an `i` into its whole column. -/
theorem reach_one_eq_i {z : Nat} (hz : z < M.size) (h : M.value σ z j = .i) :
    M.reach σ 1 i j = .i := by
  have hproduct : ((M.power 0).get i z * M.get z j).value σ = .i := by
    rw [Poly.value_mul_eq_i_iff (proper_power hM hi hz 0) (hM.get hz hj).proper]
    exact .inr ⟨silent_identity hi hz, h⟩
  have hpower : .i ≤ (M.power 1).value σ i j := by
    rw [le_power_succ_iff hM hi hj (by decide)]
    exact ⟨z, hz, hproduct ▸ Scalar.le_refl _⟩
  refine Scalar.le_antisymm (Scalar.le_i _) ?_
  exact Scalar.le_trans hpower (power_le_reach hM hi hj (Nat.le_refl 1))

/-- There is nothing else in the first power. -/
theorem le_reach_one (ht : t ≠ .o) (h : t ≤ M.reach σ 1 i j) :
    t ≤ M.reach σ 0 i j ∨ t ≤ M.value σ i j ∨ ∃ z, z < M.size ∧ M.value σ z j = .i := by
  rw [reach_succ hM hi hj, Scalar.le_add_iff] at h
  rcases h with h | h
  · exact .inl h
  · obtain ⟨z, hz, hle⟩ := (le_power_succ_iff hM hi hj ht).mp h
    by_cases hcol : M.value σ z j = .i
    · exact .inr (.inr ⟨z, hz, hcol⟩)
    · refine .inr (.inl ?_)
      rw [Poly.value_mul_eq_carry (proper_power hM hi hz 0) (hM.get hz hj).proper (.inr hcol)] at hle
      -- The identity has something at the place `i` only.
      have hvalue : ((M.power 0).get i z).value σ = if i = z then .m else .o := value_identity hi hz
      have hne := ((Poly.le_carry_iff ht).mp hle).1
      by_cases hiz : i = z
      · rw [hvalue, if_pos hiz, Poly.carry_m, ← hiz] at hle
        exact hle
      · exact absurd (hvalue.trans (if_neg hiz)) hne

/-- **One more repetition.** Beyond the first power, a sum has what is carried from the sum before. -/
theorem le_reach_succ_iff (ht : t ≠ .o) :
    t ≤ M.reach σ (k + 1) i j ↔
      t ≤ M.reach σ 1 i j ∨ ∃ z, z < M.size ∧ t ≤ (M.get z j).carry σ (M.reach σ k i z) := by
  constructor
  · intro h
    obtain ⟨l, hl, heq⟩ := exists_power_eq_reach hM hi hj σ (k + 1)
    rw [heq] at h
    cases l with
    | zero => exact .inl (Scalar.le_trans h (power_le_reach hM hi hj (Nat.zero_le 1)))
    | succ l =>
        obtain ⟨z, hz, hle⟩ := (le_power_succ_iff hM hi hj ht).mp h
        by_cases hcol : M.value σ z j = .i
        · -- The power may keep this `i` or lose it; the first one has it.
          rw [reach_one_eq_i hM hi hj hz hcol]
          exact .inl (Scalar.le_i t)
        · rw [Poly.value_mul_eq_carry (proper_power hM hi hz l) (hM.get hz hj).proper (.inr hcol)] at hle
          refine .inr ⟨z, hz, Scalar.le_trans hle (Poly.carry_mono ?_)⟩
          exact power_le_reach hM hi hz (Nat.le_of_succ_le_succ hl)
  · rintro (h | ⟨z, hz, hle⟩)
    · exact Scalar.le_trans h (reach_mono hM hi hj (Nat.succ_le_succ (Nat.zero_le k)))
    · obtain ⟨l, hl, heq⟩ := exists_power_eq_reach hM hi hz σ k
      rw [heq] at hle
      exact Scalar.le_trans hle (Scalar.le_trans (carry_le_power hM hi hj hz)
        (power_le_reach hM hi hj (Nat.succ_le_succ hl)))

end Reach

/-- **Induction along a row.** What is in a row started as `m` at its own place, or came out of a column that
has an `i`, or was carried from a place where the same holds of it. -/
theorem reach_induction (hM : M.Normal) (hi : i < M.size) {C : Nat → Scalar → Prop}
    (start : ∀ t, t ≠ .o → t ≤ .m → C i t)
    (column : ∀ z j t, z < M.size → j < M.size → M.value σ z j = .i → C j t)
    (step : ∀ z j a t, z < M.size → j < M.size → C z a → a ≠ .o → (M.get z j).silent σ = false →
      t ≠ .o → t ≤ a * M.value σ z j → C j t) :
    ∀ k j t, j < M.size → t ≠ .o → t ≤ M.reach σ k i j → C j t := by
  have hzero : ∀ j t, j < M.size → t ≠ .o → t ≤ M.reach σ 0 i j → C j t := by
    intro j t hj ht h
    obtain ⟨rfl, hm⟩ := reach_zero_cases hi hj ht h
    exact start t ht hm
  intro k
  induction k with
  | zero => exact hzero
  | succ k ih =>
      intro j t hj ht h
      rcases (le_reach_succ_iff hM hi hj ht).mp h with hone | ⟨z, hz, hle⟩
      · rcases le_reach_one hM hi hj ht hone with hle | hle | ⟨z, hz, hcol⟩
        · exact hzero j t hj ht hle
        · -- the first entry, behind the start
          have hne : M.value σ i j ≠ .o := Scalar.ne_o_of_le ht hle
          have hstart : C i .m := start .m (by decide) (Scalar.le_refl _)
          refine step i j .m t hi hj hstart (by decide) (Poly.silent_eq_false hne) ht ?_
          rw [Scalar.m_mul]
          exact hle
        · exact column z j t hz hj hcol
      · obtain ⟨hreached, hquiet, hmul⟩ := (Poly.le_carry_iff ht).mp hle
        have hz' := ih z _ hz hreached (Scalar.le_refl _)
        exact step z j _ t hz hj hz' hreached hquiet ht hmul

/-- **A stop is for good.** A sum that the next power leaves alone is left alone by all later ones. -/
theorem powerSum_eq_of_stop (hM : M.Normal) {j : Nat} (h : M.powerSum (j + 1) = M.powerSum j) :
    ∀ l, M.powerSum (j + l) = M.powerSum j
  | 0 => rfl
  | l + 1 => by
      have ih := powerSum_eq_of_stop hM h l
      rw [← h]
      refine ext_value (hM.powerSum (j + l + 1)) (hM.powerSum (j + 1)) (by simp) ?_
      intro σ x y hx hy
      rw [size_powerSum] at hx hy
      -- Both sums are one step behind sums that are equal.
      have hreach : ∀ z, M.reach σ (j + l) x z = M.reach σ j x z := by
        intro z
        rw [reach, ih]
        rfl
      refine Scalar.eq_of_ge_iff fun t ht => ?_
      show t ≤ M.reach σ (j + l + 1) x y ↔ t ≤ M.reach σ (j + 1) x y
      rw [le_reach_succ_iff (k := j + l) hM hx hy ht, le_reach_succ_iff (k := j) hM hx hy ht]
      simp only [hreach]

end FlowMatrix

end GrowthFlow
