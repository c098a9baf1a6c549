import Mathlib.Algebra.Order.BigOperators.Group.List
import Mathlib.Algebra.Order.Ring.Nat
import GrowthFlow.Analysis.Walk
import GrowthFlow.Proofs.MatrixPowers

/-!
# The closure is found with few powers

How many powers have to be summed up depends on the size `n` of the matrix alone, not on its choices:
`2 * n` powers always show that the sum is complete.

Fix a choice and a row. What is in the row spreads along the entries, and a set of places that spreads
along edges has reached all it can after `n - 1` steps, since it gains a place with every step or stops
(`spread_stops`). This is used three times.

* `i` starts in the first power and spreads along whatever is not silent, so `n` powers have all of it
  (`reach_eq_i`). Other places are *settled*: they are never `i`.
* Between settled places, `n - 1` powers show what can be reached at all (`reach_ne_o`).
* With `n` powers each entry that is at least `t` and can be reached has been used, and what is at least
  `t` only spreads from there (`le_reach_double`).

One power more is needed to see that nothing has changed.
-/

namespace GrowthFlow

/-! ## Spreading -/

/-- Numbers that only rise, each to at most `top`, stop to rise for a step. -/
theorem exists_stop {α : Type} (zs : List α) {s : Nat → α → Nat} {top start : Nat}
    (hmono : ∀ k, ∀ y ∈ zs, s k y ≤ s (k + 1) y) (htop : ∀ k, ∀ y ∈ zs, s k y ≤ top)
    (hstart : start ≤ (zs.map (s 0)).sum) :
    ∃ k, k + start ≤ top * zs.length ∧ ∀ y ∈ zs, s (k + 1) y = s k y := by
  have hbound : ∀ k, (zs.map (s k)).sum ≤ zs.length * top := by
    intro k
    have h := List.sum_le_card_nsmul (zs.map (s k)) top fun r hr => by
      obtain ⟨y, hy, rfl⟩ := List.mem_map.mp hr
      exact htop k y hy
    rwa [List.length_map] at h
  rw [Nat.mul_comm top]
  apply Classical.byContradiction
  intro hnone
  -- As long as something rises with each step, so does the sum.
  have hgrows : ∀ k, k + start ≤ zs.length * top + 1 → k + start ≤ (zs.map (s k)).sum := by
    intro k
    induction k with
    | zero =>
        intro _
        rw [Nat.zero_add]
        exact hstart
    | succ k ih =>
        intro hk
        have hlt : (zs.map (s k)).sum < (zs.map (s (k + 1))).sum := by
          refine List.sum_lt_sum _ _ (hmono k) ?_
          apply Classical.byContradiction
          intro hsame
          refine hnone ⟨k, by omega, fun y hy => ?_⟩
          exact Nat.le_antisymm (Nat.le_of_not_lt fun hlt => hsame ⟨y, hy, hlt⟩) (hmono k y hy)
        have := ih (by omega)
        omega
  have hlast := hgrows (zs.length * top + 1 - start)
  have hfirst := hbound 0
  have hend := hbound (zs.length * top + 1 - start)
  omega

open Classical in
/-- A set that spreads along edges has reached all it can after one step less than there are places. -/
theorem spread_stops {α : Type} {zs : List α} {X : Nat → α → Prop} {E : α → α → Prop}
    (hstep : ∀ k, ∀ y ∈ zs, X (k + 1) y ↔ X k y ∨ ∃ z ∈ zs, X k z ∧ E z y) {k : Nat} {y : α}
    (hy : y ∈ zs) (h : X k y) : X (zs.length - 1) y := by
  have hkeep : ∀ {k l : Nat}, k ≤ l → ∀ y ∈ zs, X k y → X l y := by
    intro k l hkl y hy hX
    induction l, hkl using Nat.le_induction with
    | base => exact hX
    | succ l _ ih => exact (hstep l y hy).mpr (.inl ih)
  by_cases hsome : ∃ y ∈ zs, X 0 y
  · have hmono : ∀ k, ∀ y ∈ zs, (if X k y then 1 else 0) ≤ if X (k + 1) y then 1 else 0 := by
      intro k y hy
      by_cases hX : X k y
      · rw [if_pos hX, if_pos (hkeep (Nat.le_succ k) y hy hX)]
      · rw [if_neg hX]
        exact Nat.zero_le _
    have htop : ∀ k, ∀ y ∈ zs, (if X k y then 1 else 0) ≤ 1 := by
      intro k y _
      split
      · exact Nat.le_refl 1
      · exact Nat.zero_le 1
    have hstart : 1 ≤ (zs.map fun y => if X 0 y then 1 else 0).sum := by
      obtain ⟨x, hx, hX⟩ := hsome
      have hmem : 1 ∈ zs.map fun y => if X 0 y then 1 else 0 :=
        List.mem_map.mpr ⟨x, hx, if_pos hX⟩
      exact List.single_le_sum (fun _ _ => Nat.zero_le _) 1 hmem
    obtain ⟨l, hl, hstop⟩ := exists_stop zs hmono htop hstart
    have hsame : ∀ y ∈ zs, X (l + 1) y → X l y := by
      intro y hy hX
      have heq := hstop y hy
      rw [if_pos hX] at heq
      by_cases hX' : X l y
      · exact hX'
      · rw [if_neg hX'] at heq
        exact absurd heq Nat.one_ne_zero
    -- A step that adds nothing is repeated for ever.
    have hall : ∀ m, ∀ y ∈ zs, X (l + m) y → X l y := by
      intro m
      induction m with
      | zero => exact fun _ _ hX => hX
      | succ m ih =>
          intro y hy hX
          rcases (hstep (l + m) y hy).mp hX with hX | ⟨z, hz, hX, hE⟩
          · exact ih y hy hX
          · exact hsame y hy ((hstep l y hy).mpr (.inr ⟨z, hz, ih z hz hX, hE⟩))
    have hl' : l ≤ zs.length - 1 := by omega
    exact hkeep hl' y hy (hall k y hy (hkeep (Nat.le_add_left k l) y hy h))
  · -- What starts with nothing stays empty.
    have hnone : ∀ k, ∀ y ∈ zs, ¬ X k y := by
      intro k
      induction k with
      | zero => exact fun y hy hX => hsome ⟨y, hy, hX⟩
      | succ k ih =>
          intro y hy hX
          rcases (hstep k y hy).mp hX with hX | ⟨z, hz, hX, _⟩
          · exact ih y hy hX
          · exact ih z hz hX
    exact absurd h (hnone k y hy)

/-- For a scalar behind one that is not `o`: it is as large as one of the two. -/
theorem Scalar.le_mul_iff {a b t : Scalar} (ht : t ≠ o) (ha : a ≠ o) :
    t ≤ a * b ↔ a = i ∨ (b ≠ o ∧ (t ≤ a ∨ t ≤ b)) := by
  revert a b t
  decide

namespace FlowMatrix

variable {M : FlowMatrix} {σ : Selection} {i : Nat}

/-- A place of a row that is not `i` once all of `i` is there. -/
def Settled (M : FlowMatrix) (σ : Selection) (i j : Nat) : Prop := M.reach σ M.size i j ≠ .i

section Rows

variable (hM : M.Normal) (hi : i < M.size) {j k : Nat} (hj : j < M.size)

include hM hi hj

theorem reach_succ_eq_i {z : Nat} (hz : z < M.size) (h : M.reach σ k i z = .i)
    (hquiet : (M.get z j).silent σ = false) : M.reach σ (k + 1) i j = .i := by
  have hcarry : .i ≤ (M.get z j).carry σ (M.reach σ k i z) := by
    rw [Poly.le_carry_iff (by decide), h]
    exact ⟨by decide, hquiet, Scalar.i_le_iff.mpr (Scalar.mul_eq_i_iff.mpr (.inl rfl))⟩
  rw [← Scalar.i_le_iff, le_reach_succ_iff hM hi hj (by decide)]
  exact .inr ⟨z, hz, hcarry⟩

/-- **All of `i` is there after as many powers as there are places.** -/
theorem reach_eq_i (h : M.reach σ k i j = .i) : M.reach σ M.size i j = .i := by
  have hkeep : ∀ {l m y : Nat}, l ≤ m → y < M.size → M.reach σ l i y = .i → M.reach σ m i y = .i := by
    intro l m y hlm hy hl
    rw [← Scalar.i_le_iff] at hl ⊢
    exact Scalar.le_trans hl (reach_mono hM hi hy hlm)
  have hstep : ∀ l, ∀ y ∈ List.range M.size, M.reach σ (l + 1 + 1) i y = .i ↔
      M.reach σ (l + 1) i y = .i ∨
        ∃ z ∈ List.range M.size, M.reach σ (l + 1) i z = .i ∧ (M.get z y).silent σ = false := by
    intro l y hy
    rw [List.mem_range] at hy
    constructor
    · intro hX
      rw [← Scalar.i_le_iff, le_reach_succ_iff hM hi hy (by decide)] at hX
      rcases hX with hone | ⟨z, hz, hle⟩
      · left
        exact hkeep (Nat.succ_le_succ (Nat.zero_le l)) hy (Scalar.i_le_iff.mp hone)
      · rw [Poly.le_carry_iff (by decide), Scalar.i_le_iff, Scalar.mul_eq_i_iff] at hle
        obtain ⟨_, hquiet, hreach | hentry⟩ := hle
        · exact .inr ⟨z, List.mem_range.mpr hz, hreach, hquiet⟩
        · -- an `i` of the matrix itself is in the column from the first power on
          left
          exact hkeep (Nat.succ_le_succ (Nat.zero_le l)) hy (reach_one_eq_i hM hi hy hz hentry)
    · rintro (hX | ⟨z, hz, hX, hquiet⟩)
      · exact hkeep (Nat.le_succ _) hy hX
      · exact reach_succ_eq_i hM hi hy (List.mem_range.mp hz) hX hquiet
  have hnext : M.reach σ (k + 1) i j = .i := hkeep (Nat.le_succ k) hj h
  have hlast := spread_stops (X := fun l y => M.reach σ (l + 1) i y = .i) hstep
    (List.mem_range.mpr hj) hnext
  rw [List.length_range, Nat.sub_add_cancel (Nat.lt_of_le_of_lt (Nat.zero_le i) hi)] at hlast
  exact hlast

/-- Whatever flows into a settled place is settled. -/
theorem settled_of_entry (hset : M.Settled σ i j) {z : Nat} (hz : z < M.size)
    (hentry : M.value σ z j ≠ .o) : M.Settled σ i z := by
  intro hzi
  have hnext := reach_succ_eq_i hM hi hj hz hzi (Poly.silent_eq_false hentry)
  exact hset (reach_eq_i hM hi hj hnext)

/-- One more repetition at a settled place: what was there, or what comes through an entry from a settled
place that is reached. -/
theorem le_reach_succ_of_settled (hset : M.Settled σ i j) {t : Scalar} (ht : t ≠ .o) :
    t ≤ M.reach σ (k + 1) i j ↔ t ≤ M.reach σ k i j ∨
      ∃ z, z < M.size ∧ M.Settled σ i z ∧ M.reach σ k i z ≠ .o ∧ M.value σ z j ≠ .o ∧
        (t ≤ M.reach σ k i z ∨ t ≤ M.value σ z j) := by
  constructor
  · intro h
    rcases (le_reach_succ_iff hM hi hj ht).mp h with hone | ⟨z, hz, hle⟩
    · rcases le_reach_one hM hi hj ht hone with hzero | hentry | ⟨z, hz, hcol⟩
      · exact .inl (Scalar.le_trans hzero (reach_mono hM hi hj (Nat.zero_le k)))
      · -- an entry of the row itself, behind the place `i` where the row starts
        have hne : M.value σ i j ≠ .o := Scalar.ne_o_of_le ht hentry
        have hstart : .m ≤ M.reach σ k i i :=
          Scalar.le_trans (m_le_reach_zero hi) (reach_mono hM hi hi (Nat.zero_le k))
        have hreached : M.reach σ k i i ≠ .o := Scalar.ne_o_of_le (by decide) hstart
        exact .inr ⟨i, hi, settled_of_entry hM hi hj hset hi hne, hreached, hne, .inr hentry⟩
      · exact absurd (reach_eq_i hM hi hj (reach_one_eq_i hM hi hj hz hcol)) hset
    · obtain ⟨hreached, hquiet, hmul⟩ := (Poly.le_carry_iff ht).mp hle
      rcases (Scalar.le_mul_iff ht hreached).mp hmul with hzi | ⟨hentry, hor⟩
      · have hnext := reach_succ_eq_i hM hi hj hz hzi hquiet
        exact absurd (reach_eq_i hM hi hj hnext) hset
      · exact .inr ⟨z, hz, settled_of_entry hM hi hj hset hz hentry, hreached, hentry, hor⟩
  · rintro (h | ⟨z, hz, _, hreached, hentry, hor⟩)
    · exact Scalar.le_trans h (reach_mono hM hi hj (Nat.le_succ k))
    · refine (le_reach_succ_iff hM hi hj ht).mpr (.inr ⟨z, hz, ?_⟩)
      rw [Poly.le_carry_iff ht]
      exact ⟨hreached, Poly.silent_eq_false hentry,
        (Scalar.le_mul_iff ht hreached).mpr (.inr ⟨hentry, hor⟩)⟩

/-- If from the power `b` on no entry brings in what is at least `t`, what is there spreads, and `b` plus one
less than there are places is enough for it. -/
theorem le_reach_of_spread {b : Nat} {t : Scalar} (ht : t ≠ .o)
    (hentry : ∀ l y z, y < M.size → z < M.size → M.Settled σ i y → M.Settled σ i z →
      M.reach σ (b + l) i z ≠ .o → M.value σ z y ≠ .o → t ≤ M.value σ z y →
      t ≤ M.reach σ (b + l) i y ∨ t ≤ M.reach σ (b + l) i z)
    (hset : M.Settled σ i j) (h : t ≤ M.reach σ (b + k) i j) :
    t ≤ M.reach σ (b + (M.size - 1)) i j := by
  have hstep : ∀ l, ∀ y ∈ List.range M.size,
      (M.Settled σ i y ∧ t ≤ M.reach σ (b + (l + 1)) i y) ↔
        (M.Settled σ i y ∧ t ≤ M.reach σ (b + l) i y) ∨
          ∃ z ∈ List.range M.size, (M.Settled σ i z ∧ t ≤ M.reach σ (b + l) i z) ∧
            (M.Settled σ i y ∧ M.value σ z y ≠ .o) := by
    intro l y hy
    rw [List.mem_range] at hy
    constructor
    · rintro ⟨hsety, hX⟩
      rcases (le_reach_succ_of_settled hM hi hy hsety ht).mp hX with
        hle | ⟨z, hz, hsetz, hreached, hne, hor⟩
      · exact .inl ⟨hsety, hle⟩
      · have hor' : t ≤ M.reach σ (b + l) i y ∨ t ≤ M.reach σ (b + l) i z := by
          rcases hor with hle | hle
          · exact .inr hle
          · exact hentry l y z hy hz hsety hsetz hreached hne hle
        rcases hor' with hle | hle
        · exact .inl ⟨hsety, hle⟩
        · exact .inr ⟨z, List.mem_range.mpr hz, ⟨hsetz, hle⟩, hsety, hne⟩
    · rintro (⟨hsety, hX⟩ | ⟨z, hz, ⟨hsetz, hX⟩, hsety, hne⟩)
      · exact ⟨hsety, Scalar.le_trans hX (reach_mono hM hi hy (Nat.le_succ _))⟩
      · refine ⟨hsety, (le_reach_succ_of_settled hM hi hy hsety ht).mpr (.inr ?_)⟩
        have hreached := Scalar.ne_o_of_le ht hX
        exact ⟨z, List.mem_range.mp hz, hsetz, hreached, hne, .inl hX⟩
  have hlast := spread_stops (X := fun l y => M.Settled σ i y ∧ t ≤ M.reach σ (b + l) i y) hstep
    (List.mem_range.mpr hj) ⟨hset, h⟩
  rw [List.length_range] at hlast
  exact hlast.2

/-- A settled place that is reached at all is reached with one power less than there are places. -/
theorem reach_ne_o (hset : M.Settled σ i j) (h : M.reach σ k i j ≠ .o) :
    M.reach σ (M.size - 1) i j ≠ .o := by
  have hm : ∀ {a : Scalar}, a ≠ .o ↔ .m ≤ a := by decide
  rw [hm, ← Nat.zero_add k] at h
  rw [hm, ← Nat.zero_add (M.size - 1)]
  refine le_reach_of_spread hM hi hj (by decide) ?_ hset h
  intro l y z _ _ _ _ hreached _ _
  exact .inr (hm.mp hreached)

/-- **No sum of powers exceeds that of one less than twice as many as there are places.** -/
theorem le_reach_double : M.reach σ k i j ≤ M.reach σ (2 * M.size - 1) i j := by
  have hpos : 0 < M.size := Nat.lt_of_le_of_lt (Nat.zero_le i) hi
  by_cases hset : M.reach σ M.size i j = .i
  · have hle := reach_mono (σ := σ) hM hi hj (show M.size ≤ 2 * M.size - 1 by omega)
    rw [hset] at hle
    exact Scalar.le_trans (Scalar.le_i _) hle
  · by_cases ht : M.reach σ k i j = .o
    · rw [ht]
      exact Scalar.o_le _
    · have hlate := reach_mono (σ := σ) hM hi hj (Nat.le_add_left k M.size)
      rw [show 2 * M.size - 1 = M.size + (M.size - 1) by omega]
      refine le_reach_of_spread hM hi hj ht ?_ hset hlate
      intro l y z hy hz hsety hsetz hreached hne hle
      -- The place before the entry was reached early, so the entry has been used.
      have hearly := reach_ne_o hM hi hz hsetz hreached
      have huse : M.reach σ k i j ≤ M.reach σ (M.size - 1 + 1) i y := by
        rw [le_reach_succ_of_settled hM hi hy hsety ht]
        exact .inr ⟨z, hz, hsetz, hearly, hne, .inr hle⟩
      exact .inl (Scalar.le_trans huse (reach_mono hM hi hy (by omega)))

end Rows

/-! ## The search ends in time -/

theorem powerSum_stops (hM : M.Normal) {j : Nat} (hj : 2 * M.size ≤ j + 1) :
    M.powerSum (j + 1) = M.powerSum j := by
  refine ext_value (hM.powerSum (j + 1)) (hM.powerSum j) (by simp) ?_
  intro σ x y hx hy
  rw [size_powerSum] at hx hy
  refine Scalar.le_antisymm ?_ (reach_mono hM hx hy (Nat.le_succ j))
  exact Scalar.le_trans (le_reach_double hM hx hy) (reach_mono hM hx hy (by omega))

/-- Wherever the sum stops, it is that of the first `2 * M.size` powers. -/
theorem powerSum_of_stop (hM : M.Normal) {j : Nat} (h : M.powerSum (j + 1) = M.powerSum j) :
    M.powerSum j = M.powerSum (2 * M.size) := by
  have hstop : M.powerSum (2 * M.size + 1) = M.powerSum (2 * M.size) :=
    powerSum_stops hM (by omega)
  have hfar := powerSum_eq_of_stop hM h (2 * M.size)
  have hfar' := powerSum_eq_of_stop hM hstop j
  rw [← hfar, ← hfar', Nat.add_comm]

theorem sumPowers_of_true (hM : M.Normal) {limit : Nat}
    (h : (M.sumPowers limit (identity M.size) (identity M.size)).1 = true) :
    M.sumPowers limit (identity M.size) (identity M.size) = (true, M.powerSum (2 * M.size)) := by
  obtain ⟨j, hj, hstop⟩ := M.sumPowers_stop limit 0 (Prod.ext h rfl)
  refine Prod.ext h ?_
  rw [← powerSum_of_stop hM hstop]
  exact hj

theorem sumPowers_complete (hM : M.Normal) {limit : Nat} (h : max 1 (2 * M.size) ≤ limit) :
    (M.sumPowers limit (identity M.size) (identity M.size)).1 = true := by
  have hstop : M.powerSum (limit - 1 + 1) = M.powerSum (limit - 1) :=
    powerSum_stops hM (by omega)
  exact M.sumPowers_finds hstop limit 0 (Nat.zero_le _) (by omega)

theorem demands_pos (M : FlowMatrix) : 0 < M.demands := by
  have hfold : ∀ (g : Nat → Nat) (ks : List Nat) (n : Nat), 0 < n →
      0 < ks.foldl (fun n k => n * (g k + 1)) n := by
    intro g ks
    induction ks with
    | nil => exact fun _ hn => hn
    | cons k ks ih => exact fun n hn => ih _ (Nat.mul_pos hn (Nat.succ_pos _))
  exact hfold _ _ 1 Nat.one_pos

theorem size_le_height (M : FlowMatrix) : max 1 (2 * M.size) ≤ M.height + 1 := by
  have hsquare : M.size ≤ M.size * M.size := Nat.le_mul_self M.size
  have hheight : 4 * M.size * M.size ≤ M.height := Nat.le_mul_of_pos_right _ M.demands_pos
  rw [Nat.mul_assoc] at hheight
  omega

/-- The closure is the sum of `2 * M.size` powers. -/
theorem closure_eq (hM : M.Normal) : M.closure = M.powerSum (2 * M.size) :=
  congrArg Prod.snd (sumPowers_of_true hM (sumPowers_complete hM M.size_le_height))

theorem closureWithin?_eq_or (hM : M.Normal) (limit : Nat) :
    M.closureWithin? limit = some M.closure ∨ M.closureWithin? limit = none := by
  unfold closureWithin?
  split
  · rename_i sum hsum
    have hfound := sumPowers_of_true hM (congrArg Prod.fst hsum)
    rw [hsum] at hfound
    left
    rw [closure_eq hM]
    exact congrArg some (congrArg Prod.snd hfound)
  · exact .inr rfl

theorem closureWithin?_of_le (hM : M.Normal) {limit : Nat} (h : max 1 (2 * M.size) ≤ limit) :
    M.closureWithin? limit = some M.closure := by
  unfold closureWithin?
  rw [sumPowers_of_true hM (sumPowers_complete hM h), closure_eq hM]

/-- **The search for a closure converges.** With a limit of `2 * M.size` powers, and one at least, it finds
the closure. Whatever the limit, it finds that matrix or none, and a walk that needs it then fails with the
limit. -/
theorem search_converges (hM : M.Normal) (limit : Nat) :
    (max 1 (2 * M.size) ≤ limit → M.closureWithin? limit = some M.closure) ∧
      (M.closureWithin? limit = some M.closure ∨
        M.closureWithin? limit = none ∧
          ∀ (R : Relation) (opts : Options) (w : Walk), R.matrix = M → opts.limit = limit →
            (Walk.close opts R).run w = (.error (.limit limit), w)) := by
  refine ⟨closureWithin?_of_le hM, (closureWithin?_eq_or hM limit).imp_right fun hnone => ?_⟩
  refine ⟨hnone, fun R opts w hR hopts => ?_⟩
  have hclose : R.closureWithin? opts.limit = none := by
    unfold Relation.closureWithin?
    rw [hR, hopts, hnone]
    rfl
  unfold Walk.close
  rw [hclose, hopts]
  rfl

/-- Two places that flow into each other: four powers are needed, as many as the limit allows for. With three
the search, and a walk over this loop, gives up. -/
theorem search_converges_two_places :
    let M : FlowMatrix := ⟨[[.zero, .unit], [⟨[⟨.w, [⟨0, 0⟩]⟩, ⟨.i, [⟨1, 0⟩]⟩]⟩, .zero]], by decide⟩
    let R : Relation := ⟨["x", "y"], M, rfl⟩
    M.Normal ∧ M.closureWithin? 4 = some M.closure ∧ M.closureWithin? 3 = none ∧
      ∀ w : Walk, (Walk.close { limit := 3 } R).run w = (.error (.limit 3), w) := by
  intro M R
  have hM : M.Normal := by decide
  have hnone : M.closureWithin? 3 = none := by decide +kernel
  refine ⟨hM, (search_converges hM 4).1 (by decide), hnone, fun w => ?_⟩
  rcases (search_converges hM 3).2 with hsome | ⟨_, hwalk⟩
  · rw [hnone] at hsome
    exact absurd hsome (Option.some_ne_none _).symm
  · exact hwalk R _ w rfl rfl

end FlowMatrix

end GrowthFlow
