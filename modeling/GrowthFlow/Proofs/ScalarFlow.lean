import GrowthFlow.Flow.Cells
import GrowthFlow.Proofs.Convergence
import GrowthFlow.Proofs.Repetition

/-!
# Plain scalar flows

Cells are what a relation would be without choices: a table of scalars. They are composed, joined and
repeated like relations, but on plain scalars: a product of tables, an entrywise maximum, and the star,
the sum of all powers.

All powers are summed up once four times as many have been taken as there are variables. Each step of the
sum changes a row to larger scalars or ends its growth for good, and the scalars of a row can rise four
times each (`star_le_iff`).
-/

namespace GrowthFlow

/-- A row that only rises stops to rise for a step, since each of its scalars rises at most four
times. -/
theorem Scalar.exists_stop {α : Type} (zs : List α) {s : Nat → α → Scalar}
    (hmono : ∀ k, ∀ y ∈ zs, s k y ≤ s (k + 1) y) :
    ∃ k, k ≤ 4 * zs.length ∧ ∀ y ∈ zs, s (k + 1) y = s k y := by
  obtain ⟨k, hk, hsame⟩ := GrowthFlow.exists_stop zs (s := fun k y => (s k y).rank) hmono
    (fun k y _ => Scalar.le_i (s k y)) (Nat.zero_le _)
  exact ⟨k, hk, fun y hy => Scalar.rank_injective (hsame y hy)⟩

namespace Cells

/-- The cells with the given scalars. -/
def ofFn (vars : List String) (f : String → String → Scalar) : Cells :=
  ⟨vars, vars.map fun x => vars.map fun y => f x y⟩

/-- The scalar between two names; an unknown variable keeps its value. -/
def entry (c : Cells) (x y : String) : Scalar :=
  match c.vars.idxOf? x, c.vars.idxOf? y with
  | some i, some j => ((c.rows[i]?).bind (·[j]?)).getD .o
  | _, _ => if x = y then .m else .o

/-- Every variable keeps its value. -/
def identity (vars : List String) : Cells := ofFn vars fun x y => if x = y then .m else .o

/-- One step after another: the product, over the variables of both. -/
def compose (a b : Cells) : Cells :=
  ofFn (unionNames a.vars b.vars) fun x y =>
    .sum ((unionNames a.vars b.vars).map fun z => a.entry x z * b.entry z y)

/-- Two alternatives: the larger scalar of both. -/
def join (a b : Cells) : Cells :=
  ofFn (unionNames a.vars b.vars) fun x y => a.entry x y + b.entry x y

/-- Adds up further powers, from a sum and the power it ends with. -/
def sumPowers (a : Cells) : (n : Nat) → (sum power : Cells) → Cells
  | 0, sum, _ => sum
  | n + 1, sum, power => a.sumPowers n (sum.join (power.compose a)) (power.compose a)

/-- The star: any number of repetitions. -/
def star (a : Cells) : Cells :=
  a.sumPowers (4 * a.vars.length) (identity a.vars) (identity a.vars)

/-- The polynomial growth that flows into a variable from others. -/
def charge (a : Cells) (y : String) : Scalar :=
  if a.vars.any fun x => x != y && a.entry x y == .p then .p else .o

/-- The rule of a loop. Without a bound on the number of repetitions, `p` anywhere and `w` from a
variable to itself become `i`. With a guard, anything but `m` from a variable to itself becomes `i`, and
polynomial growth depends on the guard too. -/
def correct (a : Cells) : Option String → Cells
  | none => ofFn a.vars fun x y =>
    if Relation.unboundedBetween x y (a.entry x y) then .i else a.entry x y
  | some guard => ofFn a.vars fun x y =>
    let s := if x = y ∧ a.entry x y ≠ .m then .i else a.entry x y
    if x = guard then s + a.charge y else s

/-- The cells, if no scalar is `i`. -/
def bounded? (a : Cells) : Option Cells :=
  if a.rows.all fun row => row.all (· != .i) then some a else none

/-! ## Lookup -/

variable {vars : List String} {f : String → String → Scalar} {x y : String}

theorem entry_ofFn (hnd : vars.Nodup) (hx : x ∈ vars) (hy : y ∈ vars) :
    (ofFn vars f).entry x y = f x y := by
  obtain ⟨i, _, hi⟩ := exists_place hx
  obtain ⟨j, _, hj⟩ := exists_place hy
  show (match vars.idxOf? x, vars.idxOf? y with
    | some i, some j => (((vars.map fun x => vars.map fun y => f x y)[i]?).bind (·[j]?)).getD .o
    | _, _ => if x = y then .m else .o) = f x y
  rw [(idxOf?_iff hnd).mpr hi, (idxOf?_iff hnd).mpr hj]
  simp [hi, hj]

/-- Cells with given scalars are determined by their entries. -/
theorem ofFn_entry (vars : List String) (f : String → String → Scalar) (hnd : vars.Nodup) :
    ofFn vars (ofFn vars f).entry = ofFn vars f := by
  unfold ofFn
  congr 1
  refine List.map_congr_left fun x hx => List.map_congr_left fun y hy => ?_
  exact entry_ofFn hnd hx hy

theorem entry_of_not_mem {a : Cells} (h : x ∉ a.vars ∨ y ∉ a.vars) :
    a.entry x y = if x = y then .m else .o := by
  unfold entry
  rcases h with h | h
  · rw [List.idxOf?_eq_none_iff.mpr h]
  · rw [List.idxOf?_eq_none_iff.mpr h]
    split
    · rename_i heq
      exact absurd heq (by simp)
    · rfl

theorem entry_identity (hnd : vars.Nodup) (x y : String) :
    (identity vars).entry x y = if x = y then .m else .o := by
  by_cases hmem : x ∈ vars ∧ y ∈ vars
  · exact entry_ofFn hnd hmem.1 hmem.2
  · exact entry_of_not_mem (Decidable.not_and_iff_not_or_not.mp hmem)

theorem entry_compose {a b : Cells} (ha : a.vars.Nodup) (hb : b.vars.Nodup)
    (hx : x ∈ unionNames a.vars b.vars) (hy : y ∈ unionNames a.vars b.vars) :
    (a.compose b).entry x y =
      .sum ((unionNames a.vars b.vars).map fun z => a.entry x z * b.entry z y) :=
  entry_ofFn (nodup_unionNames ha hb) hx hy

theorem entry_join {a b : Cells} (ha : a.vars.Nodup) (hb : b.vars.Nodup)
    (hx : x ∈ unionNames a.vars b.vars) (hy : y ∈ unionNames a.vars b.vars) :
    (a.join b).entry x y = a.entry x y + b.entry x y :=
  entry_ofFn (nodup_unionNames ha hb) hx hy

/-! ## Powers -/

/-- A number of repetitions. -/
def power (a : Cells) : Nat → Cells
  | 0 => identity a.vars
  | k + 1 => (a.power k).compose a

/-- At most a number of repetitions. -/
def powerSum (a : Cells) : Nat → Cells
  | 0 => identity a.vars
  | k + 1 => (a.powerSum k).join (a.power (k + 1))

theorem sumPowers_eq (a : Cells) : ∀ n k : Nat,
    a.sumPowers n (a.powerSum k) (a.power k) = a.powerSum (k + n)
  | 0, _ => rfl
  | n + 1, k => by
      rw [sumPowers]
      exact (sumPowers_eq a n (k + 1)).trans (by rw [Nat.add_right_comm, Nat.add_assoc])

theorem star_eq (a : Cells) : a.star = a.powerSum (4 * a.vars.length) :=
  (sumPowers_eq a _ 0).trans (by rw [Nat.zero_add])

theorem vars_power (a : Cells) : ∀ k, (a.power k).vars = a.vars
  | 0 => rfl
  | k + 1 => by
      show unionNames (a.power k).vars a.vars = a.vars
      rw [vars_power a k, unionNames_self]

theorem vars_powerSum (a : Cells) : ∀ k, (a.powerSum k).vars = a.vars
  | 0 => rfl
  | k + 1 => by
      show unionNames (a.powerSum k).vars (a.power (k + 1)).vars = a.vars
      rw [vars_powerSum a k, vars_power, unionNames_self]

section Powers

variable {a : Cells} (hnd : a.vars.Nodup)

include hnd

theorem entry_power_succ (k : Nat) (hx : x ∈ a.vars) (hy : y ∈ a.vars) :
    (a.power (k + 1)).entry x y =
      .sum (a.vars.map fun z => (a.power k).entry x z * a.entry z y) := by
  have hunion : unionNames (a.power k).vars a.vars = a.vars := by
    rw [vars_power, unionNames_self]
  have h := entry_compose (x := x) (y := y) (a := a.power k) (b := a) (by rw [vars_power]; exact hnd)
    hnd (by rw [hunion]; exact hx) (by rw [hunion]; exact hy)
  rw [hunion] at h
  exact h

theorem entry_powerSum_succ (k : Nat) (hx : x ∈ a.vars) (hy : y ∈ a.vars) :
    (a.powerSum (k + 1)).entry x y = (a.powerSum k).entry x y + (a.power (k + 1)).entry x y := by
  have hunion : unionNames (a.powerSum k).vars (a.power (k + 1)).vars = a.vars := by
    rw [vars_powerSum, vars_power, unionNames_self]
  exact entry_join (by rw [vars_powerSum]; exact hnd) (by rw [vars_power]; exact hnd)
    (hunion ▸ hx) (hunion ▸ hy)

theorem entry_power_le_powerSum (hx : x ∈ a.vars) (hy : y ∈ a.vars) {k j : Nat} (hkj : k ≤ j) :
    (a.power k).entry x y ≤ (a.powerSum j).entry x y :=
  Scalar.le_running (f := fun k => (a.power k).entry x y)
    (s := fun k => (a.powerSum k).entry x y) rfl
    (fun k => entry_powerSum_succ hnd k hx hy) hkj

theorem exists_entry_power_eq (hx : x ∈ a.vars) (hy : y ∈ a.vars) (j : Nat) :
    ∃ k, k ≤ j ∧ (a.powerSum j).entry x y = (a.power k).entry x y :=
  Scalar.exists_running_eq (f := fun k => (a.power k).entry x y)
    (s := fun k => (a.powerSum k).entry x y) rfl
    (fun k => entry_powerSum_succ hnd k hx hy) j

end Powers

/-- **The star is the least upper bound of all powers.** -/
theorem star_le_iff {a : Cells} (hnd : a.vars.Nodup) (hx : x ∈ a.vars) (hy : y ∈ a.vars)
    {t : Scalar} : a.star.entry x y ≤ t ↔ ∀ k, (a.power k).entry x y ≤ t := by
  have hmono : ∀ k, ∀ y ∈ a.vars, (a.powerSum k).entry x y ≤ (a.powerSum (k + 1)).entry x y := by
    intro k y hy
    rw [entry_powerSum_succ hnd k hx hy]
    exact Scalar.le_add_left _ _
  -- The row of `x` stops somewhere within the powers of the star, and then for good.
  obtain ⟨j, hj, hstop⟩ := Scalar.exists_stop a.vars hmono
  have hall : ∀ k, ∀ y ∈ a.vars, (a.power k).entry x y ≤ (a.powerSum j).entry x y := by
    refine Scalar.rows_le_of_stop (fun k y hy => entry_power_succ hnd k hx hy) ?_
      fun y hy => exists_entry_power_eq hnd hx hy j
    intro k hk y hy
    rw [← hstop y hy]
    exact entry_power_le_powerSum hnd hx hy hk
  rw [star_eq]
  constructor
  · intro hle k
    obtain ⟨l, hl, heq⟩ := exists_entry_power_eq hnd hx hy j
    calc (a.power k).entry x y
        ≤ (a.powerSum j).entry x y := hall k y hy
      _ = (a.power l).entry x y := heq
      _ ≤ (a.powerSum (4 * a.vars.length)).entry x y :=
          entry_power_le_powerSum hnd hx hy (Nat.le_trans hl hj)
      _ ≤ t := hle
  · intro hle
    obtain ⟨k, _, heq⟩ := exists_entry_power_eq hnd hx hy (4 * a.vars.length)
    rw [heq]
    exact hle k

theorem vars_star (a : Cells) : a.star.vars = a.vars := by rw [star_eq, vars_powerSum]

end Cells

end GrowthFlow
