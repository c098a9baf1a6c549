import GrowthFlow.Proofs.RegularRuns

/-!
# Loop corrections, entry by entry

A correction rewrites single monomials, and a monomial it rewrites may be outweighed by another one or make
others superfluous. What it does to the scalar of an entry is simpler than that: if with a scalar every
larger one is picked, an entry becomes `i` exactly where its scalar is picked, and keeps its scalar elsewhere
(`value_escalate_of_upward`).

The correction of a loop without a bound is complete after one pass, because nothing that it would promote
is left (`Normal.promoted_escalate`). That of a guarded loop charges polynomial growth to the guard, and
leaves the guard itself alone because nothing of that kind flows into it (`guard_column_of_closure`).
-/

namespace GrowthFlow

namespace Poly

variable {P : Delta → Prop} {f : Scalar → Bool} {p : Poly}

/-- If with a scalar every larger one is picked, an entry becomes unbounded where its scalar is picked. -/
theorem value_escalate_of_upward (hp : p.Proper P)
    (hf : ∀ a b, a ≠ .o → f a = true → a ≤ b → b ≠ .i → f b = true) (σ : Selection) :
    (p.escalate f).value σ = if p.value σ ≠ .o ∧ f (p.value σ) = true then .i else p.value σ := by
  by_cases hi : p.value σ = .i
  · -- what is unbounded stays so, picked or not
    rw [(value_escalate_eq_i_iff hp).mpr (.inr hi), hi, ite_self]
  · rw [value_escalate hp]
    simp only [any_promoted_iff hp hi hf]

/-- Once the picked scalars are escalated, none is left to be picked. -/
theorem Normal.promoted_escalate (hp : p.Normal) (hi : f .i = false) :
    (p.escalate f).promoted f = [] := by
  rw [List.eq_nil_iff_forall_not_mem]
  intro ds hds
  obtain ⟨m, hm, hfm, rfl⟩ := mem_promoted.mp hds
  have hown := (hp.escalate f).value_own hm
  rw [value_escalate hp.proper] at hown
  split at hown
  · rw [← hown, hi] at hfm
    exact absurd hfm Bool.false_ne_true
  · -- The scalar of `m` is then one that counted before, and it would have been escalated.
    rename_i hnone
    have hne : p.value (.ofDemands m.deltas) ≠ .o := hown ▸ (hp.escalate f).nonzero m hm
    obtain ⟨n, hn, hmet, hscalar⟩ := exists_monomial hne
    refine hnone (List.any_eq_true.mpr ⟨n.deltas, mem_promoted.mpr ⟨n, hn, ?_, rfl⟩, hmet⟩)
    rw [hscalar, hown]
    exact hfm

theorem Normal.escalate_of_promoted (hp : p.Normal) (h : p.promoted f = []) : p.escalate f = p := by
  refine (hp.escalate f).ext hp fun σ => ?_
  rw [value_escalate hp.proper, h]
  rfl

end Poly

namespace Relation

variable {R : Relation} {σ : Selection} {i j : Nat}

theorem ofFn_eq_of_get {f : Nat → Nat → Poly}
    (h : ∀ i < R.vars.length, ∀ j < R.vars.length, f i j = R.get i j) : ofFn R.vars f = R := by
  refine ext_matrix rfl (FlowMatrix.ext_get (by rw [R.size_eq]; exact FlowMatrix.size_ofFn ..) ?_)
  intro i j hi hj
  have hsize : (ofFn R.vars f).matrix.size = R.vars.length := FlowMatrix.size_ofFn ..
  rw [hsize] at hi hj
  exact (get_ofFn f hi hj).trans (h i hi j hj)

/-! ## Loops without a bound -/

theorem unboundedAt_upward (i j : Nat) (a b : Scalar) (_ : a ≠ .o) (ha : unboundedAt i j a = true)
    (hab : a ≤ b) (hb : b ≠ .i) : unboundedAt i j b = true := by
  unfold unboundedAt at ha ⊢
  generalize (i == j) = same at ha ⊢
  revert same a b
  decide

theorem unboundedAt_iff {s : Scalar} :
    unboundedAt i j s = true ↔ s = .p ∨ (i = j ∧ s = .w) := by
  simp [unboundedAt]

/-- The correction of an unbounded loop at one place and under one choice. -/
theorem value_escalate_unboundedAt {p : Poly} (hp : p.Normal) (i j : Nat) (σ : Selection) :
    (p.escalate (unboundedAt i j)).value σ =
      if p.value σ = .p ∨ (i = j ∧ p.value σ = .w) then .i else p.value σ := by
  rw [Poly.value_escalate_of_upward hp.proper (unboundedAt_upward i j)]
  simp only [unboundedAt_iff]
  congr 1
  rw [eq_iff_iff, and_iff_right_iff_imp]
  rintro (h | ⟨_, h⟩) <;> rw [h] <;> decide

theorem get_whileCorrection (hi : i < R.vars.length) (hj : j < R.vars.length) :
    R.whileCorrection.get i j = (R.get i j).escalate (unboundedAt i j) :=
  get_ofFn _ hi hj

theorem mem_whilePromoted_iff {w : Witness} :
    w ∈ R.whilePromoted ↔ ∃ i < R.vars.length, ∃ j < R.vars.length,
      w ∈ (R.get i j).promoted (unboundedAt i j) := by
  simp [whilePromoted]

/-- Some flow is unbounded under a choice exactly if some place holds an `i`. -/
theorem exists_entry_eval_iff {c : List Nat} :
    (∃ p ∈ R.matrix.entries, p.eval c = .i) ↔
      ∃ i < R.vars.length, ∃ j < R.vars.length, (R.get i j).eval c = .i := by
  constructor
  · rintro ⟨p, hp, hpi⟩
    obtain ⟨i, hi, j, hj, rfl⟩ := mem_entries_iff.mp hp
    exact ⟨i, hi, j, hj, hpi⟩
  · rintro ⟨i, hi, j, hj, hij⟩
    exact ⟨_, get_mem_entries hi hj, hij⟩

theorem whileCorrection_unbounded_iff (hR : ∀ p ∈ R.matrix.entries, p.Normal) (c : List Nat) :
    (∃ p ∈ R.whileCorrection.matrix.entries, p.eval c = .i) ↔
      (∃ p ∈ R.matrix.entries, p.eval c = .i) ∨ ∃ w ∈ R.whilePromoted, satisfies c w = true := by
  have hplace : ∀ i < R.vars.length, ∀ j < R.vars.length,
      ((R.whileCorrection.get i j).eval c = .i ↔
        ((R.get i j).promoted (unboundedAt i j)).any (satisfies c) = true ∨
          (R.get i j).eval c = .i) := by
    intro i hi j hj
    rw [get_whileCorrection hi hj]
    exact Poly.value_escalate_eq_i_iff (hR _ (get_mem_entries hi hj)).proper
  rw [exists_entry_eval_iff, exists_entry_eval_iff]
  constructor
  · rintro ⟨i, hi, j, hj, hij⟩
    rcases (hplace i hi j hj).mp hij with hmet | hij
    · obtain ⟨w, hw, hsat⟩ := List.any_eq_true.mp hmet
      exact .inr ⟨w, mem_whilePromoted_iff.mpr ⟨i, hi, j, hj, hw⟩, hsat⟩
    · exact .inl ⟨i, hi, j, hj, hij⟩
  · rintro (⟨i, hi, j, hj, hij⟩ | ⟨w, hw, hsat⟩)
    · exact ⟨i, hi, j, hj, (hplace i hi j hj).mpr (.inr hij)⟩
    · obtain ⟨i, hi, j, hj, hw⟩ := mem_whilePromoted_iff.mp hw
      exact ⟨i, hi, j, hj, (hplace i hi j hj).mpr (.inl (List.any_eq_true.mpr ⟨w, hw, hsat⟩))⟩

theorem promoted_get_whileCorrection (hR : ∀ p ∈ R.matrix.entries, p.Normal)
    (hi : i < R.vars.length) (hj : j < R.vars.length) :
    (R.whileCorrection.get i j).promoted (unboundedAt i j) = [] := by
  rw [get_whileCorrection hi hj]
  refine (hR _ (get_mem_entries hi hj)).promoted_escalate ?_
  cases h : i == j <;> simp [unboundedAt]

/-- **The correction of a loop without a bound.** Under every choice it makes an entry `i` that is `p`, or
that is `w` from a variable to itself, and leaves the scalar of every other entry. So something is unbounded
behind it if it was before, or if the choice meets demands that were promoted. Correcting once more promotes
nothing and changes nothing. -/
theorem whileCorrection_pointwise (hR : ∀ p ∈ R.matrix.entries, p.Normal) :
    R.whileCorrection.vars = R.vars ∧
      (∀ c, ∀ i < R.vars.length, ∀ j < R.vars.length,
        (R.whileCorrection.get i j).eval c =
          if (R.get i j).eval c = .p ∨ (i = j ∧ (R.get i j).eval c = .w) then .i
          else (R.get i j).eval c) ∧
      (∀ c, (∃ p ∈ R.whileCorrection.matrix.entries, p.eval c = .i) ↔
        (∃ p ∈ R.matrix.entries, p.eval c = .i) ∨ ∃ w ∈ R.whilePromoted, satisfies c w = true) ∧
      R.whileCorrection.whileCorrection = R.whileCorrection ∧
      R.whileCorrection.whilePromoted = [] := by
  refine ⟨rfl, fun c i hi j hj => ?_, whileCorrection_unbounded_iff hR, ?_, ?_⟩
  · rw [get_whileCorrection hi hj]
    exact value_escalate_unboundedAt (hR _ (get_mem_entries hi hj)) i j (.ofVector c)
  · refine ofFn_eq_of_get (R := R.whileCorrection) fun i hi j hj => ?_
    have hnormal : (R.whileCorrection.get i j).Normal := by
      rw [get_whileCorrection (R := R) hi hj]
      exact (hR _ (get_mem_entries hi hj)).escalate _
    exact hnormal.escalate_of_promoted (promoted_get_whileCorrection hR hi hj)
  · rw [List.eq_nil_iff_forall_not_mem]
    intro w hw
    obtain ⟨i, hi, j, hj, hw⟩ := mem_whilePromoted_iff.mp hw
    rw [promoted_get_whileCorrection hR hi hj] at hw
    exact absurd hw List.not_mem_nil

/-- Three choices: under the first `p` flows from `x` into `y`, under the second `x` grows by itself, and under
the third something is unbounded from the start. Only the first two are promoted. -/
theorem whileCorrection_pointwise_three_choices :
    let R : Relation :=
      ⟨["x", "y"],
        ⟨[[⟨[⟨.m, [⟨0, 0⟩]⟩, ⟨.w, [⟨1, 0⟩]⟩]⟩, ⟨[⟨.p, [⟨0, 0⟩]⟩]⟩],
          [⟨[⟨.i, [⟨2, 0⟩]⟩]⟩, .unit]], by decide⟩, rfl⟩
    ((∀ p ∈ R.matrix.entries, p.Normal) ∧ R.whileCorrection ≠ R ∧
        R.whilePromoted = [[⟨1, 0⟩], [⟨0, 0⟩]]) ∧
      (R.whileCorrection.get 0 0).eval [0] = .m ∧ (R.whileCorrection.get 0 1).eval [0] = .i ∧
      (R.whileCorrection.get 0 0).eval [1] = .i ∧ (R.whileCorrection.get 1 1).eval [1] = .m ∧
      (∃ p ∈ R.whileCorrection.matrix.entries, p.eval [2] = .i) ∧
      R.whileCorrection.whileCorrection = R.whileCorrection := by
  intro R
  have hR : ∀ p ∈ R.matrix.entries, p.Normal := by decide
  obtain ⟨_, heval, hunbounded, htwice, _⟩ := whileCorrection_pointwise hR
  exact ⟨⟨hR, by decide, by decide⟩, heval [0] 0 (by decide) 0 (by decide),
    heval [0] 0 (by decide) 1 (by decide), heval [1] 0 (by decide) 0 (by decide),
    heval [1] 1 (by decide) 1 (by decide), (hunbounded [2]).mpr (.inl (by decide)), htwice⟩

/-! ## Guarded loops -/

/-- The charge into a column, as long as nothing is unbounded: `p` if that flows in from another place. -/
theorem value_charge {P : Delta → Prop} (hR : R.Proper P) (hb : ¬ R.Unbounded σ)
    (hj : j < R.vars.length) :
    (R.charge j).value σ =
      if ∃ i < R.vars.length, i ≠ j ∧ (R.get i j).value σ = .p then .p else .o := by
  have hplace := List.getElem?_eq_getElem hj
  rw [charge_eq hR.nodup hplace, value_chargeInto hR hb]
  congr 1
  rw [eq_iff_iff, List.any_eq_true]
  constructor
  · rintro ⟨x, hx, hand⟩
    obtain ⟨i, hi, hxi⟩ := exists_place hx
    simp only [Bool.and_eq_true, bne_iff_ne, beq_iff_eq, value,
      entry_of_places hR.nodup hxi hplace] at hand
    exact ⟨i, hi, mt (FlowMatrix.place_eq_iff hR.nodup hxi hplace).mp hand.1, hand.2⟩
  · rintro ⟨i, hi, hne, hp⟩
    have hxi := List.getElem?_eq_getElem hi
    refine ⟨R.vars[i], List.getElem_mem hi, ?_⟩
    simp only [Bool.and_eq_true, bne_iff_ne, beq_iff_eq, value, entry_of_places hR.nodup hxi hplace]
    exact ⟨mt (FlowMatrix.place_eq_iff hR.nodup hxi hplace).mpr hne, hp⟩

/-- What a guarded loop must not have from a variable to itself. -/
theorem value_escalate_ne_m {P : Delta → Prop} {p : Poly} (hp : p.Proper P) (hi : p.value σ ≠ .i) :
    (p.escalate (· != .m)).value σ =
      if p.value σ = .w ∨ p.value σ = .p then .i else p.value σ := by
  rw [Poly.value_escalate_of_upward hp (by decide)]
  congr 1
  generalize p.value σ = s at hi ⊢
  rw [eq_iff_iff]
  revert s
  decide

/-- A column without polynomial growth from other places takes no charge. -/
theorem charge_eq_zero {l : Nat}
    (h : ∀ i < R.vars.length, i ≠ l → ∀ m ∈ (R.get i l).monomials, m.scalar ≠ .p) :
    R.charge l = .zero := by
  have hnil : ((List.range R.vars.length).flatMap fun i =>
      if i = l then [] else (R.get i l).monomials.filter (·.scalar == .p)) = [] := by
    rw [List.flatMap_eq_nil_iff]
    intro i hi
    split
    · rfl
    · rename_i hil
      rw [List.filter_eq_nil_iff]
      intro m hm
      rw [beq_iff_eq]
      exact h i (List.mem_range.mp hi) hil m hm
  unfold charge
  rw [hnil]
  rfl

theorem not_unbounded_of_eval {c : List Nat} (hnd : R.vars.Nodup)
    (hc : ∀ p ∈ R.matrix.entries, p.eval c ≠ .i) : ¬ R.Unbounded (.ofVector c) := by
  rintro ⟨x, y, hi⟩
  obtain ⟨hx, hy⟩ := mem_of_value_eq_i hi
  exact hc _ ((mem_matrix_entries hnd).mpr ⟨x, hx, y, hy, rfl⟩) hi

section Guarded

variable {guard : String} {l : Nat} (hl : R.position? guard = some l)

include hl

theorem get_boundedCorrection (hi : i < R.vars.length) (hj : j < R.vars.length) :
    (R.boundedCorrection guard).get i j =
      let entry := if i = j then (R.get i j).escalate (· != .m) else R.get i j
      if i = l then entry + R.charge j else entry := by
  refine (get_ofFn _ hi hj).trans ?_
  simp only [hl, Option.some.injEq, eq_comm]

variable {c : List Nat} (hR : R.Normal)

include hR

/-- Under a choice, the place at the row of the guard gains the charge, and no other place does. -/
theorem value_get_boundedCorrection (hi : i < R.vars.length) (hj : j < R.vars.length)
    (σ : Selection) :
    ((R.boundedCorrection guard).get i j).value σ =
      (if i = j then ((R.get i j).escalate (· != .m)).value σ else (R.get i j).value σ) +
        if i = l then (R.charge j).value σ else .o := by
  have hentry := (hR.entries _ (get_mem_entries hi hj)).proper
  have hcharge : (R.charge j).Proper fun _ => True := by
    rw [charge_eq hR.nodup (List.getElem?_eq_getElem hj)]
    exact proper_chargeInto hR.proper _
  rw [get_boundedCorrection hl hi hj]
  simp only
  by_cases hij : i = j <;> by_cases hil : i = l
  · rw [if_pos hij, if_pos hil, if_pos hij, if_pos hil, Poly.value_add (hentry.escalate _) hcharge]
  · rw [if_pos hij, if_neg hil, if_pos hij, if_neg hil, Scalar.add_o]
  · rw [if_neg hij, if_pos hil, if_neg hij, if_pos hil, Poly.value_add hentry hcharge]
  · rw [if_neg hij, if_neg hil, if_neg hij, if_neg hil, Scalar.add_o]

section Uncharged

variable (hcolumn : ∀ i < R.vars.length, i ≠ l → ∀ m ∈ (R.get i l).monomials, m.scalar ≠ .p)

include hcolumn

/-- On the diagonal there is no charge: only the guard could take one, and nothing is charged to it there. -/
theorem value_boundedCorrection_diagonal (hi : i < R.vars.length) (σ : Selection) :
    ((R.boundedCorrection guard).get i i).value σ = ((R.get i i).escalate (· != .m)).value σ := by
  have hcharge : (if i = l then (R.charge i).value σ else .o) = .o := by
    split
    · rename_i hil
      rw [hil, charge_eq_zero hcolumn, Poly.value_zero]
    · rfl
  rw [value_get_boundedCorrection hl hR hi hi, if_pos rfl, hcharge, Scalar.add_o]

theorem exists_boundedPromoted_iff (hc : ∀ p ∈ R.matrix.entries, p.eval c ≠ .i) :
    (∃ w ∈ R.boundedPromoted, satisfies c w = true) ↔
      ∃ i < R.vars.length, ((R.boundedCorrection guard).get i i).eval c = .i := by
  have hplace : ∀ i < R.vars.length, (((R.boundedCorrection guard).get i i).eval c = .i ↔
      ∃ w ∈ (R.get i i).promoted (· != .m), satisfies c w = true) := by
    intro i hi
    have hmem := get_mem_entries (R := R) hi hi
    rw [Poly.eval_eq_value, value_boundedCorrection_diagonal hl hR hcolumn hi,
      Poly.value_escalate_eq_i_iff (hR.entries _ hmem).proper, List.any_eq_true]
    exact or_iff_left (hc _ hmem)
  constructor
  · rintro ⟨w, hw, hsat⟩
    obtain ⟨i, hi, hw⟩ := List.mem_flatMap.mp hw
    rw [List.mem_range] at hi
    exact ⟨i, hi, (hplace i hi).mpr ⟨w, hw, hsat⟩⟩
  · rintro ⟨i, hi, hinf⟩
    obtain ⟨w, hw, hsat⟩ := (hplace i hi).mp hinf
    exact ⟨w, List.mem_flatMap.mpr ⟨i, List.mem_range.mpr hi, hw⟩, hsat⟩

end Uncharged

end Guarded

/-- **The correction of a guarded loop.** Take a choice that leaves everything bounded. A variable that grows
by itself becomes unbounded, and the demands that are promoted tell under which choices one does. Whatever
receives polynomial growth from another variable depends polynomially on the guard as well. Nothing else
changes. -/
theorem boundedCorrection_pointwise (hR : R.Normal) {guard : String} {l : Nat}
    (hl : R.position? guard = some l)
    (hcolumn : ∀ i < R.vars.length, i ≠ l → ∀ m ∈ (R.get i l).monomials, m.scalar ≠ .p)
    {c : List Nat} (hc : ∀ p ∈ R.matrix.entries, p.eval c ≠ .i) :
    (R.boundedCorrection guard).vars = R.vars ∧
      (∀ i < R.vars.length, ((R.boundedCorrection guard).get i i).eval c =
        if (R.get i i).eval c = .w ∨ (R.get i i).eval c = .p then .i else (R.get i i).eval c) ∧
      (∀ j < R.vars.length, j ≠ l → ((R.boundedCorrection guard).get l j).eval c =
        if ∃ i < R.vars.length, i ≠ j ∧ (R.get i j).eval c = .p then (R.get l j).eval c + .p
        else (R.get l j).eval c) ∧
      (∀ i < R.vars.length, ∀ j < R.vars.length, i ≠ j → i ≠ l →
        (R.boundedCorrection guard).get i j = R.get i j) ∧
      ((∃ w ∈ R.boundedPromoted, satisfies c w = true) ↔
        ∃ i < R.vars.length, ((R.boundedCorrection guard).get i i).eval c = .i) := by
  refine ⟨rfl, fun i hi => ?_, fun j hj hjl => ?_, fun i hi j hj hij hil => ?_,
    exists_boundedPromoted_iff hl hR hcolumn hc⟩
  · have hmem := get_mem_entries (R := R) hi hi
    rw [Poly.eval_eq_value, value_boundedCorrection_diagonal hl hR hcolumn hi]
    exact value_escalate_ne_m (hR.entries _ hmem).proper (hc _ hmem)
  · have hcharge : (R.charge j).value (.ofVector c) =
        if ∃ i < R.vars.length, i ≠ j ∧ (R.get i j).eval c = .p then .p else .o :=
      value_charge hR.proper (not_unbounded_of_eval hR.nodup hc) hj
    rw [Poly.eval_eq_value, value_get_boundedCorrection hl hR (lt_length_of_position hl) hj,
      if_neg (Ne.symm hjl), if_pos rfl, hcharge]
    split
    · rfl
    · exact Scalar.add_o _
  · rw [get_boundedCorrection hl hi hj]
    simp only [if_neg hij, if_neg hil]

/-- `y` flows into `x` with `p` under one choice and lets it grow by itself under another one. With `n` as the
guard, the first makes `x` depend polynomially on `n`, and the second makes it unbounded. -/
theorem boundedCorrection_pointwise_two_choices :
    let R : Relation :=
      ⟨["x", "y", "n"],
        ⟨[[⟨[⟨.m, [⟨0, 0⟩]⟩, ⟨.w, [⟨1, 0⟩]⟩]⟩, .zero, .zero],
          [⟨[⟨.p, [⟨0, 0⟩]⟩, ⟨.m, [⟨1, 0⟩]⟩]⟩, .unit, .zero], [.zero, .zero, .unit]], by decide⟩, rfl⟩
    (R.Normal ∧ R.position? "n" = some 2 ∧ ∀ p ∈ R.matrix.entries, ∀ c ∈ [[0], [1]], p.eval c ≠ .i) ∧
      ((R.boundedCorrection "n").get 2 0).eval [0] = .p ∧
      ((R.boundedCorrection "n").get 0 0).eval [0] = .m ∧
      (¬ ∃ w ∈ R.boundedPromoted, satisfies [0] w = true) ∧
      ((R.boundedCorrection "n").get 2 0).eval [1] = .o ∧
      (∃ w ∈ R.boundedPromoted, satisfies [1] w = true) ∧
      (R.boundedCorrection "n").get 1 0 = R.get 1 0 := by
  intro R
  have hR : R.Normal := ⟨by decide, by decide⟩
  have hl : R.position? "n" = some 2 := by decide
  have hcolumn : ∀ i < R.vars.length, i ≠ 2 → ∀ m ∈ (R.get i 2).monomials, m.scalar ≠ .p := by decide
  have hc : ∀ p ∈ R.matrix.entries, ∀ c ∈ [[0], [1]], p.eval c ≠ .i := by decide
  obtain ⟨_, hdiagonal, hguard, hother, hiff⟩ := boundedCorrection_pointwise hR hl hcolumn
    (c := [0]) fun p hp => hc p hp [0] (by decide)
  obtain ⟨_, _, hguard', _, hiff'⟩ := boundedCorrection_pointwise hR hl hcolumn
    (c := [1]) fun p hp => hc p hp [1] (by decide)
  refine ⟨⟨hR, hl, hc⟩, hguard 0 (by decide) (by decide), hdiagonal 0 (by decide), ?_,
    hguard' 0 (by decide) (by decide), hiff'.mpr (by decide), hother 1 (by decide) 0 (by decide)
      (by decide) (by decide)⟩
  rw [hiff]
  decide

/-! ## The column of the guard -/

variable {P : Delta → Prop} {B F : Relation} {guard : String}

/-- Behind a body that does not know the guard, nothing flows into it. -/
theorem value_zero_compose (hB : B.Normal) (hguard : guard ∉ B.vars) (σ : Selection) (x : String) :
    ((zero [guard]).compose B).value σ x guard = .o := by
  have hZ := normal_zero guard
  have hnd : [guard].Nodup := hZ.nodup
  have hmem : guard ∈ (zero [guard]).unionVariables B :=
    mem_unionVariables.mpr (.inl (List.mem_singleton_self guard))
  have hcolumn : (zero [guard]).value σ x guard = .o := by
    by_cases hx : x = guard
    · rw [hx, value, entry_zero hnd (List.mem_singleton_self _) (List.mem_singleton_self _),
        Poly.value_zero]
    · rw [value_of_not_mem (.inl (mt List.mem_singleton.mp hx)), if_neg hx]
  by_cases hx : x ∈ (zero [guard]).unionVariables B
  · rw [value_compose_eq_sum hZ.proper hB.proper hx hmem]
    refine Scalar.le_antisymm (Scalar.sum_le_iff.mpr ?_) (Scalar.o_le _)
    intro s hs
    obtain ⟨z, _, rfl⟩ := List.mem_map.mp hs
    have hzi : ((zero [guard]).entry x z).value σ ≠ .i :=
      fun hi => not_unbounded_zero hnd σ ⟨x, z, hi⟩
    -- the body keeps the guard, so only the guard's own old value could reach it
    rw [entry_of_not_mem (.inr hguard), Poly.value_mul_of_ne_i (hZ.proper.entries x z)
      (proper_unchanged z guard) hzi (value_unchanged_ne_i σ z guard), value_unchanged]
    split
    · rename_i hz
      rw [hz, Scalar.mul_m]
      exact hcolumn ▸ Scalar.le_refl _
    · rw [Scalar.mul_o hzi]
      exact Scalar.le_refl _
  · have hne : x ≠ guard := fun hxg => hx (hxg ▸ hmem)
    rw [value_of_not_mem, if_neg hne]
    rw [vars_compose _ _ hZ.nodup hB.nodup]
    exact .inl hx

/-- Into a variable into which nothing flows, repetition lets nothing flow but what is unbounded. -/
theorem value_power_column (hR : R.Proper P) {x y : String} (hcolumn : ∀ z, R.value σ z y = .o)
    (hxy : x ≠ y) (k : Nat) : (R.power k).value σ x y = .o ∨ (R.power k).value σ x y = .i := by
  cases k with
  | zero =>
      rw [power, value_identity hR.nodup, if_neg hxy]
      exact .inl rfl
  | succ k =>
      by_cases hmem : x ∈ R.vars ∧ y ∈ R.vars
      · have hunion : (R.power k).unionVariables R = R.vars :=
          (unionVariables_of_vars_eq (R.vars_power k)).trans (R.vars_power k)
        rw [power, value_compose_eq_sum (hR.power k) hR (hunion ▸ hmem.1) (hunion ▸ hmem.2)]
        refine Classical.or_iff_not_imp_left.mpr fun hne => ?_
        obtain ⟨z, _, hz⟩ := List.mem_map.mp (Scalar.sum_mem hne)
        rw [← hz] at hne ⊢
        rw [Poly.value_mul ((hR.power k).entries x z) (hR.entries z y),
          show (R.entry z y).value σ = .o from hcolumn z] at hne ⊢
        split at hne
        · exact absurd rfl hne
        · -- a product with `o` is `o`, unless the other factor is unbounded
          rename_i hloud
          rw [if_neg hloud]
          exact Classical.byContradiction fun hi =>
            hne (Scalar.mul_o fun hzi => hi (Scalar.mul_eq_i_iff.mpr (.inl hzi)))
      · rw [value_of_not_mem, if_neg hxy]
        · exact .inl rfl
        · rw [vars_power]
          exact Decidable.not_and_iff_not_or_not.mp hmem

/-- What a guarded loop hands to its correction: only unbounded flows go into the guard from other
variables, because its body does not know the guard. -/
theorem guard_column_of_closure {limit : Nat} (hB : B.Normal) (hguard : guard ∉ B.vars)
    (hF : ((zero [guard]).compose B).closureWithin? limit = some F) {l : Nat}
    (hl : F.position? guard = some l) (hi : i < F.vars.length) (hil : i ≠ l) {m : Monomial}
    (hm : m ∈ (F.get i l).monomials) : m.scalar = .i := by
  have hM := (normal_zero guard).compose hB
  obtain ⟨j, rfl, _⟩ := closureWithin?_some hF
  have hnormal := hM.powerSum j
  have hplace := place_of_position hl
  have hi' := List.getElem?_eq_getElem hi
  have hentry := entry_of_places hnormal.nodup hi' hplace
  rw [← hentry] at hm
  have hown := (hnormal.entry _ _).value_own hm
  have hne := mt (FlowMatrix.place_eq_iff hnormal.nodup hi' hplace).mpr hil
  obtain ⟨k, _, hk⟩ := exists_value_power_eq (σ := .ofDemands m.deltas) hM.proper _ guard j
  rcases value_power_column hM.proper (fun z => value_zero_compose hB hguard _ z) hne k with ho | hi
  · exact absurd (hown.symm.trans (hk.trans ho)) ((hnormal.entry _ _).nonzero m hm)
  · exact hown.symm.trans (hk.trans hi)

end Relation

end GrowthFlow
