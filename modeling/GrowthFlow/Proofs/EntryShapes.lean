import GrowthFlow.Proofs.RegularRuns

/-!
# What an entry can be

Whether something flows from one variable into another may depend on the choices, but not in every way. As
long as all loops repeat without a bound, an entry that is worth nothing under one complete choice and
something other than `i` under another one does not occur: either something of it counts under every complete
choice, or nothing but `i` ever counts (`Poly.Shaped`). Sums, products and corrections keep that, and so does
every run (`Plan.shaped_of_run`).

A loop that repeats as often as its guard says does not keep it. The charge adds `p` to the flow from the
guard under some choices, and nothing under others.
-/

namespace GrowthFlow

open Lang

namespace Selection

/-- One of the values is chosen at each index below `n`. -/
def Complete (n : Nat) (σ : Selection) : Prop := ∀ k < n, ∃ x ∈ choiceValues, σ k = some x

theorem Complete.mono {k l : Nat} {σ : Selection} (h : σ.Complete l) (hkl : k ≤ l) : σ.Complete k :=
  fun j hj => h j (Nat.lt_of_lt_of_le hj hkl)

theorem complete_ofVector {n : Nat} {v : List Nat} (hv : IsVector choiceValues n v) :
    (ofVector v).Complete n := by
  intro k hk
  have hlt : k < v.length := by
    rw [hv.length]
    exact hk
  exact ⟨v[k], hv.mem _ (List.getElem_mem hlt), List.getElem?_eq_getElem hlt⟩

end Selection

/-! ## Entries -/

theorem Scalar.mul_o_or_i {a b : Scalar} (h : a = o ∨ a = i ∨ b = o ∨ b = i) : a * b = o ∨ a * b = i := by
  revert h
  cases a <;> cases b <;> decide

namespace Poly

variable {P : Delta → Prop} {n : Nat} {p q : Poly}

/-- Something counts under every complete choice, or nothing but `i` ever counts. -/
def Shaped (n : Nat) (p : Poly) : Prop :=
  (∀ σ : Selection, σ.Complete n → p.value σ ≠ .o) ∨ ∀ σ, p.value σ = .o ∨ p.value σ = .i

theorem Shaped.mono {k l : Nat} (h : p.Shaped k) (hkl : k ≤ l) : p.Shaped l :=
  h.imp_left fun hp σ hσ => hp σ (hσ.mono hkl)

theorem shaped_zero (n : Nat) : zero.Shaped n := .inr fun _ => .inl rfl

theorem shaped_unit (n : Nat) : unit.Shaped n := .inl fun σ _ => by rw [value_unit]; decide

theorem Shaped.add (hp : p.Proper P) (hq : q.Proper P) (h : p.Shaped n) (h' : q.Shaped n) :
    (p + q).Shaped n := by
  rcases h with h | h
  · refine .inl fun σ hσ => ?_
    rw [value_add hp hq]
    exact Scalar.ne_o_of_le (h σ hσ) (Scalar.le_add_left _ _)
  · rcases h' with h' | h'
    · refine .inl fun σ hσ => ?_
      rw [value_add hp hq]
      exact Scalar.ne_o_of_le (h' σ hσ) (Scalar.le_add_right _ _)
    · refine .inr fun σ => ?_
      rw [value_add hp hq]
      rcases Scalar.add_eq_or (p.value σ) (q.value σ) with heq | heq
      · rw [heq]
        exact h σ
      · rw [heq]
        exact h' σ

theorem Shaped.mul (hp : p.Proper P) (hq : q.Proper P) (h : p.Shaped n) (h' : q.Shaped n) :
    (p * q).Shaped n := by
  by_cases hcounts : (∀ σ : Selection, σ.Complete n → p.value σ ≠ .o) ∧
      ∀ σ : Selection, σ.Complete n → q.value σ ≠ .o
  · -- Neither factor is ever silent.
    refine .inl fun σ hσ => ?_
    have hpo := hcounts.1 σ hσ
    have hqo := hcounts.2 σ hσ
    rw [value_mul hp hq, silent_eq_false hpo, silent_eq_false hqo]
    intro ho
    rcases Scalar.mul_eq_o_iff.mp ho with ho | ho
    · exact hpo ho.1
    · exact hqo ho.1
  · -- One factor is worth `o` or `i` at best, and so is the product, silent or not.
    have hone : (∀ σ, p.value σ = .o ∨ p.value σ = .i) ∨ ∀ σ, q.value σ = .o ∨ q.value σ = .i := by
      rcases h with h | h
      · exact .inr (h'.resolve_left fun h' => hcounts ⟨h, h'⟩)
      · exact .inl h
    refine .inr fun σ => ?_
    rw [value_mul hp hq]
    split
    · exact .inl rfl
    · apply Scalar.mul_o_or_i
      rcases hone with hone | hone
      · exact (hone σ).imp_right .inl
      · exact .inr (.inr (hone σ))

theorem shaped_sumOver {α : Type} {f : α → Poly} {zs : List α} (hf : ∀ z ∈ zs, (f z).Proper P)
    (h : ∀ z ∈ zs, (f z).Shaped n) : (sumOver zs f).Shaped n := by
  have hfold : ∀ (zs : List α) (acc : Poly), acc.Proper P → acc.Shaped n →
      (∀ z ∈ zs, (f z).Proper P) → (∀ z ∈ zs, (f z).Shaped n) →
        (zs.foldl (fun acc z => acc + f z) acc).Shaped n := by
    intro zs
    induction zs with
    | nil => exact fun acc _ hacc _ _ => hacc
    | cons z zs ih =>
        intro acc hproper hacc hf h
        rw [List.forall_mem_cons] at hf h
        exact ih _ (hproper.add hf.1) (hacc.add hproper hf.1 h.1) hf.2 h.2
  exact hfold zs .zero (proper_zero P) (shaped_zero n) hf h

theorem Shaped.escalate (hp : p.Proper P) (h : p.Shaped n) (f : Scalar → Bool) :
    (p.escalate f).Shaped n := by
  rcases h with h | h
  · refine .inl fun σ hσ => ?_
    rw [value_escalate hp]
    split
    · decide
    · exact h σ hσ
  · refine .inr fun σ => ?_
    rw [value_escalate hp]
    split
    · exact .inr rfl
    · exact h σ

/-- A choice with a scalar for each value always counts. -/
theorem shaped_ofChoice {k : Nat} {scalars : List Scalar} (hlength : scalars.length = choiceValues.length)
    (h : ∀ s ∈ scalars, s ≠ .o) : (ofChoice k scalars).Shaped (k + 1) := by
  refine .inl fun σ hσ => ?_
  obtain ⟨x, hx, hchosen⟩ := hσ k (Nat.lt_succ_self k)
  have hvalues : ∀ x ∈ choiceValues, x < choiceValues.length := by decide
  have hlt : x < scalars.length := by
    rw [hlength]
    exact hvalues x hx
  rw [value_ofChoice σ hchosen, List.getElem?_eq_getElem hlt, Option.getD_some]
  exact h _ (List.getElem_mem hlt)

end Poly

/-! ## Relations -/

namespace Relation

variable {P : Delta → Prop} {n : Nat} {R S F : Relation}

/-- All entries are shaped. -/
def Shaped (n : Nat) (R : Relation) : Prop := ∀ x y, (R.entry x y).Shaped n

theorem shaped_unchanged (n : Nat) (x y : String) : (unchanged x y).Shaped n := by
  unfold unchanged
  split
  · exact Poly.shaped_unit n
  · exact Poly.shaped_zero n

/-- Between the variables it has to be checked; elsewhere nothing changes. -/
theorem shaped_of_mem (h : ∀ x ∈ R.vars, ∀ y ∈ R.vars, (R.entry x y).Shaped n) : R.Shaped n := by
  intro x y
  by_cases hmem : x ∈ R.vars ∧ y ∈ R.vars
  · exact h x hmem.1 y hmem.2
  · rw [entry_of_not_mem (Decidable.not_and_iff_not_or_not.mp hmem)]
    exact shaped_unchanged n x y

theorem Shaped.mono {k l : Nat} (h : R.Shaped k) (hkl : k ≤ l) : R.Shaped l :=
  fun x y => (h x y).mono hkl

theorem shaped_identity {vars : List String} (hnd : vars.Nodup) (n : Nat) : (identity vars).Shaped n := by
  intro x y
  rw [entry_identity hnd]
  exact shaped_unchanged n x y

theorem shaped_zero {vars : List String} (hnd : vars.Nodup) (n : Nat) : (zero vars).Shaped n := by
  refine shaped_of_mem fun x hx y hy => ?_
  rw [entry_zero hnd hx hy]
  exact Poly.shaped_zero n

theorem shaped_assignment {vars : List String} (hnd : vars.Nodup) {t : String} {f : String → Poly}
    (hf : ∀ x, (f x).Shaped n) : (assignment vars (vars.map f) t).Shaped n := by
  refine shaped_of_mem fun x hx y hy => ?_
  rw [entry_assignment hnd hx hy]
  split
  · exact hf x
  · exact shaped_unchanged n x y

theorem Shaped.compose (hR : R.Proper P) (hS : S.Proper P) (h : R.Shaped n) (h' : S.Shaped n) :
    (R.compose S).Shaped n := by
  refine shaped_of_mem fun x hx y hy => ?_
  rw [vars_compose R S hR.nodup hS.nodup] at hx hy
  rw [entry_compose hR.nodup hS.nodup hx hy]
  refine Poly.shaped_sumOver (P := P) (fun z _ => ?_) fun z _ => ?_
  · exact (hR.entries x z).mul (hS.entries z y)
  · exact (h x z).mul (hR.entries x z) (hS.entries z y) (h' z y)

theorem Shaped.sum (hR : R.Proper P) (hS : S.Proper P) (h : R.Shaped n) (h' : S.Shaped n) :
    (R.sum S).Shaped n := by
  refine shaped_of_mem fun x hx y hy => ?_
  rw [vars_sum R S hR.nodup hS.nodup] at hx hy
  rw [entry_sum hR.nodup hS.nodup hx hy]
  exact (h x y).add (hR.entries x y) (hS.entries x y) (h' x y)

theorem Shaped.power (hR : R.Proper P) (h : R.Shaped n) : ∀ k, (R.power k).Shaped n
  | 0 => shaped_identity hR.nodup n
  | k + 1 => (Shaped.power hR h k).compose (hR.power k) hR h

theorem Shaped.powerSum (hR : R.Proper P) (h : R.Shaped n) : ∀ k, (R.powerSum k).Shaped n
  | 0 => shaped_identity hR.nodup n
  | k + 1 => (Shaped.powerSum hR h k).sum (hR.powerSum k) (hR.power (k + 1)) (h.power hR (k + 1))

/-- Closing a relation and correcting it as one that repeats without a bound. -/
theorem Shaped.close {limit : Nat} (hR : R.Proper P) (h : R.Shaped n)
    (hF : R.closureWithin? limit = some F) : F.whileCorrection.Shaped n := by
  have hproper := hR.closure hF
  have hshaped : F.Shaped n := by
    obtain ⟨j, rfl, _⟩ := closureWithin?_some hF
    exact h.powerSum hR j
  refine shaped_of_mem fun x hx y hy => ?_
  rw [entry_whileCorrection hproper.nodup hx hy]
  exact (hshaped x y).escalate (hproper.entries x y) _

end Relation

/-! ## Effects -/

namespace Effect

/-- The relation of the effect is shaped, at whatever index its choice is. -/
def Shaped (e : Effect) : Prop := ∀ k, (e.relation k).Shaped (k + e.taken)

theorem shaped_nothing : nothing.Shaped := fun k => Relation.shaped_identity List.Pairwise.nil k

theorem shaped_reset (x : String) : (flow (.zero [x])).Shaped :=
  fun k => Relation.shaped_zero (List.pairwise_singleton _ x) k

theorem shaped_copy (x y : String) : (copy x y).Shaped := by
  unfold copy
  split
  · exact shaped_nothing
  · rename_i hne
    have hnd : [x, y].Nodup := by simp [hne]
    have hcolumn : [Poly.zero, Poly.unit] = [x, y].map fun z => if z = x then .zero else .unit := by
      simp [Ne.symm hne]
    intro k
    show (Relation.assignment [x, y] [.zero, .unit] x).Shaped k
    rw [hcolumn]
    refine Relation.shaped_assignment hnd fun z => ?_
    split
    · exact Poly.shaped_zero k
    · exact Poly.shaped_unit k

theorem shaped_choice {x : String} {operands : List String} {scalars : List (List Scalar)}
    (hnd : operands.Nodup)
    (h : ∀ ss ∈ scalars, ss.length = choiceValues.length ∧ ∀ s ∈ ss, s ≠ .o) :
    (choice x operands scalars).Shaped := by
  intro k
  refine Relation.shaped_assignment (f := operandFlow k operands scalars) (nodup_choiceVars hnd)
    fun y => ?_
  unfold operandFlow
  split
  · rename_i j _
    cases hj : scalars[j]? with
    | none => exact Poly.shaped_zero _
    | some ss =>
        obtain ⟨hlength, hne⟩ := h ss (List.mem_of_getElem? hj)
        exact Poly.shaped_ofChoice hlength hne
  · exact Poly.shaped_zero _

theorem shaped_arithmetic (x : String) (op : BinaryOp) (y z : Operand) :
    (arithmetic x op y z).Shaped := by
  have hscalars : ∀ operands hasConst, ∀ ss ∈ scalarsOf op operands hasConst,
      ss.length = choiceValues.length ∧ ∀ s ∈ ss, s ≠ .o := by
    intro operands hasConst
    unfold scalarsOf
    split
    · split
      · decide
      · split
        · decide
        · decide
    · split
      · decide
      · decide
  have hwell := wellFormed_arithmetic x op y z
  unfold arithmetic at hwell ⊢
  split at hwell
  · exact shaped_reset x
  · exact shaped_choice hwell.1 (hscalars _ _)

theorem universal_shaped : Universal Shaped where
  nothing := shaped_nothing
  unsupported := shaped_nothing
  reset := shaped_reset
  assign x e := by
    unfold ofAssign
    split
    · split
      · split
        · exact shaped_arithmetic _ _ _ _
        · exact shaped_nothing
      · exact shaped_nothing
    · exact shaped_reset x
    · exact shaped_copy _ _
    · exact fun k => Relation.shaped_identity (List.pairwise_singleton _ x) k
    · exact shaped_nothing
  expr e := by
    unfold ofExpr
    split
    · split
      · split
        · exact shaped_arithmetic _ _ _ _
        · exact shaped_nothing
      · exact shaped_nothing
    · split
      · exact shaped_nothing
      · exact shaped_nothing
    · exact shaped_nothing

end Effect

/-! ## Runs -/

namespace Plan

variable {P : String → Prop} {opts : Options} {p : Plan}

theorem All.and {E E' : Effect → Prop} {G G' : Option String → Prop} (h : p.All E G)
    (h' : p.All E' G') : p.All (fun e => E e ∧ E' e) fun guard => G guard ∧ G' guard := by
  induction p with
  | simple s e => exact ⟨h, h'⟩
  | andThen p q ihp ihq => exact ⟨ihp h.1 h'.1, ihq h.2 h'.2⟩
  | either p q ihp ihq => exact ⟨ihp h.1 h'.1, ihq h.2 h'.2⟩
  | loop guard p ih => exact ⟨⟨h.1, h'.1⟩, ih h.2 h'.2⟩

theorem kept_shaped (P : String → Prop) (limit : Nat) :
    Kept limit (fun e => (e.WellFormed ∧ e.Over P) ∧ e.Shaped) (fun guard => True ∧ guard = none)
      fun k R => R.Regular P k ∧ R.Shaped k where
  mono h hR := ⟨hR.1.mono h, hR.2.mono h⟩
  effect h k := ⟨Effect.regular_relation h.1.1 h.1.2 k, h.2 k⟩
  compose hR hS := ⟨hR.1.compose hS.1, hR.2.compose hR.1.proper hS.1.proper hS.2⟩
  sum hR hS := ⟨hR.1.sum hS.1, hR.2.sum hR.1.proper hS.1.proper hS.2⟩
  close hguard hR hF := by
    rw [hguard.2]
    exact ⟨hR.1.repeat hF none, hR.2.close hR.1.proper hF⟩

/-- No loop of the plan has a guard, and all effects are shaped. -/
theorem all_shaped (hb : opts.boundedFor = false) (body : List Stmt) :
    (ofStmts opts body).All Effect.Shaped (· = none) := by
  have hE := Effect.universal_shaped
  refine all_ofList (G := (· = none)) hE rfl (fun guard => ?_) body hE.nothing
  rw [hb]
  rfl

/-- **Where no loop has a guard, every run ends with a shaped relation.** -/
theorem shaped_of_run (hw : p.WellFormed) (ho : p.Over P) (hs : p.All Effect.Shaped (· = none))
    {w w' : Walk} {T : Relation} (h : p.run opts w = (.ok T, w')) : T.Shaped w'.index :=
  ((kept_shaped P opts.limit).of_run ((all_of_wellFormed hw ho).and hs) h).2.2

end Plan

end GrowthFlow
