import GrowthFlow.Proofs.ScalarFlow
import GrowthFlow.Proofs.Survival

/-!
# The analysis refines the plain calculus

For one choice vector there is a direct derivation: the same walk over plain scalars, where each
assignment contributes the scalars of the value that was chosen, and which fails as soon as the rule of a
loop makes a scalar `i`. The analysis carries polynomials instead and covers all vectors in one run.

Where the derivation for a vector does not fail, the relation of the analysis has its scalars under that
vector (`Plan.evaluates_derive`). What is unbounded under other choices travels through every product
without touching this one, and the single test that ends a closure ends the star of each choice.
-/

namespace GrowthFlow

open Lang

/-! ## The direct derivation -/

namespace Effect

/-- The scalars of an effect under a choice vector, if it takes the index `k`. -/
def cells (v : List Nat) (k : Nat) : Effect → Cells
  | nothing => .identity []
  | flow R => .ofFn R.vars fun x y => (R.entry x y).eval []
  | choice x operands scalars =>
    .ofFn (x :: operands.filter (· != x)) fun y z =>
      if z = x then
        match operands.idxOf? y, v[k]? with
        | some j, some c => (scalars[j]?.getD [])[c]?.getD .o
        | _, _ => .o
      else if y = z then .m else .o
  | unsupported => .identity []

end Effect

namespace Plan

/-- The direct derivation of a plan under a choice vector, from index `k` on. -/
def derive (v : List Nat) : Plan → (k : Nat) → Option Cells
  | simple _ e, k => some (e.cells v k)
  | andThen p q, k => do
    let a ← p.derive v k
    let b ← q.derive v (k + p.taken)
    return a.compose b
  | either p q, k => do
    let a ← p.derive v k
    let b ← q.derive v (k + p.taken)
    return b.join a
  | loop guard p, k => do
    let a ← p.derive v k
    (a.star.correct guard).bounded?

end Plan

/-- The direct derivation of statements under a choice vector, over all their variables. -/
def derivation (opts : Options) (v : List Nat) (start : Nat) (body : List Stmt) : Option Cells := do
  let a ← (Plan.ofStmts opts body).derive v start
  return (Cells.identity (Stmt.namesAll body)).compose a

/-- The scalars of a relation under a choice vector. -/
def Relation.scalars (R : Relation) (v : List Nat) : Cells :=
  ⟨R.vars, R.matrix.rows.map fun row => row.map (Poly.eval v)⟩

/-! ## Relations with given scalars -/

/-- Under a choice, the relation is bounded and has the scalars of the cells. -/
structure Evaluates (σ : Selection) (R : Relation) (a : Cells) : Prop where
  vars : a.vars = R.vars
  entries : ∀ x y, R.value σ x y = a.entry x y
  bounded : ¬ R.Unbounded σ

namespace Evaluates

variable {P : Delta → Prop} {σ : Selection} {R S F : Relation} {a b : Cells}

theorem of_mem (hvars : a.vars = R.vars)
    (h : ∀ x ∈ R.vars, ∀ y ∈ R.vars, R.value σ x y = a.entry x y) (hb : ¬ R.Unbounded σ) :
    Evaluates σ R a := by
  refine ⟨hvars, fun x y => ?_, hb⟩
  by_cases hmem : x ∈ R.vars ∧ y ∈ R.vars
  · exact h x hmem.1 y hmem.2
  · have hout := Decidable.not_and_iff_not_or_not.mp hmem
    rw [Relation.value_of_not_mem hout, Cells.entry_of_not_mem (hvars ▸ hout)]

theorem identity {vars : List String} (hnd : vars.Nodup) (σ : Selection) :
    Evaluates σ (.identity vars) (.identity vars) := by
  refine ⟨rfl, fun x y => ?_, Relation.not_unbounded_identity hnd σ⟩
  rw [Relation.value_identity hnd, Cells.entry_identity hnd]

theorem compose (hR : R.Proper P) (hS : S.Proper P) (hra : Evaluates σ R a)
    (hsb : Evaluates σ S b) : Evaluates σ (R.compose S) (a.compose b) := by
  have hunion : unionNames a.vars b.vars = R.unionVariables S := by
    rw [hra.vars, hsb.vars]
    rfl
  have hvars := Relation.vars_compose R S hR.nodup hS.nodup
  refine of_mem (hunion.trans hvars.symm) ?_ ?_
  · intro x hx y hy
    rw [hvars] at hx hy
    rw [Relation.value_compose hR hS hra.bounded hsb.bounded hx hy,
      Cells.entry_compose (hra.vars ▸ hR.nodup) (hsb.vars ▸ hS.nodup) (hunion ▸ hx) (hunion ▸ hy),
      hunion]
    simp only [hra.entries, hsb.entries]
  · rw [Relation.unbounded_compose_iff hR hS]
    exact fun hc => (Relation.unbounded_of_carries hc).elim hra.bounded hsb.bounded

theorem join (hR : R.Proper P) (hS : S.Proper P) (hra : Evaluates σ R a)
    (hsb : Evaluates σ S b) : Evaluates σ (R.sum S) (a.join b) := by
  have hunion : unionNames a.vars b.vars = R.unionVariables S := by
    rw [hra.vars, hsb.vars]
    rfl
  have hvars := Relation.vars_sum R S hR.nodup hS.nodup
  refine of_mem (hunion.trans hvars.symm) ?_ ?_
  · intro x hx y hy
    rw [hvars] at hx hy
    rw [Relation.value_sum hR hS hx hy, hra.entries, hsb.entries,
      Cells.entry_join (hra.vars ▸ hR.nodup) (hsb.vars ▸ hS.nodup) (hunion ▸ hx) (hunion ▸ hy)]
  · rw [Relation.unbounded_sum_iff hR hS]
    exact fun h => h.elim hra.bounded hsb.bounded

theorem power (hR : R.Proper P) (hra : Evaluates σ R a) :
    ∀ k, Evaluates σ (R.power k) (a.power k)
  | 0 => by
      show Evaluates σ (.identity R.vars) (.identity a.vars)
      rw [hra.vars]
      exact identity hR.nodup σ
  | k + 1 => (power hR hra k).compose (hR.power k) hR hra

/-- **The closure of the polynomials is the star of the scalars.** -/
theorem star {limit : Nat} (hR : R.Proper P) (hra : Evaluates σ R a)
    (h : R.closureWithin? limit = some F) : Evaluates σ F a.star := by
  have hvars := Relation.vars_closure h
  refine of_mem ((Cells.vars_star a).trans (hra.vars.trans hvars.symm)) ?_ ?_
  · intro x hx y hy
    rw [hvars] at hx hy
    apply Scalar.eq_of_le_iff
    intro t
    -- Both are the least upper bound of all powers, wherever the one search and the other one stop.
    rw [Relation.closure_le_iff hR hra.bounded h hx hy,
      Cells.star_le_iff (hra.vars ▸ hR.nodup) (hra.vars ▸ hx) (hra.vars ▸ hy)]
    simp only [(hra.power hR _).entries]
  · rw [Relation.unbounded_closure_iff hR h]
    exact hra.bounded

/-! ## The rules of loops -/

theorem bounded?_ofFn {vars : List String} {f : String → String → Scalar}
    (h : (Cells.ofFn vars f).bounded? = some b) :
    b = .ofFn vars f ∧ ∀ x ∈ vars, ∀ y ∈ vars, f x y ≠ .i := by
  unfold Cells.bounded? at h
  split at h
  · rename_i hall
    cases h
    refine ⟨rfl, fun x hx y hy => ?_⟩
    rw [List.all_eq_true] at hall
    have hrow := hall _ (List.mem_map.mpr ⟨x, hx, rfl⟩)
    rw [List.all_eq_true] at hrow
    exact bne_iff_ne.mp (hrow _ (List.mem_map.mpr ⟨y, hy, rfl⟩))
  · cases h

theorem unboundedBetween_mono {x y : String} : ∀ s t : Scalar, s ≠ .o →
    Relation.unboundedBetween x y s = true → s ≤ t → t ≠ .i →
    Relation.unboundedBetween x y t = true := by
  unfold Relation.unboundedBetween
  cases x == y with
  | true => decide
  | false => decide

/-- What is not promoted keeps its scalar. -/
theorem value_escalate_of_not {p : Poly} (hp : p.Proper P) {f : Scalar → Bool}
    (hf : ∀ s t, s ≠ .o → f s = true → s ≤ t → t ≠ .i → f t = true) (hi : p.value σ ≠ .i)
    (hnot : f (p.value σ) = false) : (p.escalate f).value σ = p.value σ := by
  rw [Poly.value_escalate hp, if_neg]
  rw [Poly.any_promoted_iff hp hi hf, hnot]
  exact fun h => Bool.false_ne_true h.2

theorem whileCorrection (hF : F.Proper P) (hfa : Evaluates σ F a)
    (h : (a.correct none).bounded? = some b) : Evaluates σ F.whileCorrection b := by
  obtain ⟨rfl, hne⟩ := bounded?_ofFn h
  -- Since no scalar became `i`, the rule did not apply anywhere.
  have hnot : ∀ x ∈ F.vars, ∀ y ∈ F.vars,
      Relation.unboundedBetween x y (a.entry x y) = false := by
    intro x hx y hy
    have hxy := hne x (hfa.vars ▸ hx) y (hfa.vars ▸ hy)
    cases hcase : Relation.unboundedBetween x y (a.entry x y) with
    | false => rfl
    | true =>
        rw [hcase] at hxy
        exact absurd rfl hxy
  have hvalue : ∀ x ∈ F.vars, ∀ y ∈ F.vars, F.whileCorrection.value σ x y = a.entry x y := by
    intro x hx y hy
    rw [Relation.value, Relation.entry_whileCorrection hF.nodup hx hy, ← hfa.entries]
    refine value_escalate_of_not (hF.entries x y) unboundedBetween_mono
      (fun hi => hfa.bounded ⟨x, y, hi⟩) ?_
    show Relation.unboundedBetween x y (F.value σ x y) = false
    rw [hfa.entries]
    exact hnot x hx y hy
  refine of_mem hfa.vars ?_ ?_
  · intro x hx y hy
    rw [hvalue x hx y hy, Cells.entry_ofFn (hfa.vars ▸ hF.nodup) (hfa.vars ▸ hx) (hfa.vars ▸ hy),
      hnot x hx y hy, if_neg Bool.false_ne_true]
  · rintro ⟨x, y, hi⟩
    obtain ⟨hx, hy⟩ := Relation.mem_of_value_eq_i hi
    rw [hvalue x hx y hy, ← hfa.entries] at hi
    exact hfa.bounded ⟨x, y, hi⟩

theorem charge (hF : F.Proper P) (hfa : Evaluates σ F a) (y : String) :
    (F.chargeInto y).value σ = a.charge y := by
  rw [Relation.value_chargeInto hF hfa.bounded, Cells.charge, hfa.vars]
  simp only [hfa.entries]

theorem boundedCorrection {guard : String} (hF : F.Proper P) (hfa : Evaluates σ F a)
    (h : (a.correct (some guard)).bounded? = some b) :
    Evaluates σ (F.boundedCorrection guard) b := by
  obtain ⟨rfl, hne⟩ := bounded?_ofFn h
  -- A scalar that became `i` would show in the corrected cells, also with a charge added to it.
  have hself : ∀ x ∈ F.vars, a.entry x x = .m := by
    intro x hx
    have hxx := hne x (hfa.vars ▸ hx) x (hfa.vars ▸ hx)
    apply Classical.byContradiction
    intro hm
    simp only [true_and, ne_eq, hm, not_false_eq_true, if_true] at hxx
    split at hxx
    · exact hxx (Scalar.add_eq_i_iff.mpr (.inl rfl))
    · exact hxx rfl
  have hnot : ∀ x ∈ F.vars, ∀ y : String, ¬ (x = y ∧ a.entry x y ≠ .m) := by
    rintro x hx y ⟨rfl, hm⟩
    exact hm (hself x hx)
  have hentry : ∀ x ∈ F.vars, ∀ y ∈ F.vars,
      (if x = y then (F.entry x y).escalate (· != .m) else F.entry x y).Proper P ∧
        (if x = y then (F.entry x y).escalate (· != .m) else F.entry x y).value σ =
          a.entry x y := by
    intro x hx y hy
    rw [← hfa.entries]
    split
    · rename_i hxy
      subst hxy
      have hm : F.value σ x x = .m := (hfa.entries x x).trans (hself x hx)
      refine ⟨(hF.entries x x).escalate _, value_escalate_of_not (hF.entries x x) (by decide)
        (fun hi => hfa.bounded ⟨x, x, hi⟩) ?_⟩
      rw [show (F.entry x x).value σ = .m from hm]
      rfl
    · exact ⟨hF.entries x y, rfl⟩
  have hvalue : ∀ x ∈ F.vars, ∀ y ∈ F.vars, (F.boundedCorrection guard).value σ x y =
      if x = guard then a.entry x y + a.charge y else a.entry x y := by
    intro x hx y hy
    obtain ⟨hproper, heq⟩ := hentry x hx y hy
    rw [Relation.value, Relation.entry_boundedCorrection hF.nodup hx hy]
    simp only
    split
    · rw [Poly.value_add hproper (Relation.proper_chargeInto hF y), heq, charge hF hfa]
    · exact heq
  refine of_mem hfa.vars ?_ ?_
  · intro x hx y hy
    rw [hvalue x hx y hy, Cells.entry_ofFn (hfa.vars ▸ hF.nodup) (hfa.vars ▸ hx) (hfa.vars ▸ hy),
      if_neg (hnot x hx y)]
  · rintro ⟨x, y, hi⟩
    obtain ⟨hx, hy⟩ := Relation.mem_of_value_eq_i hi
    have hxy := hne x (hfa.vars ▸ hx) y (hfa.vars ▸ hy)
    rw [hvalue x hx y hy] at hi
    rw [if_neg (hnot x hx y)] at hxy
    exact hxy hi

/-- A rule that makes nothing `i` does the same on polynomials and on scalars. -/
theorem correct (hF : F.Proper P) (hfa : Evaluates σ F a) {guard : Option String}
    (h : (a.correct guard).bounded? = some b) : Evaluates σ (F.correct guard) b := by
  cases guard with
  | none => exact whileCorrection hF hfa h
  | some guard => exact boundedCorrection hF hfa h

/-! ## Effects -/

theorem choice {x : String} {operands : List String} {scalars : List (List Scalar)}
    (h : (Effect.choice x operands scalars).WellFormed) {v : List Nat} {k : Nat}
    (hk : k < v.length) :
    Evaluates (.ofVector v) ((Effect.choice x operands scalars).relation k)
      ((Effect.choice x operands scalars).cells v k) := by
  have hnd := Effect.nodup_choiceVars (x := x) h.1
  have hget : v[k]? = some v[k] := List.getElem?_eq_getElem hk
  refine of_mem rfl ?_ (Effect.not_unbounded_relation h k _)
  intro y hy z hz
  rw [Relation.value]
  refine (congrArg (Poly.value _)
    (Relation.entry_assignment hnd hy hz (Effect.operandFlow k operands scalars))).trans ?_
  rw [Effect.cells, Cells.entry_ofFn hnd hy hz, hget]
  split
  · unfold Effect.operandFlow
    cases operands.idxOf? y with
    | none => rfl
    | some j => exact Poly.value_ofChoice (.ofVector v) hget _
  · exact value_unchanged _ y z

theorem effect {e : Effect} (h : e.WellFormed) {v : List Nat} {k : Nat}
    (hv : k + e.taken ≤ v.length) : Evaluates (.ofVector v) (e.relation k) (e.cells v k) := by
  cases e with
  | nothing => exact identity List.Pairwise.nil _
  | flow R =>
      refine of_mem rfl ?_ (h.2 _)
      intro x hx y hy
      rw [Effect.cells, Cells.entry_ofFn h.1.nodup hx hy, Poly.eval_eq_value]
      exact (h.1.entries x y).value_eq _ _
  | choice x operands scalars => exact choice h hv
  | unsupported => exact identity List.Pairwise.nil _

end Evaluates

/-! ## The analysis -/

/-- **A plan refines its derivations**: where the derivation does not fail, the relation has its
scalars. -/
theorem Plan.evaluates_derive {p : Plan} (hp : p.WellFormed) {limit k : Nat} {v : List Nat}
    {T : Relation} {c : Cells} (hT : p.flow limit k = some T) (hc : p.derive v k = some c)
    (hv : k + p.taken ≤ v.length) : Evaluates (.ofVector v) T c := by
  induction p generalizing k T c with
  | simple s e =>
      cases hT
      cases hc
      exact .effect hp hv
  | andThen p q ihp ihq =>
      obtain ⟨R, S, hR, hS, rfl⟩ := flow_andThen_some.mp hT
      obtain ⟨a, ha, hc⟩ := Option.bind_eq_some_iff.mp hc
      obtain ⟨b, hb, hc⟩ := Option.bind_eq_some_iff.mp hc
      cases hc
      rw [taken] at hv
      exact (ihp hp.1 hR ha (by omega)).compose
        ((flow_proper hp.1 hR).mono fun _ => Within.first q.taken)
        ((flow_proper hp.2 hS).mono fun _ => Within.second) (ihq hp.2 hS hb (by omega))
  | either p q ihp ihq =>
      obtain ⟨R, S, hR, hS, rfl⟩ := flow_either_some.mp hT
      obtain ⟨a, ha, hc⟩ := Option.bind_eq_some_iff.mp hc
      obtain ⟨b, hb, hc⟩ := Option.bind_eq_some_iff.mp hc
      cases hc
      rw [taken] at hv
      exact (ihq hp.2 hS hb (by omega)).join
        ((flow_proper hp.2 hS).mono fun _ => Within.second)
        ((flow_proper hp.1 hR).mono fun _ => Within.first q.taken) (ihp hp.1 hR ha (by omega))
  | loop guard p ih =>
      obtain ⟨R, F, hR, hF, rfl⟩ := flow_loop_some.mp hT
      obtain ⟨a, ha, hc⟩ := Option.bind_eq_some_iff.mp hc
      have hproper := flow_proper (p := p) hp hR
      exact ((ih hp hR ha hv).star hproper hF).correct (hproper.closure hF) hc

theorem Relation.rows_eq {R : Relation} (hnd : R.vars.Nodup) :
    R.matrix.rows = R.vars.map fun x => R.vars.map fun y => R.entry x y := by
  refine List.ext_getElem (by rw [List.length_map]; exact R.size_eq) fun i hi hi' => ?_
  have hrow := (R.matrix.square _ (List.getElem_mem hi)).trans R.size_eq
  rw [List.getElem_map]
  refine List.ext_getElem (by rw [List.length_map]; exact hrow) fun j hj hj' => ?_
  rw [List.length_map] at hi' hj'
  rw [List.getElem_map, entry_of_places hnd (List.getElem?_eq_getElem hi')
    (List.getElem?_eq_getElem hj')]
  simp [get, FlowMatrix.get, hi, hj]

theorem Relation.scalars_eq {R : Relation} (hnd : R.vars.Nodup) (v : List Nat) :
    R.scalars v = .ofFn R.vars fun x y => R.value (.ofVector v) x y := by
  unfold scalars Cells.ofFn
  rw [rows_eq hnd, List.map_map]
  simp only [Function.comp_def, List.map_map]
  rfl

/-- **The analysis refines the plain calculus.** Whenever a complete analysis succeeds, and the direct
derivation for a choice vector does not fail, the relation has under that vector exactly the scalars of
the derivation, and the vector is allowed. -/
theorem scalars_eq_derivation {opts : Options} (hc : opts.complete = true) {start : Nat}
    {body : List Stmt} {out : Outcome} (h : (analyzeBody opts start body).result.1 = .ok out)
    {v : List Nat} (hv : IsVector choiceValues out.index v) {c : Cells}
    (hd : derivation opts v start body = some c) :
    out.relation.scalars v = c ∧ out.choices.allows v = true := by
  obtain ⟨T, w, hdone⟩ := completed_of_ok hc h
  obtain ⟨a, ha, hd⟩ := Option.bind_eq_some_iff.mp hd
  cases hd
  have hwell := Plan.wellFormed_ofStmts opts body
  have hnames := (increasing_namesAll body).nodup
  have hlength : start + (Plan.ofStmts opts body).taken ≤ v.length := by
    rw [hv.length, hdone.taken]
  have heval : Evaluates (.ofVector v) out.relation
      ((Cells.identity (Stmt.namesAll body)).compose a) := by
    rw [hdone.relation]
    exact (Evaluates.identity hnames _).compose (Relation.proper_identity hnames)
      (Plan.flow_proper hwell hdone.flow) (Plan.evaluates_derive hwell hdone.flow ha hlength)
  constructor
  · rw [Relation.scalars_eq hdone.proper.nodup, ← heval.vars]
    simp only [heval.entries]
    exact Cells.ofFn_entry _ _ (heval.vars ▸ hdone.proper.nodup)
  · exact (hdone.allows v hv).mpr heval.bounded

/-- Under the choice of `0` nothing is seen of the flow that is unbounded under the choice of `1`. -/
theorem scalars_eq_derivation_summing :
    derivation Doubling.options [1] 0 Doubling.summing = none ∧
      Doubling.summed.scalars [0] = ⟨["a", "b"], [[.m, .o], [.w, .m]]⟩ ∧
      (Choices.mk [[[0, 2]]] 1).allows [0] = true :=
  ⟨by decide +kernel, scalars_eq_derivation rfl Doubling.analyze_summing ⟨rfl, by decide⟩
    (by decide +kernel)⟩

end GrowthFlow
