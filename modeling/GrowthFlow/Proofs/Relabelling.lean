import GrowthFlow.Proofs.Plan
import GrowthFlow.Proofs.Shift

/-!
# Relabelled runs

The names of the variables and the numbers of the choices are labels. A relation is *relabelled* by a map
of names and an offset for the indices: its rows and columns stay where they are. As long as the map keeps
names apart, every operation on relations commutes with relabelling.

Two plans *match* if they have the same shape, and the effects of one are those of the other relabelled.
Their runs then do the same from walks whose indices and graphs differ by the offset
(`Plan.Matches.run`). The journals may differ, since they quote the statements.
-/

namespace GrowthFlow

open Lang

/-! ## Relations -/

theorem idxOf?_map {r : String → String} (hr : Function.Injective r) (vars : List String) (x : String) :
    (vars.map r).idxOf? (r x) = vars.idxOf? x := by
  unfold List.idxOf?
  rw [List.findIdx?_map]
  refine congrArg (fun p => List.findIdx? p vars) (funext fun y => ?_)
  simp only [Function.comp_apply, beq_eq_beq, hr.eq_iff]

namespace Relation

/-- The relation with other names and with its indices moved up. -/
def relabel (r : String → String) (s : Nat) (R : Relation) : Relation :=
  ⟨R.vars.map r, R.matrix.shift s, by rw [FlowMatrix.size_shift, R.size_eq, List.length_map]⟩

variable {r : String → String} {s : Nat} {R S : Relation}

@[simp] theorem vars_relabel (R : Relation) : (R.relabel r s).vars = R.vars.map r := rfl

@[simp] theorem matrix_relabel (R : Relation) : (R.relabel r s).matrix = R.matrix.shift s := rfl

theorem get_relabel (R : Relation) (i j : Nat) : (R.relabel r s).get i j = (R.get i j).shift s :=
  FlowMatrix.get_shift R.matrix i j

/-- A relation given by its entries is relabelled by moving the entries. -/
theorem relabel_ofFn (vars : List String) (f : Nat → Nat → Poly) :
    (ofFn vars f).relabel r s = ofFn (vars.map r) fun i j => (f i j).shift s := by
  refine ext_matrix rfl ?_
  show (FlowMatrix.ofFn vars.length f).shift s = FlowMatrix.ofFn (vars.map r).length _
  rw [FlowMatrix.shift_ofFn, List.length_map]

theorem relabel_ofGet (vars : List String) (M : FlowMatrix) :
    (ofFn vars M.get).relabel r s = ofFn (vars.map r) (M.shift s).get := by
  rw [relabel_ofFn]
  exact congrArg (ofFn _) (funext fun i => funext fun j => (M.get_shift i j).symm)

theorem relabel_identity (vars : List String) :
    (identity vars).relabel r s = identity (vars.map r) := by
  unfold identity
  rw [relabel_ofFn]
  refine congrArg (ofFn _) (funext fun i => funext fun j => ?_)
  rw [apply_ite (Poly.shift s), Poly.shift_unit, Poly.shift_zero]

theorem relabel_zero (vars : List String) : (zero vars).relabel r s = zero (vars.map r) :=
  relabel_ofFn vars _

theorem relabel_empty : empty.relabel r s = empty := relabel_identity []

theorem position?_relabel (hr : Function.Injective r) (R : Relation) (x : String) :
    (R.relabel r s).position? (r x) = R.position? x := idxOf?_map hr R.vars x

theorem relabel_assignment (hr : Function.Injective r) (vars : List String) (column : List Poly)
    (x : String) : (assignment vars column x).relabel r s =
      assignment (vars.map r) (column.map (Poly.shift s)) (r x) := by
  unfold assignment
  rw [relabel_ofFn]
  refine congrArg (ofFn _) (funext fun i => funext fun j => ?_)
  rw [idxOf?_map hr, List.length_map, List.getElem?_map]
  split
  · cases column[i]? with
    | none => rfl
    | some p => rfl
  · rw [apply_ite (Poly.shift s), Poly.shift_unit, Poly.shift_zero]

theorem relabel_extend (R : Relation) (vars : List String) :
    (R.extend vars).relabel r s = (R.relabel r s).extend (vars.map r) := by
  refine ext_matrix rfl ?_
  show (R.matrix.resize vars.length).shift s = (R.matrix.shift s).resize (vars.map r).length
  rw [FlowMatrix.shift_resize, List.length_map]

theorem relabel_realign (hr : Function.Injective r) (R : Relation) (vars : List String) :
    (R.realign vars).relabel r s = (R.relabel r s).realign (vars.map r) := by
  have hplace : ∀ i : Nat, (vars.map r)[i]?.bind (R.relabel r s).position? = vars[i]?.bind R.position? := by
    intro i
    rw [List.getElem?_map]
    cases vars[i]? with
    | none => rfl
    | some x => exact position?_relabel hr R x
  unfold realign
  rw [relabel_ofFn]
  refine congrArg (ofFn _) (funext fun i => funext fun j => ?_)
  rw [hplace, hplace]
  split
  · rw [get_relabel]
  · rw [apply_ite (Poly.shift s), Poly.shift_unit, Poly.shift_zero]

theorem unionVariables_relabel (hr : Function.Injective r) (R S : Relation) :
    unionVariables (R.relabel r s) (S.relabel r s) = (unionVariables R S).map r := by
  have hnew : (S.vars.map r).filter (!(R.vars.map r).contains ·) =
      (S.vars.filter (!R.vars.contains ·)).map r := by
    refine filter_map_of (fun x => ?_) S.vars
    simp only [List.contains_eq_mem, List.mem_map_of_injective hr]
  unfold unionVariables
  rw [vars_relabel, vars_relabel, hnew, List.map_append]

/-- Aligning looks at names only to tell them apart. -/
theorem align_relabel (hr : Function.Injective r) (R S : Relation) :
    align (R.relabel r s) (S.relabel r s) =
      ((align R S).1.relabel r s, (align R S).2.relabel r s) := by
  unfold align
  simp only [vars_relabel, hr.list_map.eq_iff, List.isEmpty_map, unionVariables_relabel hr,
    ← relabel_identity (r := r) (s := s), ← relabel_extend, ← relabel_realign hr]
  split
  · rfl
  · split
    · rfl
    · split
      · rfl
      · rfl

theorem relabel_compose (hr : Function.Injective r) (R S : Relation) :
    (R.compose S).relabel r s = (R.relabel r s).compose (S.relabel r s) := by
  unfold compose
  rw [align_relabel hr]
  simp only [relabel_ofGet, vars_relabel, matrix_relabel, FlowMatrix.shift_mul]

theorem relabel_sum (hr : Function.Injective r) (R S : Relation) :
    (R.sum S).relabel r s = (R.relabel r s).sum (S.relabel r s) := by
  unfold sum
  rw [align_relabel hr]
  simp only [relabel_ofGet, vars_relabel, matrix_relabel, FlowMatrix.shift_add]

theorem closureWithin?_relabel (limit : Nat) (R : Relation) :
    (R.relabel r s).closureWithin? limit = (R.closureWithin? limit).map (relabel r s) := by
  unfold closureWithin?
  rw [matrix_relabel, FlowMatrix.closureWithin?_shift, Option.map_map, Option.map_map]
  exact congrArg (Option.map · _) (funext fun F => (relabel_ofGet R.vars F).symm)

/-! ## Loop corrections -/

theorem relabel_whileCorrection (R : Relation) :
    R.whileCorrection.relabel r s = (R.relabel r s).whileCorrection := by
  unfold whileCorrection
  simp only [relabel_ofFn, vars_relabel, get_relabel, Poly.shift_escalate]

theorem whilePromoted_relabel (R : Relation) :
    (R.relabel r s).whilePromoted = R.whilePromoted.map (Witness.shift s) := by
  unfold whilePromoted
  simp only [vars_relabel, List.length_map, get_relabel, Poly.promoted_shift, List.map_flatMap]

theorem charge_relabel (R : Relation) (j : Nat) : (R.relabel r s).charge j = (R.charge j).shift s := by
  unfold charge
  rw [Poly.shift_ofMonomials, List.map_flatMap, vars_relabel, List.length_map]
  refine congrArg Poly.ofMonomials (List.flatMap_congr fun i _ => ?_)
  split
  · rfl
  · rw [get_relabel]
    exact filter_map_of (fun _ => rfl) _

theorem relabel_boundedCorrection (hr : Function.Injective r) (R : Relation) (guard : String) :
    (R.boundedCorrection guard).relabel r s = (R.relabel r s).boundedCorrection (r guard) := by
  unfold boundedCorrection
  simp only [relabel_ofFn, vars_relabel, get_relabel, position?_relabel hr, charge_relabel,
    ← Poly.shift_escalate, ← Poly.shift_add, ← apply_ite (Poly.shift s)]

theorem boundedPromoted_relabel (R : Relation) :
    (R.relabel r s).boundedPromoted = R.boundedPromoted.map (Witness.shift s) := by
  unfold boundedPromoted
  simp only [vars_relabel, List.length_map, get_relabel, Poly.promoted_shift, List.map_flatMap]

theorem relabel_correct (hr : Function.Injective r) (R : Relation) (guard : Option String) :
    (R.correct guard).relabel r s = (R.relabel r s).correct (guard.map r) := by
  cases guard with
  | none => exact relabel_whileCorrection R
  | some guard => exact relabel_boundedCorrection hr R guard

theorem promoted_relabel (R : Relation) (guard : Option String) :
    (R.relabel r s).promoted (guard.map r) = (R.promoted guard).map (Witness.shift s) := by
  cases guard with
  | none => exact whilePromoted_relabel R
  | some guard => exact boundedPromoted_relabel R

end Relation

/-! ## Effects and plans -/

namespace Effect

/-- The effect on other names, whose flows have their indices moved up. -/
def relabel (r : String → String) (s : Nat) : Effect → Effect
  | nothing => nothing
  | flow R => flow (R.relabel r s)
  | choice x operands scalars => choice (r x) (operands.map r) scalars
  | unsupported => unsupported

variable {r : String → String} {s : Nat}

@[simp] theorem taken_relabel (e : Effect) : (e.relabel r s).taken = e.taken := by
  cases e with
  | nothing => rfl
  | flow R => rfl
  | choice x operands scalars => rfl
  | unsupported => rfl

theorem choiceRelation_relabel (hr : Function.Injective r) (k : Nat) (x : String)
    (operands : List String) (scalars : List (List Scalar)) :
    choiceRelation (k + s) (r x) (operands.map r) scalars =
      (choiceRelation k x operands scalars).relabel r s := by
  have hvars : r x :: (operands.map r).filter (· != r x) =
      (x :: operands.filter (· != x)).map r := by
    have hothers : (operands.map r).filter (· != r x) = (operands.filter (· != x)).map r :=
      filter_map_of (fun y => by rw [bne, bne, beq_eq_beq.mpr hr.eq_iff]) operands
    rw [hothers, List.map_cons]
  unfold choiceRelation
  simp only [hvars, Relation.relabel_assignment hr, List.map_map]
  refine congrArg (fun column => Relation.assignment _ column (r x)) (List.map_congr_left fun y _ => ?_)
  rw [Function.comp_apply, Function.comp_apply, idxOf?_map hr]
  cases operands.idxOf? y with
  | none => rfl
  | some i => exact (Poly.shift_ofChoice k _).symm

theorem relation_relabel (hr : Function.Injective r) (e : Effect) (k : Nat) :
    (e.relabel r s).relation (k + s) = (e.relation k).relabel r s := by
  cases e with
  | nothing => exact Relation.relabel_empty.symm
  | flow R => rfl
  | choice x operands scalars => exact choiceRelation_relabel hr k x operands scalars
  | unsupported => exact Relation.relabel_empty.symm

end Effect

namespace Walk

/-- Walks that know the same, but whose indices differ by `s`. -/
structure Apart (s : Nat) (w w' : Walk) : Prop where
  index : w'.index = w.index + s
  graph : w'.graph = w.graph.shift s
  covered : w'.covered = w.covered

variable {s : Nat} {w w' : Walk}

theorem Apart.stops (h : Apart s w w') (opts : Options) : w'.stops opts = w.stops opts := by
  unfold Walk.stops
  rw [h.covered]

theorem Apart.promote (h : Apart s w w') (ws : List Witness) :
    Apart s (promote ws w) (promote (ws.map (Witness.shift s)) w') := by
  have hgraph : (ws.map (Witness.shift s)).foldl WitnessGraph.insert w'.graph =
      (ws.foldl WitnessGraph.insert w.graph).shift s := by
    rw [h.graph]
    exact (foldl_map_of WitnessGraph.shift_insert ws w.graph).symm
  unfold Walk.promote
  rw [List.isEmpty_map]
  split
  · exact h
  · simp only [hgraph, ← WitnessGraph.shift_contract, WitnessGraph.coversAll_shift, h.covered]
    exact ⟨h.index, rfl, rfl⟩

end Walk

namespace Plan

open Walk

/-- Plans of the same shape whose effects and guards are relabelled. -/
inductive Matches (r : String → String) (s : Nat) : Plan → Plan → Prop
  | simple (st st' : Stmt) (e : Effect) : Matches r s (.simple st e) (.simple st' (e.relabel r s))
  | andThen {p p' q q' : Plan} (hp : Matches r s p p') (hq : Matches r s q q') :
      Matches r s (.andThen p q) (.andThen p' q')
  | either {p p' q q' : Plan} (hp : Matches r s p p') (hq : Matches r s q q') :
      Matches r s (.either p q) (.either p' q')
  | loop (guard : Option String) {p p' : Plan} (hp : Matches r s p p') :
      Matches r s (.loop guard p) (.loop (guard.map r) p')

/-- Runs that end alike: with a relation and its relabelling, or with the same error. -/
def EndsAlike (r : String → String) (s : Nat) :
    Except AnalysisError Relation × Walk → Except AnalysisError Relation × Walk → Prop
  | (.ok R, w), (.ok R', w') => R' = R.relabel r s ∧ Apart s w w'
  | (.error e, _), (.error e', _) => e' = e
  | _, _ => False

variable {r : String → String} {s : Nat} {p p' : Plan} {w w' : Walk}

/-- What two runs that end alike can have ended with. -/
theorem EndsAlike.cases {o o' : Except AnalysisError Relation × Walk} (h : EndsAlike r s o o') :
    (∃ R w w', o = (.ok R, w) ∧ o' = (.ok (R.relabel r s), w') ∧ Apart s w w') ∨
      ∃ e w w', o = (.error e, w) ∧ o' = (.error e, w') := by
  rcases o with ⟨e | R, w⟩
  · rcases o' with ⟨e' | R', w'⟩
    · cases h
      exact Or.inr ⟨e, w, w', rfl, rfl⟩
    · exact absurd h id
  · rcases o' with ⟨e' | R', w'⟩
    · exact absurd h id
    · obtain ⟨rfl, hw⟩ := h
      exact Or.inl ⟨R, w, w', rfl, rfl, hw⟩

/-- **Matching plans run alike.** -/
theorem Matches.run (h : Matches r s p p') (hr : Function.Injective r) (opts : Options)
    (hw : Apart s w w') :
    EndsAlike r s (p.run opts w) (p'.run opts w') := by
  induction h generalizing w w' with
  | simple st st' e =>
      obtain ⟨w₁, hrun, hindex, hgraph, hcovered, _⟩ := run_simple opts st e w
      obtain ⟨w₁', hrun', hindex', hgraph', hcovered', _⟩ := run_simple opts st' (e.relabel r s) w'
      rw [hrun, hrun', hw.index, Effect.relation_relabel hr]
      refine ⟨rfl, ?_, ?_, ?_⟩
      · rw [hindex', hindex, hw.index, Effect.taken_relabel]
        omega
      · rw [hgraph', hgraph, hw.graph]
      · rw [hcovered', hcovered, hw.covered]
  | andThen hp hq ihp ihq =>
      rw [run_andThen, run_andThen]
      rcases (ihp hw).cases with ⟨R, w₁, w₁', hrun, hrun', hw₁⟩ | ⟨e, w₁, w₁', hrun, hrun'⟩
      · -- both walks stop here or neither does, since they know the same about coverage
        simp only [hrun, hrun', hw₁.stops]
        cases w₁.stops opts with
        | true => exact ⟨rfl, hw₁⟩
        | false =>
            simp only [Bool.false_eq_true, if_false]
            rcases (ihq hw₁).cases with ⟨S, w₂, w₂', hrun₂, hrun₂', hw₂⟩ | ⟨e, w₂, w₂', hrun₂, hrun₂'⟩
            · rw [hrun₂, hrun₂']
              exact ⟨(Relation.relabel_compose hr R S).symm, hw₂⟩
            · rw [hrun₂, hrun₂']
              exact rfl
      · rw [hrun, hrun']
        exact rfl
  | either hp hq ihp ihq =>
      rw [run_either, run_either]
      rcases (ihp hw).cases with ⟨R, w₁, w₁', hrun, hrun', hw₁⟩ | ⟨e, w₁, w₁', hrun, hrun'⟩
      · simp only [hrun, hrun', hw₁.stops]
        cases w₁.stops opts with
        | true => exact ⟨rfl, hw₁⟩
        | false =>
            simp only [Bool.false_eq_true, if_false]
            rcases (ihq hw₁).cases with ⟨S, w₂, w₂', hrun₂, hrun₂', hw₂⟩ | ⟨e, w₂, w₂', hrun₂, hrun₂'⟩
            · simp only [hrun₂, hrun₂', hw₂.stops]
              cases w₂.stops opts with
              | true => exact ⟨rfl, hw₂⟩
              | false => exact ⟨(Relation.relabel_sum hr S R).symm, hw₂⟩
            · rw [hrun₂, hrun₂']
              exact rfl
      · rw [hrun, hrun']
        exact rfl
  | loop guard hp ihp =>
      rw [run_loop, run_loop]
      rcases (ihp hw).cases with ⟨R, w₁, w₁', hrun, hrun', hw₁⟩ | ⟨e, w₁, w₁', hrun, hrun'⟩
      · -- the closures are found with the same number of powers or not at all
        simp only [hrun, hrun', hw₁.stops, Relation.closureWithin?_relabel]
        cases w₁.stops opts with
        | true => exact ⟨rfl, hw₁⟩
        | false =>
            simp only [Bool.false_eq_true, if_false]
            cases R.closureWithin? opts.limit with
            | none => exact rfl
            | some F =>
                simp only [Option.map_some, Relation.promoted_relabel]
                exact ⟨(Relation.relabel_correct hr F guard).symm, hw₁.promote (F.promoted guard)⟩
      · rw [hrun, hrun']
        exact rfl

end Plan

end GrowthFlow
