import GrowthFlow.Proofs.LoopGuards
import GrowthFlow.Proofs.RegularRuns
import GrowthFlow.Proofs.ReportedBound

/-!
# The variables of a result

The rows of a result get their names in two ways. The variables of a function are collected from its text, and
the walk brings in the names that take part in the effects of its statements. Every such name is a variable of
the statement, or a constant: `x = true` is read as a copy, and a copy does not ask whether its source is a
variable (`mem_names_of_flowing`).

So the relation of a function is over the variables of the function, in their order, and behind them the
constants that take part in a flow. A walk that went to its end has met all of these (`result_variables`).
-/

namespace GrowthFlow

open Lang

/-! ## Names that take part in a flow -/

namespace Effect

/-- The names that an effect is about. -/
def names : Effect → List String
  | nothing => []
  | flow R => R.vars
  | choice x operands _ => x :: operands
  | unsupported => []

variable {a x : String} {P : String → Prop}

theorem mem_vars_relation {e : Effect} (k : Nat) : a ∈ (e.relation k).vars ↔ a ∈ e.names := by
  cases e with
  | nothing => exact Iff.rfl
  | flow R => exact Iff.rfl
  | choice x operands scalars =>
      show a ∈ x :: operands.filter (· != x) ↔ a ∈ x :: operands
      by_cases ha : a = x
      · simp [ha]
      · simp [ha]
  | unsupported => exact Iff.rfl

theorem Over.names {e : Effect} (h : e.Over P) : ∀ a ∈ e.names, P a := by
  cases e with
  | nothing => exact fun a ha => absurd ha List.not_mem_nil
  | flow R => exact h.2
  | choice x operands scalars => exact List.forall_mem_cons.mpr h
  | unsupported => exact fun a ha => absurd ha List.not_mem_nil

theorem Over.of_names {e : Effect} (h : e.Over fun _ => True) (hP : ∀ a ∈ e.names, P a) : e.Over P := by
  cases e with
  | nothing => trivial
  | flow R => exact ⟨h.1, hP⟩
  | choice x operands scalars => exact List.forall_mem_cons.mp hP
  | unsupported => trivial

/-- The variable of an operand is a variable of the expression, unless it is a constant. -/
theorem mem_names_operand {e : Expr} {y : Operand} (h : Operand.ofExpr? e = some y)
    (hy : y.name? = some a) (ha : a ∉ constantNames) : a ∈ e.names := by
  unfold Operand.ofExpr? at h
  rw [← Expr.names_uncast]
  split at h
  · rename_i b hb
    cases h
    cases hy
    rw [hb]
    exact Names.mem_add.mpr (.inl ⟨rfl, ha⟩)
  · cases h
    cases hy
  · cases h

/-- An assignment is about its target and variables of its value, if not about constants. -/
theorem mem_names_ofAssign {e : Expr} (h : a ∈ (ofAssign x e).names) (ha : a ∉ constantNames) :
    a = x ∨ a ∈ e.names := by
  rw [← Expr.names_uncast]
  unfold ofAssign at h
  split at h
  · rename_i op l r hbinary
    rw [hbinary, Expr.names, Ordered.mem_union]
    split at h
    · rename_i y z hy hz
      split at h
      · refine Over.names (P := fun b => b ∉ constantNames → b = x ∨ b ∈ l.names ∨ b ∈ r.names)
          (over_arithmetic op ?_ ?_ ?_) a h ha
        · exact fun _ => .inl rfl
        · exact fun b hb hconst => .inr (.inl (mem_names_operand hy hb hconst))
        · exact fun b hb hconst => .inr (.inr (mem_names_operand hz hb hconst))
      · exact absurd h List.not_mem_nil
    · exact absurd h List.not_mem_nil
  · exact .inl (List.mem_singleton.mp h)
  · rename_i y hvar
    rw [hvar]
    refine Over.names (P := fun b => b ∉ constantNames → b = x ∨ b ∈ (Expr.var y).names)
      (over_copy ?_ ?_) a h ha
    · exact fun _ => .inl rfl
    · exact fun hconst => .inr (Names.mem_add.mpr (.inl ⟨rfl, hconst⟩))
  · exact .inl (List.mem_singleton.mp h)
  · exact absurd h List.not_mem_nil

/-- A step is about its operand. -/
theorem mem_names_ofExpr {e : Expr} (h : a ∈ (ofExpr e).names) (ha : a ∉ constantNames) :
    a ∈ e.names := by
  unfold ofExpr at h
  split at h
  · rename_i op e
    rw [Expr.names]
    split at h
    · split at h
      · rename_i x hvar
        rw [← Expr.names_uncast, hvar]
        have hx : a = x := by
          refine Over.names (P := (· = x)) (over_arithmetic _ rfl ?_ ?_) a h
          · exact fun b hb => (Option.some.inj hb).symm
          · exact fun b hb => by cases hb
        exact Names.mem_add.mpr (.inl ⟨hx, hx ▸ ha⟩)
      · exact absurd h List.not_mem_nil
    · exact absurd h List.not_mem_nil
  · split at h
    · exact absurd h List.not_mem_nil
    · exact absurd h List.not_mem_nil
  · exact absurd h List.not_mem_nil

end Effect

namespace Lang.Stmt

mutual

/-- The names that take part in the flows of a statement: those of the effects of its simple statements, and
the guards of its loops. -/
def flowing : Stmt → List String
  | assign x e => (Effect.ofAssign x e).names
  | expr e => (Effect.ofExpr e).names
  | branch _ yes no => yes.flowing ++ flowingOpt no
  | whileLoop _ body => body.flowing
  | doWhile body _ => body.flowing
  | forLoop init c step body =>
    match (forLoop init c step body).guard? with
    | some guard => guard :: body.flowing
    | none => []
  | block body => flowingAll body
  | decl _ _ | ret _ | breakJump | continueJump | empty => []

/-- The names that take part in the flows of several statements. -/
def flowingAll : List Stmt → List String
  | [] => []
  | s :: ss => s.flowing ++ flowingAll ss

/-- The names that take part in the flows of a statement that may be missing. -/
def flowingOpt : Option Stmt → List String
  | none => []
  | some s => s.flowing

end

mutual

/-- **What takes part in a flow is a variable**, unless it is a constant. -/
theorem mem_names_of_flowing {x : String} (hx : x ∉ constantNames) :
    ∀ s : Stmt, x ∈ s.flowing → x ∈ s.names
  | assign y e, h => by
      rw [flowing] at h
      rw [names]
      refine Names.mem_add.mpr ((Effect.mem_names_ofAssign h hx).imp_left fun hy => ?_)
      exact ⟨hy, hy ▸ hx⟩
  | expr e, h => by
      rw [flowing] at h
      rw [names]
      exact Effect.mem_names_ofExpr h hx
  | branch _ yes no, h => by
      rw [flowing, List.mem_append] at h
      rw [names, Ordered.mem_union]
      exact h.imp (mem_names_of_flowing hx yes) (mem_names_of_flowingOpt hx no)
  | whileLoop _ body, h => by
      rw [flowing] at h
      rw [names, Ordered.mem_union]
      exact .inr (mem_names_of_flowing hx body h)
  | doWhile body _, h => by
      rw [flowing] at h
      rw [names, Ordered.mem_union]
      exact .inr (mem_names_of_flowing hx body h)
  | forLoop _ _ _ body, h => by
      rw [flowing] at h
      rw [mem_names_forLoop]
      split at h
      · rename_i guard hguard
        rcases List.mem_cons.mp h with rfl | h
        · exact .inr ⟨hguard, hx⟩
        · exact .inl (mem_names_of_flowing hx body h)
      · exact absurd h List.not_mem_nil
  | block body, h => by
      rw [flowing] at h
      rw [names]
      exact mem_names_of_flowingAll hx body h
  | decl _ _, h => by rw [flowing] at h; exact absurd h List.not_mem_nil
  | ret _, h => by rw [flowing] at h; exact absurd h List.not_mem_nil
  | breakJump, h => by rw [flowing] at h; exact absurd h List.not_mem_nil
  | continueJump, h => by rw [flowing] at h; exact absurd h List.not_mem_nil
  | empty, h => by rw [flowing] at h; exact absurd h List.not_mem_nil

theorem mem_names_of_flowingAll {x : String} (hx : x ∉ constantNames) :
    ∀ ss : List Stmt, x ∈ flowingAll ss → x ∈ namesAll ss
  | [], h => absurd h List.not_mem_nil
  | s :: ss, h => by
      rw [flowingAll, List.mem_append] at h
      rw [namesAll, Ordered.mem_union]
      exact h.imp (mem_names_of_flowing hx s) (mem_names_of_flowingAll hx ss)

theorem mem_names_of_flowingOpt {x : String} (hx : x ∉ constantNames) :
    ∀ s : Option Stmt, x ∈ flowingOpt s → x ∈ namesOpt s
  | none, h => absurd h List.not_mem_nil
  | some s, h => mem_names_of_flowing hx s h

end

end Lang.Stmt

/-! ## Plans -/

namespace Plan

/-- The names that the effects of a plan are about. -/
def names : Plan → List String
  | simple _ e => e.names
  | andThen p q => p.names ++ q.names
  | either p q => p.names ++ q.names
  | loop _ p => p.names

variable {x : String} {P : String → Prop} {p : Plan}

theorem Over.of_names (h : p.Over fun _ => True) (hP : ∀ x ∈ p.names, P x) : p.Over P := by
  induction p with
  | simple s e => exact Effect.Over.of_names h hP
  | andThen p q ihp ihq =>
      exact ⟨ihp h.1 fun x hx => hP x (List.mem_append_left _ hx),
        ihq h.2 fun x hx => hP x (List.mem_append_right _ hx)⟩
  | either p q ihp ihq =>
      exact ⟨ihp h.1 fun x hx => hP x (List.mem_append_left _ hx),
        ihq h.2 fun x hx => hP x (List.mem_append_right _ hx)⟩
  | loop guard p ih => exact ih h hP

theorem mem_names_ofBody {body : Stmt} : x ∈ (ofBody body p).names ↔ x ∈ p.names := by
  unfold ofBody
  split
  · exact Iff.rfl
  · exact Iff.rfl

mutual

/-- The plan of a statement is about the names that take part in its flows. -/
theorem mem_names_ofStmt {x : String} (bounded : Bool) :
    ∀ s : Stmt, x ∈ (ofStmt bounded s).names ↔ x ∈ s.flowing
  | .assign _ _ => by rw [ofStmt, Stmt.flowing, names]
  | .expr _ => by rw [ofStmt, Stmt.flowing, names]
  | .decl _ _ => by
      rw [ofStmt, Stmt.flowing, names]
      split
      · exact Iff.rfl
      · exact Iff.rfl
  | .branch _ yes no => by
      rw [ofStmt, Stmt.flowing, names, List.mem_append, List.mem_append, mem_names_ofBody,
        mem_names_ofStmt bounded yes, mem_names_ofOption bounded no]
  | .whileLoop _ body => by
      rw [ofStmt, Stmt.flowing, names, mem_names_ofBody, mem_names_ofStmt bounded body]
  | .doWhile body _ => by
      rw [ofStmt, Stmt.flowing, names, mem_names_ofBody, mem_names_ofStmt bounded body]
  | .forLoop init c step body => by
      rw [ofStmt, Stmt.flowing]
      cases (Stmt.forLoop init c step body).guard? with
      | some guard =>
          simp only [names, List.mem_append, mem_names_ofBody, mem_names_ofStmt bounded body, List.mem_cons]
          exact or_congr_left List.mem_singleton
      | none => exact Iff.rfl
  | .block body => by
      rw [ofStmt, Stmt.flowing, mem_names_ofList bounded body]
      exact or_iff_right List.not_mem_nil
  | .ret _ => by rw [ofStmt, Stmt.flowing]; exact Iff.rfl
  | .breakJump => by rw [ofStmt, Stmt.flowing]; exact Iff.rfl
  | .continueJump => by rw [ofStmt, Stmt.flowing]; exact Iff.rfl
  | .empty => by rw [ofStmt, Stmt.flowing]; exact Iff.rfl

theorem mem_names_ofList {x : String} (bounded : Bool) : ∀ (ss : List Stmt) {p : Plan},
    x ∈ (ofList bounded p ss).names ↔ x ∈ p.names ∨ x ∈ Stmt.flowingAll ss
  | [], p => by rw [ofList, Stmt.flowingAll]; exact (or_iff_left List.not_mem_nil).symm
  | s :: ss, p => by
      rw [ofList, Stmt.flowingAll, mem_names_ofList bounded ss, names, List.mem_append, List.mem_append,
        mem_names_ofStmt bounded s, or_assoc]

theorem mem_names_ofOption {x : String} (bounded : Bool) :
    ∀ s : Option Stmt, x ∈ (ofOption bounded s).names ↔ x ∈ Stmt.flowingOpt s
  | none => by rw [ofOption, Stmt.flowingOpt]; exact Iff.rfl
  | some s => by rw [ofOption, Stmt.flowingOpt, mem_names_ofBody, mem_names_ofStmt bounded s]

end

theorem mem_names_ofStmts {opts : Options} {body : List Stmt} :
    x ∈ (ofStmts opts body).names ↔ x ∈ Stmt.flowingAll body := by
  rw [ofStmts, mem_names_ofList]
  exact or_iff_right List.not_mem_nil

/-- The relation of a plan is over the names that its effects are about. -/
theorem mem_vars_flow {limit k : Nat} {T : Relation} (hp : p.WellFormed)
    (h : p.flow limit k = some T) : x ∈ T.vars ↔ x ∈ p.names := by
  induction p generalizing k T with
  | simple s e =>
      cases h
      exact Effect.mem_vars_relation k
  | andThen p q ihp ihq =>
      obtain ⟨R, S, hR, hS, rfl⟩ := flow_andThen_some.mp h
      rw [Relation.vars_compose R S (flow_proper hp.1 hR).nodup (flow_proper hp.2 hS).nodup,
        Relation.mem_unionVariables, ihp hp.1 hR, ihq hp.2 hS, names, List.mem_append]
  | either p q ihp ihq =>
      obtain ⟨R, S, hR, hS, rfl⟩ := flow_either_some.mp h
      rw [Relation.vars_sum S R (flow_proper hp.2 hS).nodup (flow_proper hp.1 hR).nodup,
        Relation.mem_unionVariables, ihp hp.1 hR, ihq hp.2 hS, names, List.mem_append, or_comm]
  | loop guard p ih =>
      obtain ⟨R, F, hR, hF, rfl⟩ := flow_loop_some.mp h
      rw [Relation.vars_correct, Relation.vars_closure hF, ih hp hR, names]

end Plan

/-! ## Results -/

namespace Lang.Function

variable {f : Function} {x : String}

theorem mem_names_of_body (h : x ∈ Stmt.namesAll f.body) : x ∈ f.names := by
  unfold names
  induction f.params with
  | nil => exact h
  | cons p ps ih => exact Names.mem_add.mpr (.inr ih)

theorem not_constant : x ∈ f.names → x ∉ constantNames := by
  unfold names
  induction f.params with
  | nil => exact Stmt.not_constant_all f.body
  | cons p ps ih => exact fun h => Names.not_constant_of_add h ih

end Lang.Function

/-- An outcome is over the given variables and behind them those that the walk brought in. -/
theorem exists_run_of_outcome {opts : Options} {vars : List String} {p : Plan} {start : Nat}
    {out : Outcome} (h : outcome opts vars (p.run opts { index := start }) = .ok out) :
    ∃ T w, p.run opts { index := start } = (.ok T, w) ∧ out.covered = w.covered ∧
      out.relation = (Relation.identity vars).compose T := by
  rcases hrun : p.run opts { index := start } with ⟨_ | T, w⟩ <;> rw [hrun] at h
  · cases h
  · refine ⟨T, w, rfl, ?_⟩
    rw [outcome] at h
    split at h
    · cases h
      exact ⟨rfl, rfl⟩
    · split at h
      · cases h
        exact ⟨rfl, rfl⟩
      · cases h

theorem vars_of_resultOf {opts : Options} {name : String} {out : Outcome} {r : FunctionResult}
    (h : (resultOf opts name out).result.1 = .ok r) : r.vars = out.relation.vars := by
  unfold resultOf problematicFlows at h
  split at h
  · split at h
    · cases hall : out.relation.allVariableChoices choiceValues out.index with
      | ok all =>
          rw [hall] at h
          cases h
          rfl
      | error e =>
          rw [hall] at h
          cases h
    · cases h
      rfl
  · split at h
    · cases h
      rfl
    · cases h

/-- A walk that goes to its end is about all names that take part in a flow. -/
theorem flowing_of_complete {opts : Options} {body : List Stmt} {T : Relation} {w : Walk} {x : String}
    (h : (Plan.ofStmts opts body).run opts { index := 0 } = (.ok T, w))
    (hend : opts.complete = true ∨ w.covered = false) (hx : x ∈ Stmt.flowingAll body) : x ∈ T.vars := by
  have hflow : (Plan.ofStmts opts body).flow opts.limit 0 = some T := by
    rcases hend with hc | hw
    · exact (Plan.run_complete hc _ h).1
    · exact (Plan.run_complete rfl _ (Plan.run_of_uncovered h hw).2).1
  exact (Plan.mem_vars_flow (Plan.wellFormed_ofStmts opts body) hflow).mpr (Plan.mem_names_ofStmts.mpr hx)

/-- **The variables of a result are those of the function, and behind them constants that take part in a
flow.** If a choice is left or the analysis is complete, these are all of the constants that do. So where no
constant takes part in a flow, the variables are those of the function, in increasing order. -/
theorem result_variables {opts : Options} {f : Function} {r : FunctionResult}
    (h : (analyzeFunction opts f).result.1 = .ok r) :
    Ordered.Increasing f.names ∧
    (∃ extra, r.vars = f.names ++ extra ∧ extra.Nodup ∧
      (∀ x ∈ extra, x ∈ constantNames ∧ x ∈ Stmt.flowingAll f.body) ∧
      (opts.complete = true ∨ r.infinite = false →
        ∀ x ∈ constantNames, x ∈ Stmt.flowingAll f.body → x ∈ extra)) ∧
    ((∀ x ∈ constantNames, x ∉ Stmt.flowingAll f.body) → r.vars = f.names) := by
  obtain ⟨_, out, hout, hresult⟩ := analyzeFunction_ok_iff.mp h
  obtain ⟨T, w, hrun, hcovered, hrelation⟩ := exists_run_of_outcome hout
  have hnames := increasing_names f
  have hwell := Plan.wellFormed_ofStmts opts f.body
  have hover : (Plan.ofStmts opts f.body).Over (· ∈ Stmt.flowingAll f.body) :=
    (Plan.over_ofStmts opts fun _ _ => trivial).of_names fun x hx => Plan.mem_names_ofStmts.mp hx
  have hT := (Plan.regular_of_run hwell hover hrun).2
  have hvars : r.vars = f.names ++ T.vars.filter (!f.names.contains ·) := by
    rw [vars_of_resultOf hresult, hrelation, Relation.vars_compose _ T hnames.nodup hT.normal.nodup]
    rfl
  have hextra : ∀ x, x ∈ T.vars.filter (!f.names.contains ·) ↔ x ∈ T.vars ∧ x ∉ f.names := by
    simp [List.mem_filter]
  -- a name behind those of the function takes part in a flow, and if it were a variable it would be one of them
  have hconstant : ∀ x ∈ T.vars.filter (!f.names.contains ·),
      x ∈ constantNames ∧ x ∈ Stmt.flowingAll f.body := by
    intro x hx
    obtain ⟨hmem, hnot⟩ := (hextra x).mp hx
    have hflowing := hT.vars x hmem
    refine ⟨Classical.byContradiction fun hvariable => hnot ?_, hflowing⟩
    exact Function.mem_names_of_body (Stmt.mem_names_of_flowingAll hvariable f.body hflowing)
  refine ⟨hnames, ⟨_, hvars, List.Pairwise.filter _ hT.normal.nodup, hconstant, ?_⟩, fun hnone => ?_⟩
  · intro hend x hx hflowing
    refine (hextra x).mpr ⟨flowing_of_complete hrun (hend.imp_right fun hr => ?_) hflowing,
      fun hmem => Function.not_constant hmem hx⟩
    -- a choice is left only after a walk that did not stop
    rw [infinite_of_resultOf hresult, Outcome.isInfinite, hcovered] at hr
    exact (Bool.or_eq_false_iff.mp hr).1
  · have hnil : T.vars.filter (!f.names.contains ·) = [] :=
      List.eq_nil_iff_forall_not_mem.mpr fun x hx => hnone x (hconstant x hx).1 (hconstant x hx).2
    rw [hvars, hnil, List.append_nil]

/-- `if (true) x = n; x++;` with the parameter `n`. -/
def steppingCopy : Function :=
  ⟨["int"], "f", [⟨["int"], "n"⟩],
    [.branch (.var "true") (.assign "x" (.var "n")) none, .expr (.unary .postInc (.var "x"))]⟩

/-- The constant decides a branch and takes part in no flow. -/
theorem result_variables_steppingCopy :
    ∃ r, (analyzeFunction { } steppingCopy).result.1 = .ok r ∧ r.vars = ["n", "x"] := by
  have hok : (analyzeFunction { } steppingCopy).result.1.isOk = true := by decide +kernel
  cases hr : (analyzeFunction { } steppingCopy).result.1 with
  | error e =>
      rw [hr] at hok
      cases hok
  | ok r =>
      have hnames : steppingCopy.names = ["n", "x"] := by decide +kernel
      exact ⟨r, rfl, hnames ▸ (result_variables hr).2.2 (by decide +kernel)⟩

/-- `x = true;` -/
def copyingConstant : Function := ⟨["void"], "f", [], [.assign "x" (.var "true")]⟩

/-- The constant that is copied becomes a variable of the result. -/
theorem constant_among_result_variables :
    copyingConstant.names = ["x"] ∧
    (analyzeFunction { } copyingConstant).result.1.map (·.vars) = .ok ["x", "true"] := by
  decide +kernel

end GrowthFlow
