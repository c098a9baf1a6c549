import GrowthFlow.Analysis.Walk
import GrowthFlow.Proofs.Repetition

/-!
# The plan of a walk

What a walk does depends on the statements only through a few steps: the effect of a simple statement,
one thing after another, one of two alternatives, and a loop. The *plan* of a statement is the tree of
these steps. A walk carries out the plan (`run_stmt`), so everything about walks is proved by an induction
over four cases, with no regard to the kinds of statements.

A complete walk never stops early. It succeeds exactly if each loop body has a closure, and its relation,
the indices it takes and the demands it reports are functions of the plan (`run_complete`).
-/

namespace GrowthFlow

open Lang

/-- What a walk does. -/
inductive Plan where
  /-- The effect of a simple statement. -/
  | simple (s : Stmt) (e : Effect)
  /-- One after another. -/
  | andThen (p q : Plan)
  /-- The first or the second. -/
  | either (p q : Plan)
  /-- A loop: as often as the guard says, or without a bound. -/
  | loop (guard : Option String) (p : Plan)

namespace Plan

/-- Nothing happens. -/
def skip : Plan := simple .empty .nothing

/-- The plan of a body, given that of the statement it is. -/
def ofBody (body : Stmt) (p : Plan) : Plan := if body.isBlock then p else andThen skip p

mutual

/-- The plan of a statement, whose guarded `for` loops repeat as often as their guards say or without a
bound. -/
def ofStmt (bounded : Bool) : Stmt → Plan
  | .assign x e => simple (.assign x e) (Effect.ofAssign x e)
  | .expr e => simple (.expr e) (Effect.ofExpr e)
  | .decl t vars =>
    simple (.decl t vars) (if vars.any (·.init.isSome) then .unsupported else .nothing)
  | .branch _ yes no => either (ofBody yes (ofStmt bounded yes)) (ofOption bounded no)
  | .whileLoop _ body => loop none (ofBody body (ofStmt bounded body))
  | .doWhile body _ => loop none (ofBody body (ofStmt bounded body))
  | .forLoop init c step body =>
    match (Stmt.forLoop init c step body).guard? with
    | some guard =>
      loop (if bounded then some guard else none)
        (andThen (simple .empty (.flow (.zero [guard]))) (ofBody body (ofStmt bounded body)))
    | none => simple (.forLoop init c step body) .unsupported
  | .block body => ofList bounded skip body
  | .ret _ | .breakJump | .continueJump | .empty => skip

/-- The plan of a row of statements behind a plan. -/
def ofList (bounded : Bool) (p : Plan) : List Stmt → Plan
  | [] => p
  | s :: ss => ofList bounded (andThen p (ofStmt bounded s)) ss

/-- The plan of the second half of a branch. -/
def ofOption (bounded : Bool) : Option Stmt → Plan
  | none => skip
  | some s => ofBody s (ofStmt bounded s)

end

end Plan

/-! ## Runs -/

namespace Walk

/-- Whether the walk can stop early here. -/
def stops (opts : Options) (w : Walk) : Bool := w.covered && !opts.complete

/-- The result of a step, of a walk or of an analysis, and the state after it. -/
def runFrom {σ α : Type} (a : ExceptT AnalysisError (StateM σ) α) (w : σ) :
    Except AnalysisError α × σ := a.run.run w

theorem runFrom_bind {σ α β : Type} (a : ExceptT AnalysisError (StateM σ) α)
    (f : α → ExceptT AnalysisError (StateM σ) β) (w : σ) :
    runFrom (a >>= f) w =
      match runFrom a w with
      | (.ok x, w') => runFrom (f x) w'
      | (.error e, w') => (.error e, w') := by
  show (match runFrom a w with | (r, w') => runFrom (ExceptT.mk (ExceptT.bindCont f r)) w') = _
  rcases runFrom a w with ⟨r, w'⟩
  cases r with
  | ok x => rfl
  | error e => rfl

theorem runFrom_exhausted (opts : Options) (w : Walk) :
    runFrom (exhausted opts) w = (.ok (w.stops opts), w) := rfl

/-- The rule of a loop whose body has the relation `R`. -/
def loop (opts : Options) (guard : Option String) (R : Relation) : WalkM Relation :=
  match guard with
  | none => whileLoop opts R
  | some guard => boundedLoop opts guard R

/-- A loop closes the relation of its body, reports demands and corrects it, unless the walk stops. -/
theorem runFrom_loop (opts : Options) (guard : Option String) (R : Relation) (w : Walk) :
    runFrom (loop opts guard R) w =
      if w.stops opts then (.ok R, w)
      else
        match R.closureWithin? opts.limit with
        | some F => (.ok (F.correct guard), promote (F.promoted guard) w)
        | none => (.error (.limit opts.limit), w) := by
  cases guard with
  | none =>
      unfold loop whileLoop close
      rw [runFrom_bind, runFrom_exhausted]
      cases hstop : w.stops opts with
      | true => rfl
      | false =>
          cases R.closureWithin? opts.limit with
          | some F => rfl
          | none => rfl
  | some guard =>
      unfold loop boundedLoop close
      rw [runFrom_bind, runFrom_exhausted]
      cases hstop : w.stops opts with
      | true => rfl
      | false =>
          cases R.closureWithin? opts.limit with
          | some F => rfl
          | none => rfl

end Walk

namespace Plan

open Walk

/-- A walk that carries out a plan. -/
def exec (opts : Options) : Plan → WalkM Relation
  | simple s e => perform s e
  | andThen p q => do
    let R ← exec opts p
    if ← exhausted opts then return R
    return R.compose (← exec opts q)
  | either p q => do
    let R ← exec opts p
    if ← exhausted opts then return R
    let S ← exec opts q
    if ← exhausted opts then return S
    return S.sum R
  | loop guard p => do Walk.loop opts guard (← exec opts p)

/-- The run of a plan from a walk. -/
def run (opts : Options) (p : Plan) (w : Walk) : Except AnalysisError Relation × Walk :=
  runFrom (p.exec opts) w

section Run

variable {opts : Options} {p q : Plan} {w w₁ w₂ : Walk} {R S T : Relation} {e : AnalysisError}

theorem runFrom_exec (p : Plan) (w : Walk) : runFrom (p.exec opts) w = p.run opts w := rfl

theorem run_skip : skip.run opts w = (.ok .empty, w) := rfl

theorem run_andThen (p q : Plan) (w : Walk) : (andThen p q).run opts w =
    match p.run opts w with
    | (.error e, w₁) => (.error e, w₁)
    | (.ok R, w₁) =>
      if w₁.stops opts then (.ok R, w₁)
      else
        match q.run opts w₁ with
        | (.error e, w₂) => (.error e, w₂)
        | (.ok S, w₂) => (.ok (R.compose S), w₂) := by
  rw [run, exec, runFrom_bind, runFrom_exec]
  rcases p.run opts w with ⟨_ | R, w₁⟩
  · rfl
  · simp only [runFrom_bind, runFrom_exhausted]
    cases w₁.stops opts with
    | true => rfl
    | false =>
        simp only [Bool.false_eq_true, if_false, runFrom_bind, runFrom_exec]
        rcases q.run opts w₁ with ⟨_ | S, w₂⟩
        · rfl
        · rfl

theorem run_either (p q : Plan) (w : Walk) : (either p q).run opts w =
    match p.run opts w with
    | (.error e, w₁) => (.error e, w₁)
    | (.ok R, w₁) =>
      if w₁.stops opts then (.ok R, w₁)
      else
        match q.run opts w₁ with
        | (.error e, w₂) => (.error e, w₂)
        | (.ok S, w₂) => if w₂.stops opts then (.ok S, w₂) else (.ok (S.sum R), w₂) := by
  rw [run, exec, runFrom_bind, runFrom_exec]
  rcases p.run opts w with ⟨_ | R, w₁⟩
  · rfl
  · simp only [runFrom_bind, runFrom_exhausted]
    cases w₁.stops opts with
    | true => rfl
    | false =>
        simp only [Bool.false_eq_true, if_false, runFrom_bind, runFrom_exec]
        rcases q.run opts w₁ with ⟨_ | S, w₂⟩
        · rfl
        · simp only [runFrom_exhausted]
          cases w₂.stops opts with
          | true => rfl
          | false => rfl

theorem run_loop (guard : Option String) (p : Plan) (w : Walk) : (loop guard p).run opts w =
    match p.run opts w with
    | (.error e, w₁) => (.error e, w₁)
    | (.ok R, w₁) =>
      if w₁.stops opts then (.ok R, w₁)
      else
        match R.closureWithin? opts.limit with
        | some F => (.ok (F.correct guard), promote (F.promoted guard) w₁)
        | none => (.error (.limit opts.limit), w₁) := by
  rw [run, exec, runFrom_bind, runFrom_exec]
  rcases p.run opts w with ⟨_ | R, w₁⟩
  · rfl
  · exact runFrom_loop opts guard R w₁

/-! ## A walk carries out its plan -/

/-- The result of a body, from that of the statement it is. -/
theorem run_ofBody (body : Stmt) (p : Plan) (hw : w.stops opts = false) :
    (ofBody body p).run opts w =
      match p.run opts w with
      | (.error e, w₁) => (.error e, w₁)
      | (.ok R, w₁) => (.ok (bodyRelation body R), w₁) := by
  unfold ofBody bodyRelation
  cases body.isBlock with
  | true =>
      rw [if_pos rfl]
      rcases p.run opts w with ⟨_ | R, w₁⟩
      · rfl
      · rfl
  | false =>
      rw [if_neg Bool.false_ne_true, run_andThen, run_skip]
      simp only [hw, Bool.false_eq_true, if_false]

/-- Behind a failure or an early stop, nothing more happens. -/
theorem run_ofList_of_settled (h : ∀ R w₁, p.run opts w = (.ok R, w₁) → w₁.stops opts = true)
    (ss : List Stmt) : (ofList opts.boundedFor p ss).run opts w = p.run opts w := by
  induction ss generalizing p with
  | nil => rfl
  | cons s ss ih =>
      have hsame : (andThen p (ofStmt opts.boundedFor s)).run opts w = p.run opts w := by
        rw [run_andThen]
        rcases hp : p.run opts w with ⟨_ | R, w₁⟩
        · rfl
        · simp only [h R w₁ hp, if_true]
      rw [ofList, ih fun R w₁ hrun => h R w₁ (hsame ▸ hrun), hsame]

/-- A loop carries out its plan if its body does. -/
theorem run_loop_ofBody {body : Stmt} (guard : Option String) (hw : w.stops opts = false)
    (hbody : runFrom (Walk.stmt opts body) w = (ofStmt opts.boundedFor body).run opts w) :
    runFrom (do Walk.loop opts guard (bodyRelation body (← Walk.stmt opts body))) w =
      (loop guard (ofBody body (ofStmt opts.boundedFor body))).run opts w := by
  rw [run_loop, run_ofBody body _ hw, runFrom_bind, hbody]
  rcases (ofStmt opts.boundedFor body).run opts w with ⟨_ | R, w₁⟩
  · rfl
  · exact runFrom_loop opts guard (bodyRelation body R) w₁

mutual

/-- **A walk over a statement carries out its plan.** -/
theorem run_stmt (opts : Options) : ∀ (s : Stmt) {w : Walk}, w.stops opts = false →
    runFrom (Walk.stmt opts s) w = (ofStmt opts.boundedFor s).run opts w
  | .assign x e, w, hw => by rw [Walk.stmt, ofStmt]; rfl
  | .expr e, w, hw => by rw [Walk.stmt, ofStmt]; rfl
  | .decl t vars, w, hw => by
      rw [Walk.stmt, ofStmt]
      split
      · rfl
      · rfl
  | .branch c yes no, w, hw => by
      rw [Walk.stmt, ofStmt, run_either, run_ofBody yes _ hw, runFrom_bind, run_stmt opts yes hw]
      rcases (ofStmt opts.boundedFor yes).run opts w with ⟨_ | R, w₁⟩
      · rfl
      · simp only [runFrom_bind, runFrom_exhausted]
        cases hw₁ : w₁.stops opts with
        | true => rfl
        | false =>
            simp only [Bool.false_eq_true, if_false, runFrom_bind, run_option opts no hw₁]
            rcases (ofOption opts.boundedFor no).run opts w₁ with ⟨_ | S, w₂⟩
            · rfl
            · simp only [runFrom_exhausted]
              cases w₂.stops opts with
              | true => rfl
              | false => rfl
  | .whileLoop c body, w, hw => by
      rw [Walk.stmt, ofStmt]
      exact run_loop_ofBody none hw (run_stmt opts body hw)
  | .doWhile body c, w, hw => by
      rw [Walk.stmt, ofStmt]
      exact run_loop_ofBody none hw (run_stmt opts body hw)
  | .forLoop init c step body, w, hw => by
      rw [Walk.stmt, ofStmt]
      cases (Stmt.forLoop init c step body).guard? with
      | none => rfl
      | some guard =>
          have hzero : (simple .empty (.flow (.zero [guard]))).run opts w =
              (.ok (.zero [guard]), w) := rfl
          simp only [run_loop, run_andThen, hzero, hw, Bool.false_eq_true, if_false]
          rw [run_ofBody body _ hw, runFrom_bind, run_stmt opts body hw]
          rcases (ofStmt opts.boundedFor body).run opts w with ⟨_ | R, w₁⟩
          · rfl
          · show runFrom (Walk.forLoop opts guard (bodyRelation body R)) w₁ = _
            unfold Walk.forLoop
            cases opts.boundedFor with
            | true => exact runFrom_loop opts (some guard) _ w₁
            | false => exact runFrom_loop opts none _ w₁
  | .block body, w, hw => by
      rw [Walk.stmt, ofStmt]
      exact run_sequence opts body run_skip hw
  | .ret _, w, hw => by rw [Walk.stmt, ofStmt]; rfl
  | .breakJump, w, hw => by rw [Walk.stmt, ofStmt]; rfl
  | .continueJump, w, hw => by rw [Walk.stmt, ofStmt]; rfl
  | .empty, w, hw => by rw [Walk.stmt, ofStmt]; rfl

theorem run_sequence (opts : Options) : ∀ (ss : List Stmt) {p : Plan} {R : Relation} {w w₁ : Walk},
    p.run opts w = (.ok R, w₁) → w₁.stops opts = false →
    runFrom (Walk.sequence opts R ss) w₁ = (ofList opts.boundedFor p ss).run opts w
  | [], p, R, w, w₁, hp, _ => by rw [Walk.sequence, ofList, hp]; rfl
  | s :: ss, p, R, w, w₁, hp, hw₁ => by
      have hnext : (andThen p (ofStmt opts.boundedFor s)).run opts w = _ := run_andThen p _ w
      rw [hp] at hnext
      simp only [hw₁, Bool.false_eq_true, if_false] at hnext
      rw [Walk.sequence, ofList, runFrom_bind, run_stmt opts s hw₁]
      rcases hs : (ofStmt opts.boundedFor s).run opts w₁ with ⟨e | S, w₂⟩
      · -- The walk leaves the row here; the plan goes through the rest of it and does nothing.
        rw [hs] at hnext
        rw [run_ofList_of_settled (by rw [hnext]; intro R w h; cases h), hnext]
      · rw [hs] at hnext
        simp only [runFrom_bind, runFrom_exhausted]
        cases hw₂ : w₂.stops opts with
        | true =>
            rw [run_ofList_of_settled (by rw [hnext]; intro R w h; cases h; exact hw₂), hnext]
            rfl
        | false =>
            simp only [Bool.false_eq_true, if_false]
            exact run_sequence opts ss hnext hw₂

theorem run_option (opts : Options) : ∀ (s : Option Stmt) {w : Walk}, w.stops opts = false →
    runFrom (Walk.stmtOpt opts s) w = (ofOption opts.boundedFor s).run opts w
  | none, w, hw => by rw [Walk.stmtOpt, ofOption]; rfl
  | some s, w, hw => by
      rw [Walk.stmtOpt, ofOption, run_ofBody s _ hw, runFrom_bind, run_stmt opts s hw]
      rcases (ofStmt opts.boundedFor s).run opts w with ⟨_ | R, w₁⟩
      · rfl
      · rfl

end

/-- A run of two plans in a row, from a run of each. -/
theorem run_andThen_of_ok (hp : p.run opts w = (.ok R, w₁)) (hw : w₁.stops opts = false)
    (hq : q.run opts w₁ = (.ok S, w₂)) (hT : R.compose S = T) :
    (andThen p q).run opts w = (.ok T, w₂) := by
  rw [run_andThen, hp]
  simp only [hw, Bool.false_eq_true, if_false, hq, hT]

/-- A run of two alternatives, from a run of each. -/
theorem run_either_of_ok (hp : p.run opts w = (.ok R, w₁)) (hw : w₁.stops opts = false)
    (hq : q.run opts w₁ = (.ok S, w₂)) (hw₂ : w₂.stops opts = false) :
    (either p q).run opts w = (.ok (S.sum R), w₂) := by
  rw [run_either, hp]
  simp only [hw, Bool.false_eq_true, if_false, hq, hw₂]

/-- A run of a loop, from a run of its body and its closure. -/
theorem run_loop_of_ok {guard : Option String} {F : Relation} (hp : p.run opts w = (.ok R, w₁))
    (hw : w₁.stops opts = false) (hF : R.closureWithin? opts.limit = some F)
    (hT : F.correct guard = T) (hw₂ : promote (F.promoted guard) w₁ = w₂) :
    (loop guard p).run opts w = (.ok T, w₂) := by
  rw [run_loop, hp]
  simp only [hw, Bool.false_eq_true, if_false, hF, hT, hw₂]

end Run

end Plan

/-! ## Complete runs -/

namespace Effect

/-- The number of choice indices that an effect takes. -/
def taken : Effect → Nat
  | choice _ _ _ => 1
  | _ => 0

/-- The relation of an effect whose choice, if it has one, is at index `k`. -/
def relation (k : Nat) : Effect → Relation
  | nothing => .empty
  | flow R => R
  | choice x operands scalars => choiceRelation k x operands scalars
  | unsupported => .empty

end Effect

namespace Walk

theorem stops_complete {opts : Options} (hc : opts.complete = true) (w : Walk) :
    w.stops opts = false := by
  rw [stops, hc, Bool.not_true, Bool.and_false]

theorem promotions_promote (ws : List Witness) (w : Walk) :
    (promote ws w).promotions = w.promotions ++ ws := by
  unfold promote
  split
  · rename_i h
    rw [List.isEmpty_iff.mp h, List.append_nil]
  · rfl

@[simp] theorem index_promote (ws : List Witness) (w : Walk) : (promote ws w).index = w.index := by
  unfold promote
  split
  · rfl
  · rfl

end Walk

namespace Plan

/-- The number of choice indices that a plan takes. -/
def taken : Plan → Nat
  | simple _ e => e.taken
  | andThen p q => p.taken + q.taken
  | either p q => p.taken + q.taken
  | loop _ p => p.taken

/-- The relation of a plan whose choices begin at index `k`, if every loop has a closure. -/
def flow (limit : Nat) : Plan → (k : Nat) → Option Relation
  | simple _ e, k => some (e.relation k)
  | andThen p q, k => do
    let R ← p.flow limit k
    let S ← q.flow limit (k + p.taken)
    return R.compose S
  | either p q, k => do
    let R ← p.flow limit k
    let S ← q.flow limit (k + p.taken)
    return S.sum R
  | loop guard p, k => do
    let R ← p.flow limit k
    let F ← R.closureWithin? limit
    return F.correct guard

/-- The demands that the corrections of a plan report. -/
def promoted (limit : Nat) : Plan → (k : Nat) → List Witness
  | simple _ _, _ => []
  | andThen p q, k => p.promoted limit k ++ q.promoted limit (k + p.taken)
  | either p q, k => p.promoted limit k ++ q.promoted limit (k + p.taken)
  | loop guard p, k =>
    p.promoted limit k ++
      match (p.flow limit k).bind (·.closureWithin? limit) with
      | some F => F.promoted guard
      | none => []

theorem run_simple (opts : Options) (s : Stmt) (e : Effect) (w : Walk) :
    ∃ w', (simple s e).run opts w = (.ok (e.relation w.index), w') ∧
      w'.index = w.index + e.taken ∧ w'.graph = w.graph ∧ w'.covered = w.covered ∧
      w'.promotions = w.promotions := by
  cases e with
  | nothing => exact ⟨w, rfl, rfl, rfl, rfl, rfl⟩
  | flow R => exact ⟨w, rfl, rfl, rfl, rfl, rfl⟩
  | choice x operands scalars =>
      exact ⟨{ w with index := w.index + 1 }, rfl, rfl, rfl, rfl, rfl⟩
  | unsupported =>
      exact ⟨{ w with journal := w.journal ++ [.unsupported s] }, rfl, rfl, rfl, rfl, rfl⟩

section Complete

variable {opts : Options} {p q : Plan} {w w₂ : Walk} {T : Relation}

/-- A run of two plans in a row that need not stop is a run of each. -/
theorem exists_run_andThen (hw₂ : w₂.stops opts = false)
    (h : (andThen p q).run opts w = (.ok T, w₂)) :
    ∃ R S w₁, p.run opts w = (.ok R, w₁) ∧ q.run opts w₁ = (.ok S, w₂) ∧ T = R.compose S := by
  rw [run_andThen] at h
  rcases hp : p.run opts w with ⟨_ | R, w₁⟩ <;> simp only [hp] at h
  · cases h
  · split at h
    · -- stopping here is stopping at the end
      rename_i hw₁
      cases h
      rw [hw₂] at hw₁
      cases hw₁
    · rcases hq : q.run opts w₁ with ⟨_ | S, w₂⟩ <;> simp only [hq] at h
      · cases h
      · cases h
        exact ⟨R, S, w₁, rfl, hq, rfl⟩

/-- A run of two alternatives that need not stop is a run of each. -/
theorem exists_run_either (hw₂ : w₂.stops opts = false)
    (h : (either p q).run opts w = (.ok T, w₂)) :
    ∃ R S w₁, p.run opts w = (.ok R, w₁) ∧ q.run opts w₁ = (.ok S, w₂) ∧ T = S.sum R := by
  rw [run_either] at h
  rcases hp : p.run opts w with ⟨_ | R, w₁⟩ <;> simp only [hp] at h
  · cases h
  · split at h
    · rename_i hw₁
      cases h
      rw [hw₂] at hw₁
      cases hw₁
    · rcases hq : q.run opts w₁ with ⟨_ | S, w₂⟩ <;> simp only [hq] at h
      · cases h
      · split at h
        · rename_i hstops
          cases h
          rw [hw₂] at hstops
          cases hstops
        · cases h
          exact ⟨R, S, w₁, rfl, hq, rfl⟩

/-- A run of a loop that need not stop closes and corrects what its body gives. -/
theorem exists_run_loop {guard : Option String} (hw₂ : w₂.stops opts = false)
    (h : (loop guard p).run opts w = (.ok T, w₂)) :
    ∃ R F w₁, p.run opts w = (.ok R, w₁) ∧ R.closureWithin? opts.limit = some F ∧
      T = F.correct guard ∧ w₂ = Walk.promote (F.promoted guard) w₁ := by
  rw [run_loop] at h
  rcases hp : p.run opts w with ⟨_ | R, w₁⟩ <;> simp only [hp] at h
  · cases h
  · split at h
    · rename_i hw₁
      cases h
      rw [hw₂] at hw₁
      cases hw₁
    · cases hF : R.closureWithin? opts.limit with
      | none =>
          simp only [hF] at h
          cases h
      | some F =>
          simp only [hF] at h
          cases h
          exact ⟨R, F, w₁, rfl, hF, rfl, rfl⟩

/-- **A complete run is determined by the plan**: its relation, the indices it takes, and the demands it
reports. -/
theorem run_complete (hc : opts.complete = true) (p : Plan) {w w' : Walk} {T : Relation}
    (h : p.run opts w = (.ok T, w')) :
    p.flow opts.limit w.index = some T ∧ w'.index = w.index + p.taken ∧
      w'.promotions = w.promotions ++ p.promoted opts.limit w.index := by
  induction p generalizing w w' T with
  | simple s e =>
      obtain ⟨w₁, hrun, hindex, _, _, hpromotions⟩ := run_simple opts s e w
      cases hrun.symm.trans h
      exact ⟨rfl, hindex, by rw [hpromotions, promoted, List.append_nil]⟩
  | andThen p q ihp ihq =>
      obtain ⟨R, S, w₁, hp, hq, rfl⟩ := exists_run_andThen (Walk.stops_complete hc _) h
      obtain ⟨hR, hindex, hpromotions⟩ := ihp hp
      obtain ⟨hS, hindex', hpromotions'⟩ := ihq hq
      rw [hindex] at hS hindex' hpromotions'
      refine ⟨by rw [flow, hR, Option.bind_eq_bind, Option.bind_some, hS]; rfl, ?_, ?_⟩
      · rw [hindex', taken, Nat.add_assoc]
      · rw [hpromotions', hpromotions, promoted, List.append_assoc]
  | either p q ihp ihq =>
      obtain ⟨R, S, w₁, hp, hq, rfl⟩ := exists_run_either (Walk.stops_complete hc _) h
      obtain ⟨hR, hindex, hpromotions⟩ := ihp hp
      obtain ⟨hS, hindex', hpromotions'⟩ := ihq hq
      rw [hindex] at hS hindex' hpromotions'
      refine ⟨by rw [flow, hR, Option.bind_eq_bind, Option.bind_some, hS]; rfl, ?_, ?_⟩
      · rw [hindex', taken, Nat.add_assoc]
      · rw [hpromotions', hpromotions, promoted, List.append_assoc]
  | loop guard p ih =>
      obtain ⟨R, F, w₁, hp, hF, rfl, rfl⟩ := exists_run_loop (Walk.stops_complete hc _) h
      obtain ⟨hR, hindex, hpromotions⟩ := ih hp
      refine ⟨?_, ?_, ?_⟩
      · rw [flow, hR, Option.bind_eq_bind, Option.bind_some, hF]
        rfl
      · rw [Walk.index_promote, hindex, taken]
      · rw [Walk.promotions_promote, hpromotions, promoted, hR, Option.bind_some, hF,
          List.append_assoc]

end Complete

end Plan

/-! ## The outcome of a walk -/

/-- The outcome over the given variables, from the result of a walk over the statements. -/
def outcome (opts : Options) (vars : List String) :
    Except AnalysisError Relation × Walk → Except AnalysisError Outcome
  | (.error e, _) => .error e
  | (.ok R, w) =>
    let relation := (Relation.identity vars).compose R
    if w.stops opts then .ok ⟨relation, w.index, .infinite w.index, w.covered⟩
    else
      match relation.choices choiceValues w.index [] with
      | .ok choices => .ok ⟨relation, w.index, choices, w.covered⟩
      | .error e => .error (.choices e)

theorem outcome_of_stops {opts : Options} {w : Walk} (hw : w.stops opts = true) (vars : List String)
    (R : Relation) : outcome opts vars (.ok R, w) =
      .ok ⟨(Relation.identity vars).compose R, w.index, .infinite w.index, w.covered⟩ := by
  rw [outcome, if_pos hw]

theorem outcome_of_ok {opts : Options} {w : Walk} {vars : List String} {R relation : Relation}
    {choices : Choices} (hw : w.stops opts = false)
    (hR : (Relation.identity vars).compose R = relation)
    (hchoices : relation.choices choiceValues w.index [] = .ok choices) :
    outcome opts vars (.ok R, w) = .ok ⟨relation, w.index, choices, w.covered⟩ := by
  rw [outcome, hw, if_neg Bool.false_ne_true, hR]
  simp only [hchoices]

/-- The plan of statements in a row. -/
def Plan.ofStmts (opts : Options) (body : List Stmt) : Plan := .ofList opts.boundedFor .skip body

theorem run_walkOver (opts : Options) (vars : List String) (start : Nat) (body : List Stmt)
    (es : List Event) :
    (Walk.runFrom (walkOver opts vars start body) es).1 =
      outcome opts vars ((Plan.ofStmts opts body).run opts { index := start }) := by
  have hplan := Plan.run_sequence opts body (w := { index := start }) Plan.run_skip rfl
  unfold Plan.ofStmts
  rw [← hplan]
  unfold walkOver
  rw [show (Walk.sequence opts .empty body).run.run { index := start } =
    Walk.runFrom (Walk.sequence opts .empty body) { index := start } from rfl]
  rcases Walk.runFrom (Walk.sequence opts .empty body) { index := start } with ⟨e | R, w⟩
  · rfl
  · unfold outcome Walk.stops
    cases hstop : w.covered && !opts.complete with
    | true =>
        simp only [hstop, if_true]
        rfl
    | false =>
        simp only [hstop, Bool.false_eq_true, if_false]
        cases hchoices : ((Relation.identity vars).compose R).choices choiceValues w.index [] with
        | ok choices =>
            simp only [pure_bind, hchoices]
            rfl
        | error e =>
            simp only [pure_bind, hchoices]
            rfl

/-- The variables of statements come in increasing order. -/
theorem increasing_namesAll : ∀ body : List Stmt, Ordered.Increasing (Stmt.namesAll body)
  | [] => by rw [Stmt.namesAll]; exact List.Pairwise.nil
  | s :: ss => by rw [Stmt.namesAll]; exact Ordered.increasing_union _ (increasing_namesAll ss)

/-- The analysis of a body, from the run of its plan. -/
theorem result_analyzeBody (opts : Options) (start : Nat) {body : List Stmt} (h : body ≠ []) :
    (analyzeBody opts start body).result.1 =
      outcome opts (Stmt.namesAll body) ((Plan.ofStmts opts body).run opts { index := start }) := by
  rw [← run_walkOver opts _ start body []]
  unfold analyzeBody
  rw [if_neg (by rwa [List.isEmpty_iff])]
  rfl

theorem analyzeBody_ok_iff {opts : Options} {start : Nat} {body : List Stmt} {out : Outcome} :
    (analyzeBody opts start body).result.1 = .ok out ↔ body ≠ [] ∧
      outcome opts (Stmt.namesAll body) ((Plan.ofStmts opts body).run opts { index := start }) =
        .ok out := by
  by_cases hbody : body = []
  · subst hbody
    refine ⟨fun h => ?_, fun h => absurd rfl h.1⟩
    cases h
  · rw [result_analyzeBody opts start hbody]
    exact ⟨fun h => ⟨hbody, h⟩, fun h => h.2⟩

/-- The outcome of a complete walk: the relation of the plan over all variables, and its choices. -/
theorem outcome_complete {opts : Options} (hc : opts.complete = true) {p : Plan} {start : Nat}
    {vars : List String} {out : Outcome}
    (h : outcome opts vars (p.run opts { index := start }) = .ok out) :
    ∃ T w, p.run opts { index := start } = (.ok T, w) ∧
      out.relation = (Relation.identity vars).compose T ∧ out.index = w.index ∧
      out.covered = w.covered ∧ out.relation.choices choiceValues out.index [] = .ok out.choices := by
  rcases hrun : p.run opts { index := start } with ⟨_ | T, w⟩
  · rw [hrun] at h
    cases h
  · rw [hrun, outcome] at h
    simp only [Walk.stops_complete hc, Bool.false_eq_true, if_false] at h
    split at h
    · rename_i choices hchoices
      cases h
      exact ⟨T, w, rfl, rfl, rfl, rfl, hchoices⟩
    · cases h

end GrowthFlow
