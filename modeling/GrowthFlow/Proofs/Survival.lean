import GrowthFlow.Proofs.Contraction

/-!
# Which unbounded flows survive

A correction reports the demands under which it made a flow unbounded. One would like every choice that
meets such demands to be rejected in the end. That is not so: a composition drops an unbounded entry if
all it meets are silent entries, those that are not zero and yet count for nothing under the choice. They
come up when an earlier loop was unbounded under other choices and a variable was overwritten since.

So the choices that are rejected are those under which an unbounded flow *survives* every composition
behind it (`Plan.unbounded_iff_survives`). All of them meet a reported demand
(`Plan.promoted_of_survives`). Those that meet one are rejected where every composition keeps its
unbounded flows (`Plan.survives_of_promoted`).
-/

namespace GrowthFlow

open Lang

namespace Plan

/-- Under the choice a flow becomes unbounded at a loop of the plan, and no composition of the plan
behind it loses it. -/
def Survives (limit : Nat) (σ : Selection) : Plan → (k : Nat) → Prop
  | simple _ _, _ => False
  | andThen p q, k =>
    (p.Survives limit σ k ∨ q.Survives limit σ (k + p.taken)) ∧
      ∃ R S, p.flow limit k = some R ∧ q.flow limit (k + p.taken) = some S ∧ Relation.Carries σ R S
  | either p q, k => p.Survives limit σ k ∨ q.Survives limit σ (k + p.taken)
  | loop guard p, k =>
    p.Survives limit σ k ∨
      ∃ R F, p.flow limit k = some R ∧ R.closureWithin? limit = some F ∧
        ∃ w ∈ F.promoted guard, σ.meets w = true

/-- No composition of the plan loses what is unbounded under the choice. -/
def Keeps (limit : Nat) (σ : Selection) : Plan → (k : Nat) → Prop
  | simple _ _, _ => True
  | andThen p q, k =>
    p.Keeps limit σ k ∧ q.Keeps limit σ (k + p.taken) ∧
      ∀ R S, p.flow limit k = some R → q.flow limit (k + p.taken) = some S →
        R.Unbounded σ ∨ S.Unbounded σ → Relation.Carries σ R S
  | either p q, k => p.Keeps limit σ k ∧ q.Keeps limit σ (k + p.taken)
  | loop _ p, k => p.Keeps limit σ k

variable {limit : Nat} {σ : Selection}

/-- **The relation of a plan is unbounded exactly if an unbounded flow survives.** -/
theorem unbounded_iff_survives {p : Plan} (hp : p.WellFormed) {k : Nat} {T : Relation}
    (h : p.flow limit k = some T) : T.Unbounded σ ↔ p.Survives limit σ k := by
  induction p generalizing k T with
  | simple s e =>
      cases h
      exact ⟨Effect.not_unbounded_relation hp k σ, False.elim⟩
  | andThen p q ihp ihq =>
      obtain ⟨R, S, hR, hS, rfl⟩ := flow_andThen_some.mp h
      have hproperR := (flow_proper hp.1 hR).mono fun _ => Within.first q.taken
      have hproperS := (flow_proper hp.2 hS).mono fun _ => Within.second
      rw [Relation.unbounded_compose_iff hproperR hproperS, Survives, ← ihp hp.1 hR,
        ← ihq hp.2 hS]
      constructor
      · exact fun hc => ⟨Relation.unbounded_of_carries hc, R, S, hR, hS, hc⟩
      · rintro ⟨_, R', S', hR', hS', hc⟩
        cases hR.symm.trans hR'
        cases hS.symm.trans hS'
        exact hc
  | either p q ihp ihq =>
      obtain ⟨R, S, hR, hS, rfl⟩ := flow_either_some.mp h
      have hproperR := (flow_proper hp.1 hR).mono fun _ => Within.first q.taken
      have hproperS := (flow_proper hp.2 hS).mono fun _ => Within.second
      rw [Relation.unbounded_sum_iff hproperS hproperR, Survives, ihp hp.1 hR, ihq hp.2 hS, or_comm]
  | loop guard p ih =>
      -- Repetition keeps the verdict of the body, and the correction adds what it reports.
      obtain ⟨R, F, hR, hF, rfl⟩ := flow_loop_some.mp h
      have hproper := flow_proper (p := p) hp hR
      rw [Relation.unbounded_correct_iff (hproper.closure hF),
        Relation.unbounded_closure_iff hproper hF, Survives, ih hp hR]
      refine or_congr_right ⟨fun hw => ⟨R, F, hR, hF, hw⟩, ?_⟩
      rintro ⟨R', F', hR', hF', hw⟩
      cases hR.symm.trans hR'
      cases hF.symm.trans hF'
      exact hw

/-- What survives was reported. -/
theorem promoted_of_survives {p : Plan} {k : Nat} (h : p.Survives limit σ k) :
    ∃ w ∈ p.promoted limit k, σ.meets w = true := by
  induction p generalizing k with
  | simple s e => exact h.elim
  | andThen p q ihp ihq =>
      rcases h.1 with h | h
      · obtain ⟨w, hw, hmet⟩ := ihp h
        exact ⟨w, List.mem_append_left _ hw, hmet⟩
      · obtain ⟨w, hw, hmet⟩ := ihq h
        exact ⟨w, List.mem_append_right _ hw, hmet⟩
  | either p q ihp ihq =>
      rcases h with h | h
      · obtain ⟨w, hw, hmet⟩ := ihp h
        exact ⟨w, List.mem_append_left _ hw, hmet⟩
      · obtain ⟨w, hw, hmet⟩ := ihq h
        exact ⟨w, List.mem_append_right _ hw, hmet⟩
  | loop guard p ih =>
      rcases h with h | ⟨R, F, hR, hF, w, hw, hmet⟩
      · obtain ⟨w, hw, hmet⟩ := ih h
        exact ⟨w, List.mem_append_left _ hw, hmet⟩
      · refine ⟨w, List.mem_append_right _ ?_, hmet⟩
        rw [hR, Option.bind_some, hF]
        exact hw

/-- What was reported survives, if every composition keeps it. -/
theorem survives_of_promoted {p : Plan} (hp : p.WellFormed) {k : Nat} {T : Relation}
    (h : p.flow limit k = some T) (hkeeps : p.Keeps limit σ k) {w : Witness}
    (hw : w ∈ p.promoted limit k) (hmet : σ.meets w = true) : p.Survives limit σ k := by
  induction p generalizing k T with
  | simple s e => exact absurd hw List.not_mem_nil
  | andThen p q ihp ihq =>
      obtain ⟨R, S, hR, hS, _⟩ := flow_andThen_some.mp h
      have hsurvives : p.Survives limit σ k ∨ q.Survives limit σ (k + p.taken) :=
        (List.mem_append.mp hw).imp (ihp hp.1 hR hkeeps.1) (ihq hp.2 hS hkeeps.2.1)
      refine ⟨hsurvives, R, S, hR, hS, hkeeps.2.2 R S hR hS ?_⟩
      rw [unbounded_iff_survives hp.1 hR, unbounded_iff_survives hp.2 hS]
      exact hsurvives
  | either p q ihp ihq =>
      obtain ⟨R, S, hR, hS, _⟩ := flow_either_some.mp h
      exact (List.mem_append.mp hw).imp (ihp hp.1 hR hkeeps.1) (ihq hp.2 hS hkeeps.2)
  | loop guard p ih =>
      obtain ⟨R, F, hR, hF, _⟩ := flow_loop_some.mp h
      rcases List.mem_append.mp hw with hw | hw
      · exact .inl (ih hp hR hkeeps hw)
      · rw [hR, Option.bind_some, hF] at hw
        exact .inr ⟨R, F, hR, hF, w, hw, hmet⟩

/-- A plan that starts with nothing keeps what the rest keeps. -/
theorem keeps_skip_andThen {q : Plan} {k : Nat} (hq : q.Keeps limit σ k) :
    (andThen skip q).Keeps limit σ k := by
  refine ⟨trivial, hq, fun R S hR _ h => ?_⟩
  cases hR
  exact Relation.carries_identity List.Pairwise.nil
    (h.resolve_left (Relation.not_unbounded_identity List.Pairwise.nil σ))

end Plan

/-! ## Verdicts -/

/-- The demands that the corrections of a walk over statements report. -/
def reportedDemands (opts : Options) (start : Nat) (body : List Stmt) : List Witness :=
  (Walk.runFrom (Walk.sequence opts .empty body) { index := start }).2.promotions

theorem reportedDemands_eq (opts : Options) (start : Nat) (body : List Stmt) :
    reportedDemands opts start body =
      ((Plan.ofStmts opts body).run opts { index := start }).2.promotions := by
  unfold reportedDemands Plan.ofStmts
  rw [Plan.run_sequence opts body (w := { index := start }) Plan.run_skip rfl]

/-- **Which choices a complete analysis rejects**: those under which an unbounded flow survives, and no
choice is left exactly if one survives under each. Every rejected choice meets a reported demand. Where
every composition keeps its unbounded flows, every choice that meets one is rejected, so that nothing is
left once the reported demands cover every choice. -/
theorem rejected_iff_survives {opts : Options} (hc : opts.complete = true) {start : Nat}
    {body : List Stmt} {out : Outcome} (h : (analyzeBody opts start body).result.1 = .ok out) :
    (∀ v, IsVector choiceValues out.index v →
      (out.choices.allows v = false ↔
        (Plan.ofStmts opts body).Survives opts.limit (.ofVector v) start) ∧
      (out.choices.allows v = false →
        ∃ w ∈ reportedDemands opts start body, satisfies v w = true) ∧
      ((Plan.ofStmts opts body).Keeps opts.limit (.ofVector v) start →
        ∀ w ∈ reportedDemands opts start body, satisfies v w = true →
          out.choices.allows v = false)) ∧
    (out.choices.isInfinite = true ↔ ∀ v, IsVector choiceValues out.index v →
      (Plan.ofStmts opts body).Survives opts.limit (.ofVector v) start) ∧
    ((∀ v, IsVector choiceValues out.index v →
        (Plan.ofStmts opts body).Keeps opts.limit (.ofVector v) start) →
      out.covered = true → out.choices.isInfinite = true) := by
  obtain ⟨T, w, hdone⟩ := completed_of_ok hc h
  have hwell := Plan.wellFormed_ofStmts opts body
  have hreported : reportedDemands opts start body =
      (Plan.ofStmts opts body).promoted opts.limit start := by
    rw [reportedDemands_eq, hdone.run]
    exact hdone.promotions
  -- The verdict is that of the relation of the plan: naming all variables changes nothing.
  have hverdict : ∀ v, out.relation.Unbounded (.ofVector v) ↔
      (Plan.ofStmts opts body).Survives opts.limit (.ofVector v) start := by
    intro v
    rw [hdone.relation, Relation.unbounded_identity_compose_iff (increasing_namesAll body).nodup
      (Plan.flow_proper hwell hdone.flow), Plan.unbounded_iff_survives hwell hdone.flow]
  have hrejected : ∀ v, IsVector choiceValues out.index v → (out.choices.allows v = false ↔
      (Plan.ofStmts opts body).Survives opts.limit (.ofVector v) start) := by
    intro v hv
    rw [← hverdict v, ← Bool.not_eq_true, hdone.allows v hv, Classical.not_not]
  rw [hreported]
  refine ⟨fun v hv => ⟨hrejected v hv, fun hrej => ?_, fun hkeeps u hu hsat => ?_⟩, ?_,
    fun hkeeps hcov => ?_⟩
  · exact Plan.promoted_of_survives ((hrejected v hv).mp hrej)
  · exact (hrejected v hv).mpr (Plan.survives_of_promoted hwell hdone.flow hkeeps hu hsat)
  · rw [hdone.infinite]
    exact forall_congr' fun v => imp_congr_right fun _ => hverdict v
  · rw [hdone.infinite]
    intro v hv
    -- The walk is right that the reported demands cover the vector, and what they cover survives.
    have hsound := Plan.sound_of_run hc hwell (Walk.sound_start start) hdone.run
    obtain ⟨u, hu, hsat⟩ :=
      hsound.covered (hdone.covered ▸ hcov) out.index (Nat.le_of_eq hdone.index.symm) v hv
    rw [hdone.promotions] at hu
    exact (hverdict v).mpr (Plan.survives_of_promoted hwell hdone.flow (hkeeps v hv) hu hsat)

/-! ## A demand that is lost -/

/-- `while (b) { a = b + b; } a = 1; while (b) { a = a + a; }` -/
def doubling : List Stmt :=
  [.whileLoop (.var "b") (.block [.assign "a" (.binary .add (.var "b") (.var "b"))]),
   .assign "a" (.const 1),
   .whileLoop (.var "b") (.block [.assign "a" (.binary .add (.var "a") (.var "a"))])]

namespace Doubling

/-- Unbounded where the first loop takes `p`. -/
def lost : Poly := ⟨[⟨.i, [⟨1, 0⟩]⟩]⟩

/-- The relation over `a` and `b` with the given entries. -/
def pair (aa ab ba bb : Poly) : Relation :=
  ⟨["a", "b"], ⟨[[aa, ab], [ba, bb]], by simp⟩, rfl⟩

/-- The relation over `a` with the given entry. -/
def single (aa : Poly) : Relation := ⟨["a"], ⟨[[aa]], by simp⟩, rfl⟩

/-- What the first loop leaves. -/
def summed : Relation := pair (.unit + lost) .zero (.ofChoice 0 [.w, .i, .w]) .unit

/-- What is left behind the second assignment: whatever does not come from the first loop is silent
under the choices that leave that loop bounded. -/
def relation : Relation := pair lost lost lost (.unit + lost)

/-- The first loop reports one demand. -/
def firstWalk : Walk :=
  { index := 1, graph := ⟨3, [[⟨1, 0⟩]]⟩, promotions := [[⟨1, 0⟩]] }

/-- The second loop reports one demand for each value, so that every choice is covered. -/
def secondWalk : Walk :=
  { index := 2
    graph := ⟨3, [[⟨1, 0⟩], []]⟩
    covered := true
    promotions := [[⟨1, 0⟩], [⟨0, 1⟩], [⟨1, 1⟩], [⟨2, 1⟩]] }

/-- Nothing of the second loop is left in the choices. -/
def verdict : Outcome := ⟨relation, 2, ⟨[[[0, 2], [0, 1, 2]]], 2⟩, true⟩

def options : Options := { complete := true }

/-- The plan of a loop around a sum of one variable with itself. -/
def sumLoop (x y : String) : Plan :=
  .loop none (.andThen .skip
    (.simple (.assign x (.binary .add (.var y) (.var y))) (.choice x [y] [[.w, .p, .w]])))

theorem run_first : (Plan.andThen .skip (sumLoop "a" "b")).run options { index := 0 } =
    (.ok summed, firstWalk) := by
  have hbody : (Plan.andThen .skip (.simple (.assign "a" (.binary .add (.var "b") (.var "b")))
      (.choice "a" ["b"] [[.w, .p, .w]]))).run options { index := 0 } =
        (.ok (pair .zero .zero (.ofChoice 0 [.w, .p, .w]) .unit), { index := 1 }) :=
    Plan.run_andThen_of_ok Plan.run_skip rfl rfl (by decide +kernel)
  have hclosure : (pair .zero .zero (.ofChoice 0 [.w, .p, .w]) .unit).closureWithin? options.limit =
      some (pair .unit .zero (.ofChoice 0 [.w, .p, .w]) .unit) :=
    Relation.closureWithin?_of_two 9998 (by decide +kernel) (by decide +kernel) (by decide +kernel)
      (by decide +kernel) rfl
  have hloop : (sumLoop "a" "b").run options { index := 0 } =
      (.ok (pair .unit .zero (.ofChoice 0 [.w, .i, .w]) .unit), firstWalk) :=
    Plan.run_loop_of_ok hbody rfl hclosure (by decide +kernel) (by decide +kernel)
  exact Plan.run_andThen_of_ok Plan.run_skip rfl hloop (by decide +kernel)

/-- `while (b) { a = b + b; }` -/
def summing : List Stmt := doubling.take 1

theorem plan_summing : Plan.ofStmts options summing = .andThen .skip (sumLoop "a" "b") := rfl

theorem analyze_summing : (analyzeBody options 0 summing).result.1 =
    .ok ⟨summed, 1, ⟨[[[0, 2]]], 1⟩, false⟩ := by
  refine analyzeBody_ok_iff.mpr ⟨by decide, ?_⟩
  have hnames : Stmt.namesAll summing = ["a", "b"] := by decide +kernel
  have hrelation : (Relation.identity ["a", "b"]).compose summed = summed := by decide +kernel
  have hchoices : summed.choices choiceValues 1 [] = .ok ⟨[[[0, 2]]], 1⟩ := by decide +kernel
  rw [plan_summing, run_first, hnames]
  exact outcome_of_ok rfl hrelation hchoices

theorem run_second : (sumLoop "a" "a").run options firstWalk =
    (.ok (single (.unit + .ofChoice 1 [.i, .i, .i])), secondWalk) := by
  have hbody : (Plan.andThen .skip (.simple (.assign "a" (.binary .add (.var "a") (.var "a")))
      (.choice "a" ["a"] [[.w, .p, .w]]))).run options firstWalk =
        (.ok (single (.ofChoice 1 [.w, .p, .w])), { firstWalk with index := 2 }) :=
    Plan.run_andThen_of_ok Plan.run_skip rfl rfl (by decide +kernel)
  have hclosure : (single (.ofChoice 1 [.w, .p, .w])).closureWithin? options.limit =
      some (single (.unit + .ofChoice 1 [.w, .p, .w])) :=
    Relation.closureWithin?_of_two 9998 (by decide +kernel) (by decide +kernel) (by decide +kernel)
      (by decide +kernel) rfl
  exact Plan.run_loop_of_ok hbody rfl hclosure (by decide +kernel) (by decide +kernel)

theorem run_doubling : (Plan.ofStmts options doubling).run options { index := 0 } =
    (.ok relation, secondWalk) := by
  have hplan : Plan.ofStmts options doubling =
      .andThen (.andThen (.andThen .skip (sumLoop "a" "b"))
        (.simple (.assign "a" (.const 1)) (.flow (.zero ["a"])))) (sumLoop "a" "a") := rfl
  rw [hplan]
  have hassign : (Plan.andThen (.andThen .skip (sumLoop "a" "b"))
      (.simple (.assign "a" (.const 1)) (.flow (.zero ["a"])))).run options { index := 0 } =
        (.ok relation, firstWalk) :=
    Plan.run_andThen_of_ok run_first rfl rfl (by decide +kernel)
  exact Plan.run_andThen_of_ok hassign rfl run_second (by decide +kernel)

theorem outcome_doubling : outcome options ["a", "b"]
    ((Plan.ofStmts options doubling).run options { index := 0 }) = .ok verdict := by
  have hrelation : (Relation.identity ["a", "b"]).compose relation = relation := by decide +kernel
  have hchoices : relation.choices choiceValues 2 [] = .ok ⟨[[[0, 2], [0, 1, 2]]], 2⟩ := by
    decide +kernel
  rw [run_doubling]
  exact outcome_of_ok rfl hrelation hchoices

theorem analyze_doubling : (analyzeBody options 0 doubling).result.1 = .ok verdict := by
  refine analyzeBody_ok_iff.mpr ⟨by decide, ?_⟩
  rw [show Stmt.namesAll doubling = ["a", "b"] by decide +kernel]
  exact outcome_doubling

end Doubling

/-- The choice of `1` at the first loop is rejected. It meets the demand that this loop reports, which
nothing loses as long as the loop stands alone. Followed by the second one it still survives. -/
theorem rejected_iff_survives_doubling :
    (Plan.ofStmts Doubling.options Doubling.summing).Keeps Doubling.options.limit (.ofVector [1]) 0 ∧
      [⟨1, 0⟩] ∈ reportedDemands Doubling.options 0 Doubling.summing ∧
      (Choices.mk [[[0, 2]]] 1).allows [1] = false ∧
      (Plan.ofStmts Doubling.options doubling).Survives Doubling.options.limit
        (.ofVector [1, 0]) 0 := by
  have hkeeps : (Plan.ofStmts Doubling.options Doubling.summing).Keeps Doubling.options.limit
      (.ofVector [1]) 0 := Plan.keeps_skip_andThen (Plan.keeps_skip_andThen trivial)
  have hreported : [⟨1, 0⟩] ∈ reportedDemands Doubling.options 0 Doubling.summing := by
    rw [reportedDemands_eq, Doubling.plan_summing, Doubling.run_first]
    decide
  refine ⟨hkeeps, hreported, ?_, ?_⟩
  · exact ((rejected_iff_survives rfl Doubling.analyze_summing).1 [1] ⟨rfl, by decide⟩).2.2 hkeeps
      _ hreported (by decide)
  · exact ((rejected_iff_survives rfl Doubling.analyze_doubling).1 [1, 0]
      ⟨rfl, by decide⟩).1.mp (by decide)

/-- **A reported demand that no verdict shows.** The second loop doubles a variable and is unbounded under
every choice. Still the choice of `0` at both loops is allowed, and choices are left although the walk
says that all of them are covered. -/
theorem reported_demand_allowed :
    ∃ out, (analyzeBody { complete := true } 0 doubling).result.1 = .ok out ∧
      IsVector choiceValues out.index [0, 0] ∧
      (∃ w ∈ reportedDemands { complete := true } 0 doubling, satisfies [0, 0] w = true) ∧
      out.choices.allows [0, 0] = true ∧ out.covered = true ∧ out.choices.isInfinite = false := by
  refine ⟨Doubling.verdict, Doubling.analyze_doubling, ⟨rfl, by decide⟩, ⟨[⟨0, 1⟩], ?_, rfl⟩,
    by decide, rfl, rfl⟩
  rw [reportedDemands_eq, show ({ complete := true } : Options) = Doubling.options from rfl,
    Doubling.run_doubling]
  decide

end GrowthFlow
