import GrowthFlow.Analysis.Program
import GrowthFlow.Proofs.Survival

/-!
# An early exit keeps the verdict

A walk that need not be complete stops as soon as every choice is covered: inside of a row of statements,
after a branch, or behind a loop body before its closure. Each time it leaves another half-built relation.

Up to the step that covers the last choice, the walk is the same as the complete walk. From there on the
complete walk only adds demands, and no step takes back that every choice is covered. So the two agree on
that mark, and as long as it is not set, on everything (`Plan.follows_of_run`). The verdict looks at the
relation only if the mark is not set.
-/

namespace GrowthFlow

open Lang

/-- How a run that may stop early goes along with a complete one: either not every choice is covered and
both are the same, or every choice is covered in both. -/
def Follows (full early : Except AnalysisError Relation × Walk) : Prop :=
  (full.2.covered = false ∧ early = full) ∨
    (full.2.covered = true ∧ ∃ R w, early = (.ok R, w) ∧ w.covered = true)

/-! ## Runs -/

namespace Walk

theorem covered_promote {w : Walk} (ws : List Witness) (hw : w.covered = true) :
    (promote ws w).covered = true := by
  unfold promote
  split
  · exact hw
  · show (w.covered || _) = true
    rw [hw, Bool.true_or]

theorem stops_early (opts : Options) (w : Walk) :
    w.stops { opts with complete := false } = w.covered := by
  rw [stops, Bool.not_false, Bool.and_true]

end Walk

namespace Plan

variable {opts : Options} {w w' : Walk} {T : Relation}

/-- A complete run never takes back that every choice is covered. -/
theorem covered_of_run (hc : opts.complete = true) {p : Plan} (hw : w.covered = true)
    (h : p.run opts w = (.ok T, w')) : w'.covered = true := by
  induction p generalizing w w' T with
  | simple s e =>
      obtain ⟨w₁, hrun, _, _, hcovered, _⟩ := run_simple opts s e w
      cases hrun.symm.trans h
      rw [hcovered, hw]
  | andThen p q ihp ihq =>
      obtain ⟨R, S, w₁, hp, hq, _⟩ := exists_run_andThen (Walk.stops_complete hc _) h
      exact ihq (ihp hw hp) hq
  | either p q ihp ihq =>
      obtain ⟨R, S, w₁, hp, hq, _⟩ := exists_run_either (Walk.stops_complete hc _) h
      exact ihq (ihp hw hp) hq
  | loop guard p ih =>
      obtain ⟨R, F, w₁, hp, _, _, rfl⟩ := exists_run_loop (Walk.stops_complete hc _) h
      exact Walk.covered_promote _ (ih hw hp)

/-- **A run that may stop early follows the complete run.** -/
theorem follows_of_run {p : Plan} (hw : w.covered = false)
    (h : p.run { opts with complete := true } w = (.ok T, w')) :
    Follows (.ok T, w') (p.run { opts with complete := false } w) := by
  induction p generalizing w w' T with
  | simple s e =>
      obtain ⟨w₁, hrun, _, _, hcovered, _⟩ := run_simple { opts with complete := true } s e w
      cases hrun.symm.trans h
      exact .inl ⟨hcovered.trans hw, h⟩
  | andThen p q ihp ihq =>
      obtain ⟨R, S, w₁, hp, hq, rfl⟩ := exists_run_andThen (Walk.stops_complete rfl _) h
      rw [run_andThen]
      rcases ihp hw hp with ⟨hw₁, hearly⟩ | ⟨hw₁, R₀, w₀, hearly, hw₀⟩
      · simp only [hearly, Walk.stops_early, show w₁.covered = false from hw₁]
        rcases ihq hw₁ hq with ⟨hw₂, hearly⟩ | ⟨hw₂, S₀, w₀, hearly, hw₀⟩
        · simp only [hearly]
          exact .inl ⟨hw₂, rfl⟩
        · simp only [hearly]
          exact .inr ⟨hw₂, R.compose S₀, w₀, rfl, hw₀⟩
      · -- The early run leaves out `q`, and whatever `q` does, every choice stays covered.
        simp only [hearly, Walk.stops_early, hw₀, if_true]
        exact .inr ⟨covered_of_run rfl hw₁ hq, R₀, w₀, rfl, hw₀⟩
  | either p q ihp ihq =>
      obtain ⟨R, S, w₁, hp, hq, rfl⟩ := exists_run_either (Walk.stops_complete rfl _) h
      rw [run_either]
      rcases ihp hw hp with ⟨hw₁, hearly⟩ | ⟨hw₁, R₀, w₀, hearly, hw₀⟩
      · simp only [hearly, Walk.stops_early, show w₁.covered = false from hw₁]
        rcases ihq hw₁ hq with ⟨hw₂, hearly⟩ | ⟨hw₂, S₀, w₀, hearly, hw₀⟩
        · simp only [hearly, show w'.covered = false from hw₂]
          exact .inl ⟨hw₂, rfl⟩
        · simp only [hearly, hw₀, if_true]
          exact .inr ⟨hw₂, S₀, w₀, rfl, hw₀⟩
      · simp only [hearly, Walk.stops_early, hw₀, if_true]
        exact .inr ⟨covered_of_run rfl hw₁ hq, R₀, w₀, rfl, hw₀⟩
  | loop guard p ih =>
      obtain ⟨R, F, w₁, hp, hF, rfl, rfl⟩ := exists_run_loop (Walk.stops_complete rfl _) h
      rw [run_loop]
      rcases ih hw hp with ⟨hw₁, hearly⟩ | ⟨hw₁, R₀, w₀, hearly, hw₀⟩
      · -- The closure and its correction are those of the complete run, whatever they report.
        simp only [hearly, Walk.stops_early, show w₁.covered = false from hw₁, hF]
        cases hw₂ : (Walk.promote (F.promoted guard) w₁).covered with
        | false => exact .inl ⟨hw₂, rfl⟩
        | true => exact .inr ⟨hw₂, F.correct guard, _, rfl, hw₂⟩
      · simp only [hearly, Walk.stops_early, hw₀, if_true]
        exact .inr ⟨Walk.covered_promote _ hw₁, R₀, w₀, rfl, hw₀⟩

end Plan

/-! ## Outcomes -/

theorem Outcome.isInfinite_of_covered {out : Outcome} (h : out.covered = true) :
    out.isInfinite = true := by
  rw [isInfinite, h, Bool.true_or]

/-- The outcome of a walk that may stop early, from that of the complete walk. -/
theorem outcome_early {opts : Options} {vars : List String} {p : Plan} {start : Nat} {out : Outcome}
    (h : outcome { opts with complete := true } vars
      (p.run { opts with complete := true } { index := start }) = .ok out) :
    ∃ out₀, outcome { opts with complete := false } vars
        (p.run { opts with complete := false } { index := start }) = .ok out₀ ∧
      out₀.covered = out.covered ∧ out₀.isInfinite = out.isInfinite ∧
      (out.covered = false → out₀ = out) := by
  obtain ⟨T, w, hrun, hrelation, hindex, hcovered, hchoices⟩ := outcome_complete rfl h
  rcases Plan.follows_of_run rfl hrun with ⟨hw, hearly⟩ | ⟨hw, R, w₀, hearly, hw₀⟩
  · refine ⟨out, ?_, rfl, rfl, fun _ => rfl⟩
    rw [hearly, outcome_of_ok ((Walk.stops_early opts w).trans hw) hrelation.symm
      (hindex ▸ hchoices), ← hindex, ← hcovered]
  · have hout : out.covered = true := hcovered.trans hw
    refine ⟨_, hearly ▸ outcome_of_stops ((Walk.stops_early opts w₀).trans hw₀) vars R,
      hw₀.trans hout.symm, ?_, fun hnot => ?_⟩
    · rw [Outcome.isInfinite_of_covered hout]
      exact Outcome.isInfinite_of_covered hw₀
    · rw [hout] at hnot
      cases hnot

/-! ## Functions -/

/-- What is said about a function does not depend on the journal. -/
theorem run_resultOf (opts : Options) (name : String) (out : Outcome) (es : List Event) :
    (Walk.runFrom (resultOf opts name out) es).1 = (resultOf opts name out).result.1 := by
  unfold resultOf problematicFlows
  split
  · split
    · cases out.relation.allVariableChoices choiceValues out.index with
      | ok all => rfl
      | error e => rfl
    · rfl
  · split
    · rfl
    · rfl

theorem analyzeFunction_ok_iff {opts : Options} {f : Function} {r : FunctionResult} :
    (analyzeFunction opts f).result.1 = .ok r ↔ f.body ≠ [] ∧
      ∃ out, outcome opts f.names ((Plan.ofStmts opts f.body).run opts { index := 0 }) = .ok out ∧
        (resultOf opts f.name out).result.1 = .ok r := by
  have hwalk := run_walkOver opts f.names 0 f.body [.analyzing f.name]
  unfold analyzeFunction
  cases hbody : f.body.isEmpty with
  | true =>
      refine ⟨fun h => ?_, fun h => absurd (List.isEmpty_iff.mp hbody) h.1⟩
      cases h
  | false =>
      have hne : f.body ≠ [] := fun h => by simp [h] at hbody
      show (Walk.runFrom (walkOver opts f.names 0 f.body >>= resultOf opts f.name)
        [.analyzing f.name]).1 = .ok r ↔ _
      rw [Walk.runFrom_bind, ← hwalk]
      rcases Walk.runFrom (walkOver opts f.names 0 f.body) [.analyzing f.name] with ⟨e | out, es⟩
      · refine ⟨fun h => ?_, fun ⟨_, _, h, _⟩ => ?_⟩
        · cases h
        · cases h
      · show (Walk.runFrom (resultOf opts f.name out) es).1 = .ok r ↔ _
        rw [run_resultOf]
        refine ⟨fun h => ⟨hne, out, rfl, h⟩, fun ⟨_, _, hout, h⟩ => ?_⟩
        cases hout
        exact h

theorem infinite_of_resultOf {opts : Options} {name : String} {out : Outcome} {r : FunctionResult}
    (h : (resultOf opts name out).result.1 = .ok r) : r.infinite = out.isInfinite := by
  unfold resultOf problematicFlows at h
  split at h
  · split at h
    · cases hall : out.relation.allVariableChoices choiceValues out.index with
      | ok all =>
          rw [hall] at h
          cases h
          rfl
      | error e =>
          rw [hall] at h
          cases h
    · cases h
      rfl
  · split at h
    · cases h
      rfl
    · cases h

/-- Where a choice is left, it does not matter whether the walk was told to be complete. -/
theorem resultOf_of_bounded {out : Outcome} (h : out.isInfinite = false) (opts opts' : Options)
    (name : String) : resultOf opts name out = resultOf opts' name out := by
  unfold resultOf
  rw [if_neg (by rw [h]; decide), if_neg (by rw [h]; decide)]

/-- What is said about a function after a walk that may stop early, from what is said after the complete
walk. -/
theorem resultOf_early {opts : Options} {name : String} {out out₀ : Outcome} {r : FunctionResult}
    (h : (resultOf { opts with complete := true } name out).result.1 = .ok r)
    (hinfinite : out₀.isInfinite = out.isInfinite) (hsame : out.covered = false → out₀ = out) :
    ∃ r₀, (resultOf { opts with complete := false } name out₀).result.1 = .ok r₀ ∧
      r₀.infinite = r.infinite := by
  have hr := infinite_of_resultOf h
  cases hout : out.isInfinite with
  | true =>
      refine ⟨{ name, infinite := out₀.isInfinite, index := out₀.index, vars := out₀.relation.vars },
        ?_, hinfinite.trans hr.symm⟩
      unfold resultOf
      rw [if_pos (hinfinite.trans hout)]
      rfl
  | false =>
      have huncovered : out.covered = false := (Bool.or_eq_false_iff.mp hout).1
      rw [hsame huncovered, resultOf_of_bounded hout _ { opts with complete := true }]
      exact ⟨r, h, rfl⟩

/-- **An early exit never changes the verdict.** Whenever the complete analysis of statements succeeds, so
does the one that stops as soon as every choice is covered. Both agree on whether every choice is covered
and on whether one is left, and if not every choice is covered they agree on everything. For a function,
both agree on whether there is a bound. -/
theorem early_exit_keeps_verdict (opts : Options) :
    (∀ (start : Nat) (body : List Stmt) (out : Outcome),
      (analyzeBody { opts with complete := true } start body).result.1 = .ok out →
      ∃ out₀, (analyzeBody { opts with complete := false } start body).result.1 = .ok out₀ ∧
        out₀.covered = out.covered ∧ out₀.isInfinite = out.isInfinite ∧
        (out.covered = false → out₀ = out)) ∧
    (∀ (f : Function) (r : FunctionResult),
      (analyzeFunction { opts with complete := true } f).result.1 = .ok r →
      ∃ r₀, (analyzeFunction { opts with complete := false } f).result.1 = .ok r₀ ∧
        r₀.infinite = r.infinite) := by
  constructor
  · intro start body out h
    obtain ⟨hne, hout⟩ := analyzeBody_ok_iff.mp h
    obtain ⟨out₀, hout₀, hagree⟩ := outcome_early hout
    exact ⟨out₀, analyzeBody_ok_iff.mpr ⟨hne, hout₀⟩, hagree⟩
  · intro f r h
    obtain ⟨hne, out, hout, hr⟩ := analyzeFunction_ok_iff.mp h
    obtain ⟨out₀, hout₀, _, hinfinite, hsame⟩ := outcome_early hout
    obtain ⟨r₀, hr₀, hagree⟩ := resultOf_early hr hinfinite hsame
    exact ⟨r₀, analyzeFunction_ok_iff.mpr ⟨hne, out₀, hout₀, hr₀⟩, hagree⟩

namespace Doubling

/-- The two loops as the body of a function. -/
def function : Function := ⟨["int"], "f", [], doubling⟩

/-- What is said about the function after a complete walk. -/
def functionResult : FunctionResult :=
  { name := "f", infinite := true, index := 2, vars := ["a", "b"], relation := some relation,
    flows := some "a ➔ a, b ‖ b ➔ a, b" }

theorem analyze_function : (analyzeFunction options function).result.1 = .ok functionResult := by
  refine analyzeFunction_ok_iff.mpr ⟨by decide, verdict, ?_, by decide +kernel⟩
  rw [show function.names = ["a", "b"] by decide +kernel]
  exact outcome_doubling

end Doubling

/-- The second loop covers every choice. The complete walk still finds a choice, the early one looks for
none, and both say that there is no bound. -/
theorem early_exit_keeps_verdict_doubling :
    (∃ out₀, (analyzeBody { complete := false } 0 doubling).result.1 = .ok out₀ ∧
      out₀.covered = true ∧ out₀.isInfinite = true) ∧
    (∃ r₀, (analyzeFunction { complete := false } Doubling.function).result.1 = .ok r₀ ∧
      r₀.infinite = true) := by
  have hkeeps := early_exit_keeps_verdict { }
  obtain ⟨out₀, hout, hcovered, hinfinite, _⟩ := hkeeps.1 0 doubling _ Doubling.analyze_doubling
  obtain ⟨r₀, hr, hresult⟩ := hkeeps.2 _ _ Doubling.analyze_function
  exact ⟨⟨out₀, hout, hcovered, hinfinite⟩, ⟨r₀, hr, hresult⟩⟩

end GrowthFlow
