import GrowthFlow.Proofs.RegularResults

/-!
# Analyses complete

An analysis can fail in four ways: there is nothing to analyze, a closure is not found within the limit, the
choices of a relation cannot be found, or choices were found and there is no first one. The last two would
contradict what the analysis takes for granted, and they do not happen. Nothing to analyze is no failure for
a program. And a limit of twice the number of different names is always enough.

All analyses are followed once. `Analysis.Ends E a Q` says that `a` ends with a value that satisfies `Q` or
with an error that satisfies `E`, whatever the journal held before; it has one law for each way of putting
analyses together.
-/

namespace GrowthFlow

open Lang

/-! ## How an analysis ends -/

namespace Analysis

variable {α β : Type} {E : AnalysisError → Prop} {Q : α → Prop} {a : Analysis α}

/-- A value that satisfies `Q`, or an error that satisfies `E`. -/
def EndsIn (E : AnalysisError → Prop) (Q : α → Prop) : Except AnalysisError α → Prop
  | .ok x => Q x
  | .error e => E e

/-- Whatever the journal held before, the analysis ends with a value that satisfies `Q` or with an error
that satisfies `E`. -/
def Ends (E : AnalysisError → Prop) (a : Analysis α) (Q : α → Prop) : Prop :=
  ∀ es, EndsIn E Q (Walk.runFrom a es).1

theorem ends_pure {x : α} (h : Q x) : Ends E (pure x) Q := fun _ => h

theorem ends_throw {e : AnalysisError} (h : E e) : Ends E (throw e : Analysis α) Q := fun _ => h

theorem ends_log (events : List Event) : Ends E (log events) fun _ => True := fun _ => trivial

theorem ends_ofChoices {r : Except ChoiceError α} (h : ∃ x, r = .ok x ∧ Q x) :
    Ends E (ofChoices r) Q := by
  obtain ⟨x, rfl, hx⟩ := h
  exact fun _ => hx

theorem Ends.bind {Q' : β → Prop} {f : α → Analysis β} (ha : Ends E a Q)
    (hf : ∀ x, Q x → Ends E (f x) Q') : Ends E (a >>= f) Q' := by
  intro es
  have hend := ha es
  rw [Walk.runFrom_bind]
  rcases hrun : Walk.runFrom a es with ⟨_ | x, es'⟩ <;> rw [hrun] at hend
  · exact hend
  · exact hf x hend es'

theorem Ends.imp {E' : AnalysisError → Prop} {Q' : α → Prop} (ha : Ends E a Q)
    (hE : ∀ e, E e → E' e) (hQ : ∀ x, Q x → Q' x) : Ends E' a Q' := by
  intro es
  have hend := ha es
  rcases hrun : (Walk.runFrom a es).1 with _ | x <;> rw [hrun] at hend
  · exact hE _ hend
  · exact hQ x hend

theorem ends_foldlM {f : β → α → Analysis β} {I : β → Prop} (xs : List α)
    (h : ∀ b, ∀ x ∈ xs, I b → Ends E (f b x) I) {b : β} (hb : I b) : Ends E (xs.foldlM f b) I := by
  induction xs generalizing b with
  | nil => exact ends_pure hb
  | cons x xs ih =>
      rw [List.foldlM_cons]
      exact (h b x List.mem_cons_self hb).bind fun b' hb' =>
        ih (fun b y hy => h b y (List.mem_cons_of_mem _ hy)) hb'

theorem ends_mapM {f : α → Analysis β} {Q : β → Prop} (xs : List α)
    (h : ∀ x ∈ xs, Ends E (f x) Q) : Ends E (xs.mapM f) fun ys => ∀ y ∈ ys, Q y := by
  induction xs with
  | nil => exact ends_pure fun _ hy => absurd hy List.not_mem_nil
  | cons x xs ih =>
      rw [List.mapM_cons]
      refine (h x List.mem_cons_self).bind fun y hy =>
        (ih fun z hz => h z (List.mem_cons_of_mem _ hz)).bind fun ys hys => ends_pure fun z hz => ?_
      rcases List.mem_cons.mp hz with rfl | hz
      · exact hy
      · exact hys z hz

theorem ends_filterMapM {f : α → Analysis (Option β)} {Q : β → Prop} (xs : List α)
    (h : ∀ x ∈ xs, Ends E (f x) fun r => ∀ y, r = some y → Q y) :
    Ends E (xs.filterMapM f) fun ys => ∀ y ∈ ys, Q y := by
  induction xs with
  | nil => exact ends_pure fun _ hy => absurd hy List.not_mem_nil
  | cons x xs ih =>
      have hrest := ih fun z hz => h z (List.mem_cons_of_mem _ hz)
      rw [List.filterMapM_cons]
      refine (h x List.mem_cons_self).bind fun r hr => ?_
      cases r with
      | none => exact hrest
      | some y =>
          refine hrest.bind fun ys hys => ends_pure fun z hz => ?_
          rcases List.mem_cons.mp hz with rfl | hz
          · exact hr z rfl
          · exact hys z hz

/-- An analysis that ends in one of two ways, read off its result. -/
theorem Ends.result (h : Ends E a Q) :
    (∃ x, a.result.1 = .ok x ∧ Q x) ∨ ∃ e, a.result.1 = .error e ∧ E e := by
  have hend := h []
  show (∃ x, (Walk.runFrom a []).1 = .ok x ∧ Q x) ∨ ∃ e, (Walk.runFrom a []).1 = .error e ∧ E e
  rcases hrun : (Walk.runFrom a []).1 with e | x <;> rw [hrun] at hend
  · exact .inr ⟨e, rfl, hend⟩
  · exact .inl ⟨x, rfl, hend⟩

theorem Ends.value (h : Ends E a Q) {x : α} (hx : a.result.1 = .ok x) : Q x := by
  rcases h.result with ⟨y, hy, hQ⟩ | ⟨e, he, _⟩
  · cases hx.symm.trans hy
    exact hQ
  · cases hx.symm.trans he

end Analysis

open Analysis

/-- The error says that the limit was reached, and the limit is low for the given names. -/
def AnalysisError.IsLimit (opts : Options) (xs : List String) (e : AnalysisError) : Prop :=
  e = .limit opts.limit ∧ opts.LowFor xs

section Ends

variable {P : String → Prop}

/-- A walk ends with a regular outcome, unless the limit is low for the names. -/
theorem ends_walkOver (opts : Options) {vars : List String} (hnd : vars.Nodup) (start : Nat)
    {body : List Stmt} {xs : List String} (hvars : ∀ x ∈ vars, x ∈ xs)
    (hbody : ∀ x ∈ Stmt.identifiersAll body, x ∈ xs) (hP : ∀ x ∈ xs, P x) :
    Ends (AnalysisError.IsLimit opts xs) (walkOver opts vars start body) (Outcome.Regular P) := by
  intro es
  have hw := Plan.wellFormed_ofStmts opts body
  rw [run_walkOver]
  rcases hout : outcome opts vars ((Plan.ofStmts opts body).run opts { index := start }) with e | out
  · exact outcome_limit hw (Plan.over_ofStmts opts hbody) hnd hvars hout
  · exact outcome_regular hw (Plan.over_ofStmts opts fun x hx => hP x (hbody x hx)) hnd
      (fun x hx => hP x (hvars x hx)) hout

/-! ## Functions -/

/-- From a regular outcome there is always a result, and it is regular. -/
theorem ends_resultOf {E : AnalysisError → Prop} (opts : Options) (name : String) {out : Outcome}
    (hout : out.Regular P) : Ends E (resultOf opts name out) (FunctionResult.Regular P) := by
  unfold resultOf problematicFlows
  split
  · split
    · obtain ⟨all, hall, _⟩ := hout.relation.exists_allChoices
      rw [hall]
      refine ends_pure ⟨?_, (fun _ h => nomatch h), (fun _ h => nomatch h)⟩
      rintro _ ⟨⟩
      exact hout.relation
    · exact ends_pure ⟨(fun _ h => nomatch h), (fun _ h => nomatch h), (fun _ h => nomatch h)⟩
  · rename_i hfinite
    rw [Bool.not_eq_true] at hfinite
    have hchoices := hout.choices hfinite
    obtain ⟨c, hfirst⟩ := hchoices.exists_first (Bool.or_eq_false_iff.mp hfinite).2
    have hbounds : firstBounds? out.relation out.choices =
        some (Bounds.ofCells (out.relation.apply c)) := by rw [firstBounds?, hfirst]; rfl
    rw [hbounds]
    refine ends_pure ⟨?_, ?_, ?_⟩
    · rintro _ ⟨⟩
      exact hout.relation
    · rintro _ ⟨⟩
      exact ⟨hchoices, (Bool.or_eq_false_iff.mp hfinite).2⟩
    · rintro _ ⟨⟩
      exact Bounds.regular_ofCells hout.relation.vars

/-- The analysis of a function fails only if there is nothing to analyze or the limit is low. -/
theorem ends_analyzeFunction (opts : Options) {f : Function} {xs : List String}
    (hxs : ∀ x ∈ f.identifiers, x ∈ xs) (hP : ∀ x ∈ xs, P x) :
    Ends (fun e => e = .emptyBody f.name ∧ f.body = [] ∨ e.IsLimit opts xs)
      (analyzeFunction opts f) (FunctionResult.Regular P) := by
  unfold analyzeFunction
  refine (ends_log _).bind fun _ _ => ?_
  cases hbody : f.body.isEmpty with
  | true => exact ends_throw (.inl ⟨rfl, List.isEmpty_iff.mp hbody⟩)
  | false =>
      have hwalk := ends_walkOver (P := P) opts (increasing_names f).nodup 0
        (fun x hx => hxs x (Function.mem_identifiers hx))
        (fun x hx => hxs x (Function.mem_identifiers_body hx)) hP
      exact (hwalk.imp (fun _ he => .inr he) fun _ h => h).bind fun out hout =>
        ends_resultOf opts f.name hout

theorem run_coveredFunction (opts : Options) (f : Function) (es : List Event) :
    (Walk.runFrom (coveredFunction opts f) es).1 =
      .ok (if f.isCovered then some f else if opts.strict then none else some f.strip) := by
  unfold coveredFunction
  cases f.isCovered with
  | true => rfl
  | false =>
      cases opts.strict with
      | true => rfl
      | false => rfl

/-- The function to be analyzed has no names of its own. -/
theorem ends_coveredFunction {E : AnalysisError → Prop} (opts : Options) (f : Function) :
    Ends E (coveredFunction opts f) fun g =>
      ∀ g', g = some g' → ∀ x ∈ g'.identifiers, x ∈ f.identifiers := by
  intro es
  rw [run_coveredFunction]
  intro g hg x hx
  split at hg
  · cases hg
    exact hx
  · split at hg
    · cases hg
    · cases hg
      exact Function.mem_identifiers_strip hx

/-- A function adds its result to a report; where there is nothing to analyze the report stays as it is. -/
theorem runFrom_analyzeCovered (opts : Options) (report : Report) (f : Function) (es : List Event) :
    Walk.runFrom (analyzeCovered opts report f) es =
      match Walk.runFrom (coveredFunction opts f) es with
      | (.error e, es₁) => (.error e, es₁)
      | (.ok none, es₁) => (.ok report, es₁)
      | (.ok (some g), es₁) =>
        match Walk.runFrom (analyzeFunction opts g) es₁ with
        | (.ok r, es₂) => (.ok (report.addFunction r), es₂)
        | (.error (.emptyBody name), es₂) => (.ok report, es₂ ++ [.noStatements name])
        | (.error e, es₂) => (.error e, es₂) := by
  unfold analyzeCovered
  rw [Walk.runFrom_bind]
  rcases Walk.runFrom (coveredFunction opts f) es with ⟨_ | _ | g, es₁⟩
  · rfl
  · rfl
  · simp only
    generalize analyzeFunction opts g = a
    -- the handler is that of the analysis below, seen through a layer that returns early
    rcases h : Walk.runFrom a es₁ with ⟨e | r, es₂⟩
    · have hrun : a es₁ = (.error e, es₂) := h
      cases e <;> simp only [Walk.runFrom, tryCatch, tryCatchThe, MonadExceptOf.tryCatch,
        ExceptT.tryCatch, ExceptT.run, ExceptT.mk, bind, ExceptT.bind, StateT.bind, StateT.run, hrun,
        ExceptT.bindCont] <;> rfl
    · have hrun : a es₁ = (.ok r, es₂) := h
      simp only [Walk.runFrom, tryCatch, tryCatchThe, MonadExceptOf.tryCatch,
        ExceptT.tryCatch, ExceptT.run, ExceptT.mk, bind, ExceptT.bind, StateT.bind, StateT.run, hrun,
        ExceptT.bindCont]
      rfl

/-- A function that is analyzed as part of a program adds a regular result or nothing. -/
theorem ends_analyzeCovered (opts : Options) {report : Report} (hreport : report.Regular P)
    {f : Function} (hP : ∀ x ∈ f.identifiers, P x) :
    Ends (AnalysisError.IsLimit opts f.identifiers) (analyzeCovered opts report f)
      (Report.Regular P) := by
  intro es
  have hcovered := ends_coveredFunction (E := AnalysisError.IsLimit opts f.identifiers) opts f es
  rw [runFrom_analyzeCovered]
  rcases hrun : Walk.runFrom (coveredFunction opts f) es with ⟨e | _ | g, es₁⟩ <;>
    rw [hrun] at hcovered
  · exact hcovered
  · exact hreport
  · have hend := ends_analyzeFunction opts (hcovered g rfl) hP es₁
    simp only
    rcases hrun : Walk.runFrom (analyzeFunction opts g) es₁ with ⟨e | r, es₂⟩ <;> rw [hrun] at hend
    · rcases hend with ⟨rfl, _⟩ | hlimit
      · exact hreport
      · obtain ⟨rfl, _⟩ := id hlimit
        exact hlimit
    · exact ⟨hreport.relations.set hend, hreport.loops⟩

theorem ends_analyzeProgram (opts : Options) {p : Program}
    (hP : ∀ f ∈ p.functions, ∀ x ∈ f.identifiers, P x) :
    Ends (fun e => ∃ f ∈ p.functions, e.IsLimit opts f.identifiers) (analyzeProgram opts p)
      (Report.Regular P) :=
  ends_foldlM p.functions
    (fun _ f hf hreport => (ends_analyzeCovered opts hreport (hP f hf)).imp
      (fun _ he => ⟨f, hf, he⟩) fun _ h => h)
    ⟨Assoc.regular_nil, Assoc.regular_nil⟩

/-! ## Loops -/

theorem ends_analyzeLoop (opts : Options) {s : Stmt} {xs : List String}
    (hxs : ∀ x ∈ s.identifiers, x ∈ xs) (hP : ∀ x ∈ xs, P x) :
    Ends (AnalysisError.IsLimit opts xs) (analyzeLoop opts s) (LoopResult.Regular P) := by
  have hbody : ∀ x ∈ Stmt.identifiersAll [s], x ∈ xs := by
    intro x hx
    obtain ⟨t, ht, hx⟩ := Stmt.mem_identifiersAll.mp hx
    rw [List.mem_singleton.mp ht] at hx
    exact hxs x hx
  have hwalk := ends_walkOver (P := P) { opts with complete := true } (Stmt.increasing_names s).nodup 0
    (fun x hx => hxs x (Stmt.mem_identifiers s hx)) hbody hP
  unfold analyzeLoop
  refine (show Ends (AnalysisError.IsLimit opts xs) _ _ from hwalk).bind fun out hout => ?_
  exact (ends_ofChoices (exists_classifyAll hout)).bind fun vars hvars => ends_pure hvars

theorem ends_analyzeFunctionLoops (opts : Options) {f : Function} (hP : ∀ x ∈ f.identifiers, P x) :
    Ends (AnalysisError.IsLimit opts f.identifiers) (analyzeFunctionLoops opts f)
      (FunctionLoops.Regular P) := by
  unfold analyzeFunctionLoops
  refine (ends_log _).bind fun _ _ => ?_
  have hcovered : ∀ s ∈ f.loops, Ends (AnalysisError.IsLimit opts f.identifiers)
      (coveredLoop opts f.name s) fun r => ∀ t, r = some t → ∀ x ∈ t.identifiers, x ∈ f.identifiers := by
    intro s hs
    have hidentifiers : ∀ x ∈ s.identifiers, x ∈ f.identifiers := fun x hx =>
      Function.mem_identifiers_body (Stmt.mem_identifiers_loopsAll f.body hs hx)
    unfold coveredLoop
    split
    · refine ends_pure ?_
      rintro _ ⟨⟩
      exact hidentifiers
    · refine (ends_log _).bind fun _ _ => ends_pure fun t ht x hx => ?_
      split at ht
      · cases ht
      · exact hidentifiers x (Stmt.mem_identifiers_strip? ht hx)
  refine (ends_filterMapM f.loops hcovered).bind fun loops hloops => ?_
  exact (ends_mapM loops fun s hs => ends_analyzeLoop opts (hloops s hs) hP).bind
    fun results hresults => ends_pure hresults

theorem ends_analyzeLoops (opts : Options) {p : Program}
    (hP : ∀ f ∈ p.functions, ∀ x ∈ f.identifiers, P x) :
    Ends (fun e => ∃ f ∈ p.functions, e.IsLimit opts f.identifiers) (analyzeLoops opts p)
      (Report.Regular P) := by
  refine ends_foldlM p.functions (fun report f hf hreport => ?_) ⟨Assoc.regular_nil, Assoc.regular_nil⟩
  refine ((ends_analyzeFunctionLoops opts (hP f hf)).imp (fun _ he => ⟨f, hf, he⟩) fun _ h => h).bind
    fun r hr => ends_pure ?_
  exact ⟨hreport.relations, hreport.loops.set hr⟩

end Ends

/-! ## Nothing to analyze -/

/-- A statement that is kept or left out as a whole is left out only if the calculus does not understand
it. -/
theorem Lang.Stmt.unsupported_of_isSupported {s : Stmt}
    (h : (if s.isSupported then some s else none) = none) :
    (if s.isSupported then [] else [s]) = [s] := by
  split at h
  · cases h
  · rename_i hsupported
    rw [if_neg hsupported]

/-- A statement goes away only if the calculus does not understand it. -/
theorem Lang.Stmt.unsupported_of_strip? : ∀ {s : Stmt}, s.strip? = none → s.unsupported = [s]
  | .forLoop init c step body, h => by
      rw [Stmt.strip?] at h
      rw [Stmt.unsupported]
      split at h
      · cases h
      · rename_i hguard
        rw [if_neg hguard]
  | .assign _ _, h => unsupported_of_isSupported h
  | .expr _, h => unsupported_of_isSupported h
  | .decl _ _, h => unsupported_of_isSupported h
  | .ret _, h => unsupported_of_isSupported h

/-- A function of which nothing is left and which is understood had nothing in it. -/
theorem Lang.Function.body_of_isCovered {f : Function} (hcovered : f.isCovered = true)
    (h : f.strip.body = []) : f.body = [] := by
  have hunsupported : Stmt.unsupportedAll f.body = [] := List.isEmpty_iff.mp hcovered
  have hstrip : Stmt.stripAll f.body = [] := h
  cases hbody : f.body with
  | nil => rfl
  | cons s ss =>
      rw [hbody, Stmt.unsupportedAll] at hunsupported
      rw [hbody, Stmt.stripAll] at hstrip
      split at hstrip
      · cases hstrip
      · rename_i hnone
        rw [Stmt.unsupported_of_strip? hnone] at hunsupported
        cases hunsupported

theorem runFrom_analyzeFunction_of_empty (opts : Options) {f : Function} (h : f.body = [])
    (es : List Event) :
    Walk.runFrom (analyzeFunction opts f) es = (.error (.emptyBody f.name), es ++ [.analyzing f.name]) := by
  unfold analyzeFunction
  rw [h]
  rfl

/-- A function of which nothing is left to analyze leaves a report as it is. -/
theorem analyzeCovered_of_empty (opts : Options) (report : Report) {f : Function}
    (h : f.strip.body = []) : (analyzeCovered opts report f).result.1 = .ok report := by
  show (Walk.runFrom (analyzeCovered opts report f) []).1 = .ok report
  have hcovered := run_coveredFunction opts f []
  rw [runFrom_analyzeCovered]
  rcases hrun : Walk.runFrom (coveredFunction opts f) [] with ⟨_ | _ | g, es⟩ <;> rw [hrun] at hcovered
  · cases hcovered
  · have hbody : g.body = [] := by
      split at hcovered
      · rename_i hwhole
        cases hcovered
        exact Function.body_of_isCovered hwhole h
      · split at hcovered
        · cases hcovered
        · cases hcovered
          exact h
    simp only [runFrom_analyzeFunction_of_empty opts hbody]

/-! ## The theorem -/

/-- The analysis has a result, or it fails because the limit is low for some of the given names. -/
def Analysis.Completes {α : Type} (opts : Options) (names : List (List String)) (a : Analysis α) : Prop :=
  (∃ x, a.result.1 = .ok x) ∨ a.result.1 = .error (.limit opts.limit) ∧ ∃ xs ∈ names, opts.LowFor xs

theorem Analysis.Ends.completes {α : Type} {opts : Options} {names : List (List String)}
    {a : Analysis α} {Q : α → Prop} (h : a.Ends (fun e => ∃ xs ∈ names, e.IsLimit opts xs) Q) :
    a.Completes opts names := by
  rcases h.result with ⟨x, hx, _⟩ | ⟨_, he, xs, hxs, rfl, hlow⟩
  · exact .inl ⟨x, hx⟩
  · exact .inr ⟨he, xs, hxs, hlow⟩

/-- **No analysis contradicts itself.** A function with a body, a loop, a program and the loops of a program
are analyzed with a result, or fail because the closure of a loop was not found within the limit. If the
limit is one at least and twice the number of different identifiers of each function, they have a result. A
function of which nothing is left to analyze is no failure: it leaves the report as it is. -/
theorem analyses_complete (opts : Options) :
    (∀ f : Function, f.body ≠ [] → (analyzeFunction opts f).Completes opts [f.identifiers]) ∧
    (∀ s : Stmt, (analyzeLoop opts s).Completes opts [s.identifiers]) ∧
    (∀ p : Program, (analyzeProgram opts p).Completes opts (p.functions.map (·.identifiers))) ∧
    (∀ p : Program, (analyzeLoops opts p).Completes opts (p.functions.map (·.identifiers))) ∧
    ∀ (report : Report) (f : Function), f.strip.body = [] →
      (analyzeCovered opts report f).result.1 = .ok report := by
  refine ⟨fun f hbody => ?_, fun s => ?_, fun p => ?_, fun p => ?_,
    fun report f => analyzeCovered_of_empty opts report⟩
  · have hends := ends_analyzeFunction (P := fun _ => True) opts (f := f) (fun _ hx => hx)
      fun _ _ => trivial
    refine (hends.imp (fun e he => ?_) fun _ h => h).completes
    exact ⟨_, List.mem_singleton_self _, he.resolve_left fun h => hbody h.2⟩
  · have hends := ends_analyzeLoop (P := fun _ => True) opts (s := s) (fun _ hx => hx)
      fun _ _ => trivial
    refine (hends.imp (fun e he => ?_) fun _ h => h).completes
    exact ⟨_, List.mem_singleton_self _, he⟩
  · have hends := ends_analyzeProgram (P := fun _ => True) opts (p := p) fun _ _ _ _ => trivial
    refine (hends.imp (fun e he => ?_) fun _ h => h).completes
    obtain ⟨f, hf, he⟩ := he
    exact ⟨_, List.mem_map_of_mem hf, he⟩
  · have hends := ends_analyzeLoops (P := fun _ => True) opts (p := p) fun _ _ _ _ => trivial
    refine (hends.imp (fun e he => ?_) fun _ h => h).completes
    obtain ⟨f, hf, he⟩ := he
    exact ⟨_, List.mem_map_of_mem hf, he⟩

/-- Two identifiers: a limit of four is enough for the loop, and a limit of zero is reached. -/
theorem analyses_complete_resetting :
    (∃ r, (analyzeFunction { limit := 4 } Doubling.resetting).result.1 = .ok r) ∧
    (analyzeFunction { limit := 0 } Doubling.resetting).result.1 = .error (.limit 0) ∧
    ∀ report, (analyzeCovered { limit := 0 } report ⟨["int"], "f", [], []⟩).result.1 = .ok report := by
  have hbody : Doubling.resetting.body ≠ [] := by decide
  refine ⟨?_, by decide +kernel, fun report => (analyses_complete { limit := 0 }).2.2.2.2 report _ rfl⟩
  rcases (analyses_complete { limit := 4 }).1 Doubling.resetting hbody with h | ⟨_, xs, hxs, hlow⟩
  · exact h
  · rw [List.mem_singleton.mp hxs] at hlow
    exact absurd hlow (by unfold Options.LowFor; decide +kernel)

end GrowthFlow
