import GrowthFlow.Proofs.EntryShapes
import GrowthFlow.Proofs.Numbering
import GrowthFlow.Proofs.ResultVariables
import GrowthFlow.Proofs.Survival

/-!
# The entries of an outcome

Two facts about runs are put together here. One is on shapes: where no loop has a guard, an entry counts under
every complete choice, or nothing but `i` of it ever counts. This speaks of what entries are worth; in normal
form a monomial is worth its own scalar under its own demands, so it says the same of the monomials.

The other is on indices: an analysis from an offset on is the one from zero on, moved up. So no entry asks for
a choice below the offset, and none for one that has not been given out.
-/

namespace GrowthFlow

open Lang

/-- In normal form a shape shows in the monomials: one of them is met under every complete choice, or all of
them are `i`. -/
theorem Poly.Shaped.monomials {n : Nat} {p : Poly} (hp : p.Normal) (h : p.Shaped n) :
    (∀ c, IsVector choiceValues n c → ∃ m ∈ p.monomials, m.isMet c = true) ∨
      ∀ m ∈ p.monomials, m.scalar = .i := by
  rcases h with hcounts | hinfinite
  · refine .inl fun c hc => ?_
    obtain ⟨m, hm, hmet, _⟩ := exists_monomial (hcounts _ (Selection.complete_ofVector hc))
    exact ⟨m, hm, hmet⟩
  · refine .inr fun m hm => ?_
    have hown := hinfinite (.ofDemands m.deltas)
    rw [hp.value_own hm] at hown
    exact hown.resolve_left (hp.nonzero m hm)

namespace Relation

variable {P : String → Prop} {k s : Nat} {R : Relation} {p : Poly}

/-- A regular relation that is moved up asks for nothing below the offset. -/
theorem Regular.demands_shift (hR : R.Regular P k) (hp : p ∈ (R.shift s).matrix.entries) :
    ∀ m ∈ p.monomials, ∀ d ∈ m.deltas, s ≤ d.index ∧ d.index < k + s ∧ d.value ∈ choiceValues := by
  rw [shift, FlowMatrix.entries_shift] at hp
  obtain ⟨q, hq, rfl⟩ := List.mem_map.mp hp
  obtain ⟨x, _, y, _, rfl⟩ := (mem_matrix_entries hR.normal.nodup).mp hq
  intro m' hm' d' hd'
  obtain ⟨m, hm, rfl⟩ := List.mem_map.mp hm'
  obtain ⟨d, hd, rfl⟩ := List.mem_map.mp hd'
  obtain ⟨hlt, hvalue⟩ := (hR.proper.entries x y m hm).2.demands d hd
  exact ⟨Nat.le_add_left s d.index, Nat.add_lt_add_right hlt s, hvalue⟩

end Relation

/-- A run from an offset ends with the relation of the run from zero, moved up. -/
theorem Plan.exists_run_from_zero {opts : Options} {p : Plan} {s : Nat} {T : Relation} {w' : Walk}
    (hw : p.WellFormed) (h : p.run opts { index := s } = (.ok T, w')) :
    ∃ U w, p.run opts { index := 0 } = (.ok U, w) ∧ T = U.shift s ∧ w'.index = w.index + s := by
  have hapart : Walk.Apart s { index := 0 } { index := s } := ⟨(Nat.zero_add s).symm, rfl, rfl⟩
  have halike := (matches_self hw s).run Function.injective_id opts hapart
  rcases halike.cases with ⟨U, w, w₁, hzero, hoffset, hw₁⟩ | ⟨e, w, w₁, hzero, hoffset⟩
  · cases hoffset.symm.trans h
    exact ⟨U, w, hzero, Relation.relabel_id s U, hw₁.index⟩
  · cases hoffset.symm.trans h

theorem index_of_outcome {opts : Options} {vars : List String} {T : Relation} {w : Walk} {out : Outcome}
    (h : outcome opts vars (.ok T, w) = .ok out) : out.index = w.index := by
  rw [outcome] at h
  split at h
  · cases h
    rfl
  · split at h
    · cases h
      rfl
    · cases h

section Outcome

variable {P : String → Prop} {opts : Options} {p : Plan} {vars : List String} {start : Nat} {out : Outcome}

theorem shaped_of_outcome (hw : p.WellFormed) (ho : p.Over P) (hs : p.All Effect.Shaped (· = none))
    (hnd : vars.Nodup) (h : outcome opts vars (p.run opts { index := start }) = .ok out) :
    out.relation.Shaped out.index := by
  obtain ⟨T, w, hrun, _, hrelation⟩ := exists_run_of_outcome h
  rw [hrun] at h
  rw [hrelation, index_of_outcome h]
  exact (Relation.shaped_identity hnd _).compose (Relation.proper_identity hnd)
    (Plan.regular_of_run hw ho hrun).2.proper (Plan.shaped_of_run hw ho hs hrun)

/-- The demands of an outcome are at the indices that its walk gave out. -/
theorem demands_of_outcome (hw : p.WellFormed) (ho : p.Over P) (hnd : vars.Nodup) (hvars : ∀ x ∈ vars, P x)
    (h : outcome opts vars (p.run opts { index := start }) = .ok out) {q : Poly}
    (hq : q ∈ out.relation.matrix.entries) :
    ∀ m ∈ q.monomials, ∀ d ∈ m.deltas, start ≤ d.index ∧ d.index < out.index ∧ d.value ∈ choiceValues := by
  obtain ⟨T, w', hrun, _, hrelation⟩ := exists_run_of_outcome h
  rw [hrun] at h
  obtain ⟨U, w, hzero, rfl, hindex⟩ := Plan.exists_run_from_zero hw hrun
  have hmoved : out.relation = ((Relation.identity vars).compose U).shift start := by
    rw [hrelation, ← Relation.relabel_id, ← Relation.relabel_id,
      Relation.relabel_compose Function.injective_id, Relation.relabel_identity, List.map_id]
  have hregular := (Relation.regular_identity hnd hvars w.index).compose
    (Plan.regular_of_run hw ho hzero).2
  rw [hmoved] at hq
  rw [index_of_outcome h, hindex]
  exact hregular.demands_shift hq

end Outcome

/-- **What the entries of an outcome are.** If no loop is bounded by its guard, an entry asks for values to
choose from, at the indices that the analysis gave out itself, and it is zero, or something of it counts under
every complete choice, or it is made of `i` alone. -/
theorem entries_of_analysis {opts : Options} (hb : opts.boundedFor = false) {start : Nat} {body : List Stmt}
    {out : Outcome} (h : (analyzeBody opts start body).result.1 = .ok out) :
    ∀ p ∈ out.relation.matrix.entries,
      (∀ m ∈ p.monomials, ∀ d ∈ m.deltas,
        start ≤ d.index ∧ d.index < out.index ∧ d.value ∈ choiceValues) ∧
      (p = .zero ∨ (∀ c, IsVector choiceValues out.index c → ∃ m ∈ p.monomials, m.isMet c = true) ∨
        ∀ m ∈ p.monomials, m.scalar = .i) := by
  obtain ⟨_, houtcome⟩ := analyzeBody_ok_iff.mp h
  have hnd := (increasing_namesAll body).nodup
  have hw := Plan.wellFormed_ofStmts opts body
  have ho : (Plan.ofStmts opts body).Over fun _ => True := Plan.over_ofStmts opts fun _ _ => trivial
  have hnormal := (outcome_regular hw ho hnd (fun _ _ => trivial) houtcome).relation.normal
  have hshaped := shaped_of_outcome hw ho (Plan.all_shaped hb body) hnd houtcome
  intro p hp
  refine ⟨demands_of_outcome hw ho hnd (fun _ _ => trivial) houtcome hp, .inr ?_⟩
  obtain ⟨x, _, y, _, rfl⟩ := (Relation.mem_matrix_entries hnormal.nodup).mp hp
  exact (hshaped x y).monomials (hnormal.entry x y)

namespace Doubling

/-- `while (b) { a = b + b; } a = 1;` -/
def clearing : List Stmt := doubling.take 2

/-- Unbounded where the loop takes `p`, if its choice is at index 4. -/
def lostAtFour : Poly := ⟨[⟨.i, [⟨1, 4⟩]⟩]⟩

def clearedWalk : Walk := { index := 5, graph := ⟨3, [[⟨1, 4⟩]]⟩, promotions := [[⟨1, 4⟩]] }

/-- The value that the assignment puts in place of an unbounded one does not hide it. -/
def cleared : Outcome :=
  ⟨pair lostAtFour lostAtFour lostAtFour (.unit + lostAtFour), 5,
    ⟨[[[0, 1, 2], [0, 1, 2], [0, 1, 2], [0, 1, 2], [0, 2]]], 5⟩, false⟩

theorem analyze_clearing : (analyzeBody options 4 clearing).result.1 = .ok cleared := by
  have hbody : (Plan.andThen .skip (.simple (.assign "a" (.binary .add (.var "b") (.var "b")))
      (.choice "a" ["b"] [[.w, .p, .w]]))).run options { index := 4 } =
        (.ok (pair .zero .zero (.ofChoice 4 [.w, .p, .w]) .unit), { index := 5 }) :=
    Plan.run_andThen_of_ok Plan.run_skip rfl rfl (by decide +kernel)
  have hclosure : (pair .zero .zero (.ofChoice 4 [.w, .p, .w]) .unit).closureWithin? options.limit =
      some (pair .unit .zero (.ofChoice 4 [.w, .p, .w]) .unit) :=
    Relation.closureWithin?_of_two 9998 (by decide +kernel) (by decide +kernel) (by decide +kernel)
      (by decide +kernel) rfl
  have hloop : (sumLoop "a" "b").run options { index := 4 } =
      (.ok (pair .unit .zero (.ofChoice 4 [.w, .i, .w]) .unit), clearedWalk) :=
    Plan.run_loop_of_ok hbody rfl hclosure (by decide +kernel) (by decide +kernel)
  have hfirst : (Plan.andThen .skip (sumLoop "a" "b")).run options { index := 4 } =
      (.ok (pair (.unit + lostAtFour) .zero (.ofChoice 4 [.w, .i, .w]) .unit), clearedWalk) :=
    Plan.run_andThen_of_ok Plan.run_skip rfl hloop (by decide +kernel)
  have hassign : (Plan.ofStmts options clearing).run options { index := 4 } =
      (.ok cleared.relation, clearedWalk) :=
    Plan.run_andThen_of_ok hfirst rfl rfl (by decide +kernel)
  have hnames : Stmt.namesAll clearing = ["a", "b"] := by decide +kernel
  refine analyzeBody_ok_iff.mpr ⟨by decide, ?_⟩
  rw [hassign, hnames]
  exact outcome_of_ok rfl (by decide +kernel) (by decide +kernel)

end Doubling

/-- An entry that counts under some choices only. -/
theorem entries_of_analysis_clearing :
    (analyzeBody Doubling.options 4 Doubling.clearing).result.1 = .ok Doubling.cleared ∧
    Doubling.lostAtFour ∈ Doubling.cleared.relation.matrix.entries ∧
    (∀ m ∈ Doubling.lostAtFour.monomials, ∀ d ∈ m.deltas,
      4 ≤ d.index ∧ d.index < 5 ∧ d.value ∈ choiceValues) ∧
    (Doubling.lostAtFour = .zero ∨
      (∀ c, IsVector choiceValues 5 c → ∃ m ∈ Doubling.lostAtFour.monomials, m.isMet c = true) ∨
      ∀ m ∈ Doubling.lostAtFour.monomials, m.scalar = .i) :=
  have hmem : Doubling.lostAtFour ∈ Doubling.cleared.relation.matrix.entries := by decide
  ⟨Doubling.analyze_clearing, hmem, entries_of_analysis rfl Doubling.analyze_clearing _ hmem⟩

end GrowthFlow
