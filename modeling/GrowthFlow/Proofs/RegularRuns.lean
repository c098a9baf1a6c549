import Mathlib.Data.List.Dedup
import Mathlib.Data.List.Perm.Subperm
import GrowthFlow.Proofs.Convergence
import GrowthFlow.Proofs.EarlyExit
import GrowthFlow.Proofs.Identifiers

/-!
# What every run keeps

`flow_proper` describes the relations of complete walks. A walk that stops early leaves relations of another
kind: half of a branch, a loop body that was never closed. They are no less well formed. A relation is
*regular* if its variables have a given property, its entries are in normal form, and its demands are for
values to choose from, at indices that the walk has given out by then. Every step of every run keeps that
(`Plan.regular_of_run`), as it keeps any property that effects have and that sums, compositions and loops pass
on (`Plan.Kept.of_run`).

Two things follow. Choices can be found wherever they are asked for, since no witness lies outside of the
indices (`Relation.Regular.exists_columnChoices`). And a run can only fail where a closure needs more powers
than the limit allows, which takes a matrix that is large for the limit (`Plan.limit_of_run`).
-/

namespace GrowthFlow

open Lang

/-- The limit is low for the number of different names. -/
def Options.LowFor (opts : Options) (xs : List String) : Prop :=
  opts.limit < max 1 (2 * xs.dedup.length)

namespace Relation

/-- Variables with a property, entries in normal form, and demands for values to choose from at indices
below `k`. -/
structure Regular (P : String → Prop) (k : Nat) (R : Relation) : Prop where
  normal : R.Normal
  proper : R.Proper fun d => d.index < k ∧ d.value ∈ choiceValues
  vars : ∀ x ∈ R.vars, P x

variable {P : String → Prop} {k l : Nat} {R S F : Relation}

theorem Regular.mono (hR : R.Regular P k) (h : k ≤ l) : R.Regular P l :=
  ⟨hR.normal, hR.proper.mono fun _ hd => ⟨Nat.lt_of_lt_of_le hd.1 h, hd.2⟩, hR.vars⟩

theorem regular_identity {vars : List String} (hnd : vars.Nodup) (h : ∀ x ∈ vars, P x) (k : Nat) :
    (identity vars).Regular P k :=
  ⟨normal_identity hnd, proper_identity hnd, h⟩

theorem Regular.compose (hR : R.Regular P k) (hS : S.Regular P k) : (R.compose S).Regular P k :=
  ⟨hR.normal.compose hS.normal, hR.proper.compose hS.proper,
    fun x hx => ((mem_vars_compose hR.normal hS.normal).mp hx).elim (hR.vars x) (hS.vars x)⟩

theorem Regular.sum (hR : R.Regular P k) (hS : S.Regular P k) : (R.sum S).Regular P k :=
  ⟨hR.normal.sum hS.normal, hR.proper.sum hS.proper,
    fun x hx => ((mem_vars_sum hR.normal hS.normal).mp hx).elim (hR.vars x) (hS.vars x)⟩

theorem Normal.power (hR : R.Normal) : ∀ k, (R.power k).Normal
  | 0 => normal_identity hR.nodup
  | k + 1 => (Normal.power hR k).compose hR

theorem Normal.powerSum (hR : R.Normal) : ∀ k, (R.powerSum k).Normal
  | 0 => normal_identity hR.nodup
  | k + 1 => (Normal.powerSum hR k).sum (hR.power (k + 1))

theorem Normal.correct (hR : R.Normal) (guard : Option String) : (R.correct guard).Normal := by
  refine normal_of_entry (by rw [vars_correct]; exact hR.nodup) fun x hx y hy => ?_
  rw [vars_correct] at hx hy
  cases guard with
  | none =>
      show (R.whileCorrection.entry x y).Normal
      rw [entry_whileCorrection hR.nodup hx hy]
      exact (hR.entry x y).escalate _
  | some guard =>
      show ((R.boundedCorrection guard).entry x y).Normal
      rw [entry_boundedCorrection hR.nodup hx hy]
      have hentry : (if x = y then (R.entry x y).escalate (· != .m) else R.entry x y).Normal := by
        split
        · exact (hR.entry x y).escalate _
        · exact hR.entry x y
      have hcharge : (R.chargeInto y).Normal :=
        Poly.normal_ofMonomials fun m hm => (charge_formed hR.proper y m hm).sorted
      simp only
      split
      · exact hentry.add hcharge
      · exact hentry

/-- Closing a relation and correcting it keeps it regular. -/
theorem Regular.repeat {limit : Nat} (hR : R.Regular P k) (h : R.closureWithin? limit = some F)
    (guard : Option String) : (F.correct guard).Regular P k := by
  have hF : F.Normal := by
    obtain ⟨j, rfl, _⟩ := closureWithin?_some h
    exact hR.normal.powerSum j
  refine ⟨hF.correct guard, (hR.proper.closure h).correct guard, fun x hx => hR.vars x ?_⟩
  rwa [vars_correct, vars_closure h] at hx

/-- A regular relation over few names has a closure that is found with few powers. -/
theorem Regular.exists_closure {xs : List String} (hR : R.Regular (· ∈ xs) k) {opts : Options}
    (h : ¬ opts.LowFor xs) : ∃ F, R.closureWithin? opts.limit = some F := by
  have hlength : R.vars.length ≤ xs.dedup.length :=
    (hR.normal.nodup.subperm fun x hx => List.mem_dedup.mpr (hR.vars x hx)).length_le
  have hsize : max 1 (2 * R.matrix.size) ≤ opts.limit := by
    rw [R.size_eq]
    unfold Options.LowFor at h
    omega
  unfold closureWithin?
  rw [FlowMatrix.closureWithin?_of_le hR.normal.entries hsize]
  exact ⟨_, rfl⟩

end Relation

/-! ## Choices -/

namespace Choices

/-- Boxes over `k` choice indices, of values to choose from. -/
structure Regular (k : Nat) (ch : Choices) : Prop where
  index : ch.index = k
  boxes : ∀ b ∈ ch.boxes, Box.IsBox choiceValues k b

variable {k : Nat} {ch : Choices} {ws : List Witness}

theorem Exact.regular (h : Exact choiceValues k ws ch) : ch.Regular k :=
  ⟨h.index, fun b hb => ((h.boxes b).mp hb).safe.box⟩

theorem exists_regular (h : Fits k ws) :
    ∃ ch, generate choiceValues k ws = .ok ch ∧ ch.Regular k := by
  obtain ⟨ch, hfound, hexact⟩ := exact_of_fits (show choiceValues ≠ [] by decide) h
  exact ⟨ch, hfound, hexact.regular⟩

/-- Where there is a box, there is a first choice. -/
theorem Regular.exists_first (h : ch.Regular k) (hne : ch.isInfinite = false) :
    ∃ c, ch.first? = some c := by
  cases hboxes : ch.boxes with
  | nil =>
      rw [isInfinite, hboxes] at hne
      cases hne
  | cons b bs => exact ⟨_, first?_of_cons hboxes (h.boxes b (hboxes ▸ List.mem_cons_self))⟩

end Choices

namespace Relation

variable {P : String → Prop} {k : Nat} {R : Relation}

theorem Regular.fits (hR : R.Regular P k) (extra : List Scalar) {ps : List Poly}
    (hps : ∀ p ∈ ps, ∃ x y, R.entry x y = p) : Fits k (ps.flatMap (·.infinities extra)) := by
  intro w hw
  obtain ⟨p, hp, hw⟩ := List.mem_flatMap.mp hw
  obtain ⟨x, y, rfl⟩ := hps p hp
  obtain ⟨m, hm, rfl⟩ := List.mem_map.mp hw
  have hformed := (hR.proper.entries x y m (List.mem_filter.mp hm).1).2
  exact ⟨hformed.sorted, fun d hd => (hformed.demands d hd).1⟩

theorem Regular.exists_choices (hR : R.Regular P k) (extra : List Scalar) :
    ∃ ch, R.choices choiceValues k extra = .ok ch ∧ ch.Regular k := by
  refine Choices.exists_regular (hR.fits extra fun p hp => ?_)
  obtain ⟨x, _, y, _, hp⟩ := (mem_matrix_entries hR.normal.nodup).mp hp
  exact ⟨x, y, hp⟩

/-- The demands under which something in the column of a variable is `i` or one of `extra`. -/
def columnWitnesses (R : Relation) (extra : List Scalar) (x : String) : List Witness :=
  (R.vars.map (R.entry · x)).flatMap (·.infinities extra)

theorem variableChoices_eq (hnd : R.vars.Nodup) {x : String} (hx : x ∈ R.vars) (domain : List Nat)
    (n : Nat) (extra : List Scalar) :
    R.variableChoices domain n x extra = Choices.generate domain n (R.columnWitnesses extra x) := by
  obtain ⟨j, hj, hplace⟩ := exists_place hx
  have hposition : R.position? x = some j := (idxOf?_iff hnd).mpr hplace
  have hcolumn : (List.range R.vars.length).map (R.get · j) = R.vars.map (R.entry · x) :=
    map_range_length R.vars fun i z hz => (entry_of_places hnd hz hplace).symm
  unfold variableChoices columnChoices columnWitnesses
  rw [hposition, ← hcolumn, List.flatMap_map]

/-- The demands of a column of a regular relation are at the indices it has. -/
theorem Regular.fits_column (hR : R.Regular P k) (extra : List Scalar) (x : String) :
    Fits k (R.columnWitnesses extra x) := by
  refine hR.fits extra fun p hp => ?_
  obtain ⟨z, _, hp⟩ := List.mem_map.mp hp
  exact ⟨z, x, hp⟩

/-- The choices of every variable of a regular relation can be found. -/
theorem Regular.exists_columnChoices (hR : R.Regular P k) (extra : List Scalar) {x : String}
    (hx : x ∈ R.vars) :
    ∃ ch, R.variableChoices choiceValues k x extra = .ok ch ∧ ch.Regular k := by
  rw [variableChoices_eq hR.normal.nodup hx]
  exact Choices.exists_regular (hR.fits_column extra x)

end Relation

/-! ## Runs -/

theorem Effect.regular_relation {P : String → Prop} {e : Effect} (hw : e.WellFormed) (ho : e.Over P)
    (k : Nat) : (e.relation k).Regular P (k + e.taken) := by
  refine ⟨?_, (proper_relation hw k).mono fun d hd => hd.2, over_relation ho k⟩
  cases e with
  | nothing => exact Relation.normal_identity List.Pairwise.nil
  | flow R => exact ho.1
  | choice x operands scalars =>
      refine Relation.normal_assignment (f := operandFlow k operands scalars)
        (nodup_choiceVars hw.1) fun y _ => ?_
      unfold operandFlow
      split
      · exact Poly.normal_ofMonomials fun m hm =>
          (Poly.choice_formed (P := fun _ => True) (fun _ _ => trivial) m hm).sorted
      · exact Poly.normal_zero
  | unsupported => exact Relation.normal_identity List.Pairwise.nil

namespace Plan

variable {P : String → Prop} {opts : Options} {p : Plan} {w w' : Walk}

/-- A property of relations, at the indices given out so far, that every step keeps. -/
structure Kept (limit : Nat) (E : Effect → Prop) (G : Option String → Prop)
    (C : Nat → Relation → Prop) : Prop where
  mono : ∀ {k l R}, k ≤ l → C k R → C l R
  effect : ∀ {e}, E e → ∀ k, C (k + e.taken) (e.relation k)
  compose : ∀ {k R S}, C k R → C k S → C k (R.compose S)
  sum : ∀ {k R S}, C k R → C k S → C k (R.sum S)
  close : ∀ {k R F guard}, G guard → C k R → R.closureWithin? limit = some F → C k (F.correct guard)

/-- **What every step keeps, every run keeps**, whether or not it stops early. -/
theorem Kept.of_run {E : Effect → Prop} {G : Option String → Prop} {C : Nat → Relation → Prop}
    (hC : Kept opts.limit E G C) (hall : p.All E G) {T : Relation}
    (h : p.run opts w = (.ok T, w')) : w.index ≤ w'.index ∧ C w'.index T := by
  induction p generalizing w w' T with
  | simple s e =>
      obtain ⟨w₁, hrun, hindex, _⟩ := run_simple opts s e w
      cases hrun.symm.trans h
      rw [hindex]
      exact ⟨Nat.le_add_right _ _, hC.effect hall _⟩
  | andThen p q ihp ihq =>
      rw [run_andThen] at h
      rcases hp : p.run opts w with ⟨_ | R, w₁⟩ <;> simp only [hp] at h
      · cases h
      · obtain ⟨hle, hR⟩ := ihp hall.1 hp
        split at h
        · cases h
          exact ⟨hle, hR⟩
        · rcases hq : q.run opts w₁ with ⟨_ | S, w₂⟩ <;> simp only [hq] at h
          · cases h
          · obtain ⟨hle', hS⟩ := ihq hall.2 hq
            cases h
            exact ⟨Nat.le_trans hle hle', hC.compose (hC.mono hle' hR) hS⟩
  | either p q ihp ihq =>
      rw [run_either] at h
      rcases hp : p.run opts w with ⟨_ | R, w₁⟩ <;> simp only [hp] at h
      · cases h
      · obtain ⟨hle, hR⟩ := ihp hall.1 hp
        split at h
        · cases h
          exact ⟨hle, hR⟩
        · rcases hq : q.run opts w₁ with ⟨_ | S, w₂⟩ <;> simp only [hq] at h
          · cases h
          · obtain ⟨hle', hS⟩ := ihq hall.2 hq
            split at h
            · cases h
              exact ⟨Nat.le_trans hle hle', hS⟩
            · cases h
              exact ⟨Nat.le_trans hle hle', hC.sum hS (hC.mono hle' hR)⟩
  | loop guard p ih =>
      rw [run_loop] at h
      rcases hp : p.run opts w with ⟨_ | R, w₁⟩ <;> simp only [hp] at h
      · cases h
      · obtain ⟨hle, hR⟩ := ih hall.2 hp
        split at h
        · cases h
          exact ⟨hle, hR⟩
        · split at h
          · rename_i F hF
            cases h
            rw [Walk.index_promote]
            exact ⟨hle, hC.close hall.1 hR hF⟩
          · cases h

theorem kept_regular (limit : Nat) :
    Kept limit (fun e => e.WellFormed ∧ e.Over P) (fun _ => True) fun k R => R.Regular P k where
  mono h hR := hR.mono h
  effect h := Effect.regular_relation h.1 h.2
  compose hR hS := hR.compose hS
  sum hR hS := hR.sum hS
  close _ hR hF := hR.repeat hF _

theorem all_of_wellFormed (hw : p.WellFormed) (ho : p.Over P) :
    p.All (fun e => e.WellFormed ∧ e.Over P) fun _ => True := by
  induction p with
  | simple s e => exact ⟨hw, ho⟩
  | andThen p q ihp ihq => exact ⟨ihp hw.1 ho.1, ihq hw.2 ho.2⟩
  | either p q ihp ihq => exact ⟨ihp hw.1 ho.1, ihq hw.2 ho.2⟩
  | loop guard p ih => exact ⟨trivial, ih hw ho⟩

/-- Every run ends with a regular relation. -/
theorem regular_of_run (hw : p.WellFormed) (ho : p.Over P) {T : Relation}
    (h : p.run opts w = (.ok T, w')) : w.index ≤ w'.index ∧ T.Regular P w'.index :=
  (kept_regular opts.limit).of_run (all_of_wellFormed hw ho) h

/-- **A run fails only where the limit is low for the number of names.** -/
theorem limit_of_run {xs : List String} (hw : p.WellFormed) (ho : p.Over (· ∈ xs)) {e : AnalysisError}
    (h : p.run opts w = (.error e, w')) :
    e = .limit opts.limit ∧ opts.LowFor xs := by
  induction p generalizing w w' with
  | simple s e =>
      obtain ⟨w₁, hrun, _⟩ := run_simple opts s e w
      cases hrun.symm.trans h
  | andThen p q ihp ihq =>
      rw [run_andThen] at h
      rcases hp : p.run opts w with ⟨_ | R, w₁⟩ <;> simp only [hp] at h
      · cases h
        exact ihp hw.1 ho.1 hp
      · split at h
        · cases h
        · rcases hq : q.run opts w₁ with ⟨_ | S, w₂⟩ <;> simp only [hq] at h
          · cases h
            exact ihq hw.2 ho.2 hq
          · cases h
  | either p q ihp ihq =>
      rw [run_either] at h
      rcases hp : p.run opts w with ⟨_ | R, w₁⟩ <;> simp only [hp] at h
      · cases h
        exact ihp hw.1 ho.1 hp
      · split at h
        · cases h
        · rcases hq : q.run opts w₁ with ⟨_ | S, w₂⟩ <;> simp only [hq] at h
          · cases h
            exact ihq hw.2 ho.2 hq
          · split at h
            · cases h
            · cases h
  | loop guard p ih =>
      rw [run_loop] at h
      rcases hp : p.run opts w with ⟨_ | R, w₁⟩ <;> simp only [hp] at h
      · cases h
        exact ih hw ho hp
      · split at h
        · cases h
        · split at h
          · cases h
          · rename_i hnone
            cases h
            refine ⟨rfl, Classical.byContradiction fun hlow => ?_⟩
            obtain ⟨F, hF⟩ := (regular_of_run (p := p) hw ho hp).2.exists_closure hlow
            rw [hF] at hnone
            cases hnone

end Plan

/-! ## Outcomes -/

/-- The relation is regular, and if a choice is left, so are the choices. -/
structure Outcome.Regular (P : String → Prop) (out : Outcome) : Prop where
  relation : out.relation.Regular P out.index
  choices : out.isInfinite = false → out.choices.Regular out.index

section Outcome

variable {opts : Options} {p : Plan} {vars : List String} {start : Nat}

theorem outcome_regular {P : String → Prop} (hw : p.WellFormed) (ho : p.Over P) (hnd : vars.Nodup)
    (hvars : ∀ x ∈ vars, P x) {out : Outcome}
    (h : outcome opts vars (p.run opts { index := start }) = .ok out) : out.Regular P := by
  rcases hrun : p.run opts { index := start } with ⟨_ | T, w⟩ <;> rw [hrun] at h
  · cases h
  · have hregular := (Relation.regular_identity hnd hvars w.index).compose
      (Plan.regular_of_run hw ho hrun).2
    rw [outcome] at h
    split at h
    · -- a walk that stopped looks for no choices
      rename_i hstops
      cases h
      refine ⟨hregular, fun hfinite => ?_⟩
      cases hfinite.symm.trans (Outcome.isInfinite_of_covered (Bool.and_eq_true_iff.mp hstops).1)
    · obtain ⟨ch, hfound, hch⟩ := hregular.exists_choices []
      simp only [hfound] at h
      cases h
      exact ⟨hregular, fun _ => hch⟩

theorem outcome_limit {xs : List String} (hw : p.WellFormed) (ho : p.Over (· ∈ xs)) (hnd : vars.Nodup)
    (hvars : ∀ x ∈ vars, x ∈ xs) {e : AnalysisError}
    (h : outcome opts vars (p.run opts { index := start }) = .error e) :
    e = .limit opts.limit ∧ opts.LowFor xs := by
  rcases hrun : p.run opts { index := start } with ⟨_ | T, w⟩ <;> rw [hrun] at h
  · cases h
    exact Plan.limit_of_run hw ho hrun
  · have hregular := (Relation.regular_identity hnd hvars w.index).compose
      (Plan.regular_of_run hw ho hrun).2
    rw [outcome] at h
    split at h
    · cases h
    · obtain ⟨ch, hfound, _⟩ := hregular.exists_choices []
      simp only [hfound] at h
      cases h

end Outcome

end GrowthFlow
