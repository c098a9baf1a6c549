import GrowthFlow.Proofs.Closure
import GrowthFlow.Proofs.Completion
import GrowthFlow.Proofs.EntryShapes

/-!
# What a loop report bounds a variable by

Some variables of a loop may have no bound under any choice. Of the others, a variable that depends on one
of these is given no bound either. Dependence is tested under one choice that suits all of them, whereas the
bound of a variable is read off a choice of its own. The bound could list a variable that was dropped, if a
flow that is not there under the shared choice were there under the other.

Two facts exclude that. An entry that is worth something other than `i` under one choice is worth something
under every choice (`Poly.Shaped`), so the shared choice sees every variable that a bound lists. And flows
are transitive, since the relation of a loop is a closure (`Relation.Chains`): what a listed variable depends
on, the variable that lists it depends on too, so it would have been dropped itself.
-/

namespace GrowthFlow

open Lang

/-! ## Flows behind flows -/

namespace Relation

variable {P : Delta → Prop} {R F : Relation} {σ : Selection} {vars : List String} {x y z : String}

/-- What flows on flows through, where the columns on the way are bounded. -/
def Chains (R : Relation) : Prop :=
  ∀ σ x y z, R.BoundedAt σ y → R.BoundedAt σ z → R.value σ x y ≠ .o → R.value σ y z ≠ .o →
    R.value σ x z ≠ .o

theorem closure_of_closureWithin? {limit : Nat} (hR : R.Normal) (h : R.closureWithin? limit = some F) :
    F = R.closure := by
  unfold closureWithin? at h
  rcases FlowMatrix.closureWithin?_eq_or hR.entries limit with hfound | hnone
  · rw [hfound] at h
    exact (Option.some.inj h).symm
  · rw [hnone] at h
    cases h

/-- Flows of a closure are transitive. -/
theorem closure_chain (hR : R.Normal) (hxy : R.closure.value σ x y ≠ .o) (hyz : R.closure.value σ y z ≠ .o) :
    R.closure.value σ x z ≠ .o := by
  -- from or into a name that the relation does not know, nothing flows but the name itself
  have hsame : ∀ {x y}, x ∉ R.vars ∨ y ∉ R.vars → R.closure.value σ x y ≠ .o → x = y := by
    intro x y hmem hne
    rw [value_of_not_mem (R := R.closure) hmem] at hne
    by_cases hxy : x = y
    · exact hxy
    · rw [if_neg hxy] at hne
      exact absurd rfl hne
  by_cases hx : x ∈ R.vars
  · by_cases hy : y ∈ R.vars
    · by_cases hz : z ∈ R.vars
      · obtain ⟨i, hi', hi⟩ := exists_place hx
        obtain ⟨j, hj', hj⟩ := exists_place hy
        obtain ⟨l, hl', hl⟩ := exists_place hz
        have hnd := hR.nodup
        rw [← R.size_eq] at hi' hj' hl'
        unfold value closure at hxy hyz ⊢
        rw [entry_ofFn hnd hi hj] at hxy
        rw [entry_ofFn hnd hj hl] at hyz
        rw [entry_ofFn hnd hi hl]
        refine Scalar.ne_o_of_le ?_
          (FlowMatrix.closure_mul_le hR.entries hi' hl' hj' hxy hyz (Scalar.le_refl _))
        rw [Ne, Scalar.mul_eq_o_iff, not_or]
        exact ⟨fun h => hxy h.1, fun h => hyz h.1⟩
      · exact hsame (.inr hz) hyz ▸ hxy
    · exact hsame (.inr hy) hxy ▸ hyz
  · exact hsame (.inl hx) hxy ▸ hyz

/-- The correction of a loop changes a scalar into `i` or not at all. -/
theorem value_whileCorrection (hF : F.Proper P) (h : F.whileCorrection.value σ x y ≠ .i) :
    F.whileCorrection.value σ x y = F.value σ x y := by
  by_cases hmem : x ∈ F.vars ∧ y ∈ F.vars
  · unfold value at h ⊢
    rw [entry_whileCorrection hF.nodup hmem.1 hmem.2, Poly.value_escalate (hF.entries x y)] at h ⊢
    split at h
    · exact absurd rfl h
    · rename_i hnone
      exact if_neg hnone
  · have hout := Decidable.not_and_iff_not_or_not.mp hmem
    rw [value_of_not_mem (R := F.whileCorrection) hout, value_of_not_mem hout]

theorem chains_repeat {limit : Nat} (hR : R.Normal) (h : R.closureWithin? limit = some F) :
    F.whileCorrection.Chains := by
  have hF : F.Proper fun _ => True := hR.proper.closure h
  intro σ x y z hy hz hxy hyz
  have hxz := value_whileCorrection hF (hz x)
  rw [value_whileCorrection hF (hy x)] at hxy
  rw [value_whileCorrection hF (hz y)] at hyz
  rw [hxz]
  rw [closure_of_closureWithin? hR h] at hxy hyz ⊢
  exact closure_chain hR hxy hyz

/-- Where a column is bounded, nothing changes if nothing happens before. -/
theorem value_of_identity_compose (hR : R.Normal) (hnd : vars.Nodup)
    (h : ((identity vars).compose R).BoundedAt σ y) (x : String) :
    ((identity vars).compose R).value σ x y = R.value σ x y := by
  have hvars := vars_compose (identity vars) R hnd hR.nodup
  by_cases hmem : x ∈ (identity vars).unionVariables R ∧ y ∈ (identity vars).unionVariables R
  · have hvalue := value_identity_compose (σ := σ) hR hnd hmem.1 hmem.2
    by_cases hsome : ∃ z ∈ R.vars, R.value σ z y = .i
    · rw [if_pos hsome] at hvalue
      exact absurd hvalue (h x)
    · rw [hvalue, if_neg hsome]
  · have hout := Decidable.not_and_iff_not_or_not.mp hmem
    rw [value_of_not_mem (by rw [hvars]; exact hout), value_of_not_mem]
    exact hout.imp (fun hx hR => hx (mem_unionVariables.mpr (.inr hR)))
      fun hy hR => hy (mem_unionVariables.mpr (.inr hR))

theorem Chains.identity_compose (hchains : R.Chains) (hR : R.Normal) (hnd : vars.Nodup) :
    ((identity vars).compose R).Chains := by
  intro σ x y z hy hz hxy hyz
  have hyvalue := value_of_identity_compose hR hnd hy
  have hzvalue := value_of_identity_compose hR hnd hz
  rw [hyvalue] at hxy
  rw [hzvalue] at hyz ⊢
  refine hchains σ x y z (fun w hw => hy w ?_) (fun w hw => hz w ?_) hxy hyz
  · rw [hyvalue]
    exact hw
  · rw [hzvalue]
    exact hw

end Relation

/-! ## Growth -/

section Growth

variable {P : String → Prop} {k : Nat} {R : Relation} {x y : String} {v : List Nat}

/-- A growth was found, and the bound is read off a choice under which the column is bounded. -/
structure VariableResult.ReadOff (R : Relation) (k : Nat) (x : String) (r : VariableResult) : Prop where
  growth : r.growth.isSome = true
  bound : ∃ c, IsVector choiceValues k c ∧ R.BoundedAt (.ofVector c) x ∧
    r.bound = Assoc.get? (Bounds.ofCells (R.apply c)) x

/-- Classes that end with the one that excludes nothing but `i` have one for every variable that can be
bounded. -/
theorem exists_readOff (hR : R.Regular P k) (hx : x ∈ R.vars) (hb : R.Boundable k x)
    {classes : List (Scalar × List Scalar)} (hlast : ∃ s, (s, []) ∈ classes) :
    ∃ r, classifyAmong R k x classes = .ok r ∧ r.ReadOff R k x := by
  obtain ⟨r, hr, hcases⟩ := classifyAmong_cases fun cl (_ : cl ∈ classes) => hR.exists_exact hx cl.2
  refine ⟨r, hr, ?_⟩
  rcases hcases with ⟨_, hall⟩ | ⟨_, cl, _, _, _, ch, c, hexact, hfirst, rfl⟩
  · -- the class without exceptions has a choice
    obtain ⟨s, hs⟩ := hlast
    obtain ⟨ch, hexact, hnone⟩ := hall _ hs
    obtain ⟨c, hc⟩ := hexact.regular.exists_first ((hR.isFinite_iff hexact).mpr hb)
    rw [hnone] at hc
    cases hc
  · have hholds := hexact.regular.holds_first hfirst
    exact ⟨rfl, c, hexact.regular.isVector hholds,
      Relation.boundedAt_of_uncovered (hexact.uncovered hholds), rfl⟩

theorem exists_classify (hR : R.Regular P k) (hx : x ∈ R.vars) (hb : R.Boundable k x) :
    ∃ r, classify R k x = .ok r ∧ r.ReadOff R k x :=
  exists_readOff hR hx hb ⟨.p, by decide⟩

/-- Off the diagonal the cell between two variables is the scalar between them. -/
theorem Relation.cell_of_ne (hnd : R.vars.Nodup) {i j : Nat} (hi : R.vars[i]? = some y)
    (hj : R.vars[j]? = some x) (hne : y ≠ x) : R.cell v i j = R.value (.ofVector v) y x := by
  have hij : i ≠ j := by
    intro hij
    rw [hij, hj] at hi
    exact hne (Option.some.inj hi).symm
  rw [cell_eq, if_neg fun h => hij h.1, value, entry_of_places hnd hi hj]
  rfl

/-- A variable that is kept has a growth, and its bound is read off; another one has none. -/
def VariableResult.Judged (R : Relation) (k : Nat) (keep : String → Prop) (x : String)
    (r : VariableResult) : Prop :=
  keep x ∧ r.ReadOff R k x ∨ ¬ keep x ∧ r.growth = none

/-- A table of all variables, of which some are kept. -/
structure Classified (R : Relation) (k : Nat) (keep : String → Prop) (vars : Assoc VariableResult) :
    Prop where
  keys : vars.keys = R.vars
  entries : ∀ entry ∈ vars, entry.2.Judged R k keep entry.1

/-- Whatever flows into a variable that is kept, under a choice that bounds it, is kept too. -/
def Relation.Closed (R : Relation) (k : Nat) (keep : String → Prop) : Prop :=
  ∀ x ∈ R.vars, keep x → ∀ c, IsVector choiceValues k c → R.BoundedAt (.ofVector c) x →
    ∀ y ∈ R.vars, R.value (.ofVector c) y x ≠ .o → keep y

/-- The bounds of a table list only variables that have a growth, if the variables it keeps are closed. -/
theorem Classified.bounded {keep : String → Prop} {vars : Assoc VariableResult}
    (h : Classified R k keep vars) (hnd : R.vars.Nodup) (hclosed : R.Closed k keep) {r : VariableResult}
    (hmem : (x, r) ∈ vars) (hr : r.growth.isSome = true) :
    ∃ b, r.bound = some b ∧ ∀ s, ∀ y ∈ b.part s, ∃ u, (y, u) ∈ vars ∧ u.growth.isSome = true := by
  have hvar : ∀ {y u}, (y, u) ∈ vars → y ∈ R.vars := fun hy => h.keys ▸ List.mem_map_of_mem hy
  rcases h.entries _ hmem with ⟨hkeep, hread⟩ | ⟨_, hnone⟩
  · obtain ⟨c, hc, hbounded, hbound⟩ := hread.bound
    obtain ⟨j, _, hj⟩ := exists_place (hvar hmem)
    have hget := Bounds.get?_ofCells (c := R.apply c) hnd hj
    refine ⟨_, hbound.trans hget, fun s y hy => ?_⟩
    have hlisted : y ∈ R.vars :=
      ((Bounds.regular_ofCells (c := R.apply c) fun _ hz => hz).get? hget).members s y hy
    obtain ⟨i, _, hi⟩ := exists_place hlisted
    by_cases hyx : y = x
    · exact ⟨r, hyx ▸ hmem, hr⟩
    · -- what is listed flows in, so it is kept
      have hflow : R.value (.ofVector c) y x ≠ .o := by
        obtain ⟨b, hb, hpart⟩ := Relation.mem_part_bound (c := c) hnd hi hj
        cases hb.symm.trans hget
        rw [← Relation.cell_of_ne hnd hi hj hyx]
        cases s with
        | o => exact absurd hy List.not_mem_nil
        | i => exact absurd hy List.not_mem_nil
        | m | w | p =>
            rw [(hpart _ (by decide) (by decide)).mp hy]
            decide
      have hkept := hclosed x (hvar hmem) hkeep c hc hbounded y hlisted hflow
      rw [← h.keys] at hlisted
      obtain ⟨⟨_, u⟩, hu, rfl⟩ := List.mem_map.mp hlisted
      rcases h.entries _ hu with ⟨_, hread⟩ | ⟨hnot, _⟩
      · exact ⟨u, hu, hread.growth⟩
      · exact absurd hkept hnot
  · rw [hnone] at hr
    cases hr

/-! ## A shared choice -/

/-- A choice that bounds every variable that some choice bounds. -/
structure Relation.Suits (R : Relation) (k : Nat) (v : List Nat) : Prop where
  vector : IsVector choiceValues k v
  bounded : ∀ x ∈ R.vars, R.Boundable k x → R.BoundedAt (.ofVector v) x

/-- Some choice bounds the variable, and under `v` nothing flows into it from one that no choice bounds. -/
structure Relation.Independent (R : Relation) (k : Nat) (v : List Nat) (x : String) : Prop where
  boundable : R.Boundable k x
  apart : ∀ f ∈ R.vars, ¬ R.Boundable k f → R.value (.ofVector v) f x = .o

/-- **Independence is inherited**: what a variable depends on under any choice of its own is no less
independent. -/
theorem Relation.Suits.closed (hv : R.Suits k v) (hshaped : R.Shaped k) (hchains : R.Chains) :
    R.Closed k (R.Independent k v) := by
  intro x hx hkeep c hc hbounded y hy hflow
  have hsees : R.value (.ofVector v) y x ≠ .o := by
    rcases hshaped y x with hcounts | hinfinite
    · exact hcounts _ (Selection.complete_ofVector hv.vector)
    · exact absurd ((hinfinite (.ofVector c)).resolve_left hflow) (hbounded y)
  have hboundable : R.Boundable k y :=
    Classical.byContradiction fun hnot => hsees (hkeep.apart y hy hnot)
  refine ⟨hboundable, fun f hf hnot => Classical.byContradiction fun hfy => ?_⟩
  exact hchains _ f y x (hv.bounded y hy hboundable) (hv.bounded x hx hkeep.boundable) hfy hsees
    (hkeep.apart f hf hnot)

section Shared

variable {all : Assoc Choices} (hR : R.Regular P k) (hkeys : all.keys = R.vars)
  (hall : ∀ entry ∈ all, entry.2.Exact choiceValues k (R.columnWitnesses [] entry.1))

include hR hkeys hall

/-- The choice that is shared suits every variable that has one. -/
theorem exists_suits {cells : Cells} (h : sharedCells? R all = some cells) :
    ∃ v, R.Suits k v ∧ cells = R.apply v := by
  unfold sharedCells? at h
  obtain ⟨ch, hch, h⟩ := Option.bind_eq_some_iff.mp h
  obtain ⟨v, hv, h⟩ := Option.bind_eq_some_iff.mp h
  cases h
  have hregular : ∀ c ∈ (all.map (·.2)).filter (!·.isInfinite), c.Regular k := by
    intro c hc
    obtain ⟨entry, hentry, rfl⟩ := List.mem_map.mp (List.mem_filter.mp hc).1
    exact (hall entry hentry).regular
  obtain ⟨hmeet, hholds⟩ := Choices.holds_intersectAll hregular hch
  have hfirst := hmeet.holds_first hv
  refine ⟨v, ⟨hmeet.isVector hfirst, fun x hx hboundable => ?_⟩, rfl⟩
  rw [← hkeys] at hx
  obtain ⟨entry, hentry, rfl⟩ := List.mem_map.mp hx
  refine Relation.boundedAt_of_uncovered ((hall entry hentry).uncovered (hholds v hfirst entry.2 ?_))
  refine List.mem_filter.mpr ⟨List.mem_map_of_mem hentry, ?_⟩
  rw [(hR.isFinite_iff (hall entry hentry)).mpr hboundable]
  rfl

/-- The rows of the variables that no choice bounds. -/
theorem mem_failing_iff {i : Nat} : i ∈ (all.zipIdx.filter (·.1.2.isInfinite)).map (·.2) ↔
    ∃ y, R.vars[i]? = some y ∧ ¬ R.Boundable k y := by
  constructor
  · intro hi
    obtain ⟨⟨entry, i⟩, hmem, rfl⟩ := List.mem_map.mp hi
    obtain ⟨hmem, hinfinite⟩ := List.mem_filter.mp hmem
    have hi := List.mem_zipIdx_iff_getElem?.mp hmem
    refine ⟨entry.1, ?_, ?_⟩
    · rw [← hkeys, Assoc.keys, List.getElem?_map, hi]
      rfl
    · exact (hR.isInfinite_iff (hall entry (List.mem_of_getElem? hi))).mp hinfinite
  · intro h
    obtain ⟨y, hi, hnot⟩ := h
    rw [← hkeys, Assoc.keys, List.getElem?_map, Option.map_eq_some_iff] at hi
    obtain ⟨entry, hi, rfl⟩ := hi
    refine List.mem_map.mpr ⟨(entry, i), List.mem_filter.mpr ⟨?_, ?_⟩, rfl⟩
    · exact List.mem_zipIdx_iff_getElem?.mpr hi
    · exact (hR.isInfinite_iff (hall entry (List.mem_of_getElem? hi))).mpr hnot

/-- The test for independence, of a variable that some choice bounds. -/
theorem isIndependent_iff {j : Nat} (hj : R.vars[j]? = some x) (hx : R.Boundable k x) :
    isIndependent (R.apply v) ((all.zipIdx.filter (·.1.2.isInfinite)).map (·.2)) j = true ↔
      R.Independent k v x := by
  have hcell : ∀ {i : Nat} {y : String}, R.vars[i]? = some y → ¬ R.Boundable k y →
      ((R.apply v).rows[i]?.bind (·[j]?)).getD .o = R.value (.ofVector v) y x := by
    intro i y hi hy
    rw [Relation.cell_apply (List.getElem?_eq_some_iff.mp hi).1 (List.getElem?_eq_some_iff.mp hj).1]
    exact Relation.cell_of_ne hR.normal.nodup hi hj fun hyx => hy (hyx ▸ hx)
  unfold isIndependent
  rw [List.all_eq_true]
  constructor
  · intro h
    refine ⟨hx, fun f hf hnot => ?_⟩
    obtain ⟨i, _, hi⟩ := exists_place hf
    rw [← hcell hi hnot]
    exact eq_of_beq (h i ((mem_failing_iff hR hkeys hall).mpr ⟨f, hi, hnot⟩))
  · intro h i hi
    obtain ⟨y, hi, hnot⟩ := (mem_failing_iff hR hkeys hall).mp hi
    rw [hcell hi hnot, h.apart y (List.mem_of_getElem? hi) hnot]
    rfl

/-- What is tested of each variable, as a property of variables. -/
theorem exists_test : ∃ keep : String → Prop,
    (∀ {x ch} {j : Nat}, all[j]? = some (x, ch) → ((!ch.isInfinite && ((sharedCells? R all).map
      (isIndependent · ((all.zipIdx.filter (·.1.2.isInfinite)).map (·.2)) j)).getD false) = true ↔ keep x)) ∧
    (keep = (fun _ => False) ∨ ∃ v, R.Suits k v ∧ keep = R.Independent k v) := by
  cases hcells : sharedCells? R all with
  | none =>
      refine ⟨fun _ => False, fun {x ch j} _ => ?_, .inl rfl⟩
      rw [Option.map_none, Option.getD_none, Bool.and_false]
      exact ⟨Bool.false_ne_true, False.elim⟩
  | some cells =>
      obtain ⟨v, hv, rfl⟩ := exists_suits hR hkeys hall hcells
      refine ⟨R.Independent k v, fun {x ch j} hj => ?_, .inr ⟨v, hv, rfl⟩⟩
      have hboundable := hR.isFinite_iff (hall _ (List.mem_of_getElem? hj))
      have hplace : R.vars[j]? = some x := by
        rw [← hkeys, Assoc.keys, List.getElem?_map, hj]
        rfl
      rw [Option.map_some, Option.getD_some, Bool.and_eq_true_iff, Bool.not_eq_true']
      constructor
      · intro h
        obtain ⟨hfinite, htest⟩ := h
        exact (isIndependent_iff hR hkeys hall hplace (hboundable.mp hfinite)).mp htest
      · intro h
        exact ⟨hboundable.mpr h.boundable, (isIndependent_iff hR hkeys hall hplace h.boundable).mpr h⟩

end Shared

/-- Where some variables have no bound, those are kept that are independent of them under a choice that suits
all others, or none if there is no such choice. -/
theorem exists_classified_partly (hR : R.Regular P k) : ∃ vars keep, classifyPartly R k = .ok vars ∧
    Classified R k keep vars ∧
      (keep = (fun _ => False) ∨ ∃ v, R.Suits k v ∧ keep = R.Independent k v) := by
  obtain ⟨all, hfound, hkeys, hall⟩ := hR.exists_allChoices
  obtain ⟨keep, htest, hkeep⟩ := exists_test hR hkeys hall
  have hnames : all.zipIdx.map (Prod.fst ∘ Prod.fst) = R.vars := by
    rw [← List.map_map, List.zipIdx_map_fst]
    exact hkeys
  have htable : ∃ vars, classifyPartly R k = .ok vars ∧ vars.keys = all.zipIdx.map (Prod.fst ∘ Prod.fst) ∧
      ∀ entry ∈ vars, entry.2.Judged R k keep entry.1 := by
    unfold classifyPartly
    rw [hfound]
    refine exists_table (Q := VariableResult.Judged R k keep) (hnames ▸ hR.normal.nodup)
      fun entry hentry => ?_
    obtain ⟨⟨x, ch⟩, j⟩ := entry
    have hj := List.mem_zipIdx_iff_getElem?.mp hentry
    have hmem := List.mem_of_getElem? hj
    simp only
    split
    · rename_i hpassed
      have hfinite := (Bool.not_eq_true' _).mp (Bool.and_eq_true_iff.mp hpassed).1
      obtain ⟨r, hr, hread⟩ := exists_classify hR (hkeys ▸ List.mem_map_of_mem hmem)
        ((hR.isFinite_iff (hall _ hmem)).mp hfinite)
      exact ⟨r, by rw [hr]; rfl, .inl ⟨(htest hj).mp hpassed, hread⟩⟩
    · rename_i hfailed
      exact ⟨{ name := x }, rfl, .inr ⟨fun h => hfailed ((htest hj).mpr h), rfl⟩⟩
  obtain ⟨vars, hvars, hnamed, hentries⟩ := htable
  exact ⟨vars, keep, hvars, ⟨hnamed.trans hnames, hentries⟩, hkeep⟩

/-- The growth of all variables is found. What is kept is closed, if the entries are shaped and what flows on
flows through. -/
theorem exists_classified {out : Outcome} (hout : out.Regular P) (hshaped : out.relation.Shaped out.index)
    (hchains : out.relation.Chains)
    (hfinite : out.isInfinite = false → ∀ x, out.relation.Boundable out.index x) :
    ∃ vars keep, classifyAll out = .ok vars ∧ Classified out.relation out.index keep vars ∧
      out.relation.Closed out.index keep := by
  cases hinfinite : out.isInfinite with
  | true =>
      obtain ⟨vars, keep, hvars, hclassified, hkeep⟩ := exists_classified_partly hout.relation
      refine ⟨vars, keep, by rw [classifyAll, hinfinite, if_pos rfl, hvars], hclassified, ?_⟩
      rcases hkeep with rfl | ⟨v, hv, rfl⟩
      · exact fun x _ hx => hx.elim
      · exact hv.closed hshaped hchains
  | false =>
      have hnames : out.relation.vars.map id = out.relation.vars := List.map_id _
      have htable : ∃ vars, classifyAll out = .ok vars ∧ vars.keys = out.relation.vars.map id ∧
          ∀ entry ∈ vars, entry.2.Judged out.relation out.index (fun _ => True) entry.1 := by
        unfold classifyAll
        rw [hinfinite, if_neg Bool.false_ne_true]
        refine exists_table (Q := VariableResult.Judged out.relation out.index fun _ => True)
          (hnames.symm ▸ hout.relation.normal.nodup) fun x hx => ?_
        obtain ⟨r, hr, hread⟩ := exists_classify hout.relation hx (hfinite hinfinite x)
        exact ⟨r, by rw [hr]; rfl, .inl ⟨trivial, hread⟩⟩
      obtain ⟨vars, hvars, hkeys, hentries⟩ := htable
      exact ⟨vars, _, hvars, ⟨hkeys.trans hnames, hentries⟩, fun _ _ _ _ _ _ _ _ _ => trivial⟩

end Growth

/-! ## Loops -/

namespace Plan

mutual

/-- A loop that is listed repeats without a bound, unless `for` loops are told to repeat as often as their
guards say. -/
theorem exists_loop_of_mem {t : Stmt} : ∀ s : Stmt, t ∈ s.loops → ∃ p, ofStmt false t = loop none p
  | .whileLoop c body, h => by
      rw [Stmt.loops, List.mem_cons] at h
      rcases h with rfl | h
      · exact ⟨_, rfl⟩
      · exact exists_loop_of_mem body h
  | .doWhile body c, h => by
      rw [Stmt.loops, List.mem_cons] at h
      rcases h with rfl | h
      · exact ⟨_, rfl⟩
      · exact exists_loop_of_mem body h
  | .forLoop init c step body, h => by
      rw [Stmt.loops] at h
      split at h
      · rename_i hguard
        rcases List.mem_cons.mp h with rfl | h
        · obtain ⟨guard, hguard⟩ := Option.isSome_iff_exists.mp hguard
          rw [ofStmt, hguard]
          exact ⟨_, rfl⟩
        · exact exists_loop_of_mem body h
      · exact exists_loop_of_mem body h
  | .branch _ yes no, h => by
      rw [Stmt.loops, List.mem_append] at h
      rcases h with h | h
      · exact exists_loop_of_mem yes h
      · exact exists_loop_of_memOpt no h
  | .block body, h => by
      rw [Stmt.loops] at h
      exact exists_loop_of_memAll body h
  | .assign _ _, h => absurd h List.not_mem_nil
  | .expr _, h => absurd h List.not_mem_nil
  | .decl _ _, h => absurd h List.not_mem_nil
  | .ret _, h => absurd h List.not_mem_nil
  | .breakJump, h => absurd h List.not_mem_nil
  | .continueJump, h => absurd h List.not_mem_nil
  | .empty, h => absurd h List.not_mem_nil

theorem exists_loop_of_memAll {t : Stmt} : ∀ ss : List Stmt, t ∈ Stmt.loopsAll ss →
    ∃ p, ofStmt false t = loop none p
  | [], h => absurd h List.not_mem_nil
  | s :: ss, h => by
      rw [Stmt.loopsAll, List.mem_append] at h
      rcases h with h | h
      · exact exists_loop_of_mem s h
      · exact exists_loop_of_memAll ss h

theorem exists_loop_of_memOpt {t : Stmt} : ∀ s : Option Stmt, t ∈ Stmt.loopsOpt s →
    ∃ p, ofStmt false t = loop none p
  | none, h => absurd h List.not_mem_nil
  | some s, h => exists_loop_of_mem s h

end

/-- The relation of a loop that repeats without a bound is a corrected closure. -/
theorem chains_of_run {opts : Options} (hc : opts.complete = true) {p : Plan} (hw : p.WellFormed)
    (ho : p.Over fun _ => True) {w w' : Walk} {T : Relation}
    (h : (andThen skip (loop none p)).run opts w = (.ok T, w')) : T.Chains := by
  obtain ⟨R, S, w₁, hskip, hloop, rfl⟩ := exists_run_andThen (Walk.stops_complete hc w') h
  cases run_skip.symm.trans hskip
  obtain ⟨B, F, w₂, hbody, hF, rfl, _⟩ := exists_run_loop (Walk.stops_complete hc w') hloop
  have hB := (regular_of_run hw ho hbody).2
  exact (Relation.chains_repeat hB.normal hF).identity_compose (hB.repeat hF none).normal List.nodup_nil

end Plan

open Analysis

/-- What a walk over a loop that repeats without a bound ends with. -/
theorem ends_walkOver_loop (opts : Options) (hc : opts.complete = true) (hb : opts.boundedFor = false)
    {s : Stmt} (hs : ∃ p, Plan.ofStmt false s = .loop none p) :
    Ends (fun _ => True) (walkOver opts s.names 0 [s]) fun out => out.Regular (fun _ => True) ∧
      out.relation.Shaped out.index ∧ out.relation.Chains ∧
        (out.isInfinite = false → ∀ x, out.relation.Boundable out.index x) := by
  intro es
  rw [run_walkOver]
  rcases hout : outcome opts s.names ((Plan.ofStmts opts [s]).run opts { index := 0 }) with e | out
  · trivial
  · have hnd := (Stmt.increasing_names s).nodup
    have hw := Plan.wellFormed_ofStmts opts [s]
    have ho : (Plan.ofStmts opts [s]).Over fun _ => True := Plan.over_ofStmts opts fun _ _ => trivial
    have hregular := outcome_regular hw ho hnd (fun _ _ => trivial) hout
    obtain ⟨T, w, hrun, hrelation, hindex, _⟩ := outcome_complete hc hout
    have hT := (Plan.regular_of_run hw ho hrun).2
    refine ⟨hregular, ?_, ?_, fun hfinite x => ?_⟩
    · have hshaped := Plan.shaped_of_run hw ho (Plan.all_shaped hb [s]) hrun
      rw [hrelation, hindex]
      exact (Relation.shaped_identity hnd w.index).compose (Relation.proper_identity hnd) hT.proper hshaped
    · obtain ⟨p, hp⟩ := hs
      have hplan : Plan.ofStmts opts [s] = .andThen .skip (.loop none p) := by
        rw [← hp, ← hb]
        rfl
      rw [hplan] at hw ho hrun
      rw [hrelation]
      exact (Plan.chains_of_run (p := p) hc hw.2 ho.2 hrun).identity_compose hT.normal hnd
    · obtain ⟨_, c, _, hc, hbounded⟩ := outcome_finite hw hnd hout hfinite
      exact ⟨c, hc, fun z hz => hbounded ⟨z, x, hz⟩⟩

theorem analyzeLoop_of_ok {opts : Options} {s : Stmt} {out : Outcome} {vars : Assoc VariableResult}
    (hout : outcome { opts with complete := true } s.names
      ((Plan.ofStmts opts [s]).run { opts with complete := true } { index := 0 }) = .ok out)
    (hvars : classifyAll out = .ok vars) :
    (analyzeLoop opts s).result.1 = .ok { code := s.text, vars } := by
  have hwalk := (run_walkOver { opts with complete := true } s.names 0 [s] []).trans hout
  show (Walk.runFrom (analyzeLoop opts s) []).1 = _
  unfold analyzeLoop
  rw [Walk.runFrom_bind]
  rcases hrun : Walk.runFrom (walkOver { opts with complete := true } s.names 0 [s]) [] with ⟨_ | _, es⟩ <;>
    rw [hrun] at hwalk
  · cases hwalk
  · cases hwalk
    simp only [hvars]
    rfl

/-- **A loop report never bounds a variable by an unbounded one.** If no loop repeats as often as its guard
says, then each loop that is listed is reported so: whenever a variable has a growth, it has a bound, and
everything that one of the three sets of the bound lists is a variable of the report that has a growth too. -/
theorem loop_report_bounded_by_bounded {opts : Options} (hb : opts.boundedFor = false) {f : Function}
    {loop : Stmt} (hloop : loop ∈ f.loops) {r : LoopResult}
    (h : (analyzeLoop opts loop).result.1 = .ok r) :
    r.vars.keys.Nodup ∧ ∀ x vr, (x, vr) ∈ r.vars → vr.growth.isSome = true →
      ∃ b, vr.bound = some b ∧ ∀ y, y ∈ b.linear ∨ y ∈ b.weak ∨ y ∈ b.poly →
        ∃ ur, (y, ur) ∈ r.vars ∧ ur.growth.isSome = true := by
  have hends : Ends (fun _ => True) (analyzeLoop opts loop) fun r => ∃ R k keep, R.vars.Nodup ∧
      Classified R k keep r.vars ∧ R.Closed k keep := by
    have hwalk := ends_walkOver_loop { opts with complete := true } rfl hb
      (Plan.exists_loop_of_memAll f.body hloop)
    refine hwalk.bind fun out hout => ?_
    obtain ⟨hregular, hshaped, hchains, hfinite⟩ := hout
    obtain ⟨vars, keep, hvars, hclassified, hclosed⟩ := exists_classified hregular hshaped hchains hfinite
    exact (ends_ofChoices ⟨vars, hvars, rfl⟩).bind fun _ hvars => ends_pure
      ⟨out.relation, out.index, keep, hregular.relation.normal.nodup, hvars ▸ hclassified, hclosed⟩
  obtain ⟨R, k, keep, hnd, hclassified, hclosed⟩ := hends.value h
  refine ⟨hclassified.keys ▸ hnd, fun x vr hmem hgrowth => ?_⟩
  obtain ⟨b, hbound, hparts⟩ := hclassified.bounded hnd hclosed hmem hgrowth
  refine ⟨b, hbound, fun y hy => ?_⟩
  rcases hy with hy | hy | hy
  · exact hparts .m y hy
  · exact hparts .w y hy
  · exact hparts .p y hy

namespace Following

/-- `while (y) { x = x + x; u = x; z = y; }` -/
def loop : Stmt :=
  .whileLoop (.var "y") (.block [.assign "x" (.binary .add (.var "x") (.var "x")),
    .assign "u" (.var "x"), .assign "z" (.var "y")])

/-- The plan of the body of the loop. -/
def plan : Plan :=
  .andThen (.andThen (.andThen .skip
    (.simple (.assign "x" (.binary .add (.var "x") (.var "x"))) (.choice "x" ["x"] [[.w, .p, .w]])))
    (.simple (.assign "u" (.var "x")) (.flow (.assignment ["u", "x"] [.zero, .unit] "u"))))
    (.simple (.assign "z" (.var "y")) (.flow (.assignment ["z", "y"] [.zero, .unit] "z")))

/-- The relation with the given rows. -/
def ofRows (vars : List String) (rows : List (List Poly)) : Relation :=
  .ofFn vars fun i j => (rows[i]?.bind (·[j]?)).getD .zero

/-- What `x` gets from itself. -/
def doubled : Poly := .ofChoice 0 [.w, .p, .w]

/-- What the body does. -/
def once : Relation :=
  ofRows ["x", "u", "z", "y"]
    [[doubled, doubled, .zero, .zero], [.zero, .zero, .zero, .zero], [.zero, .zero, .zero, .zero],
      [.zero, .zero, .unit, .unit]]

/-- Any number of repetitions. -/
def repeated : Relation :=
  ofRows ["x", "u", "z", "y"]
    [[.unit + doubled, doubled, .zero, .zero], [.zero, .unit, .zero, .zero],
      [.zero, .zero, .unit, .zero], [.zero, .zero, .unit, .unit]]

/-- What the loop does: `x` is unbounded under every choice, and `u` under one. -/
def looped : Relation := Relation.empty.compose repeated.whileCorrection

/-- The same over the variables in order. -/
def relation : Relation := (Relation.identity ["u", "x", "y", "z"]).compose looped

/-- One demand is reported for each value. -/
def walk : Walk :=
  { index := 1
    graph := ⟨3, [[]]⟩
    covered := true
    promotions := [[⟨0, 0⟩], [⟨1, 0⟩], [⟨2, 0⟩], [⟨1, 0⟩]] }

/-- No choice is left. -/
def verdict : Outcome := ⟨relation, 1, .infinite 1, true⟩

/-- Only `y` and `z` are bounded. -/
def report : LoopResult :=
  { code := loop.text
    vars := [("u", { name := "u" }), ("x", { name := "x" }),
      ("y", { name := "y", growth := some .m, bound := some ⟨["y"], [], []⟩,
              choices := some ⟨[[[0, 1, 2]]], 1⟩ }),
      ("z", { name := "z", growth := some .m, bound := some ⟨["y", "z"], [], []⟩,
              choices := some ⟨[[[0, 1, 2]]], 1⟩ })] }

theorem run_plan : plan.run { complete := true } { index := 0 } = (.ok once, { index := 1 }) := by
  have hfirst : (Plan.andThen .skip (.simple (.assign "x" (.binary .add (.var "x") (.var "x")))
      (.choice "x" ["x"] [[.w, .p, .w]]))).run { complete := true } { index := 0 } =
        (.ok (ofRows ["x"] [[doubled]]), { index := 1 }) :=
    Plan.run_andThen_of_ok Plan.run_skip rfl rfl (by decide +kernel)
  refine Plan.run_andThen_of_ok (R := ofRows ["x", "u"] [[doubled, doubled], [.zero, .zero]])
    (Plan.run_andThen_of_ok hfirst rfl rfl ?_) rfl rfl ?_
  · decide +kernel
  · decide +kernel

theorem outcome_loop : outcome { complete := true } loop.names
    ((Plan.ofStmts {} [loop]).run { complete := true } { index := 0 }) = .ok verdict := by
  have hclosure : once.closureWithin? 10000 = some repeated :=
    Relation.closureWithin?_of_two 9998 (by decide +kernel) (by decide +kernel) (by decide +kernel)
      (by decide +kernel) rfl
  have hloop : (Plan.loop none plan).run { complete := true } { index := 0 } =
      (.ok repeated.whileCorrection, walk) :=
    Plan.run_loop_of_ok run_plan rfl hclosure rfl (by decide +kernel)
  have hrun : (Plan.ofStmts {} [loop]).run { complete := true } { index := 0 } = (.ok looped, walk) :=
    Plan.run_andThen_of_ok Plan.run_skip rfl hloop rfl
  have hchoices : relation.choices choiceValues 1 [] = .ok (.infinite 1) := by decide +kernel
  rw [hrun, show loop.names = ["u", "x", "y", "z"] by decide +kernel]
  exact outcome_of_ok rfl rfl hchoices

theorem analyze_loop : (analyzeLoop {} loop).result.1 = .ok report :=
  analyzeLoop_of_ok outcome_loop (by decide +kernel)

end Following

/-- No choice bounds `x`. Some choice bounds `u`, but it depends on `x` and is given no bound either. The
bound of `z` lists `y`, which has one. -/
theorem loop_report_bounded_by_bounded_following :
    (analyzeLoop {} Following.loop).result.1 = .ok Following.report ∧
      ("x", { name := "x" }) ∈ Following.report.vars ∧ ("u", { name := "u" }) ∈ Following.report.vars ∧
      ∃ vr b, ("z", vr) ∈ Following.report.vars ∧ vr.bound = some b ∧ "y" ∈ b.linear ∧
        ∃ ur, ("y", ur) ∈ Following.report.vars ∧ ur.growth.isSome = true := by
  have hlisted : Following.loop ∈ Function.loops ⟨["void"], "f", [], [Following.loop]⟩ :=
    List.mem_cons_self
  have hall := (loop_report_bounded_by_bounded rfl hlisted Following.analyze_loop).2
  have hz : Following.report.vars[3]? = some ("z", _) := rfl
  obtain ⟨b, hb, hlists⟩ := hall "z" _ (List.mem_of_getElem? hz) rfl
  cases hb
  exact ⟨Following.analyze_loop, by decide, by decide, _, _, List.mem_of_getElem? hz, rfl, by decide,
    hlists "y" (.inl (by decide))⟩

end GrowthFlow
