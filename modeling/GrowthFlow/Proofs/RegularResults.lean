import GrowthFlow.Proofs.ReportedBound
import GrowthFlow.Proofs.SharedChoices

/-!
# What a regular relation is read as

Behind a walk everything is read off its relation: the choices, the bounds under the first choice, the
growth of each variable. From a regular relation none of this fails, and what comes out is regular in turn:
tables without repeated keys, bounds that list each variable once and in order, choices with a box at least
and as many places in each box as there are choice indices.
-/

namespace GrowthFlow

open Lang

theorem exists_ofPairs_mapM {ε α β : Type} {f : α → Except ε (String × β)} {Q : β → Prop}
    {xs : List α} (h : ∀ x ∈ xs, ∃ entry, f x = .ok entry ∧ Q entry.2) :
    ∃ t, (do return Assoc.ofPairs (← xs.mapM f) : Except ε (Assoc β)) = .ok t ∧ t.Regular Q := by
  obtain ⟨pairs, hpairs, hall⟩ := exists_mapM h
  exact ⟨Assoc.ofPairs pairs, by rw [hpairs]; rfl, Assoc.regular_ofPairs hall⟩

/-! ## Bounds -/

namespace Bound

variable {P : String → Prop} {b : Bound}

/-- Each set is in increasing order, and its members have a property. -/
structure Regular (P : String → Prop) (b : Bound) : Prop where
  increasing : ∀ s, Ordered.Increasing (b.part s)
  members : ∀ s, ∀ x ∈ b.part s, P x

theorem regular_empty : empty.Regular P := by
  refine ⟨fun s => ?_, fun s x hx => ?_⟩
  · cases s <;> exact List.Pairwise.nil
  · cases s <;> exact absurd hx List.not_mem_nil

/-- A variable is added to a set, or the set stays as it is. -/
theorem part_add (b : Bound) (s t : Scalar) (x : String) :
    (b.add t x).part s = Ordered.insert x (b.part s) ∨ (b.add t x).part s = b.part s := by
  cases s <;> cases t <;> simp [add, part]

theorem Regular.add (hb : b.Regular P) (t : Scalar) {x : String} (hx : P x) :
    (b.add t x).Regular P := by
  refine ⟨fun s => ?_, fun s y hy => ?_⟩
  · rcases part_add b s t x with h | h <;> rw [h]
    · exact Ordered.increasing_insert x (hb.increasing s)
    · exact hb.increasing s
  · rcases part_add b s t x with h | h <;> rw [h] at hy
    · rcases Ordered.mem_insert_iff.mp hy with rfl | hy
      · exact hx
      · exact hb.members s y hy
    · exact hb.members s y hy

theorem regular_foldl_add (flows : List (String × Scalar)) (h : ∀ flow ∈ flows, P flow.1)
    (hb : b.Regular P) : (flows.foldl (fun b (source, s) => b.add s source) b).Regular P := by
  induction flows generalizing b with
  | nil => exact hb
  | cons flow flows ih =>
      exact ih (fun flow hflow => h flow (List.mem_cons_of_mem _ hflow))
        (hb.add flow.2 (h flow List.mem_cons_self))

end Bound

theorem Bounds.regular_ofCells {P : String → Prop} {c : Cells} (h : ∀ x ∈ c.vars, P x) :
    Assoc.Regular (Bound.Regular P) (Bounds.ofCells c) := by
  refine Assoc.regular_ofPairs fun entry hentry => ?_
  obtain ⟨⟨x, j⟩, _, rfl⟩ := List.mem_map.mp hentry
  refine Bound.regular_foldl_add _ (fun flow hflow => ?_) Bound.regular_empty
  obtain ⟨⟨source, row⟩, hrow, rfl⟩ := List.mem_map.mp hflow
  exact h source (List.of_mem_zip hrow).1

theorem Choices.isInfinite_of_first {ch : Choices} {c : List Nat} (h : ch.first? = some c) :
    ch.isInfinite = false := by
  unfold first? at h
  unfold isInfinite
  cases hboxes : ch.boxes with
  | nil =>
      rw [hboxes] at h
      cases h
  | cons b bs => rfl

/-! ## Results -/

/-- The bound and the choices are regular, and there is a choice. -/
structure VariableResult.Regular (P : String → Prop) (r : VariableResult) : Prop where
  bound : ∀ b, r.bound = some b → b.Regular P
  choices : ∀ ch, r.choices = some ch → ch.Regular ch.index ∧ ch.isInfinite = false

/-- The relation, choices and bounds are regular, and if choices are given there is one. -/
structure FunctionResult.Regular (P : String → Prop) (r : FunctionResult) : Prop where
  relation : ∀ R, r.relation = some R → R.Regular P r.index
  choices : ∀ ch, r.choices = some ch → ch.Regular r.index ∧ ch.isInfinite = false
  bounds : ∀ bs, r.bounds = some bs → Assoc.Regular (Bound.Regular P) bs

/-- The results of the variables are regular. -/
def LoopResult.Regular (P : String → Prop) (r : LoopResult) : Prop :=
  r.vars.Regular (VariableResult.Regular P)

/-- The results of the loops are regular. -/
def FunctionLoops.Regular (P : String → Prop) (r : FunctionLoops) : Prop :=
  ∀ l ∈ r.loops, l.Regular P

/-- The results of the functions are regular, and so are those of the loops. -/
structure Report.Regular (P : String → Prop) (r : Report) : Prop where
  relations : r.relations.Regular (FunctionResult.Regular P)
  loops : r.loops.Regular (FunctionLoops.Regular P)

section Results

variable {P : String → Prop} {k : Nat} {R : Relation}

theorem VariableResult.regular_unbounded (x : String) : VariableResult.Regular P { name := x } where
  bound := fun _ h => nomatch h
  choices := fun _ h => nomatch h

section Among

variable {x : String} {growth : Scalar} {extra : List Scalar} {ch : Choices}
  (hfound : R.variableChoices choiceValues k x extra = .ok ch) (classes : List (Scalar × List Scalar))

include hfound

/-- A class that some choice allows is the growth of the variable. -/
theorem classifyAmong_of_first {c : List Nat} (hfirst : ch.first? = some c) :
    classifyAmong R k x ((growth, extra) :: classes) = .ok
      { name := x, growth := some growth, choices := some ch,
        bound := Assoc.get? (Bounds.ofCells (R.apply c)) x } := by
  rw [classifyAmong, hfound]
  simp only [bind, Except.bind, firstBounds?, hfirst, Option.map_some]
  rfl

theorem classifyAmong_of_none (hfirst : ch.first? = none) :
    classifyAmong R k x ((growth, extra) :: classes) = classifyAmong R k x classes := by
  rw [classifyAmong, hfound]
  simp only [bind, Except.bind, firstBounds?, hfirst, Option.map_none]

end Among

/-- A class is reported, with choices that have a property and the bound under the first of them. -/
def VariableResult.Reports (R : Relation) (x : String) (Q : Scalar × List Scalar → Choices → Prop)
    (cl : Scalar × List Scalar) (r : VariableResult) : Prop :=
  ∃ ch c, Q cl ch ∧ ch.first? = some c ∧
    r = { name := x, growth := some cl.1, choices := some ch,
          bound := Assoc.get? (Bounds.ofCells (R.apply c)) x }

/-- **What becomes of the classes**: the first that has a choice is reported, and if none has one there is no
growth. -/
theorem classifyAmong_cases {x : String} {Q : Scalar × List Scalar → Choices → Prop}
    {classes : List (Scalar × List Scalar)}
    (hfound : ∀ cl ∈ classes, ∃ ch, R.variableChoices choiceValues k x cl.2 = .ok ch ∧ Q cl ch) :
    ∃ r, classifyAmong R k x classes = .ok r ∧
      ((r = { name := x } ∧ ∀ cl ∈ classes, ∃ ch, Q cl ch ∧ ch.first? = none) ∨
        ∃ before cl after, classes = before ++ cl :: after ∧
          (∀ cl' ∈ before, ∃ ch, Q cl' ch ∧ ch.first? = none) ∧ r.Reports R x Q cl) := by
  induction classes with
  | nil => exact ⟨_, rfl, .inl ⟨rfl, fun _ hcl => absurd hcl List.not_mem_nil⟩⟩
  | cons first classes ih =>
      obtain ⟨growth, extra⟩ := first
      rw [List.forall_mem_cons] at hfound
      obtain ⟨ch, hch, hQ⟩ := hfound.1
      cases hfirst : ch.first? with
      | some c =>
          exact ⟨_, classifyAmong_of_first hch classes hfirst, .inr ⟨[], _, classes, rfl,
            fun _ hcl => absurd hcl List.not_mem_nil, ch, c, hQ, hfirst, rfl⟩⟩
      | none =>
          have hnone : ∃ ch, Q (growth, extra) ch ∧ ch.first? = none := ⟨ch, hQ, hfirst⟩
          obtain ⟨r, hr, hcases⟩ := ih hfound.2
          refine ⟨r, (classifyAmong_of_none hch classes hfirst).trans hr, hcases.imp ?_ ?_⟩
          · exact fun hall => ⟨hall.1, List.forall_mem_cons.mpr ⟨hnone, hall.2⟩⟩
          · rintro ⟨before, cl, after, rfl, hbefore, hreports⟩
            exact ⟨_ :: before, cl, after, rfl, List.forall_mem_cons.mpr ⟨hnone, hbefore⟩, hreports⟩

/-- Whatever classes are tried, the growth of a variable is found, and what is said of it is regular. -/
theorem exists_classifyAmong (hR : R.Regular P k) {x : String} (hx : x ∈ R.vars)
    (classes : List (Scalar × List Scalar)) :
    ∃ r, classifyAmong R k x classes = .ok r ∧ r.Regular P := by
  obtain ⟨r, hr, hcases⟩ :=
    classifyAmong_cases fun cl (_ : cl ∈ classes) => hR.exists_columnChoices cl.2 hx
  refine ⟨r, hr, ?_⟩
  rcases hcases with ⟨rfl, _⟩ | ⟨_, cl, _, _, _, ch, c, hch, hfirst, rfl⟩
  · exact VariableResult.regular_unbounded x
  · refine ⟨fun b hb => (Bounds.regular_ofCells (c := R.apply c) hR.vars).get? hb, ?_⟩
    rintro _ ⟨⟩
    rw [hch.index]
    exact ⟨hch, Choices.isInfinite_of_first hfirst⟩

theorem exists_classifyPartly (hR : R.Regular P k) :
    ∃ vars, classifyPartly R k = .ok vars ∧ vars.Regular (VariableResult.Regular P) := by
  obtain ⟨all, hall, hkeys, _⟩ := hR.exists_allChoices
  unfold classifyPartly
  rw [hall]
  refine exists_ofPairs_mapM fun entry hentry => ?_
  obtain ⟨⟨x, ch⟩, j⟩ := entry
  have hx : x ∈ R.vars := by
    rw [← hkeys]
    exact List.mem_map_of_mem (List.fst_mem_of_mem_zipIdx hentry)
  obtain ⟨r, hr, hregular⟩ := exists_classifyAmong hR hx growthClasses
  simp only
  split
  · exact ⟨(x, r), by rw [classify, hr]; rfl, hregular⟩
  · exact ⟨_, rfl, VariableResult.regular_unbounded x⟩

theorem exists_classifyAll {out : Outcome} (hout : out.Regular P) :
    ∃ vars, classifyAll out = .ok vars ∧ vars.Regular (VariableResult.Regular P) := by
  unfold classifyAll
  split
  · exact exists_classifyPartly hout.relation
  · refine exists_ofPairs_mapM fun x hx => ?_
    obtain ⟨r, hr, hregular⟩ := exists_classifyAmong hout.relation hx growthClasses
    exact ⟨(x, r), by rw [classify, hr]; rfl, hregular⟩

end Results

end GrowthFlow
