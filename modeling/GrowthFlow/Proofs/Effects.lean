import GrowthFlow.Proofs.Plan

/-!
# The relations of a plan are proper

An effect without a choice demands nothing, and one with a choice demands values of its own index only.
From there every relation of a plan has one place for a variable, polynomials in normal form, and no
demands but for the values `0`, `1` and `2` at the indices that the plan takes (`flow_proper`).

With that, a complete analysis finds choices for every relation it comes to, and they are the right ones
(`completed_of_ok`).
-/

namespace GrowthFlow

open Lang

/-- A demand for one of the values to choose from, at an index from `lo` on and below `hi`. -/
def Within (lo hi : Nat) (d : Delta) : Prop := lo ≤ d.index ∧ d.index < hi ∧ d.value ∈ choiceValues

theorem Within.first {k a : Nat} (b : Nat) {d : Delta} (h : Within k (k + a) d) :
    Within k (k + (a + b)) d := by
  obtain ⟨hlo, hhi, hvalue⟩ := h
  exact ⟨hlo, by omega, hvalue⟩

theorem Within.second {k a b : Nat} {d : Delta} (h : Within (k + a) (k + a + b) d) :
    Within k (k + (a + b)) d := by
  obtain ⟨hlo, hhi, hvalue⟩ := h
  exact ⟨by omega, by omega, hvalue⟩

namespace Effect

/-- An effect that is the same under every choice demands nothing; with a choice, each operand has one
scalar for each value. In neither case is a flow unbounded. -/
def WellFormed : Effect → Prop
  | nothing => True
  | flow R => (R.Proper fun _ => False) ∧ ∀ σ, ¬ R.Unbounded σ
  | choice _ operands scalars =>
    operands.Nodup ∧ ∀ ss ∈ scalars, ss.length = choiceValues.length ∧ ∀ s ∈ ss, s ≤ .p
  | unsupported => True

theorem wellFormed_flow_zero (x : String) : (flow (.zero [x])).WellFormed :=
  ⟨Relation.proper_zero (List.pairwise_singleton _ x),
    Relation.not_unbounded_zero (List.pairwise_singleton _ x)⟩

theorem wellFormed_arithmetic (x : String) (op : BinaryOp) (y z : Operand) :
    (arithmetic x op y z).WellFormed := by
  have hnodup : (operandNames y z).Nodup := by
    unfold operandNames
    split
    · split
      · simp
      · rename_i hne
        simp [hne]
    · simp
    · simp
    · simp
  have hscalars : ∀ operands hasConst, ∀ ss ∈ scalarsOf op operands hasConst,
      ss.length = choiceValues.length ∧ ∀ s ∈ ss, s ≤ .p := by
    intro operands hasConst
    unfold scalarsOf
    split
    · split
      · decide
      · split
        · decide
        · decide
    · split
      · decide
      · decide
  unfold arithmetic
  split
  · exact wellFormed_flow_zero x
  · rename_i operands _
    exact ⟨hnodup, hscalars _ _⟩

theorem wellFormed_copy (x y : String) : (copy x y).WellFormed := by
  unfold copy
  split
  · trivial
  · rename_i hne
    have hnd : [x, y].Nodup := by simp [hne]
    have hcolumn : [Poly.zero, Poly.unit] = [x, y].map fun z => if z = x then .zero else .unit := by
      simp [Ne.symm hne]
    show (Relation.assignment [x, y] [.zero, .unit] x).Proper _ ∧ _
    rw [hcolumn]
    refine ⟨Relation.proper_assignment hnd fun z _ => ?_,
      fun σ => Relation.not_unbounded_assignment hnd fun z _ => ?_⟩
    · split
      · exact Poly.proper_zero _
      · exact Poly.proper_unit
    · split
      · rw [Poly.value_zero]
        decide
      · rw [Poly.value_unit]
        decide

theorem wellFormed_ofAssign (x : String) (e : Expr) : (ofAssign x e).WellFormed := by
  unfold ofAssign
  split
  · split
    · split
      · exact wellFormed_arithmetic _ _ _ _
      · trivial
    · trivial
  · exact wellFormed_flow_zero x
  · exact wellFormed_copy _ _
  · exact ⟨Relation.proper_identity (List.pairwise_singleton _ x),
      Relation.not_unbounded_identity (List.pairwise_singleton _ x)⟩
  · trivial

theorem wellFormed_ofExpr (e : Expr) : (ofExpr e).WellFormed := by
  unfold ofExpr
  split
  · split
    · split
      · exact wellFormed_arithmetic _ _ _ _
      · trivial
    · trivial
  · split
    · trivial
    · trivial
  · trivial

theorem nodup_choiceVars {x : String} {operands : List String} (h : operands.Nodup) :
    (x :: operands.filter (· != x)).Nodup := by
  refine List.nodup_cons.mpr ⟨?_, List.Pairwise.filter _ h⟩
  intro hx
  simpa using (List.mem_filter.mp hx).2

/-- What flows from a variable into the target of a choice at index `k`. -/
def operandFlow (k : Nat) (operands : List String) (scalars : List (List Scalar)) (y : String) : Poly :=
  match operands.idxOf? y with
  | some j => .ofChoice k (scalars[j]?.getD [])
  | none => .zero

theorem scalars_bounded {scalars : List (List Scalar)}
    (h : ∀ ss ∈ scalars, ss.length = choiceValues.length ∧ ∀ s ∈ ss, s ≤ .p) (j : Nat) :
    (scalars[j]?.getD []).length ≤ choiceValues.length ∧ ∀ s ∈ scalars[j]?.getD [], s ≤ .p := by
  cases hj : scalars[j]? with
  | none => exact ⟨Nat.zero_le _, fun _ hs => absurd hs List.not_mem_nil⟩
  | some ss =>
      obtain ⟨hlength, hle⟩ := h ss (List.mem_of_getElem? hj)
      exact ⟨Nat.le_of_eq hlength, hle⟩

theorem proper_relation {e : Effect} (h : e.WellFormed) (k : Nat) :
    (e.relation k).Proper (Within k (k + e.taken)) := by
  cases e with
  | nothing => exact Relation.proper_identity List.Pairwise.nil
  | flow R => exact Relation.Proper.mono h.1 fun d hd => hd.elim
  | choice x operands scalars =>
      refine Relation.proper_assignment (f := operandFlow k operands scalars)
        (nodup_choiceVars h.1) fun y _ => ?_
      unfold operandFlow
      split
      · rename_i j _
        refine Poly.proper_ofChoice fun v hv => ⟨Nat.le_refl k, Nat.lt_succ_self k, ?_⟩
        have hv' : v < 3 := Nat.lt_of_lt_of_le hv (scalars_bounded h.2 j).1
        show v ∈ [0, 1, 2]
        simp only [List.mem_cons, List.not_mem_nil, or_false]
        omega
      · exact Poly.proper_zero _
  | unsupported => exact Relation.proper_identity List.Pairwise.nil

/-- A single effect makes nothing unbounded. -/
theorem not_unbounded_relation {e : Effect} (h : e.WellFormed) (k : Nat) (σ : Selection) :
    ¬ (e.relation k).Unbounded σ := by
  cases e with
  | nothing => exact Relation.not_unbounded_identity List.Pairwise.nil σ
  | flow R => exact h.2 σ
  | choice x operands scalars =>
      refine Relation.not_unbounded_assignment (f := operandFlow k operands scalars)
        (nodup_choiceVars h.1) fun y _ => ?_
      unfold operandFlow
      split
      · rename_i j _
        intro hi
        have hle := Poly.value_ofChoice_le (scalars_bounded h.2 j).2 k σ
        rw [hi] at hle
        exact absurd hle (by decide)
      · rw [Poly.value_zero]
        decide
  | unsupported => exact Relation.not_unbounded_identity List.Pairwise.nil σ

end Effect

namespace Plan

/-- All effects of the plan are well-formed. -/
def WellFormed : Plan → Prop
  | simple _ e => e.WellFormed
  | andThen p q => p.WellFormed ∧ q.WellFormed
  | either p q => p.WellFormed ∧ q.WellFormed
  | loop _ p => p.WellFormed

/-- All effects of the plan, and all guards of its loops, have a property. -/
def All (E : Effect → Prop) (G : Option String → Prop) : Plan → Prop
  | simple _ e => E e
  | andThen p q => p.All E G ∧ q.All E G
  | either p q => p.All E G ∧ q.All E G
  | loop guard p => G guard ∧ p.All E G

end Plan

/-- A property of all effects that statements have. -/
structure Effect.Universal (E : Effect → Prop) : Prop where
  nothing : E .nothing
  unsupported : E .unsupported
  reset : ∀ x, E (.flow (.zero [x]))
  assign : ∀ x e, E (.ofAssign x e)
  expr : ∀ e, E (.ofExpr e)

namespace Plan

section All

variable {E : Effect → Prop} {G : Option String → Prop} {bounded : Bool}

theorem all_ofBody (hE : Effect.Universal E) {body : Stmt} {p : Plan} (h : p.All E G) :
    (ofBody body p).All E G := by
  unfold ofBody
  split
  · exact h
  · exact ⟨hE.nothing, h⟩

mutual

/-- What all effects of statements have in common, those of a plan have. -/
theorem all_ofStmt (hE : Effect.Universal E) (hnone : G none)
    (hguard : ∀ guard, G (if bounded then some guard else none)) :
    ∀ s : Stmt, (ofStmt bounded s).All E G
  | .assign x e => by rw [ofStmt]; exact hE.assign x e
  | .expr e => by rw [ofStmt]; exact hE.expr e
  | .decl t vars => by
      rw [ofStmt, All]
      split
      · exact hE.unsupported
      · exact hE.nothing
  | .branch c yes no => by
      rw [ofStmt]
      exact ⟨all_ofBody hE (all_ofStmt hE hnone hguard yes), all_ofOption hE hnone hguard no⟩
  | .whileLoop c body => by
      rw [ofStmt]
      exact ⟨hnone, all_ofBody hE (all_ofStmt hE hnone hguard body)⟩
  | .doWhile body c => by
      rw [ofStmt]
      exact ⟨hnone, all_ofBody hE (all_ofStmt hE hnone hguard body)⟩
  | .forLoop init c step body => by
      rw [ofStmt]
      split
      · rename_i guard _
        exact ⟨hguard guard, hE.reset guard, all_ofBody hE (all_ofStmt hE hnone hguard body)⟩
      · exact hE.unsupported
  | .block body => by rw [ofStmt]; exact all_ofList hE hnone hguard body hE.nothing
  | .ret _ => by rw [ofStmt]; exact hE.nothing
  | .breakJump => by rw [ofStmt]; exact hE.nothing
  | .continueJump => by rw [ofStmt]; exact hE.nothing
  | .empty => by rw [ofStmt]; exact hE.nothing

theorem all_ofList (hE : Effect.Universal E) (hnone : G none)
    (hguard : ∀ guard, G (if bounded then some guard else none)) :
    ∀ (ss : List Stmt) {p : Plan}, p.All E G → (ofList bounded p ss).All E G
  | [], p, h => by rw [ofList]; exact h
  | s :: ss, p, h => by
      rw [ofList]
      exact all_ofList hE hnone hguard ss ⟨h, all_ofStmt hE hnone hguard s⟩

theorem all_ofOption (hE : Effect.Universal E) (hnone : G none)
    (hguard : ∀ guard, G (if bounded then some guard else none)) :
    ∀ s : Option Stmt, (ofOption bounded s).All E G
  | none => by rw [ofOption]; exact hE.nothing
  | some s => by rw [ofOption]; exact all_ofBody hE (all_ofStmt hE hnone hguard s)

end

end All

theorem wellFormed_of_all {G : Option String → Prop} {p : Plan} (h : p.All Effect.WellFormed G) :
    p.WellFormed := by
  induction p with
  | simple s e => exact h
  | andThen p q ihp ihq => exact ⟨ihp h.1, ihq h.2⟩
  | either p q ihp ihq => exact ⟨ihp h.1, ihq h.2⟩
  | loop guard p ih => exact ih h.2

theorem wellFormed_ofStmts (opts : Options) (body : List Stmt) : (ofStmts opts body).WellFormed := by
  have hE : Effect.Universal Effect.WellFormed :=
    ⟨trivial, trivial, Effect.wellFormed_flow_zero, Effect.wellFormed_ofAssign,
      Effect.wellFormed_ofExpr⟩
  exact wellFormed_of_all (G := fun _ => True)
    (all_ofList hE trivial (fun _ => trivial) body hE.nothing)

/-! ## The relations of the parts -/

section Parts

variable {limit k : Nat} {p q : Plan} {T : Relation}

theorem flow_andThen_some : (andThen p q).flow limit k = some T ↔
    ∃ R S, p.flow limit k = some R ∧ q.flow limit (k + p.taken) = some S ∧ R.compose S = T := by
  simp [flow, Option.bind_eq_some_iff]

theorem flow_either_some : (either p q).flow limit k = some T ↔
    ∃ R S, p.flow limit k = some R ∧ q.flow limit (k + p.taken) = some S ∧ S.sum R = T := by
  simp [flow, Option.bind_eq_some_iff]

theorem flow_loop_some {guard : Option String} : (loop guard p).flow limit k = some T ↔
    ∃ R F, p.flow limit k = some R ∧ R.closureWithin? limit = some F ∧ F.correct guard = T := by
  simp [flow, Option.bind_eq_some_iff]

/-- **Every relation of a plan is proper**, with demands at the indices that the plan takes. -/
theorem flow_proper {p : Plan} (hp : p.WellFormed) {k : Nat} {T : Relation}
    (h : p.flow limit k = some T) : T.Proper (Within k (k + p.taken)) := by
  induction p generalizing k T with
  | simple s e =>
      cases h
      exact Effect.proper_relation hp k
  | andThen p q ihp ihq =>
      obtain ⟨R, S, hR, hS, rfl⟩ := flow_andThen_some.mp h
      exact ((ihp hp.1 hR).mono fun _ => Within.first _).compose
        ((ihq hp.2 hS).mono fun _ => Within.second)
  | either p q ihp ihq =>
      obtain ⟨R, S, hR, hS, rfl⟩ := flow_either_some.mp h
      exact ((ihq hp.2 hS).mono fun _ => Within.second).sum
        ((ihp hp.1 hR).mono fun _ => Within.first _)
  | loop guard p ih =>
      obtain ⟨R, F, hR, hF, rfl⟩ := flow_loop_some.mp h
      exact ((ih hp hR).closure hF).correct guard

end Parts

end Plan

/-! ## Complete analyses -/

/-- What a complete analysis of statements has found: its walk ended at `w` with the relation `T` of the
plan, and the choices that are left are those that leave nothing unbounded. -/
structure Completed (opts : Options) (start : Nat) (body : List Stmt) (out : Outcome) (T : Relation)
    (w : Walk) : Prop where
  run : (Plan.ofStmts opts body).run opts { index := start } = (.ok T, w)
  flow : (Plan.ofStmts opts body).flow opts.limit start = some T
  promotions : w.promotions = (Plan.ofStmts opts body).promoted opts.limit start
  relation : out.relation = (Relation.identity (Stmt.namesAll body)).compose T
  index : out.index = w.index
  taken : out.index = start + (Plan.ofStmts opts body).taken
  covered : out.covered = w.covered
  proper : out.relation.Proper fun d => d.index < out.index
  allows : ∀ v, IsVector choiceValues out.index v →
    (out.choices.allows v = true ↔ ¬ out.relation.Unbounded (.ofVector v))
  infinite : out.choices.isInfinite = true ↔
    ∀ v, IsVector choiceValues out.index v → out.relation.Unbounded (.ofVector v)

theorem completed_of_ok {opts : Options} (hc : opts.complete = true) {start : Nat}
    {body : List Stmt} {out : Outcome} (h : (analyzeBody opts start body).result.1 = .ok out) :
    ∃ T w, Completed opts start body out T w := by
  obtain ⟨_, hout⟩ := analyzeBody_ok_iff.mp h
  obtain ⟨T, w, hrun, hrelation, hindex, hcovered, hchoices⟩ := outcome_complete hc hout
  obtain ⟨hflow, hend, hpromotions⟩ := Plan.run_complete hc _ hrun
  have htaken := hindex.trans hend
  have hproper : out.relation.Proper fun d => d.index < out.index := by
    rw [hrelation, htaken]
    exact ((Relation.proper_identity (increasing_namesAll body).nodup).compose
      (Plan.flow_proper (Plan.wellFormed_ofStmts opts body) hflow)).mono fun d hd => hd.2.1
  obtain ⟨choices, hfound, hallows, hinfinite⟩ :=
    Relation.choices_spec (show choiceValues ≠ [] by decide) hproper
  cases hchoices.symm.trans hfound
  exact ⟨T, w, hrun, hflow, hpromotions, hrelation, hindex, htaken, hcovered, hproper, hallows,
    hinfinite⟩

end GrowthFlow
