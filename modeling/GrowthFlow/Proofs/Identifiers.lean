import GrowthFlow.Proofs.Effects
import GrowthFlow.Proofs.Neutrality

/-!
# The identifiers of a function

The identifiers of a statement are all names that stand for a value somewhere in it, in conditions and
arguments too, and whether or not the name is that of a constant. The variables of a statement are among them
(`Stmt.mem_identifiers`), and so is what decides how often a loop runs.

No step of an analysis makes up a name. What is left of a statement without the parts that are not
understood, a loop inside of it, and the relation of each of its effects keep to the identifiers of the
statement (`Plan.over_ofStmts`). Their number therefore bounds the size of every matrix on the way. Flows start
out in normal form, which is noted along with their names.
-/

namespace GrowthFlow.Lang

theorem Names.mem_add {x y : String} {xs : Names} :
    y ∈ add x xs ↔ (y = x ∧ x ∉ constantNames) ∨ y ∈ xs := by
  unfold add
  split
  · rename_i h
    simp [List.contains_iff_mem.mp h]
  · rename_i h
    have hx : x ∉ constantNames := fun hmem => h (List.contains_iff_mem.mpr hmem)
    simp [Ordered.mem_insert_iff, hx]

theorem Names.increasing_add (x : String) {xs : Names} (h : Ordered.Increasing xs) :
    Ordered.Increasing (add x xs) := by
  unfold add
  split
  · exact h
  · exact Ordered.increasing_insert x h

namespace Expr

theorem increasing_names : ∀ e : Expr, Ordered.Increasing e.names
  | const _ => List.Pairwise.nil
  | var x => Names.increasing_add x List.Pairwise.nil
  | unary _ e => increasing_names e
  | binary _ _ r => Ordered.increasing_union _ (increasing_names r)
  | cast _ e => increasing_names e
  | call _ _ => List.Pairwise.nil

theorem increasing_namesOpt (e : Option Expr) : Ordered.Increasing ((e.map names).getD []) := by
  cases e with
  | none => exact List.Pairwise.nil
  | some e => exact increasing_names e

mutual

/-- The names that stand for a value in an expression. -/
def identifiers : Expr → Names
  | const _ => []
  | var x => [x]
  | unary _ e => e.identifiers
  | binary _ l r => Ordered.union l.identifiers r.identifiers
  | cast _ e => e.identifiers
  | call _ args => identifiersAll args

/-- The identifiers of several expressions. -/
def identifiersAll : List Expr → Names
  | [] => []
  | e :: es => Ordered.union e.identifiers (identifiersAll es)

end

theorem identifiers_uncast : ∀ e : Expr, e.uncast.identifiers = e.identifiers
  | const _ => rfl
  | var _ => rfl
  | unary _ _ => rfl
  | binary _ _ _ => rfl
  | call _ _ => rfl
  | cast _ e => by rw [uncast, identifiers, identifiers_uncast e]

/-- The variables of an expression are identifiers of it. -/
theorem mem_identifiers {x : String} : ∀ e : Expr, x ∈ e.names → x ∈ e.identifiers
  | const _, h => h
  | var y, h => by
      rcases Names.mem_add.mp h with ⟨rfl, _⟩ | h
      · exact List.mem_singleton_self x
      · exact absurd h List.not_mem_nil
  | unary _ e, h => mem_identifiers e h
  | binary _ l r, h => by
      rw [names, Ordered.mem_union] at h
      rw [identifiers, Ordered.mem_union]
      exact h.imp (mem_identifiers l) (mem_identifiers r)
  | cast _ e, h => mem_identifiers e h
  | call _ _, h => absurd h List.not_mem_nil

/-- The identifiers of an expression that may be missing. -/
def identifiersOpt (e : Option Expr) : Names := (e.map identifiers).getD []

theorem mem_identifiersOpt {x : String} {e : Option Expr} (h : x ∈ (e.map names).getD []) :
    x ∈ identifiersOpt e := by
  cases e with
  | none => exact h
  | some e => exact mem_identifiers e h

end Expr

namespace Declarator

/-- The variable that is declared and the identifiers it is initialised from. -/
def identifiers (d : Declarator) : Names := Ordered.insert d.name (Expr.identifiersOpt d.init)

end Declarator

namespace Stmt

mutual

/-- The variables of a statement come in increasing order. -/
theorem increasing_names : ∀ s : Stmt, Ordered.Increasing s.names
  | assign x e => Names.increasing_add x (Expr.increasing_names e)
  | expr e => Expr.increasing_names e
  | decl _ vars => by
      rw [names]
      induction vars with
      | nil => exact List.Pairwise.nil
      | cons d vars ih => exact Ordered.increasing_union _ ih
  | branch _ _ no => Ordered.increasing_union _ (increasing_namesOpt no)
  | whileLoop _ body => Ordered.increasing_union _ (increasing_names body)
  | doWhile body _ => Ordered.increasing_union _ (increasing_names body)
  | forLoop _ _ _ body => by
      rw [names]
      split
      · exact Names.increasing_add _ (increasing_names body)
      · exact increasing_names body
  | block body => increasing_namesAll body
  | ret e => Expr.increasing_namesOpt e
  | breakJump => List.Pairwise.nil
  | continueJump => List.Pairwise.nil
  | empty => List.Pairwise.nil

theorem increasing_namesOpt : ∀ s : Option Stmt, Ordered.Increasing (namesOpt s)
  | none => List.Pairwise.nil
  | some s => increasing_names s

end

mutual

/-- The names that stand for a value in a statement. -/
def identifiers : Stmt → Names
  | assign x e => Ordered.insert x e.identifiers
  | expr e => e.identifiers
  | decl _ vars => vars.foldr (fun d xs => Ordered.union d.identifiers xs) []
  | branch c yes no => Ordered.union c.identifiers (Ordered.union yes.identifiers (identifiersOpt no))
  | whileLoop c body => Ordered.union c.identifiers body.identifiers
  | doWhile body c => Ordered.union c.identifiers body.identifiers
  | forLoop init c step body =>
    Ordered.union (identifiersAll init) (Ordered.union (Expr.identifiersOpt c)
      (Ordered.union (identifiersAll step) body.identifiers))
  | block body => identifiersAll body
  | ret e => Expr.identifiersOpt e
  | breakJump | continueJump | empty => []

/-- The identifiers of several statements. -/
def identifiersAll : List Stmt → Names
  | [] => []
  | s :: ss => Ordered.union s.identifiers (identifiersAll ss)

/-- The identifiers of a statement that may be missing. -/
def identifiersOpt : Option Stmt → Names
  | none => []
  | some s => s.identifiers

end

theorem mem_identifiersAll {x : String} {ss : List Stmt} :
    x ∈ identifiersAll ss ↔ ∃ s ∈ ss, x ∈ s.identifiers := by
  induction ss with
  | nil => simp [identifiersAll]
  | cons s ss ih => rw [identifiersAll, Ordered.mem_union, ih]; simp

theorem mem_declared {x : String} {vars : List Declarator} :
    x ∈ vars.foldr (fun d xs => Ordered.union d.identifiers xs) [] ↔
      ∃ d ∈ vars, x ∈ d.identifiers := by
  induction vars with
  | nil => simp
  | cons d vars ih => rw [List.foldr_cons, Ordered.mem_union, ih]; simp

/-! ## Guards -/

theorem mem_identifiers_initSources {x : String} {s : Stmt} (h : x ∈ s.initSources) :
    x ∈ s.identifiers := by
  unfold initSources at h
  split at h
  · rename_i t vars
    obtain ⟨d, hd, hx⟩ := List.mem_filterMap.mp h
    refine mem_declared.mpr ⟨d, hd, Ordered.mem_insert_iff.mpr (.inr ?_)⟩
    split at hx
    · rename_i hinit
      cases hx
      rw [hinit]
      exact List.mem_singleton_self x
    · cases hx
  · rw [identifiers, Ordered.mem_insert_iff]
    exact .inr h
  · exact absurd h List.not_mem_nil

/-- The guard of a loop is an identifier of the loop. -/
theorem mem_identifiers_guard {x : String} {s : Stmt} (h : s.guard? = some x) : x ∈ s.identifiers := by
  cases s with
  | forLoop init c step body =>
      -- a guard is copied by the first part of the header, or the condition reads it
      have hx : x ∈ guardNames init c (namesAll step) := by
        change soleGuard? (guardNames init c (namesAll step)) body.names = some x at h
        unfold soleGuard? at h
        split at h
        · rename_i y hy
          split at h
          · cases h
          · cases h
            rw [hy]
            exact List.mem_singleton_self x
        · cases h
      have hcandidate := (List.mem_filter.mp hx).1
      rw [identifiers]
      simp only [Ordered.mem_union]
      rcases Ordered.mem_union.mp hcandidate with hx | hx
      · obtain ⟨s, hs, hx⟩ := List.mem_flatMap.mp (Ordered.mem_ofList.mp hx)
        exact .inl (mem_identifiersAll.mpr ⟨s, hs, mem_identifiers_initSources hx⟩)
      · exact .inr (.inl (Expr.mem_identifiersOpt hx))
  | _ => cases h

/-! ## Names -/

mutual

/-- The variables of a statement are identifiers of it. -/
theorem mem_identifiers {x : String} : ∀ s : Stmt, x ∈ s.names → x ∈ s.identifiers
  | assign y e, h => by
      rw [identifiers, Ordered.mem_insert_iff]
      rw [names] at h
      exact (Names.mem_add.mp h).imp (·.1) (Expr.mem_identifiers e)
  | expr e, h => by
      rw [names] at h
      rw [identifiers]
      exact Expr.mem_identifiers e h
  | decl t vars, h => by
      rw [names] at h
      rw [identifiers]
      induction vars with
      | nil => exact h
      | cons d vars ih =>
          rw [List.foldr_cons, Ordered.mem_union] at h ⊢
          refine h.imp (fun h => ?_) ih
          exact Ordered.mem_insert_iff.mpr ((Names.mem_add.mp h).imp (·.1) Expr.mem_identifiersOpt)
  | branch c yes no, h => by
      rw [names, Ordered.mem_union] at h
      rw [identifiers, Ordered.mem_union, Ordered.mem_union]
      exact .inr (h.imp (mem_identifiers yes) (mem_identifiersOpt no))
  | whileLoop c body, h => by
      rw [names, Ordered.mem_union] at h
      rw [identifiers, Ordered.mem_union]
      exact h.imp (Expr.mem_identifiers c) (mem_identifiers body)
  | doWhile body c, h => by
      rw [names, Ordered.mem_union] at h
      rw [identifiers, Ordered.mem_union]
      exact h.imp (Expr.mem_identifiers c) (mem_identifiers body)
  | forLoop init c step body, h => by
      have hbody : x ∈ body.names → x ∈ (forLoop init c step body).identifiers := fun h => by
        rw [identifiers]
        simp only [Ordered.mem_union]
        exact .inr (.inr (.inr (mem_identifiers body h)))
      rw [names] at h
      split at h
      · rename_i y hy
        rcases Names.mem_add.mp h with ⟨rfl, _⟩ | h
        · exact mem_identifiers_guard (s := forLoop init c step body) hy
        · exact hbody h
      · exact hbody h
  | block body, h => by
      rw [names] at h
      rw [identifiers]
      exact mem_identifiers_namesAll body h
  | ret e, h => by
      rw [names] at h
      rw [identifiers]
      exact Expr.mem_identifiersOpt h
  | breakJump, h => by rw [names] at h; exact h
  | continueJump, h => by rw [names] at h; exact h
  | empty, h => by rw [names] at h; exact h

theorem mem_identifiers_namesAll {x : String} : ∀ ss : List Stmt,
    x ∈ namesAll ss → x ∈ identifiersAll ss
  | [], h => h
  | s :: ss, h => by
      rw [namesAll, Ordered.mem_union] at h
      rw [identifiersAll, Ordered.mem_union]
      exact h.imp (mem_identifiers s) (mem_identifiers_namesAll ss)

theorem mem_identifiersOpt {x : String} : ∀ s : Option Stmt, x ∈ namesOpt s → x ∈ identifiersOpt s
  | none, h => h
  | some s, h => mem_identifiers s h

end

/-! ## Parts of a statement -/

theorem mem_identifiers_getD {x : String} {s : Option Stmt} (h : x ∈ (s.getD empty).identifiers) :
    ∃ t, s = some t ∧ x ∈ t.identifiers := by
  cases s with
  | none =>
      rw [Option.getD_none, identifiers] at h
      exact absurd h List.not_mem_nil
  | some s => exact ⟨s, rfl, h⟩

theorem mem_identifiers_of_isSupported {x : String} {s t : Stmt}
    (h : (if s.isSupported then some s else none) = some t) (hx : x ∈ t.identifiers) :
    x ∈ s.identifiers := by
  split at h
  · cases h
    exact hx
  · cases h

mutual

/-- Stripping a statement brings in no identifiers. -/
theorem mem_identifiers_strip? {x : String} : ∀ {s t : Stmt}, s.strip? = some t →
    x ∈ t.identifiers → x ∈ s.identifiers
  | branch c yes no, t, h, hx => by
      rw [strip?] at h
      cases h
      rw [identifiers, Ordered.mem_union, Ordered.mem_union] at hx ⊢
      refine hx.imp_right (Or.imp (fun hx => ?_) (mem_identifiers_stripOpt no))
      obtain ⟨t, ht, hx⟩ := mem_identifiers_getD hx
      exact mem_identifiers_strip? ht hx
  | whileLoop c body, t, h, hx => by
      rw [strip?] at h
      cases h
      rw [identifiers, Ordered.mem_union] at hx ⊢
      refine hx.imp_right fun hx => ?_
      obtain ⟨t, ht, hx⟩ := mem_identifiers_getD hx
      exact mem_identifiers_strip? ht hx
  | doWhile body c, t, h, hx => by
      rw [strip?] at h
      cases h
      rw [identifiers, Ordered.mem_union] at hx ⊢
      refine hx.imp_right fun hx => ?_
      obtain ⟨t, ht, hx⟩ := mem_identifiers_getD hx
      exact mem_identifiers_strip? ht hx
  | forLoop init c step body, t, h, hx => by
      rw [strip?] at h
      split at h
      · cases h
        rw [identifiers] at hx ⊢
        simp only [Ordered.mem_union] at hx ⊢
        refine hx.imp_right (Or.imp_right (Or.imp_right fun hx => ?_))
        obtain ⟨t, ht, hx⟩ := mem_identifiers_getD hx
        exact mem_identifiers_strip? ht hx
      · cases h
  | block body, t, h, hx => by
      rw [strip?] at h
      cases h
      rw [identifiers] at hx ⊢
      exact mem_identifiers_stripAll body hx
  | assign _ _, t, h, hx => mem_identifiers_of_isSupported h hx
  | expr _, t, h, hx => mem_identifiers_of_isSupported h hx
  | decl _ _, t, h, hx => mem_identifiers_of_isSupported h hx
  | ret _, t, h, hx => mem_identifiers_of_isSupported h hx
  | breakJump, t, h, hx => mem_identifiers_of_isSupported h hx
  | continueJump, t, h, hx => mem_identifiers_of_isSupported h hx
  | empty, t, h, hx => mem_identifiers_of_isSupported h hx

theorem mem_identifiers_stripAll {x : String} : ∀ ss : List Stmt,
    x ∈ identifiersAll (stripAll ss) → x ∈ identifiersAll ss
  | [], hx => hx
  | s :: ss, hx => by
      rw [stripAll] at hx
      rw [identifiersAll, Ordered.mem_union]
      split at hx
      · rename_i t ht
        rw [identifiersAll, Ordered.mem_union] at hx
        exact hx.imp (mem_identifiers_strip? ht) (mem_identifiers_stripAll ss)
      · exact .inr (mem_identifiers_stripAll ss hx)

theorem mem_identifiers_stripOpt {x : String} : ∀ s : Option Stmt,
    x ∈ identifiersOpt (stripOpt s) → x ∈ identifiersOpt s
  | none, hx => hx
  | some s, hx => by
      rw [stripOpt] at hx
      cases ht : s.strip? with
      | none =>
          rw [ht] at hx
          exact absurd hx List.not_mem_nil
      | some t =>
          rw [ht] at hx
          exact mem_identifiers_strip? ht hx

end

mutual

/-- A loop inside of a statement has no other identifiers. -/
theorem mem_identifiers_loops {x : String} {t : Stmt} : ∀ s : Stmt, t ∈ s.loops →
    x ∈ t.identifiers → x ∈ s.identifiers
  | whileLoop c body, h, hx => by
      rw [loops, List.mem_cons] at h
      rcases h with rfl | h
      · exact hx
      · rw [identifiers, Ordered.mem_union]
        exact .inr (mem_identifiers_loops body h hx)
  | doWhile body c, h, hx => by
      rw [loops, List.mem_cons] at h
      rcases h with rfl | h
      · exact hx
      · rw [identifiers, Ordered.mem_union]
        exact .inr (mem_identifiers_loops body h hx)
  | forLoop init c step body, h, hx => by
      have hbody : t ∈ body.loops → x ∈ (forLoop init c step body).identifiers := fun h => by
        rw [identifiers]
        simp only [Ordered.mem_union]
        exact .inr (.inr (.inr (mem_identifiers_loops body h hx)))
      rw [loops] at h
      split at h
      · rcases List.mem_cons.mp h with rfl | h
        · exact hx
        · exact hbody h
      · exact hbody h
  | branch c yes no, h, hx => by
      rw [loops, List.mem_append] at h
      rw [identifiers, Ordered.mem_union, Ordered.mem_union]
      exact .inr (h.imp (mem_identifiers_loops yes · hx) (mem_identifiers_loopsOpt no · hx))
  | block body, h, hx => by
      rw [loops] at h
      rw [identifiers]
      exact mem_identifiers_loopsAll body h hx
  | assign _ _, h, _ => absurd h List.not_mem_nil
  | expr _, h, _ => absurd h List.not_mem_nil
  | decl _ _, h, _ => absurd h List.not_mem_nil
  | ret _, h, _ => absurd h List.not_mem_nil
  | breakJump, h, _ => absurd h List.not_mem_nil
  | continueJump, h, _ => absurd h List.not_mem_nil
  | empty, h, _ => absurd h List.not_mem_nil

theorem mem_identifiers_loopsAll {x : String} {t : Stmt} : ∀ ss : List Stmt, t ∈ loopsAll ss →
    x ∈ t.identifiers → x ∈ identifiersAll ss
  | [], h, _ => absurd h List.not_mem_nil
  | s :: ss, h, hx => by
      rw [loopsAll, List.mem_append] at h
      rw [identifiersAll, Ordered.mem_union]
      exact h.imp (mem_identifiers_loops s · hx) (mem_identifiers_loopsAll ss · hx)

theorem mem_identifiers_loopsOpt {x : String} {t : Stmt} : ∀ s : Option Stmt, t ∈ loopsOpt s →
    x ∈ t.identifiers → x ∈ identifiersOpt s
  | none, h, _ => absurd h List.not_mem_nil
  | some s, h, hx => mem_identifiers_loops s h hx

end

end Stmt

namespace Function

/-- The names of the parameters and all that stand for a value in the body. -/
def identifiers (f : Function) : Names :=
  Ordered.union (f.params.map (·.name)) (Stmt.identifiersAll f.body)

/-- The variables of a function are identifiers of it. -/
theorem mem_identifiers {f : Function} {x : String} (h : x ∈ f.names) : x ∈ f.identifiers := by
  have hparams : ∀ ps : List Param,
      x ∈ ps.foldr (fun p xs => Names.add p.name xs) (Stmt.namesAll f.body) →
      x ∈ ps.map (·.name) ∨ x ∈ Stmt.namesAll f.body := by
    intro ps
    induction ps with
    | nil => exact .inr
    | cons p ps ih =>
        intro h
        rw [List.foldr_cons] at h
        rw [List.map_cons, List.mem_cons, or_assoc]
        exact (Names.mem_add.mp h).imp (·.1) ih
  exact Ordered.mem_union.mpr ((hparams f.params h).imp_right (Stmt.mem_identifiers_namesAll f.body))

theorem mem_identifiers_body {f : Function} {x : String} (h : x ∈ Stmt.identifiersAll f.body) :
    x ∈ f.identifiers := Ordered.mem_union.mpr (.inr h)

theorem mem_identifiers_strip {f : Function} {x : String} (h : x ∈ f.strip.identifiers) :
    x ∈ f.identifiers :=
  Ordered.mem_union.mpr ((Ordered.mem_union.mp h).imp_right (Stmt.mem_identifiers_stripAll f.body))

end Function

end GrowthFlow.Lang

namespace GrowthFlow

open Lang

/-! ## Effects and plans -/

namespace Relation

theorem normal_zero (x : String) : (zero [x]).Normal := by
  have hnd : [x].Nodup := List.pairwise_singleton _ x
  refine normal_of_entry hnd fun y hy z hz => ?_
  rw [entry_zero hnd hy hz]
  exact Poly.normal_zero

theorem normal_assignment {vars : List String} (hnd : vars.Nodup) {t : String} {f : String → Poly}
    (hf : ∀ x ∈ vars, (f x).Normal) : (assignment vars (vars.map f) t).Normal := by
  refine normal_of_entry hnd fun x hx y hy => ?_
  rw [entry_assignment hnd hx hy]
  split
  · exact hf x hx
  · exact normal_unchanged x y

end Relation

namespace Effect

/-- The flow of the effect is in normal form, and its variables have a property. -/
def Over (P : String → Prop) : Effect → Prop
  | nothing => True
  | flow R => R.Normal ∧ ∀ x ∈ R.vars, P x
  | choice x operands _ => P x ∧ ∀ y ∈ operands, P y
  | unsupported => True

variable {P : String → Prop}

theorem over_relation {e : Effect} (h : e.Over P) (k : Nat) : ∀ x ∈ (e.relation k).vars, P x := by
  cases e with
  | nothing => exact fun _ hx => absurd hx List.not_mem_nil
  | flow R => exact h.2
  | choice x operands scalars =>
      intro y hy
      rcases List.mem_cons.mp hy with rfl | hy
      · exact h.1
      · exact h.2 y (List.mem_filter.mp hy).1
  | unsupported => exact fun _ hx => absurd hx List.not_mem_nil

theorem over_zero {x : String} (hx : P x) : (flow (.zero [x])).Over P :=
  ⟨Relation.normal_zero x, fun _ ha => List.mem_singleton.mp ha ▸ hx⟩

theorem over_copy {x y : String} (hx : P x) (hy : P y) : (copy x y).Over P := by
  unfold copy
  split
  · trivial
  · rename_i hne
    have hcolumn : [Poly.zero, Poly.unit] = [x, y].map fun z => if z = x then .zero else .unit := by
      simp [Ne.symm hne]
    refine ⟨?_, fun a ha => ?_⟩
    · rw [hcolumn]
      refine Relation.normal_assignment (by simp [hne]) fun z _ => ?_
      split
      · exact Poly.normal_zero
      · exact Poly.normal_unit
    · rcases List.mem_cons.mp ha with rfl | ha
      · exact hx
      · exact List.mem_singleton.mp ha ▸ hy

theorem over_arithmetic {x : String} {y z : Operand} (op : BinaryOp) (hx : P x)
    (hy : ∀ a, y.name? = some a → P a) (hz : ∀ b, z.name? = some b → P b) :
    (arithmetic x op y z).Over P := by
  have hoperands : ∀ a ∈ operandNames y z, P a := by
    intro a ha
    unfold operandNames at ha
    split at ha
    · rename_i b c hb hc
      split at ha
      · exact hy a (by rw [hb, List.mem_singleton.mp ha])
      · rcases List.mem_cons.mp ha with rfl | ha
        · exact hy a hb
        · exact hz a (by rw [hc, List.mem_singleton.mp ha])
    · rename_i hb _
      exact hy a (by rw [hb, List.mem_singleton.mp ha])
    · rename_i hb
      exact hz a (by rw [hb, List.mem_singleton.mp ha])
    · exact absurd ha List.not_mem_nil
  unfold arithmetic
  split
  · exact over_zero hx
  · exact ⟨hx, hoperands⟩

theorem mem_identifiers_operand {e : Expr} {y : Operand} {a : String}
    (h : Operand.ofExpr? e = some y) (ha : y.name? = some a) : a ∈ e.identifiers := by
  unfold Operand.ofExpr? at h
  rw [← Expr.identifiers_uncast]
  split at h
  · rename_i b hb
    cases h
    cases ha
    rw [hb]
    exact List.mem_singleton_self a
  · cases h
    cases ha
  · cases h

theorem over_ofAssign {x : String} {e : Expr} (hx : P x) (he : ∀ y ∈ e.identifiers, P y) :
    (ofAssign x e).Over P := by
  rw [← Expr.identifiers_uncast] at he
  unfold ofAssign
  split
  · rename_i op l r hbinary
    rw [hbinary, Expr.identifiers] at he
    split
    · rename_i y z hy hz
      split
      · exact over_arithmetic op hx
          (fun a ha => he a (Ordered.mem_union.mpr (.inl (mem_identifiers_operand hy ha))))
          (fun a ha => he a (Ordered.mem_union.mpr (.inr (mem_identifiers_operand hz ha))))
      · trivial
    · trivial
  · exact over_zero hx
  · rename_i y hvar
    rw [hvar] at he
    exact over_copy hx (he y (List.mem_singleton_self y))
  · exact ⟨Relation.normal_identity (List.pairwise_singleton _ x),
      fun a ha => List.mem_singleton.mp ha ▸ hx⟩
  · trivial

theorem over_ofExpr {e : Expr} (he : ∀ y ∈ e.identifiers, P y) : (ofExpr e).Over P := by
  unfold ofExpr
  split
  · rename_i op e
    split
    · split
      · rename_i x hvar
        have hx : P x := he x (by
          rw [Expr.identifiers, ← Expr.identifiers_uncast, hvar]
          exact List.mem_singleton_self x)
        exact over_arithmetic _ hx (fun a ha => Option.some.inj ha ▸ hx) fun b hb => by cases hb
      · trivial
    · trivial
  · split
    · trivial
    · trivial
  · trivial

end Effect

namespace Plan

/-- Every effect of the plan is over variables with a property. -/
def Over (P : String → Prop) : Plan → Prop
  | simple _ e => e.Over P
  | andThen p q => p.Over P ∧ q.Over P
  | either p q => p.Over P ∧ q.Over P
  | loop _ p => p.Over P

variable {P : String → Prop}

theorem over_ofBody {body : Stmt} {p : Plan} (h : p.Over P) : (ofBody body p).Over P := by
  unfold ofBody
  split
  · exact h
  · exact ⟨trivial, h⟩

mutual

theorem over_ofStmt (bounded : Bool) : ∀ {s : Stmt}, (∀ x ∈ s.identifiers, P x) →
    (ofStmt bounded s).Over P
  | .assign x e, h => by
      rw [Stmt.identifiers] at h
      rw [ofStmt]
      exact Effect.over_ofAssign (h x (Ordered.mem_insert_iff.mpr (.inl rfl)))
        fun y hy => h y (Ordered.mem_insert_iff.mpr (.inr hy))
  | .expr e, h => by
      rw [Stmt.identifiers] at h
      rw [ofStmt]
      exact Effect.over_ofExpr h
  | .decl t vars, h => by
      rw [ofStmt, Over]
      split
      · trivial
      · trivial
  | .branch c yes no, h => by
      rw [Stmt.identifiers] at h
      simp only [Ordered.mem_union] at h
      rw [ofStmt]
      exact ⟨over_ofBody (over_ofStmt bounded fun x hx => h x (.inr (.inl hx))),
        over_ofOption bounded fun x hx => h x (.inr (.inr hx))⟩
  | .whileLoop c body, h => by
      rw [Stmt.identifiers] at h
      rw [ofStmt]
      exact over_ofBody (over_ofStmt bounded fun x hx => h x (Ordered.mem_union.mpr (.inr hx)))
  | .doWhile body c, h => by
      rw [Stmt.identifiers] at h
      rw [ofStmt]
      exact over_ofBody (over_ofStmt bounded fun x hx => h x (Ordered.mem_union.mpr (.inr hx)))
  | .forLoop init c step body, h => by
      rw [ofStmt]
      split
      · rename_i guard hguard
        refine ⟨Effect.over_zero (h guard (Stmt.mem_identifiers_guard hguard)),
          over_ofBody (over_ofStmt bounded fun x hx => h x ?_)⟩
        rw [Stmt.identifiers]
        simp only [Ordered.mem_union]
        exact .inr (.inr (.inr hx))
      · trivial
  | .block body, h => by
      rw [Stmt.identifiers] at h
      rw [ofStmt]
      exact over_ofList bounded h trivial
  | .ret _, _ => by rw [ofStmt]; trivial
  | .breakJump, _ => by rw [ofStmt]; trivial
  | .continueJump, _ => by rw [ofStmt]; trivial
  | .empty, _ => by rw [ofStmt]; trivial

theorem over_ofList (bounded : Bool) : ∀ {ss : List Stmt} {p : Plan},
    (∀ x ∈ Stmt.identifiersAll ss, P x) → p.Over P → (ofList bounded p ss).Over P
  | [], p, _, hp => by rw [ofList]; exact hp
  | s :: ss, p, h, hp => by
      rw [Stmt.identifiersAll] at h
      simp only [Ordered.mem_union] at h
      rw [ofList]
      exact over_ofList bounded (fun x hx => h x (.inr hx))
        ⟨hp, over_ofStmt bounded fun x hx => h x (.inl hx)⟩

theorem over_ofOption (bounded : Bool) : ∀ {s : Option Stmt},
    (∀ x ∈ Stmt.identifiersOpt s, P x) → (ofOption bounded s).Over P
  | none, _ => by rw [ofOption]; trivial
  | some s, h => by
      rw [ofOption]
      exact over_ofBody (over_ofStmt bounded h)

end

/-- **The effects of statements keep to the identifiers of the statements.** -/
theorem over_ofStmts (opts : Options) {body : List Stmt} (h : ∀ x ∈ Stmt.identifiersAll body, P x) :
    (ofStmts opts body).Over P :=
  over_ofList _ h trivial

end Plan

end GrowthFlow
