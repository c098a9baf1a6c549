import GrowthFlow.Analysis.Program
import GrowthFlow.Proofs.Identifiers

/-!
# Coverage and the walk

Whether a statement is understood is decided in three places: by the list of what is not, by the function
that strips it, and by the walk, which passes over what it does not know and says so in its journal. They
have to agree.

Stripping changes the bodies of loops, and whether a `for` loop is understood depends on its body. But it
depends on it in one way only: the body must leave the guard alone. A stripped body has no more variables
than before, so the guard stays, and what is left of a statement is understood (`unsupported_strip?`). What
is understood is left (`strip?_of_covered`). The rest of the first half follows from these two.

For the walk, the plan of a statement that is understood has no step that is not (`understood_ofStmt`), and
such a plan is carried out without a word in the journal, whether it fails, stops early or comes to an end
(`journal_run`).
-/

namespace GrowthFlow

open Lang

/-! ## Stripping -/

namespace Lang.Stmt

/-- A guard stays when the body has fewer variables. -/
theorem guard?_of_subset {init : List Stmt} {c : Option Expr} {step : List Stmt} {body body' : Stmt}
    (hsub : ∀ x ∈ body'.names, x ∈ body.names) {guard : String}
    (h : (forLoop init c step body).guard? = some guard) :
    (forLoop init c step body').guard? = some guard := by
  change soleGuard? (guardNames init c (namesAll step)) body.names = some guard at h
  show soleGuard? (guardNames init c (namesAll step)) body'.names = some guard
  unfold soleGuard? at h ⊢
  split at h
  · rename_i x _
    split at h
    · cases h
    · rename_i hnot
      have hnot' : ¬ body'.names.contains x = true := by
        intro hx
        exact hnot (List.contains_iff_mem.mpr (hsub x (List.contains_iff_mem.mp hx)))
      rw [if_neg hnot']
      exact h
  · cases h

theorem names_forLoop {init : List Stmt} {c : Option Expr} {step : List Stmt} {body : Stmt}
    {guard : String} (h : (forLoop init c step body).guard? = some guard) :
    (forLoop init c step body).names = Names.add guard body.names := by
  change soleGuard? (guardNames init c (namesAll step)) body.names = some guard at h
  rw [names, h]

/-- What a simple statement is stripped to, if anything. -/
theorem eq_of_kept {s t : Stmt} (h : (if s.isSupported then some s else none) = some t) :
    t = s ∧ s.isSupported = true := by
  split at h
  · rename_i hs
    cases h
    exact ⟨rfl, hs⟩
  · cases h

/-- A body that goes away becomes the empty statement. -/
theorem body_of_strip? {Q : Stmt → Prop} {s : Stmt} (hempty : Q empty)
    (h : ∀ {t}, s.strip? = some t → Q t) : Q (s.strip?.getD empty) := by
  cases hs : s.strip? with
  | none => exact hempty
  | some t => exact h hs

/-- The empty statement has no variables, whatever was left out for it. -/
theorem mem_names_body {x : String} {s : Stmt}
    (h : ∀ {t}, s.strip? = some t → x ∈ t.names → x ∈ s.names) :
    x ∈ (s.strip?.getD empty).names → x ∈ s.names :=
  body_of_strip? (Q := fun t => x ∈ t.names → x ∈ s.names) (fun hx => absurd hx List.not_mem_nil) h

mutual

/-- Stripping a statement brings in no variables. -/
theorem mem_names_strip? {x : String} : ∀ {s t : Stmt}, s.strip? = some t → x ∈ t.names → x ∈ s.names
  | branch c yes no, t, h, hx => by
      rw [strip?] at h
      cases h
      rw [names, Ordered.mem_union] at hx ⊢
      exact hx.imp (mem_names_body mem_names_strip?) (mem_names_stripOpt no)
  | whileLoop c body, t, h, hx => by
      rw [strip?] at h
      cases h
      rw [names, Ordered.mem_union] at hx ⊢
      exact hx.imp_right (mem_names_body mem_names_strip?)
  | doWhile body c, t, h, hx => by
      rw [strip?] at h
      cases h
      rw [names, Ordered.mem_union] at hx ⊢
      exact hx.imp_right (mem_names_body mem_names_strip?)
  | forLoop init c step body, t, h, hx => by
      rw [strip?] at h
      split at h
      · rename_i hguard
        obtain ⟨guard, hguard⟩ := Option.isSome_iff_exists.mp hguard
        cases h
        rw [names_forLoop (guard?_of_subset (fun y => mem_names_body mem_names_strip?) hguard),
          Names.mem_add] at hx
        rw [names_forLoop hguard, Names.mem_add]
        exact hx.imp_right (mem_names_body mem_names_strip?)
      · cases h
  | block body, t, h, hx => by
      rw [strip?] at h
      cases h
      rw [names] at hx ⊢
      exact mem_names_stripAll body hx
  | assign _ _, t, h, hx => (eq_of_kept h).1 ▸ hx
  | expr _, t, h, hx => (eq_of_kept h).1 ▸ hx
  | decl _ _, t, h, hx => (eq_of_kept h).1 ▸ hx
  | ret _, t, h, hx => (eq_of_kept h).1 ▸ hx
  | breakJump, t, h, hx => (eq_of_kept h).1 ▸ hx
  | continueJump, t, h, hx => (eq_of_kept h).1 ▸ hx
  | empty, t, h, hx => (eq_of_kept h).1 ▸ hx

theorem mem_names_stripAll {x : String} : ∀ ss : List Stmt, x ∈ namesAll (stripAll ss) → x ∈ namesAll ss
  | [], hx => hx
  | s :: ss, hx => by
      rw [stripAll] at hx
      rw [namesAll, Ordered.mem_union]
      split at hx
      · rename_i t ht
        rw [namesAll, Ordered.mem_union] at hx
        exact hx.imp (mem_names_strip? ht) (mem_names_stripAll ss)
      · exact .inr (mem_names_stripAll ss hx)

theorem mem_names_stripOpt {x : String} : ∀ s : Option Stmt, x ∈ namesOpt (stripOpt s) → x ∈ namesOpt s
  | none, hx => hx
  | some s, hx => by
      rw [stripOpt] at hx
      cases ht : s.strip? with
      | none =>
          rw [ht] at hx
          exact absurd hx List.not_mem_nil
      | some t =>
          rw [ht] at hx
          exact mem_names_strip? ht hx

end

theorem covered_of_kept {s t : Stmt} (hs : s.unsupported = if s.isSupported then [] else [s])
    (h : (if s.isSupported then some s else none) = some t) : t.unsupported = [] := by
  obtain ⟨rfl, hkept⟩ := eq_of_kept h
  rw [hs, if_pos hkept]

theorem unsupported_body {s : Stmt} (h : ∀ {t}, s.strip? = some t → t.unsupported = []) :
    (s.strip?.getD empty).unsupported = [] :=
  body_of_strip? (Q := fun t => t.unsupported = []) rfl h

mutual

/-- What is left of a statement is understood. -/
theorem unsupported_strip? : ∀ {s t : Stmt}, s.strip? = some t → t.unsupported = []
  | branch c yes no, t, h => by
      rw [strip?] at h
      cases h
      rw [unsupported, unsupported_body unsupported_strip?, unsupportedOpt_stripOpt no, List.append_nil]
  | whileLoop c body, t, h => by
      rw [strip?] at h
      cases h
      rw [unsupported, unsupported_body unsupported_strip?]
  | doWhile body c, t, h => by
      rw [strip?] at h
      cases h
      rw [unsupported, unsupported_body unsupported_strip?]
  | forLoop init c step body, t, h => by
      rw [strip?] at h
      split at h
      · rename_i hguard
        obtain ⟨guard, hguard⟩ := Option.isSome_iff_exists.mp hguard
        have hstays := guard?_of_subset (fun x => mem_names_body mem_names_strip?) hguard
        cases h
        rw [unsupported, hstays, Option.isSome_some, if_pos rfl, unsupported_body unsupported_strip?]
      · cases h
  | block body, t, h => by
      rw [strip?] at h
      cases h
      rw [unsupported, unsupportedAll_stripAll body]
  | assign _ _, t, h => covered_of_kept rfl h
  | expr _, t, h => covered_of_kept rfl h
  | decl _ _, t, h => covered_of_kept rfl h
  | ret _, t, h => covered_of_kept rfl h
  | breakJump, t, h => covered_of_kept rfl h
  | continueJump, t, h => covered_of_kept rfl h
  | empty, t, h => covered_of_kept rfl h

theorem unsupportedAll_stripAll : ∀ ss : List Stmt, unsupportedAll (stripAll ss) = []
  | [] => rfl
  | s :: ss => by
      rw [stripAll]
      split
      · rename_i t ht
        rw [unsupportedAll, unsupported_strip? ht, unsupportedAll_stripAll ss, List.append_nil]
      · exact unsupportedAll_stripAll ss

theorem unsupportedOpt_stripOpt : ∀ s : Option Stmt, unsupportedOpt (stripOpt s) = []
  | none => rfl
  | some s => by
      rw [stripOpt]
      cases hs : s.strip? with
      | none => rfl
      | some t => exact unsupported_strip? hs

end

theorem isSupported_of_covered {s : Stmt} (h : (if s.isSupported then [] else [s]) = []) :
    s.isSupported = true := by
  split at h
  · assumption
  · cases h

theorem kept_of_covered {s : Stmt} (h : (if s.isSupported then [] else [s]) = []) :
    (if s.isSupported then some s else none) = some s :=
  if_pos (isSupported_of_covered h)

/-- A `for` loop is understood if it has a guard and its body is. -/
theorem unsupported_forLoop {init : List Stmt} {c : Option Expr} {step : List Stmt} {body : Stmt} :
    (forLoop init c step body).unsupported = [] ↔
      (∃ guard, (forLoop init c step body).guard? = some guard) ∧ body.unsupported = [] := by
  rw [unsupported, ← Option.isSome_iff_exists]
  split
  · rename_i hguard
    exact (and_iff_right hguard).symm
  · rename_i hguard
    refine ⟨fun h => ?_, fun h => absurd h.1 hguard⟩
    cases h

mutual

/-- What is understood is left as it is. -/
theorem strip?_of_covered : ∀ {s : Stmt}, s.unsupported = [] → s.strip? = some s
  | branch c yes no, h => by
      rw [unsupported, List.append_eq_nil_iff] at h
      rw [strip?, strip?_of_covered h.1, stripOpt_of_covered no h.2, Option.getD_some]
  | whileLoop c body, h => by
      rw [unsupported] at h
      rw [strip?, strip?_of_covered h, Option.getD_some]
  | doWhile body c, h => by
      rw [unsupported] at h
      rw [strip?, strip?_of_covered h, Option.getD_some]
  | forLoop init c step body, h => by
      obtain ⟨⟨guard, hguard⟩, hbody⟩ := unsupported_forLoop.mp h
      rw [strip?, hguard, Option.isSome_some, if_pos rfl, strip?_of_covered hbody, Option.getD_some]
  | block body, h => by
      rw [unsupported] at h
      rw [strip?, stripAll_of_covered body h]
  | assign _ _, h => kept_of_covered h
  | expr _, h => kept_of_covered h
  | decl _ _, h => kept_of_covered h
  | ret _, h => kept_of_covered h
  | breakJump, h => kept_of_covered h
  | continueJump, h => kept_of_covered h
  | empty, h => kept_of_covered h

theorem stripAll_of_covered : ∀ ss : List Stmt, unsupportedAll ss = [] → stripAll ss = ss
  | [], _ => rfl
  | s :: ss, h => by
      rw [unsupportedAll, List.append_eq_nil_iff] at h
      rw [stripAll, strip?_of_covered h.1, stripAll_of_covered ss h.2]

theorem stripOpt_of_covered : ∀ s : Option Stmt, unsupportedOpt s = [] → stripOpt s = s
  | none, _ => rfl
  | some s, h => by
      rw [unsupportedOpt] at h
      rw [stripOpt, strip?_of_covered h]

end

end Lang.Stmt

namespace Lang.Function

theorem isCovered_iff {f : Function} : f.isCovered = true ↔ Stmt.unsupportedAll f.body = [] :=
  List.isEmpty_iff

theorem isCovered_strip (f : Function) : f.strip.isCovered = true :=
  isCovered_iff.mpr (Stmt.unsupportedAll_stripAll f.body)

theorem strip_of_isCovered {f : Function} (h : f.isCovered = true) : f.strip = f := by
  unfold strip
  rw [Stmt.stripAll_of_covered f.body (isCovered_iff.mp h)]

end Lang.Function

/-! ## Effects of what is understood -/

theorem Lang.Expr.uncast_ne_cast {t : TypeName} : ∀ {e e' : Expr}, e.uncast ≠ .cast t e'
  | .const _, _ => nofun
  | .var _, _ => nofun
  | .binary _ _ _, _ => nofun
  | .unary _ _, _ => nofun
  | .call _ _, _ => nofun
  | .cast _ e, _ => uncast_ne_cast (e := e)

theorem Operand.ofExpr?_of_isAtomic {e : Expr} (h : e.isAtomic = true) :
    ∃ y, Operand.ofExpr? e = some y := by
  unfold Expr.isAtomic at h
  unfold Operand.ofExpr?
  cases he : e.uncast <;> simp [he] at h ⊢

namespace Effect

theorem arithmetic_ne_unsupported (x : String) (op : BinaryOp) (y z : Operand) :
    arithmetic x op y z ≠ .unsupported := by
  unfold arithmetic
  split <;> nofun

theorem copy_ne_unsupported (x y : String) : copy x y ≠ .unsupported := by
  unfold copy
  split <;> nofun

/-- An assignment that is understood has an effect. -/
theorem ofAssign_ne_unsupported {x : String} {e : Expr} (h : (Stmt.assign x e).isSupported = true) :
    ofAssign x e ≠ .unsupported := by
  rw [Stmt.isSupported, Bool.and_eq_true, Bool.not_eq_true'] at h
  unfold ofAssign
  cases he : e.uncast with
  | const _ => nofun
  | var y => exact copy_ne_unsupported x y
  | unary _ _ => nofun
  | cast t e' => exact absurd he Expr.uncast_ne_cast
  | call f args =>
      rw [he] at h
      exact absurd h.1 Bool.noConfusion
  | binary op l r =>
      rw [he, Expr.isSupported, Bool.and_eq_true, Bool.and_eq_true] at h
      obtain ⟨_, ⟨hop, hl⟩, hr⟩ := h
      obtain ⟨y, hy⟩ := Operand.ofExpr?_of_isAtomic hl
      obtain ⟨z, hz⟩ := Operand.ofExpr?_of_isAtomic hr
      simp only [hy, hz, hop, if_true]
      exact arithmetic_ne_unsupported x op y z

/-- An expression statement that is understood has an effect, or none by itself. -/
theorem ofExpr_ne_unsupported {e : Expr} (h : e.isSupported = true) : ofExpr e ≠ .unsupported := by
  cases e with
  | const _ => nofun
  | var _ => nofun
  | binary _ _ _ => nofun
  | cast _ _ => nofun
  | call f args =>
      rw [Expr.isSupported] at h
      rw [ofExpr, if_pos h]
      nofun
  | unary op e =>
      rw [ofExpr]
      split
      · split
        · exact arithmetic_ne_unsupported _ _ _ _
        · nofun
      · nofun

end Effect

/-! ## Plans of what is understood -/

namespace Plan

/-- Every step of the plan is understood. -/
def Understood : Plan → Prop
  | simple _ e => e ≠ .unsupported
  | andThen p q => p.Understood ∧ q.Understood
  | either p q => p.Understood ∧ q.Understood
  | loop _ p => p.Understood

theorem understood_skip : skip.Understood := by
  show Effect.nothing ≠ .unsupported
  nofun

theorem understood_ofBody {body : Stmt} {p : Plan} (h : p.Understood) : (ofBody body p).Understood := by
  unfold ofBody
  split
  · exact h
  · exact ⟨understood_skip, h⟩

mutual

/-- The plan of a statement that is understood has no step that is not. -/
theorem understood_ofStmt (bounded : Bool) : ∀ s : Stmt, s.unsupported = [] →
    (ofStmt bounded s).Understood
  | .assign x e, h => by
      rw [ofStmt]
      exact Effect.ofAssign_ne_unsupported (Stmt.isSupported_of_covered h)
  | .expr e, h => by
      rw [ofStmt]
      exact Effect.ofExpr_ne_unsupported (Stmt.isSupported_of_covered h)
  | .decl t vars, h => by
      have hnone : vars.all (·.init.isNone) = true := Stmt.isSupported_of_covered h
      have hany : ¬ vars.any (·.init.isSome) = true := by
        intro hany
        obtain ⟨d, hd, hsome⟩ := List.any_eq_true.mp hany
        have hnone := List.all_eq_true.mp hnone d hd
        rw [Option.isNone_iff_eq_none.mp hnone] at hsome
        cases hsome
      rw [ofStmt, if_neg hany]
      exact understood_skip
  | .branch c yes no, h => by
      rw [Stmt.unsupported, List.append_eq_nil_iff] at h
      rw [ofStmt]
      exact ⟨understood_ofBody (understood_ofStmt bounded yes h.1), understood_ofOption bounded no h.2⟩
  | .whileLoop c body, h => by
      rw [Stmt.unsupported] at h
      rw [ofStmt]
      exact understood_ofBody (understood_ofStmt bounded body h)
  | .doWhile body c, h => by
      rw [Stmt.unsupported] at h
      rw [ofStmt]
      exact understood_ofBody (understood_ofStmt bounded body h)
  | .forLoop init c step body, h => by
      obtain ⟨⟨guard, hguard⟩, hbody⟩ := Stmt.unsupported_forLoop.mp h
      rw [ofStmt, hguard]
      exact ⟨nofun, understood_ofBody (understood_ofStmt bounded body hbody)⟩
  | .block body, h => by
      rw [Stmt.unsupported] at h
      rw [ofStmt]
      exact understood_ofList bounded body understood_skip h
  | .ret _, _ => by rw [ofStmt]; exact understood_skip
  | .breakJump, _ => by rw [ofStmt]; exact understood_skip
  | .continueJump, _ => by rw [ofStmt]; exact understood_skip
  | .empty, _ => by rw [ofStmt]; exact understood_skip

theorem understood_ofList (bounded : Bool) : ∀ (ss : List Stmt) {p : Plan}, p.Understood →
    Stmt.unsupportedAll ss = [] → (ofList bounded p ss).Understood
  | [], p, hp, _ => by rw [ofList]; exact hp
  | s :: ss, p, hp, h => by
      rw [Stmt.unsupportedAll, List.append_eq_nil_iff] at h
      rw [ofList]
      exact understood_ofList bounded ss ⟨hp, understood_ofStmt bounded s h.1⟩ h.2

theorem understood_ofOption (bounded : Bool) : ∀ s : Option Stmt, Stmt.unsupportedOpt s = [] →
    (ofOption bounded s).Understood
  | none, _ => by rw [ofOption]; exact understood_skip
  | some s, h => by
      rw [Stmt.unsupportedOpt] at h
      rw [ofOption]
      exact understood_ofBody (understood_ofStmt bounded s h)

end

end Plan

/-! ## Journals -/

theorem Walk.journal_promote (ws : List Witness) (w : Walk) : (promote ws w).journal = w.journal := by
  unfold promote
  split
  · rfl
  · rfl

/-- **A plan that is understood is carried out without a word**, however its run ends. -/
theorem Plan.Understood.journal_run {opts : Options} {p : Plan} (h : p.Understood) (w : Walk) :
    (p.run opts w).2.journal = w.journal := by
  induction p generalizing w with
  | simple s e =>
      cases e with
      | nothing => rfl
      | flow R => rfl
      | choice x operands scalars => rfl
      | unsupported => exact absurd rfl h
  | andThen p q ihp ihq =>
      have hp := ihp h.1 w
      rw [Plan.run_andThen]
      rcases hrun : p.run opts w with ⟨_ | R, w₁⟩ <;> rw [hrun] at hp
      · exact hp
      · have hq := (ihq h.2 w₁).trans hp
        simp only
        split
        · exact hp
        · rcases hrun : q.run opts w₁ with ⟨_ | S, w₂⟩ <;> rw [hrun] at hq
          · exact hq
          · exact hq
  | either p q ihp ihq =>
      have hp := ihp h.1 w
      rw [Plan.run_either]
      rcases hrun : p.run opts w with ⟨_ | R, w₁⟩ <;> rw [hrun] at hp
      · exact hp
      · have hq := (ihq h.2 w₁).trans hp
        simp only
        split
        · exact hp
        · rcases hrun : q.run opts w₁ with ⟨_ | S, w₂⟩ <;> rw [hrun] at hq
          · exact hq
          · simp only
            split
            · exact hq
            · exact hq
  | loop guard p ih =>
      have hp := ih h w
      rw [Plan.run_loop]
      rcases hrun : p.run opts w with ⟨_ | R, w₁⟩ <;> rw [hrun] at hp
      · exact hp
      · simp only
        split
        · exact hp
        · split
          · exact (Walk.journal_promote _ w₁).trans hp
          · exact hp

/-- A row of statements that are all understood, behind any relation. -/
theorem journal_sequence {opts : Options} {ss : List Stmt} (h : Stmt.unsupportedAll ss = [])
    (R : Relation) {w : Walk} (hw : w.stops opts = false) :
    (Walk.runFrom (Walk.sequence opts R ss) w).2.journal = w.journal := by
  have hstart : (Plan.simple .empty (.flow R)).run opts w = (.ok R, w) := rfl
  rw [Plan.run_sequence opts ss hstart hw]
  have hflow : (Plan.simple .empty (.flow R)).Understood := by
    show Effect.flow R ≠ .unsupported
    nofun
  exact (Plan.understood_ofList _ ss hflow h).journal_run w

namespace Analysis

variable {α β : Type}

/-- Whether nothing is written into the journal. -/
def Quiet (a : Analysis α) : Prop := ∀ es, (Walk.runFrom a es).2 = es

theorem Quiet.bind {a : Analysis α} {f : α → Analysis β} (ha : a.Quiet) (hf : ∀ x, (f x).Quiet) :
    Quiet (a >>= f) := by
  intro es
  have hes := ha es
  rw [Walk.runFrom_bind]
  rcases hrun : Walk.runFrom a es with ⟨_ | x, es'⟩ <;> rw [hrun] at hes
  · exact hes
  · exact (hf x es').trans hes

end Analysis

/-- The journal of an analysis is that of its walk. -/
theorem journal_walkOver (opts : Options) (vars : List String) (start : Nat) (body : List Stmt)
    (es : List Event) :
    (Walk.runFrom (walkOver opts vars start body) es).2 =
      es ++ (Walk.runFrom (Walk.sequence opts .empty body) { index := start }).2.journal := by
  unfold walkOver
  rw [show (Walk.sequence opts .empty body).run.run { index := start } =
    Walk.runFrom (Walk.sequence opts .empty body) { index := start } from rfl]
  rcases Walk.runFrom (Walk.sequence opts .empty body) { index := start } with ⟨e | R, w⟩
  · rfl
  · simp only [pure_bind]
    cases w.covered && !opts.complete with
    | true => rfl
    | false =>
        simp only [Bool.false_eq_true, if_false]
        cases ((Relation.identity vars).compose R).choices choiceValues w.index [] with
        | ok choices => rfl
        | error e => rfl

theorem quiet_resultOf (opts : Options) (name : String) (out : Outcome) :
    (resultOf opts name out).Quiet := by
  intro es
  unfold resultOf problematicFlows
  split
  · split
    · cases out.relation.allVariableChoices choiceValues out.index with
      | ok all => rfl
      | error e => rfl
    · rfl
  · split
    · rfl
    · rfl

section Covered

variable {body : List Stmt}

theorem quiet_walkOver (h : Stmt.unsupportedAll body = []) (opts : Options) (vars : List String)
    (start : Nat) : (walkOver opts vars start body).Quiet := by
  intro es
  rw [journal_walkOver, journal_sequence h .empty rfl, List.append_nil]

theorem quiet_analyzeBody (h : Stmt.unsupportedAll body = []) (opts : Options) (start : Nat) :
    (analyzeBody opts start body).Quiet := by
  unfold analyzeBody
  split
  · exact fun _ => rfl
  · exact quiet_walkOver h opts _ start

/-- Of a function that is understood, the journal says no more than that it is analyzed. -/
theorem journal_analyzeFunction {f : Function} (h : Stmt.unsupportedAll f.body = [])
    (opts : Options) : (analyzeFunction opts f).result.2 = [.analyzing f.name] := by
  have hquiet := (quiet_walkOver h opts f.names 0).bind (quiet_resultOf opts f.name)
  unfold analyzeFunction
  cases f.body.isEmpty with
  | true => rfl
  | false => exact hquiet [.analyzing f.name]

end Covered

/-- **Coverage, stripping and the walk agree.** What is left of a function is understood, nothing more goes
away the second time, and nothing goes away exactly if the function is understood. The plan of a function
that is understood has no step that is passed over; under all options, a walk over its body leaves the
journal as it was, and no analysis of it has anything to warn of. -/
theorem coverage_agrees_with_walk (f : Function) :
    (f.strip.isCovered = true ∧ f.strip.strip = f.strip ∧ (f.strip = f ↔ f.isCovered = true)) ∧
      (f.isCovered = true → ∀ opts : Options,
        (Plan.ofStmts opts f.body).Understood ∧
        (∀ R w, w.stops opts = false →
          (Walk.runFrom (Walk.sequence opts R f.body) w).2.journal = w.journal) ∧
        (analyzeFunction opts f).result.2 = [.analyzing f.name] ∧
        ∀ start, (analyzeBody opts start f.body).result.2 = []) := by
  refine ⟨⟨f.isCovered_strip, Function.strip_of_isCovered f.isCovered_strip, ?_⟩,
    fun hcovered opts => ?_⟩
  · constructor
    · intro h
      rw [← h]
      exact f.isCovered_strip
    · exact Function.strip_of_isCovered
  · have hbody := Function.isCovered_iff.mp hcovered
    exact ⟨Plan.understood_ofList _ f.body Plan.understood_skip hbody,
      fun R w hw => journal_sequence hbody R hw, journal_analyzeFunction hbody opts,
      fun start => quiet_analyzeBody hbody opts start []⟩

/-- A loop with a call in its body. The call goes away, the guard `n` stays, and what is left is walked over
without a warning. -/
theorem coverage_agrees_with_walk_call :
    let f : Function := ⟨["void"], "f", [⟨["int"], "n"⟩],
      [.forLoop [.assign "i" (.const 0)] (some (.binary .lt (.var "i") (.var "n")))
        [.expr (.unary .postInc (.var "i"))]
        (.block [.assign "x" (.binary .add (.var "x") (.cast ["int"] (.var "y"))),
          .assign "z" (.call "g" [.var "n"])])]⟩
    f.isCovered = false ∧ f.strip ≠ f ∧ f.strip.isCovered = true ∧ f.strip.strip = f.strip ∧
      ∀ opts, (analyzeFunction opts f.strip).result.2 = [.analyzing "f"] := by
  intro f
  have hnot : f.isCovered = false := by decide +kernel
  obtain ⟨⟨hstrip, hidem, hiff⟩, _⟩ := coverage_agrees_with_walk f
  refine ⟨hnot, fun h => ?_, hstrip, hidem, fun opts => ?_⟩
  · exact Bool.false_ne_true (hnot.symm.trans (hiff.mp h))
  · obtain ⟨_, _, hjournal, _⟩ := (coverage_agrees_with_walk f.strip).2 hstrip opts
    exact hjournal

end GrowthFlow
