import GrowthFlow.Proofs.Identifiers

/-!
# What can change the guard of a loop

A `for` loop is understood if it runs as often as its guard says, so the guard has to keep its value while the
loop runs. The test looks for the guard among the variables of the body: a statement that assigns a variable,
declares it or steps it has it among its variables, and so has every statement around it
(`mem_names_of_occurs`).

The test has two gaps. What the header of an inner loop sets or steps is no variable of that loop, so an inner
header may change the guard of the outer loop. And the first part of a header may copy a constant, which makes
the constant a candidate; but a constant is never among the variables of a body, so the body is not looked at.
Apart from these two, nothing in the body changes the guard (`guard_kept_outside_headers`).
-/

namespace GrowthFlow.Lang

/-! ## Constants are no variables -/

theorem Names.not_constant_of_add {x y : String} {xs : Names} (h : y ∈ add x xs)
    (hxs : y ∈ xs → y ∉ constantNames) : y ∉ constantNames := by
  rcases mem_add.mp h with ⟨rfl, hy⟩ | hy
  · exact hy
  · exact hxs hy

namespace Expr

theorem not_constant {x : String} : ∀ e : Expr, x ∈ e.names → x ∉ constantNames
  | const _, h => absurd h List.not_mem_nil
  | var _, h => Names.not_constant_of_add h fun h => absurd h List.not_mem_nil
  | unary _ e, h => not_constant e h
  | binary _ l r, h => (Ordered.mem_union.mp h).elim (not_constant l) (not_constant r)
  | cast _ e, h => not_constant e h
  | call _ _, h => absurd h List.not_mem_nil

theorem not_constant_opt {x : String} {e : Option Expr} (h : x ∈ (e.map names).getD []) :
    x ∉ constantNames := by
  cases e with
  | none => exact absurd h List.not_mem_nil
  | some e => exact not_constant e h

theorem names_uncast : ∀ e : Expr, e.uncast.names = e.names
  | const _ => rfl
  | var _ => rfl
  | unary _ _ => rfl
  | binary _ _ _ => rfl
  | call _ _ => rfl
  | cast _ e => names_uncast e

end Expr

namespace Stmt

theorem mem_names_decl {x : String} {type : TypeName} {vars : List Declarator} :
    x ∈ (decl type vars).names ↔ ∃ d ∈ vars, x ∈ d.names := by
  rw [names]
  induction vars with
  | nil => simp
  | cons d vars ih => rw [List.foldr_cons, Ordered.mem_union, ih]; simp

theorem mem_namesAll {x : String} {ss : List Stmt} : x ∈ namesAll ss ↔ ∃ s ∈ ss, x ∈ s.names := by
  induction ss with
  | nil => simp [namesAll]
  | cons s ss ih => rw [namesAll, Ordered.mem_union, ih]; simp

theorem soleGuard?_eq_some_iff {guards bodyNames : Names} {x : String} :
    soleGuard? guards bodyNames = some x ↔ guards = [x] ∧ x ∉ bodyNames := by
  unfold soleGuard?
  split
  · rename_i y
    by_cases hy : y ∈ bodyNames
    · rw [if_pos (List.contains_iff_mem.mpr hy)]
      refine ⟨fun h => (nomatch h), fun h => ?_⟩
      cases h.1
      exact absurd hy h.2
    · rw [if_neg (fun h => hy (List.contains_iff_mem.mp h)), Option.some.injEq, List.cons.injEq]
      exact ⟨fun h => ⟨⟨h, rfl⟩, h ▸ hy⟩, fun h => h.1.1⟩
  · rename_i hne
    exact ⟨fun h => (nomatch h), fun h => absurd h.1 (hne x)⟩

/-- The guard is the only candidate, and no variable of the body. -/
theorem guard?_eq_some_iff {init step : List Stmt} {c : Option Expr} {body : Stmt} {x : String} :
    (forLoop init c step body).guard? = some x ↔
      guardNames init c (namesAll step) = [x] ∧ x ∉ body.names :=
  soleGuard?_eq_some_iff

/-- The variables of a `for` loop are those of its body, and its guard unless that is a constant. -/
theorem mem_names_forLoop {init step : List Stmt} {c : Option Expr} {body : Stmt} {x : String} :
    x ∈ (forLoop init c step body).names ↔
      x ∈ body.names ∨ ((forLoop init c step body).guard? = some x ∧ x ∉ constantNames) := by
  have hguard : (forLoop init c step body).guard? =
      soleGuard? (guardNames init c (namesAll step)) body.names := rfl
  rw [names, hguard]
  cases soleGuard? (guardNames init c (namesAll step)) body.names with
  | none => simp
  | some y =>
      rw [Names.mem_add, or_comm, Option.some.injEq]
      refine or_congr_right ⟨fun h => ?_, fun h => ?_⟩
      · obtain ⟨rfl, hx⟩ := h
        exact ⟨rfl, hx⟩
      · obtain ⟨rfl, hx⟩ := h
        exact ⟨rfl, hx⟩

mutual

/-- A variable of a statement is not a constant. -/
theorem not_constant {x : String} : ∀ s : Stmt, x ∈ s.names → x ∉ constantNames
  | assign _ e, h => by
      rw [names] at h
      exact Names.not_constant_of_add h (Expr.not_constant e)
  | expr e, h => by
      rw [names] at h
      exact Expr.not_constant e h
  | decl _ _, h => by
      obtain ⟨d, _, hx⟩ := mem_names_decl.mp h
      exact Names.not_constant_of_add hx Expr.not_constant_opt
  | branch _ yes no, h => by
      rw [names, Ordered.mem_union] at h
      exact h.elim (not_constant yes) (not_constant_opt no)
  | whileLoop c body, h => by
      rw [names, Ordered.mem_union] at h
      exact h.elim (Expr.not_constant c) (not_constant body)
  | doWhile body c, h => by
      rw [names, Ordered.mem_union] at h
      exact h.elim (Expr.not_constant c) (not_constant body)
  | forLoop _ _ _ body, h => (mem_names_forLoop.mp h).elim (not_constant body) (·.2)
  | block body, h => by
      rw [names] at h
      exact not_constant_all body h
  | ret _, h => by
      rw [names] at h
      exact Expr.not_constant_opt h
  | breakJump, h => by rw [names] at h; exact absurd h List.not_mem_nil
  | continueJump, h => by rw [names] at h; exact absurd h List.not_mem_nil
  | empty, h => by rw [names] at h; exact absurd h List.not_mem_nil

theorem not_constant_all {x : String} : ∀ ss : List Stmt, x ∈ namesAll ss → x ∉ constantNames
  | [], h => absurd h List.not_mem_nil
  | s :: ss, h => by
      rw [namesAll, Ordered.mem_union] at h
      exact h.elim (not_constant s) (not_constant_all ss)

theorem not_constant_opt {x : String} : ∀ s : Option Stmt, x ∈ namesOpt s → x ∉ constantNames
  | none, h => absurd h List.not_mem_nil
  | some s, h => not_constant s h

end

/-! ## Statements inside of a statement -/

/-- The names to which a statement itself gives a value: the target of an assignment, what a declaration
declares, and the operand of a `++` or `--` that stands as a statement. -/
def changed : Stmt → List String
  | assign x _ => [x]
  | decl _ vars => vars.map (·.name)
  | expr (.unary op e) =>
    match op.isStep, e.uncast with
    | true, .var x => [x]
    | _, _ => []
  | _ => []

/-- The statement `t` stands somewhere in another one, or is that one. The flag tells whether the way there
leads through the header of a `for` loop. -/
inductive Occurs (t : Stmt) : (inHeader : Bool) → Stmt → Prop
  | here : Occurs t false t
  | yes {b : Bool} {c : Expr} {s : Stmt} {no : Option Stmt} (h : Occurs t b s) :
      Occurs t b (branch c s no)
  | no {b : Bool} {c : Expr} {s yes : Stmt} (h : Occurs t b s) : Occurs t b (branch c yes (some s))
  | whileBody {b : Bool} {c : Expr} {s : Stmt} (h : Occurs t b s) : Occurs t b (whileLoop c s)
  | doBody {b : Bool} {c : Expr} {s : Stmt} (h : Occurs t b s) : Occurs t b (doWhile s c)
  | forInit {b : Bool} {init step : List Stmt} {c : Option Expr} {body s : Stmt} (hs : s ∈ init)
      (h : Occurs t b s) : Occurs t true (forLoop init c step body)
  | forStep {b : Bool} {init step : List Stmt} {c : Option Expr} {body s : Stmt} (hs : s ∈ step)
      (h : Occurs t b s) : Occurs t true (forLoop init c step body)
  | forBody {b : Bool} {init step : List Stmt} {c : Option Expr} {s : Stmt} (h : Occurs t b s) :
      Occurs t b (forLoop init c step s)
  | item {b : Bool} {body : List Stmt} {s : Stmt} (hs : s ∈ body) (h : Occurs t b s) :
      Occurs t b (block body)

variable {t s : Stmt} {x : String}

/-- What a statement changes is a variable of it, unless it is a constant. -/
theorem mem_names_of_changed (hx : x ∉ constantNames) (h : x ∈ s.changed) : x ∈ s.names := by
  cases s with
  | assign y e =>
      rw [changed, List.mem_singleton] at h
      rw [names]
      exact Names.mem_add.mpr (.inl ⟨h, h ▸ hx⟩)
  | decl type vars =>
      obtain ⟨d, hd, hname⟩ := List.mem_map.mp h
      exact mem_names_decl.mpr ⟨d, hd, Names.mem_add.mpr (.inl ⟨hname.symm, hname ▸ hx⟩)⟩
  | expr e =>
      cases e with
      | unary op e =>
          rw [changed] at h
          split at h
          · rename_i y _ hy
            rw [List.mem_singleton] at h
            rw [names, Expr.names, ← Expr.names_uncast, hy]
            exact Names.mem_add.mpr (.inl ⟨h, h ▸ hx⟩)
          · exact absurd h List.not_mem_nil
      | _ => exact absurd h List.not_mem_nil
  | _ => exact absurd h List.not_mem_nil

/-- **What is changed outside of headers is a variable**, unless it is a constant. -/
theorem mem_names_of_occurs (hx : x ∉ constantNames) (h : Occurs t false s) (hchanged : x ∈ t.changed) :
    x ∈ s.names := by
  generalize hflag : false = inHeader at h
  induction h with
  | here => exact mem_names_of_changed hx hchanged
  | yes _ ih =>
      rw [names, Ordered.mem_union]
      exact .inl (ih hflag)
  | no _ ih =>
      rw [names, Ordered.mem_union]
      exact .inr (ih hflag)
  | whileBody _ ih =>
      rw [names, Ordered.mem_union]
      exact .inr (ih hflag)
  | doBody _ ih =>
      rw [names, Ordered.mem_union]
      exact .inr (ih hflag)
  | forInit => cases hflag
  | forStep => cases hflag
  | forBody _ ih => exact mem_names_forLoop.mpr (.inl (ih hflag))
  | item hs _ ih =>
      rw [names]
      exact mem_namesAll.mpr ⟨_, hs, ih hflag⟩

/-! ## Guards -/

/-- A constant is a candidate only where the first part of the header copies it. -/
theorem mem_initSources_of_constant {init : List Stmt} {c : Option Expr} {stepNames : Names}
    (h : x ∈ guardNames init c stepNames) (hx : x ∈ constantNames) : x ∈ init.flatMap initSources := by
  rcases Ordered.mem_union.mp (List.mem_filter.mp h).1 with h | h
  · exact Ordered.mem_ofList.mp h
  · exact absurd hx (Expr.not_constant_opt h)

/-- **Outside of inner headers nothing in the body of a loop changes its guard.** So the guard keeps its value
exactly if no header of a loop inside the body changes it. This is about guards that are variables: a
constant becomes a guard where the first part of the header copies it, whatever the body does. -/
theorem guard_kept_outside_headers {init step : List Stmt} {c : Option Expr} {body : Stmt}
    (h : (forLoop init c step body).guard? = some x) :
    (x ∉ constantNames →
      (∀ t, Occurs t false body → x ∉ t.changed) ∧
      ((∀ inHeader t, Occurs t inHeader body → x ∉ t.changed) ↔
        ∀ t, Occurs t true body → x ∉ t.changed)) ∧
    (x ∈ constantNames →
      x ∈ init.flatMap initSources ∧ ∀ other, (forLoop init c step other).guard? = some x) := by
  obtain ⟨hsole, hbody⟩ := guard?_eq_some_iff.mp h
  constructor
  · intro hx
    have houtside : ∀ t, Occurs t false body → x ∉ t.changed :=
      fun t ht hchanged => hbody (mem_names_of_occurs hx ht hchanged)
    refine ⟨houtside, fun hall => hall true, fun hheaders inHeader t ht => ?_⟩
    cases inHeader with
    | false => exact houtside t ht
    | true => exact hheaders t ht
  · intro hx
    refine ⟨mem_initSources_of_constant (hsole ▸ List.mem_singleton_self x) hx, fun other => ?_⟩
    exact guard?_eq_some_iff.mpr ⟨hsole, fun hother => not_constant other hother hx⟩

/-- `for (i = 0; i < guard; i++) body`, where `i` is called `iterator`. -/
def countingTo (iterator guard : String) (body : Stmt) : Stmt :=
  forLoop [assign iterator (.const 0)] (some (.binary .lt (.var iterator) (.var guard)))
    [expr (.unary .postInc (.var iterator))] body

/-- The body `x = x + y`. -/
def addingBody : Stmt := block [assign "x" (.binary .add (.var "x") (.var "y"))]

/-- `for (i = true; i < 9; i++) body`. -/
def countingFromTrue (body : Stmt) : Stmt :=
  forLoop [assign "i" (.var "true")] (some (.binary .lt (.var "i") (.const 9)))
    [expr (.unary .postInc (.var "i"))] body

/-- The header of the inner loop leaves the guard of the outer one alone, so nothing in the body changes it.
A constant that the header copies is a guard even of a body that sets it. -/
theorem guard_kept_outside_headers_nested :
    ((countingTo "i" "n" (countingTo "j" "m" addingBody)).guard? = some "n" ∧
      ∀ inHeader t, Occurs t inHeader (countingTo "j" "m" addingBody) → "n" ∉ t.changed) ∧
    (countingFromTrue addingBody).guard? = some "true" ∧
      (countingFromTrue (assign "true" (.const 1))).guard? = some "true" := by
  have hguard : (countingTo "i" "n" (countingTo "j" "m" addingBody)).guard? = some "n" := by
    decide +kernel
  have htrue : (countingFromTrue addingBody).guard? = some "true" := by decide +kernel
  refine ⟨⟨hguard, ((guard_kept_outside_headers hguard).1 (by decide)).2.mpr fun t ht => ?_⟩, htrue,
    ((guard_kept_outside_headers htrue).2 (by decide)).2 _⟩
  cases ht with
  | forInit hs h =>
      cases List.mem_singleton.mp hs
      cases h
      decide
  | forStep hs h =>
      cases List.mem_singleton.mp hs
      cases h
      decide
  | forBody h =>
      cases h with
      | item hs h =>
          cases List.mem_singleton.mp hs
          cases h

/-- The inner loop counts with the guard of the outer one, and its header sets it. -/
theorem guard_changed_in_inner_header :
    (countingTo "i" "n" (countingTo "n" "m" addingBody)).guard? = some "n" ∧
    ∃ t, Occurs t true (countingTo "n" "m" addingBody) ∧ "n" ∈ t.changed := by
  refine ⟨by decide +kernel, assign "n" (.const 0), ?_, by decide⟩
  exact .forInit (List.mem_singleton_self _) .here

end Stmt

end GrowthFlow.Lang
