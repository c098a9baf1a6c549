import Mathlib.Logic.Equiv.Basic
import GrowthFlow.Proofs.Relabelling
import GrowthFlow.Proofs.VariableOrder

/-!
# The names of variables

A renaming keeps names apart and leaves the constants alone. Renaming the variables of a program renames
the result of its analysis and changes nothing else.

The variables of a statement are kept in alphabetical order, and a renaming does not keep that order. What
it keeps is the set: the variables of a renamed statement are the images of its variables. That is enough
for the guard of a loop, which is the only one of several candidates, so the plan of a renamed body matches
that of the body. The order shows in one place only, where the relation of the whole body is extended to all
variables; there the rows and columns come out in another order, and the relations are the same by name.
-/

namespace GrowthFlow.Lang

/-- A map of names that keeps them apart and constants where they are. -/
structure IsRenaming (r : String → String) : Prop where
  injective : Function.Injective r
  constants : ∀ x ∈ constantNames, r x = x

variable {r : String → String}

theorem IsRenaming.mem_constantNames (hr : IsRenaming r) {x : String} :
    r x ∈ constantNames ↔ x ∈ constantNames := by
  constructor
  · intro hx
    have hsame : r x = x := hr.injective (hr.constants (r x) hx)
    rwa [hsame] at hx
  · intro hx
    rwa [hr.constants x hx]

/-! ## Renamed syntax -/

namespace Expr

mutual

/-- The expression with other names for its variables. Names of functions and types stay. -/
def rename (r : String → String) : Expr → Expr
  | const n => const n
  | var x => var (r x)
  | unary op e => unary op (e.rename r)
  | binary op left right => binary op (left.rename r) (right.rename r)
  | cast t e => cast t (e.rename r)
  | call f args => call f (renameAll r args)

/-- Several expressions with other names for their variables. -/
def renameAll (r : String → String) : List Expr → List Expr
  | [] => []
  | e :: es => e.rename r :: renameAll r es

end

theorem uncast_rename : ∀ e : Expr, (e.rename r).uncast = e.uncast.rename r
  | const _ => rfl
  | var _ => rfl
  | unary _ _ => rfl
  | binary _ _ _ => rfl
  | cast _ e => uncast_rename e
  | call _ _ => rfl

end Expr

/-- The declared variable with another name. -/
def Declarator.rename (r : String → String) (d : Declarator) : Declarator :=
  ⟨r d.name, d.init.map (Expr.rename r)⟩

namespace Stmt

mutual

/-- The statement with other names for its variables. -/
def rename (r : String → String) : Stmt → Stmt
  | assign x e => assign (r x) (e.rename r)
  | expr e => expr (e.rename r)
  | decl t vars => decl t (vars.map (Declarator.rename r))
  | branch c yes no => branch (c.rename r) (yes.rename r) (renameOpt r no)
  | whileLoop c body => whileLoop (c.rename r) (body.rename r)
  | doWhile body c => doWhile (body.rename r) (c.rename r)
  | forLoop init c step body =>
    forLoop (renameAll r init) (c.map (Expr.rename r)) (renameAll r step) (body.rename r)
  | block body => block (renameAll r body)
  | ret e => ret (e.map (Expr.rename r))
  | breakJump => breakJump
  | continueJump => continueJump
  | empty => empty

/-- Several statements with other names for their variables. -/
def renameAll (r : String → String) : List Stmt → List Stmt
  | [] => []
  | s :: ss => s.rename r :: renameAll r ss

/-- A statement that may be missing, with other names for its variables. -/
def renameOpt (r : String → String) : Option Stmt → Option Stmt
  | none => none
  | some s => some (s.rename r)

end

theorem isBlock_rename (s : Stmt) : (s.rename r).isBlock = s.isBlock := by
  cases s with
  | block body => simp only [rename, isBlock]
  | _ => simp only [rename, isBlock]

end Stmt

/-! ## Variables -/

namespace Names

/-- The second names are the images of the first ones, in any order. -/
def Renamed (r : String → String) (xs ys : List String) : Prop := ∀ y, y ∈ ys ↔ ∃ x ∈ xs, r x = y

variable {xs xs' ys ys' : List String}

theorem renamed_map (xs : List String) : Renamed r xs (xs.map r) := fun _ => List.mem_map

theorem Renamed.mem_iff (hr : IsRenaming r) (h : Renamed r xs ys) {x : String} :
    r x ∈ ys ↔ x ∈ xs := by
  rw [h]
  constructor
  · rintro ⟨x', hx', heq⟩
    rwa [← hr.injective heq]
  · exact fun hx => ⟨x, hx, rfl⟩

theorem Renamed.union (h : Renamed r xs ys) (h' : Renamed r xs' ys') :
    Renamed r (Ordered.union xs xs') (Ordered.union ys ys') := by
  intro y
  simp only [Ordered.mem_union, h y, h' y, or_and_right, exists_or]

theorem Renamed.add (hr : IsRenaming r) (x : String) (h : Renamed r xs ys) :
    Renamed r (add x xs) (add (r x) ys) := by
  intro y
  simp only [mem_add, h y, hr.mem_constantNames, or_and_right, exists_or]
  refine or_congr_left ⟨?_, ?_⟩
  · rintro ⟨rfl, hx⟩
    exact ⟨x, ⟨rfl, hx⟩, rfl⟩
  · rintro ⟨_, ⟨rfl, hx⟩, rfl⟩
    exact ⟨rfl, hx⟩

/-- Without repeats, images are a permutation. -/
theorem Renamed.perm (hr : IsRenaming r) (h : Renamed r xs ys) (hxs : xs.Nodup) (hys : ys.Nodup) :
    ys.Perm (xs.map r) :=
  (List.perm_ext_iff_of_nodup hys (hxs.map hr.injective)).mpr fun y => (h y).trans List.mem_map.symm

end Names

namespace Expr

theorem renamed_names (hr : IsRenaming r) : ∀ e : Expr, Names.Renamed r e.names (e.rename r).names
  | const _ => Names.renamed_map []
  | var x => (Names.renamed_map []).add hr x
  | unary _ e => renamed_names hr e
  | binary _ left right => (renamed_names hr left).union (renamed_names hr right)
  | cast _ e => renamed_names hr e
  | call _ _ => Names.renamed_map []

theorem renamed_namesOpt (hr : IsRenaming r) (e : Option Expr) :
    Names.Renamed r ((e.map names).getD []) (((e.map (rename r)).map names).getD []) := by
  cases e with
  | none => exact Names.renamed_map []
  | some e => exact renamed_names hr e

end Expr

theorem Declarator.renamed_names (hr : IsRenaming r) (d : Declarator) :
    Names.Renamed r d.names (d.rename r).names :=
  (Expr.renamed_namesOpt hr d.init).add hr d.name

namespace Stmt

/-! ## Guards -/

theorem initTargets_rename (s : Stmt) : (s.rename r).initTargets = s.initTargets.map r := by
  cases s with
  | decl t vars =>
      rw [rename, initTargets, initTargets, List.map_map, List.map_map]
      rfl
  | assign x e => rw [rename]; rfl
  | _ => rw [rename]; rfl

theorem initSources_rename (s : Stmt) : (s.rename r).initSources = s.initSources.map r := by
  cases s with
  | decl t vars =>
      rw [rename, initSources, initSources, List.filterMap_map, List.map_filterMap]
      refine List.filterMap_congr fun d _ => ?_
      rcases d with ⟨x, _ | e⟩
      · rfl
      · cases e with
        | var y => rfl
        | _ => rfl
  | assign x e =>
      rw [rename]
      cases e with
      | var y => rfl
      | _ => rfl
  | _ => rw [rename]; rfl

theorem flatMap_renameAll {f : Stmt → List String} (hf : ∀ s, f (s.rename r) = (f s).map r)
    (ss : List Stmt) : (renameAll r ss).flatMap f = (ss.flatMap f).map r := by
  induction ss with
  | nil => rw [renameAll]; rfl
  | cons s ss ih => rw [renameAll, List.flatMap_cons, List.flatMap_cons, hf, ih, List.map_append]

theorem renamed_guardNames (hr : IsRenaming r) (init : List Stmt) (c : Option Expr)
    {stepNames stepNames' : Names} (hstep : Names.Renamed r stepNames stepNames') :
    Names.Renamed r (guardNames init c stepNames)
      (guardNames (renameAll r init) (c.map (Expr.rename r)) stepNames') := by
  have htargets := flatMap_renameAll (r := r) initTargets_rename init
  have hsources := flatMap_renameAll (r := r) initSources_rename init
  have hcandidates : Names.Renamed r
      (Ordered.union (Ordered.ofList (init.flatMap initSources)) ((c.map Expr.names).getD []))
      (Ordered.union (Ordered.ofList ((renameAll r init).flatMap initSources))
        (((c.map (Expr.rename r)).map Expr.names).getD [])) := by
    refine Names.Renamed.union (fun y => ?_) (Expr.renamed_namesOpt hr c)
    simp only [Ordered.mem_ofList, hsources, List.mem_map]
  -- what the header sets or steps is taken out on both sides
  have hkept : ∀ x, (!(((renameAll r init).flatMap initTargets).contains (r x) ||
      stepNames'.contains (r x))) =
      !((init.flatMap initTargets).contains x || stepNames.contains x) := by
    intro x
    simp only [htargets, List.contains_eq_mem, List.mem_map_of_injective hr.injective, hstep.mem_iff hr]
  intro y
  unfold guardNames
  simp only [List.mem_filter, hcandidates y]
  constructor
  · rintro ⟨⟨x, hx, rfl⟩, hy⟩
    exact ⟨x, ⟨hx, (hkept x).symm.trans hy⟩, rfl⟩
  · rintro ⟨x, ⟨hx, hy⟩, rfl⟩
    exact ⟨⟨x, hx, rfl⟩, (hkept x).trans hy⟩

theorem nodup_guardNames (init : List Stmt) (c : Option Expr) (stepNames : Names) :
    (guardNames init c stepNames).Nodup :=
  (Ordered.increasing_union _ (Expr.increasing_namesOpt c)).nodup.filter _

/-- Whether there is only one name does not depend on how it is called. -/
theorem soleGuard?_renamed (hr : IsRenaming r) {guards guards' bodyNames bodyNames' : Names}
    (hguards : guards'.Perm (guards.map r)) (hbody : Names.Renamed r bodyNames bodyNames') :
    soleGuard? guards' bodyNames' = (soleGuard? guards bodyNames).map r := by
  cases guards with
  | nil =>
      rw [List.perm_nil.mp hguards]
      rfl
  | cons x rest =>
      cases rest with
      | nil =>
          rw [List.perm_singleton.mp hguards]
          unfold soleGuard?
          simp only [List.contains_eq_mem, hbody.mem_iff hr]
          split
          · rfl
          · rfl
      | cons y rest =>
          have hlength := hguards.length_eq
          simp only [List.length_map, List.length_cons] at hlength
          unfold soleGuard?
          split
          · simp only [List.length_cons, List.length_nil] at hlength
            omega
          · rfl

theorem soleGuard?_rename (hr : IsRenaming r) (init : List Stmt) (c : Option Expr)
    {step : List Stmt} {body : Stmt} (hstep : Names.Renamed r (namesAll step) (namesAll (renameAll r step)))
    (hbody : Names.Renamed r body.names (body.rename r).names) :
    soleGuard? (guardNames (renameAll r init) (c.map (Expr.rename r)) (namesAll (renameAll r step)))
        (body.rename r).names =
      (soleGuard? (guardNames init c (namesAll step)) body.names).map r :=
  soleGuard?_renamed hr ((renamed_guardNames hr init c hstep).perm hr (nodup_guardNames _ _ _)
    (nodup_guardNames _ _ _)) hbody

mutual

/-- **The variables of a renamed statement** are the images of its variables. -/
theorem renamed_names (hr : IsRenaming r) : ∀ s : Stmt, Names.Renamed r s.names (s.rename r).names
  | assign x e => by
      rw [rename, names, names]
      exact (Expr.renamed_names hr e).add hr x
  | expr e => by
      rw [rename, names, names]
      exact Expr.renamed_names hr e
  | decl t vars => by
      rw [rename, names, names]
      induction vars with
      | nil => exact Names.renamed_map []
      | cons d vars ih => exact (d.renamed_names hr).union ih
  | branch c yes no => by
      rw [rename, names, names]
      exact (renamed_names hr yes).union (renamed_namesOpt hr no)
  | whileLoop c body => by
      rw [rename, names, names]
      exact (Expr.renamed_names hr c).union (renamed_names hr body)
  | doWhile body c => by
      rw [rename, names, names]
      exact (Expr.renamed_names hr c).union (renamed_names hr body)
  | forLoop init c step body => by
      have hbody := renamed_names hr body
      rw [rename, names, names, soleGuard?_rename hr init c (renamed_namesAll hr step) hbody]
      cases soleGuard? (guardNames init c (namesAll step)) body.names with
      | none => exact hbody
      | some x => exact hbody.add hr x
  | block body => by
      rw [rename, names, names]
      exact renamed_namesAll hr body
  | ret e => by
      rw [rename, names, names]
      exact Expr.renamed_namesOpt hr e
  | breakJump => by rw [rename, names]; exact Names.renamed_map []
  | continueJump => by rw [rename, names]; exact Names.renamed_map []
  | empty => by rw [rename, names]; exact Names.renamed_map []

theorem renamed_namesAll (hr : IsRenaming r) : ∀ ss : List Stmt,
    Names.Renamed r (namesAll ss) (namesAll (renameAll r ss))
  | [] => by rw [renameAll, namesAll]; exact Names.renamed_map []
  | s :: ss => by
      rw [renameAll, namesAll, namesAll]
      exact (renamed_names hr s).union (renamed_namesAll hr ss)

theorem renamed_namesOpt (hr : IsRenaming r) : ∀ s : Option Stmt,
    Names.Renamed r (namesOpt s) (namesOpt (renameOpt r s))
  | none => by rw [renameOpt, namesOpt]; exact Names.renamed_map []
  | some s => by
      rw [renameOpt, namesOpt, namesOpt]
      exact renamed_names hr s

end

theorem guard?_rename (hr : IsRenaming r) (init : List Stmt) (c : Option Expr) (step : List Stmt)
    (body : Stmt) :
    (forLoop (renameAll r init) (c.map (Expr.rename r)) (renameAll r step) (body.rename r)).guard? =
      (forLoop init c step body).guard?.map r :=
  soleGuard?_rename hr init c (renamed_namesAll hr step) (renamed_names hr body)

end Stmt

end GrowthFlow.Lang

namespace GrowthFlow

open Lang

variable {r : String → String} {s : Nat}

/-! ## Effects -/

namespace Operand

/-- The operand with another name. -/
def rename (r : String → String) : Operand → Operand
  | var x => var (r x)
  | const => const

theorem ofExpr?_rename (e : Expr) : ofExpr? (e.rename r) = (ofExpr? e).map (rename r) := by
  unfold ofExpr?
  rw [Expr.uncast_rename]
  cases e.uncast with
  | var x => rfl
  | _ => rfl

theorem name?_rename (y : Operand) : (y.rename r).name? = y.name?.map r := by
  cases y with
  | var x => rfl
  | const => rfl

end Operand

namespace Effect

theorem operandNames_rename (hr : Function.Injective r) (y z : Operand) :
    operandNames (y.rename r) (z.rename r) = (operandNames y z).map r := by
  unfold operandNames
  rw [Operand.name?_rename, Operand.name?_rename]
  cases y.name? with
  | none =>
      cases z.name? with
      | none => rfl
      | some b => rfl
  | some a =>
      cases z.name? with
      | none => rfl
      | some b =>
          simp only [Option.map_some, hr.eq_iff]
          split
          · rfl
          · rfl

theorem scalarsOf_map (op : BinaryOp) (operands : List String) (hasConst : Bool) :
    scalarsOf op (operands.map r) hasConst = scalarsOf op operands hasConst := by
  rcases operands with _ | ⟨x, _ | ⟨y, operands⟩⟩
  · rfl
  · rfl
  · rfl

theorem arithmetic_rename (hr : Function.Injective r) (x : String) (op : BinaryOp) (y z : Operand) :
    arithmetic (r x) op (y.rename r) (z.rename r) = (arithmetic x op y z).relabel r s := by
  unfold arithmetic
  rw [operandNames_rename hr, Operand.name?_rename, Operand.name?_rename, Option.isNone_map,
    Option.isNone_map]
  cases hnames : operandNames y z with
  | nil => exact congrArg flow (Relation.relabel_zero [x]).symm
  | cons a rest =>
      simp only [List.map_cons]
      rw [← List.map_cons, scalarsOf_map]
      rfl

theorem copy_rename (hr : Function.Injective r) (x y : String) :
    copy (r x) (r y) = (copy x y).relabel r s := by
  unfold copy
  simp only [hr.eq_iff]
  split
  · rfl
  · exact congrArg flow (Relation.relabel_assignment hr [x, y] [.zero, .unit] x).symm

theorem ofAssign_rename (hr : Function.Injective r) (x : String) (e : Expr) :
    ofAssign (r x) (e.rename r) = (ofAssign x e).relabel r s := by
  unfold ofAssign
  rw [Expr.uncast_rename]
  cases e.uncast with
  | binary op left right =>
      simp only [Expr.rename, Operand.ofExpr?_rename]
      cases Operand.ofExpr? left with
      | none => rfl
      | some y =>
          cases Operand.ofExpr? right with
          | none => rfl
          | some z =>
              simp only [Option.map_some]
              split
              · exact arithmetic_rename hr x op y z
              · rfl
  | const n => exact congrArg flow (Relation.relabel_zero [x]).symm
  | var y => exact copy_rename hr x y
  | unary op e => exact congrArg flow (Relation.relabel_identity [x]).symm
  | cast t e => rfl
  | call f args => rfl

theorem ofExpr_rename (hr : Function.Injective r) (e : Expr) :
    ofExpr (e.rename r) = (ofExpr e).relabel r s := by
  cases e with
  | unary op e =>
      simp only [Expr.rename, ofExpr, Expr.uncast_rename]
      split
      · cases e.uncast with
        | var x => exact arithmetic_rename hr x (stepOp op) (.var x) .const
        | _ => rfl
      · rfl
  | call f args =>
      simp only [Expr.rename, ofExpr]
      split
      · rfl
      · rfl
  | _ => rfl

end Effect

/-! ## Plans -/

namespace Plan

theorem matches_skip : Matches r s skip skip := .simple .empty .empty .nothing

theorem matches_ofBody (body : Stmt) {p p' : Plan} (h : Matches r s p p') :
    Matches r s (ofBody body p) (ofBody (body.rename r) p') := by
  unfold ofBody
  rw [Stmt.isBlock_rename]
  split
  · exact h
  · exact .andThen matches_skip h

mutual

/-- **The plan of a renamed statement matches that of the statement.** -/
theorem matches_ofStmt (hr : IsRenaming r) (bounded : Bool) : ∀ st : Stmt,
    Matches r s (ofStmt bounded st) (ofStmt bounded (st.rename r))
  | .assign x e => by
      rw [Stmt.rename, ofStmt, ofStmt, Effect.ofAssign_rename (s := s) hr.injective]
      exact .simple _ _ _
  | .expr e => by
      rw [Stmt.rename, ofStmt, ofStmt, Effect.ofExpr_rename (s := s) hr.injective]
      exact .simple _ _ _
  | .decl t vars => by
      have hinit : (vars.map (Declarator.rename r)).any (·.init.isSome) = vars.any (·.init.isSome) := by
        refine any_map_of (fun d => ?_) vars
        exact Option.isSome_map
      rw [Stmt.rename, ofStmt, ofStmt, hinit]
      split
      · exact .simple _ _ .unsupported
      · exact .simple _ _ .nothing
  | .branch c yes no => by
      rw [Stmt.rename, ofStmt, ofStmt]
      exact .either (matches_ofBody yes (matches_ofStmt hr bounded yes)) (matches_ofOption hr bounded no)
  | .whileLoop c body => by
      rw [Stmt.rename, ofStmt, ofStmt]
      exact .loop none (matches_ofBody body (matches_ofStmt hr bounded body))
  | .doWhile body c => by
      rw [Stmt.rename, ofStmt, ofStmt]
      exact .loop none (matches_ofBody body (matches_ofStmt hr bounded body))
  | .forLoop init c step body => by
      rw [Stmt.rename, ofStmt, ofStmt, Stmt.guard?_rename hr]
      cases (Stmt.forLoop init c step body).guard? with
      | none => exact .simple _ _ .unsupported
      | some guard =>
          have hzero := Matches.simple (r := r) (s := s) .empty .empty (.flow (.zero [guard]))
          rw [Effect.relabel, Relation.relabel_zero] at hzero
          have hloop := Matches.loop (if bounded then some guard else none)
            (hzero.andThen (matches_ofBody body (matches_ofStmt hr bounded body)))
          rwa [apply_ite (Option.map r)] at hloop
  | .block body => by
      rw [Stmt.rename, ofStmt, ofStmt]
      exact matches_ofList hr bounded body matches_skip
  | .ret e => by rw [Stmt.rename, ofStmt, ofStmt]; exact matches_skip
  | .breakJump => by rw [Stmt.rename, ofStmt]; exact matches_skip
  | .continueJump => by rw [Stmt.rename, ofStmt]; exact matches_skip
  | .empty => by rw [Stmt.rename, ofStmt]; exact matches_skip

theorem matches_ofList (hr : IsRenaming r) (bounded : Bool) : ∀ (ss : List Stmt) {p p' : Plan},
    Matches r s p p' → Matches r s (ofList bounded p ss) (ofList bounded p' (Stmt.renameAll r ss))
  | [], p, p', h => by
      rw [Stmt.renameAll, ofList, ofList]
      exact h
  | st :: ss, p, p', h => by
      rw [Stmt.renameAll, ofList, ofList]
      exact matches_ofList hr bounded ss (h.andThen (matches_ofStmt hr bounded st))

theorem matches_ofOption (hr : IsRenaming r) (bounded : Bool) : ∀ st : Option Stmt,
    Matches r s (ofOption bounded st) (ofOption bounded (Stmt.renameOpt r st))
  | none => by
      rw [Stmt.renameOpt, ofOption]
      exact matches_skip
  | some st => by
      rw [Stmt.renameOpt, ofOption, ofOption]
      exact matches_ofBody st (matches_ofStmt hr bounded st)

end

end Plan

/-! ## Outcomes -/

namespace Relation

/-- The relation with other names for its variables. -/
def rename (r : String → String) (R : Relation) : Relation :=
  ⟨R.vars.map r, R.matrix, by rw [R.size_eq, List.length_map]⟩

theorem relabel_by_zero (r : String → String) (R : Relation) : R.relabel r 0 = R.rename r :=
  ext_matrix rfl (FlowMatrix.shift_by_zero R.matrix)

variable {R : Relation} {vars vars' : List String}

/-- The order of the variables that keep their values does not matter. -/
theorem same_identity_compose (hR : R.Normal) (hnd : vars.Nodup) (hnd' : vars'.Nodup)
    (hvars : ∀ x, x ∈ vars ↔ x ∈ vars') :
    ((identity vars).compose R).same ((identity vars').compose R) = true := by
  have halike := (alike_identity hnd hnd' hvars).compose (normal_identity hnd) (normal_identity hnd')
    hR hR (.refl R)
  exact halike.same ((normal_identity hnd).compose hR).nodup ((normal_identity hnd').compose hR).nodup

end Relation

/-- An outcome of a program and one of the program with its variables renamed. -/
structure Outcome.Renamed (r : String → String) (out out' : Outcome) : Prop where
  index : out'.index = out.index
  covered : out'.covered = out.covered
  choices : out'.choices = out.choices
  relation : out'.relation.same (out.relation.rename r) = true

theorem outcome_renamed (opts : Options) {P : String → Prop} {vars vars' : List String}
    {T : Relation} {w w' : Walk} (hr : IsRenaming r) (hnd : vars.Nodup) (hnd' : vars'.Nodup)
    (hvars : Names.Renamed r vars vars') (hP : ∀ x ∈ vars, P x) (hT : T.Regular P w.index)
    (hT' : (T.relabel r 0).Normal) (hw : w.Apart 0 w') :
    ∃ out out', outcome opts vars (.ok T, w) = .ok out ∧
      outcome opts vars' (.ok (T.relabel r 0), w') = .ok out' ∧ out.Renamed r out' := by
  have hindex : w'.index = w.index := hw.index
  have hrenamed : ((Relation.identity vars).compose T).rename r =
      (Relation.identity (vars.map r)).compose (T.relabel r 0) := by
    rw [← Relation.relabel_by_zero, Relation.relabel_compose hr.injective, Relation.relabel_identity]
  have hmap : (vars.map r).Nodup := hnd.map hr.injective
  have hsame : ((Relation.identity vars').compose (T.relabel r 0)).same
      (((Relation.identity vars).compose T).rename r) = true := by
    rw [hrenamed]
    exact Relation.same_identity_compose hT' hnd' hmap fun x => (hvars x).trans List.mem_map.symm
  cases hstops : w.stops opts with
  | true =>
      refine ⟨_, _, outcome_of_stops hstops vars T,
        outcome_of_stops ((hw.stops opts).trans hstops) vars' _, hindex, hw.covered, ?_, hsame⟩
      rw [hindex]
  | false =>
      have hregular := (Relation.regular_identity hnd hP w.index).compose hT
      obtain ⟨ch, hfound, _⟩ := hregular.exists_choices []
      have hfound' : ((Relation.identity vars').compose (T.relabel r 0)).choices choiceValues w'.index [] =
          .ok ch := by
        rw [hindex, Relation.choices_of_same ((Relation.normal_identity hnd').compose hT').nodup
          (hregular.normal.nodup.map hr.injective) hsame]
        exact hfound
      exact ⟨_, _, outcome_of_ok hstops rfl hfound,
        outcome_of_ok ((hw.stops opts).trans hstops) rfl hfound', hindex, hw.covered, rfl, hsame⟩

/-- **The names of the variables do not matter.** With its variables renamed, a program fails as before or
has the same choices and, by name, the same flows. -/
theorem analyzeBody_rename (hr : IsRenaming r) (opts : Options) (start : Nat) (body : List Stmt) :
    (∃ e, (analyzeBody opts start body).result.1 = .error e ∧
      (analyzeBody opts start (Stmt.renameAll r body)).result.1 = .error e) ∨
    ∃ out out', (analyzeBody opts start body).result.1 = .ok out ∧
      (analyzeBody opts start (Stmt.renameAll r body)).result.1 = .ok out' ∧ out.Renamed r out' := by
  by_cases hbody : body = []
  · subst hbody
    exact Or.inl ⟨.emptyBody "<body>", rfl, rfl⟩
  · have hbody' : Stmt.renameAll r body ≠ [] := by
      cases body with
      | nil => exact absurd rfl hbody
      | cons st rest =>
          rw [Stmt.renameAll]
          exact List.cons_ne_nil _ _
    have hover : ∀ body, (Plan.ofStmts opts body).Over fun _ => True :=
      fun body => Plan.over_ofStmts opts fun _ _ => trivial
    have hmatch : Plan.Matches r 0 (Plan.ofStmts opts body) (Plan.ofStmts opts (Stmt.renameAll r body)) :=
      Plan.matches_ofList hr _ body Plan.matches_skip
    have hapart : Walk.Apart 0 { index := start } { index := start } := ⟨rfl, rfl, rfl⟩
    rw [result_analyzeBody opts start hbody, result_analyzeBody opts start hbody']
    rcases (hmatch.run hr.injective opts hapart).cases with
      ⟨T, w, w', hrun, hrun', hw⟩ | ⟨e, w, w', hrun, hrun'⟩
    · have hT := (Plan.regular_of_run (Plan.wellFormed_ofStmts opts body) (hover _) hrun).2
      have hT' := (Plan.regular_of_run (Plan.wellFormed_ofStmts opts _) (hover _) hrun').2
      rw [hrun, hrun']
      exact Or.inr (outcome_renamed opts hr (increasing_namesAll body).nodup (increasing_namesAll _).nodup
        (Stmt.renamed_namesAll hr body) (fun _ _ => trivial) hT hT'.normal hw)
    · rw [hrun, hrun']
      exact Or.inl ⟨e, rfl, rfl⟩

/-- Two loops with `a` and `b` exchanged: the variables change places in the alphabet, and the choices
stay. -/
theorem analyzeBody_rename_exchange :
    IsRenaming (Equiv.swap "a" "b") ∧
    ∃ out', (analyzeBody Doubling.options 0 (Stmt.renameAll (Equiv.swap "a" "b") doubling)).result.1 =
        .ok out' ∧
      out'.choices = ⟨[[[0, 2], [0, 1, 2]]], 2⟩ ∧ Doubling.verdict.Renamed (Equiv.swap "a" "b") out' := by
  have hr : IsRenaming (Equiv.swap "a" "b") := ⟨Equiv.injective _, by decide⟩
  refine ⟨hr, ?_⟩
  rcases analyzeBody_rename hr Doubling.options 0 doubling with ⟨e, he, _⟩ | ⟨out, out', hout, hout', h⟩
  · cases he.symm.trans Doubling.analyze_doubling
  · cases hout.symm.trans Doubling.analyze_doubling
    exact ⟨out', hout', h.choices, h⟩

end GrowthFlow
