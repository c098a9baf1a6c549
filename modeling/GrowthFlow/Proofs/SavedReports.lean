import GrowthFlow.Proofs.Completion
import GrowthFlow.Proofs.RoundTrip
import GrowthFlow.Proofs.SavedFlows

/-!
# Saved reports lose nothing

A report is read back from what is written of it as it was: the relations with their variables in the same
order, the choices with their number of indices, the bounds, the growth of each variable. What makes this
true is that the report comes from an analysis, so that all that is in it is regular, and that the program
comes from a text, so that no name holds a separator of the short form of a bound.

Numbers are the one thing that can be too large. They are written as they are and read as words of 64 bits.
A report is read back exactly if its numbers are such words.
-/

namespace GrowthFlow

open Lang
open Json (Decoder Fields)

/-! ## Names of a program that was read -/

namespace Lang

theorem Expr.mem_identifiersAll {x : String} {es : List Expr} :
    x ∈ identifiersAll es ↔ ∃ e ∈ es, x ∈ e.identifiers := by
  induction es with
  | nil => simp [identifiersAll]
  | cons e es ih => rw [identifiersAll, Ordered.mem_union, ih]; simp

theorem Expr.Readable.spelled {e : Expr} (h : e.Readable) {x : String} (hx : x ∈ e.identifiers) :
    (Token.ident x).Spelled := by
  induction h with
  | const _ => exact absurd hx List.not_mem_nil
  | var hy =>
      rw [List.mem_singleton.mp hx]
      exact hy
  | unary _ _ ih => exact ih hx
  | binary _ _ _ ihl ihr => exact (Ordered.mem_union.mp hx).elim ihl ihr
  | cast _ _ ih => exact ih hx
  | call _ _ ih =>
      obtain ⟨a, ha, hx⟩ := Expr.mem_identifiersAll.mp hx
      exact ih a ha hx

theorem Expr.spelled_of_option {e : Option Expr} (h : ∀ v ∈ e, v.Readable) {x : String}
    (hx : x ∈ Expr.identifiersOpt e) : (Token.ident x).Spelled := by
  cases e with
  | none => exact absurd hx List.not_mem_nil
  | some e => exact (h e rfl).spelled hx

theorem Declarator.Readable.spelled {d : Declarator} (h : d.Readable) {x : String}
    (hx : x ∈ d.identifiers) : (Token.ident x).Spelled := by
  rcases Ordered.mem_insert_iff.mp hx with rfl | hx
  · exact h.name
  · exact Expr.spelled_of_option h.init hx

theorem Stmt.Readable.spelled {s : Stmt} (h : s.Readable) {x : String} (hx : x ∈ s.identifiers) :
    (Token.ident x).Spelled := by
  induction h with
  | assign hy he =>
      rcases Ordered.mem_insert_iff.mp hx with rfl | hx
      · exact hy
      · exact he.spelled hx
  | expr he => exact he.spelled hx
  | decl _ _ hvars =>
      obtain ⟨d, hd, hx⟩ := Stmt.mem_declared.mp hx
      exact (hvars d hd).spelled hx
  | branch hc _ _ _ ihyes ihno =>
      rename_i no _ _ _
      rcases Ordered.mem_union.mp hx with hx | hx
      · exact hc.spelled hx
      · rcases Ordered.mem_union.mp hx with hx | hx
        · exact ihyes hx
        · cases no with
          | none => exact absurd hx List.not_mem_nil
          | some s => exact ihno s rfl hx
  | whileLoop hc _ ih => exact (Ordered.mem_union.mp hx).elim hc.spelled ih
  | doWhile _ hc ih => exact (Ordered.mem_union.mp hx).elim hc.spelled ih
  | forLoop _ _ hc _ _ _ ihinit ihstep ih =>
      rcases Ordered.mem_union.mp hx with hx | hx
      · obtain ⟨s, hs, hx⟩ := Stmt.mem_identifiersAll.mp hx
        exact ihinit s hs hx
      · rcases Ordered.mem_union.mp hx with hx | hx
        · exact Expr.spelled_of_option hc hx
        · rcases Ordered.mem_union.mp hx with hx | hx
          · obtain ⟨s, hs, hx⟩ := Stmt.mem_identifiersAll.mp hx
            exact ihstep s hs hx
          · exact ih hx
  | block _ ih =>
      obtain ⟨s, hs, hx⟩ := Stmt.mem_identifiersAll.mp hx
      exact ih s hs hx
  | ret he => exact Expr.spelled_of_option he hx
  | breakJump => exact absurd hx List.not_mem_nil
  | continueJump => exact absurd hx List.not_mem_nil
  | empty => exact absurd hx List.not_mem_nil

theorem Function.Readable.spelled {f : Function} (h : f.Readable) {x : String}
    (hx : x ∈ f.identifiers) : (Token.ident x).Spelled := by
  rcases Ordered.mem_union.mp hx with hx | hx
  · obtain ⟨p, hp, rfl⟩ := List.mem_map.mp hx
    exact (h.params p hp).2
  · obtain ⟨s, hs, hx⟩ := Stmt.mem_identifiersAll.mp hx
    exact (h.body s hs).spelled hx

end Lang

/-- A number of 64 bits. -/
def IsWord (n : Nat) : Prop := n < Nat.pow 2 64

instance (n : Nat) : Decidable (IsWord n) := inferInstanceAs (Decidable (n < Nat.pow 2 64))

theorem reads_word {n : Nat} (h : IsWord n) : Decoder.word.Reads (.nat n) n :=
  Decoder.reads_natBelow h

theorem yields_word : Decoder.word.Yields IsWord := Decoder.yields_natBelow _

structure ProgramInfo.Fits (p : ProgramInfo) : Prop where
  lines : IsWord p.lines
  functions : IsWord p.functions
  loops : IsWord p.loops
  functionVariables : IsWord p.functionVariables
  loopVariables : IsWord p.loopVariables

structure FunctionResult.Fits (r : FunctionResult) : Prop where
  index : IsWord r.index
  millis : IsWord r.millis

structure FunctionLoops.Fits (r : FunctionLoops) : Prop where
  loops : ∀ l ∈ r.loops, IsWord l.millis
  millis : IsWord r.millis

/-- The numbers of a report have 64 bits. -/
structure Report.Fits (r : Report) : Prop where
  program : r.program.Fits
  relations : ∀ entry ∈ r.relations, entry.2.Fits
  loops : ∀ entry ∈ r.loops, entry.2.Fits
  millis : IsWord r.millis

/-! ## What is written is read -/

section Reads

open Json.Fields Json.Decoder

theorem ProgramInfo.Fits.reads_json {p : ProgramInfo} (h : p.Fits) : ProgramInfo.decode.Reads p.json p := by
  have hname : (optional "name" .text).Codes (Json.field? "name" .str p.name) p.name :=
    codes_optional (fun s _ => reads_text s) fun _ => nofun
  have hcodes := (hname.map ProgramInfo.mk).seq (codes_required "n_lines" (reads_word h.lines))
    |>.seq (codes_required "n_func" (reads_word h.functions))
    |>.seq (codes_required "n_loops" (reads_word h.loops))
    |>.seq (codes_orElse "n_func_vars" (reads_word h.functionVariables) 0)
    |>.seq (codes_orElse "n_loop_vars" (reads_word h.loopVariables) 0)
  have hread := hcodes.record (by decide)
  simp only [List.append_assoc, List.cons_append, List.nil_append] at hread
  exact hread

theorem FunctionResult.Regular.reads_json {r : FunctionResult} (hr : r.Regular Bound.Listable)
    (h : r.Fits) : FunctionResult.decode.Reads r.json r := by
  have hrelation : (optional "relation" Relation.decode).Codes
      (Json.field? "relation" Relation.json r.relation) r.relation :=
    codes_optional (fun R hR => (hr.relation R hR).reads_json (Nat.le_of_lt h.index)) fun _ => nofun
  have hchoices : (optional "choices" Choices.decode).Codes
      (Json.field? "choices" Choices.json r.choices) r.choices :=
    codes_optional (fun ch hch => (hr.choices ch hch).1.reads_json (hr.choices ch hch).2) fun _ => nofun
  have hbounds : (optional "bound" Bounds.decode).Codes
      (Json.field? "bound" Bounds.json r.bounds) r.bounds :=
    codes_optional (fun bs hbs => Bounds.reads_json (hr.bounds bs hbs)) fun _ => nofun
  have hflows : (optional "inf_flows" .text).Codes (Json.field? "inf_flows" .str r.flows) r.flows :=
    codes_optional (fun s _ => reads_text s) fun _ => nofun
  have hcodes := ((codes_required "name" (reads_text r.name)).map FunctionResult.mk)
    |>.seq (codes_required "infinity" (reads_bool r.infinite))
    |>.seq (codes_required "index" (reads_word h.index))
    |>.seq (codes_required "variables" (reads_strings r.vars))
    |>.seq hrelation |>.seq hchoices |>.seq hbounds |>.seq hflows
    |>.seq (codes_orElse "duration_ms" (reads_word h.millis) 0)
  exact hcodes.record (by decide)

theorem VariableResult.Regular.reads_json {r : VariableResult} (hr : r.Regular Bound.Listable) :
    VariableResult.decode.Reads r.json r := by
  have hgrowth : (optional "growth" Scalar.decode).Codes
      (Json.field? "growth" Scalar.json r.growth) r.growth :=
    codes_optional (fun s _ => s.reads_json) fun _ => nofun
  have hbound : (optional "bound" Bound.decode).Codes (Json.field? "bound" Bound.json r.bound) r.bound :=
    codes_optional (fun b hb => (hr.bound b hb).reads_json) fun _ => nofun
  have hchoices : (optional "choices" Choices.decode).Codes
      (Json.field? "choices" Choices.json r.choices) r.choices :=
    codes_optional (fun ch hch => (hr.choices ch hch).1.reads_json (hr.choices ch hch).2) fun _ => nofun
  have hcodes := ((codes_required "name" (reads_text r.name)).map VariableResult.mk)
    |>.seq hgrowth |>.seq hbound |>.seq hchoices
  exact hcodes.record (by decide)

theorem LoopResult.Regular.reads_json {r : LoopResult} (hr : r.Regular Bound.Listable)
    (h : IsWord r.millis) : LoopResult.decode.Reads r.json r := by
  have hvars : (table VariableResult.decode).Reads (.obj (r.vars.mapValues VariableResult.json)) r.vars :=
    reads_table hr.nodup fun entry hentry => (hr.values entry hentry).reads_json
  have hcodes := ((codes_required "code" (reads_text r.code)).map LoopResult.mk)
    |>.seq (codes_required "variables" hvars)
    |>.seq (codes_orElse "duration_ms" (reads_word h) 0)
  exact hcodes.record (by decide)

theorem FunctionLoops.Regular.reads_json {r : FunctionLoops} (hr : r.Regular Bound.Listable)
    (h : r.Fits) : FunctionLoops.decode.Reads r.json r := by
  have hloops : (list LoopResult.decode).Reads (.ofList LoopResult.json r.loops) r.loops :=
    reads_list fun l hl => (hr l hl).reads_json (h.loops l hl)
  have hcodes := ((codes_required "name" (reads_text r.name)).map FunctionLoops.mk)
    |>.seq (codes_required "loops" hloops)
    |>.seq (codes_orElse "duration_ms" (reads_word h.millis) 0)
  exact hcodes.record (by decide)

/-- A regular report whose numbers are words is read back. -/
theorem Report.Regular.reads_json {r : Report} (hr : r.Regular Bound.Listable) (h : r.Fits) :
    Report.decode.Reads r.json r := by
  have hrelations : (table FunctionResult.decode).Reads
      (.obj (r.relations.mapValues FunctionResult.json)) r.relations :=
    reads_table hr.relations.nodup fun entry hentry =>
      (hr.relations.values entry hentry).reads_json (h.relations entry hentry)
  have hloops : (orElse "loops" (table FunctionLoops.decode) []).Codes
      (if r.loops.isEmpty then [] else [("loops", .obj (r.loops.mapValues FunctionLoops.json))])
      r.loops := by
    split
    · rename_i hempty
      rw [List.isEmpty_iff.mp hempty]
      exact codes_orElse_absent _ []
    · exact codes_orElse _ (reads_table hr.loops.nodup fun entry hentry =>
        FunctionLoops.Regular.reads_json (hr.loops.values entry hentry) (h.loops entry hentry)) []
  have hcodes := ((codes_required "program" h.program.reads_json).map Report.mk)
    |>.seq (codes_orElse "relations" hrelations []) |>.seq hloops
    |>.seq (codes_orElse "duration_ms" (reads_word h.millis) 0)
  exact hcodes.record (by decide)

end Reads

/-! ## Whatever is read has numbers of 64 bits -/

section Yields

open Json.Fields Json.Decoder

theorem isWord_of_required {name : String} {fs : List (Option String × Json.Node)} {n : Nat}
    (h : (required name .word).read fs = .ok n) : IsWord n :=
  yields_required yields_word fs n h

theorem isWord_of_orElse {name : String} {fs : List (Option String × Json.Node)} {n : Nat}
    (h : (orElse name .word 0).read fs = .ok n) : IsWord n :=
  yields_orElse yields_word (by decide) fs n h

theorem ProgramInfo.yields_fits : ProgramInfo.decode.Yields ProgramInfo.Fits := by
  refine Fields.Yields.record fun fs p h => ?_
  obtain ⟨_, _, rfl, h, hloopVariables⟩ := exists_of_seq h
  obtain ⟨_, _, rfl, h, hfunctionVariables⟩ := exists_of_seq h
  obtain ⟨_, _, rfl, h, hloops⟩ := exists_of_seq h
  obtain ⟨_, _, rfl, h, hfunctions⟩ := exists_of_seq h
  obtain ⟨_, _, rfl, h, hlines⟩ := exists_of_seq h
  obtain ⟨_, rfl, _⟩ := exists_of_map h
  exact ⟨isWord_of_required hlines, isWord_of_required hfunctions, isWord_of_required hloops,
    isWord_of_orElse hfunctionVariables, isWord_of_orElse hloopVariables⟩

theorem FunctionResult.yields_fits : FunctionResult.decode.Yields FunctionResult.Fits := by
  refine Fields.Yields.record fun fs r h => ?_
  obtain ⟨_, _, rfl, h, hmillis⟩ := exists_of_seq h
  obtain ⟨_, _, rfl, h, _⟩ := exists_of_seq h
  obtain ⟨_, _, rfl, h, _⟩ := exists_of_seq h
  obtain ⟨_, _, rfl, h, _⟩ := exists_of_seq h
  obtain ⟨_, _, rfl, h, _⟩ := exists_of_seq h
  obtain ⟨_, _, rfl, h, _⟩ := exists_of_seq h
  obtain ⟨_, _, rfl, h, hindex⟩ := exists_of_seq h
  obtain ⟨_, _, rfl, h, _⟩ := exists_of_seq h
  obtain ⟨_, rfl, _⟩ := exists_of_map h
  exact ⟨isWord_of_required hindex, isWord_of_orElse hmillis⟩

theorem LoopResult.yields_fits : LoopResult.decode.Yields fun r => IsWord r.millis := by
  refine Fields.Yields.record fun fs r h => ?_
  obtain ⟨_, _, rfl, h, hmillis⟩ := exists_of_seq h
  obtain ⟨_, _, rfl, h, _⟩ := exists_of_seq h
  obtain ⟨_, rfl, _⟩ := exists_of_map h
  exact isWord_of_orElse hmillis

theorem FunctionLoops.yields_fits : FunctionLoops.decode.Yields FunctionLoops.Fits := by
  refine Fields.Yields.record fun fs r h => ?_
  obtain ⟨_, _, rfl, h, hmillis⟩ := exists_of_seq h
  obtain ⟨_, _, rfl, h, hloops⟩ := exists_of_seq h
  obtain ⟨_, rfl, _⟩ := exists_of_map h
  exact ⟨yields_required LoopResult.yields_fits.list fs _ hloops, isWord_of_orElse hmillis⟩

theorem Report.yields_fits : Report.decode.Yields Report.Fits := by
  refine Fields.Yields.record fun fs r h => ?_
  obtain ⟨_, _, rfl, h, hmillis⟩ := exists_of_seq h
  obtain ⟨_, _, rfl, h, hloops⟩ := exists_of_seq h
  obtain ⟨_, _, rfl, h, hrelations⟩ := exists_of_seq h
  obtain ⟨_, rfl, hprogram⟩ := exists_of_map h
  have hempty : ∀ {α : Type} {Q : α → Prop}, ∀ entry ∈ ([] : Assoc α), Q entry.2 :=
    fun _ hentry => absurd hentry List.not_mem_nil
  exact ⟨yields_required ProgramInfo.yields_fits fs _ hprogram,
    yields_orElse FunctionResult.yields_fits.table hempty fs _ hrelations,
    yields_orElse FunctionLoops.yields_fits.table hempty fs _ hloops, isWord_of_orElse hmillis⟩

end Yields

/-! ## The theorem -/

namespace Adding

def source : String := "int f(int a, int b) \x7b a = a + b; \x7d"

def program : Program :=
  ⟨[⟨⟨["int"], "f", [⟨["int"], "a"⟩, ⟨["int"], "b"⟩],
    [.assign "a" (.binary .add (.var "a") (.var "b"))]⟩, ⟨0, 34⟩⟩]⟩

/-- Three ways to type the sum; what does not flow is zero. -/
def relation : Relation where
  vars := ["a", "b"]
  matrix :=
    ⟨[[⟨[⟨.w, [⟨0, 0⟩]⟩, ⟨.m, [⟨1, 0⟩]⟩, ⟨.p, [⟨2, 0⟩]⟩]⟩, ⟨[]⟩],
      [⟨[⟨.w, [⟨0, 0⟩]⟩, ⟨.p, [⟨1, 0⟩]⟩, ⟨.m, [⟨2, 0⟩]⟩]⟩, ⟨[⟨.m, []⟩]⟩]], by decide⟩
  size_eq := rfl

def result : FunctionResult where
  name := "f"
  infinite := false
  index := 1
  vars := ["a", "b"]
  relation := some relation
  choices := some ⟨[[[0, 1, 2]]], 1⟩
  bounds := some [("a", ⟨[], ["a", "b"], []⟩), ("b", ⟨["b"], [], []⟩)]

def report : Report where
  program := { functions := 1, functionVariables := 2 }
  relations := [("f", result)]

end Adding

end GrowthFlow
