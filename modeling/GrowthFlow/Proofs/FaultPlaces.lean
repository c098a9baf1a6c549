import GrowthFlow.Lang.Source
import GrowthFlow.Proofs.Lexing

/-!
# Where a failed reading is reported

A grammar error is reported at the furthest place that some attempt came to. Which attempt that is, and which
of the abandoned ones are remembered, depends on the whole text; but every rule only looks at the lexemes it
is given and hands on a last part of them. So a fault, remembered or not, lies at one of the lexemes of the
text or at its end (`Rule.Placed`), and it is enough to see where these two are.

A lexeme lies within the characters of the text. The end is placed by the number of bytes, and there are as
many bytes as characters only if all characters are ASCII. Behind any other text the label has no place.
-/

namespace GrowthFlow.Lang

/-- The fault lies at one of the lexemes, or at the end. -/
def Fault.Within (ts : List Lexeme) (fault : Fault) : Prop := ∀ l ∈ fault.found, l ∈ ts

namespace Fault

variable {ts us : List Lexeme} {a b : Fault}

theorem within_atFront (ts : List Lexeme) (expected : List Token) : (atFront ts expected).Within ts :=
  fun _ hl => List.mem_of_mem_head? hl

theorem Within.mono (h : a.Within us) (hsub : us ⊆ ts) : a.Within ts := fun l hl => hsub (h l hl)

/-- The further of two faults is at the place of one of them. -/
theorem Within.join (ha : a.Within ts) (hb : b.Within ts) : (a.join b).Within ts := by
  unfold Fault.join
  split
  · exact hb
  · split
    · exact ha
    · exact ha

theorem within_joinOpt {x y : Option Fault} (hx : ∀ fault ∈ x, fault.Within ts)
    (hy : ∀ fault ∈ y, fault.Within ts) : ∀ fault ∈ joinOpt x y, fault.Within ts := by
  intro fault hfault
  cases x with
  | none => exact hy fault hfault
  | some a =>
      cases y with
      | none => exact hx fault hfault
      | some b =>
          cases hfault
          exact (hx a rfl).join (hy b rfl)

end Fault

/-- What is left is a last part of the lexemes, and the fault, if there is one, lies within them. -/
def Reply.Within {α : Type} (ts : List Lexeme) : Reply α → Prop
  | ok _ rest hint => rest <:+ ts ∧ ∀ fault ∈ hint, fault.Within ts
  | fail fault => fault.Within ts

namespace Rule

variable {α β : Type} {r s : Rule α} {f : α → Rule β}

/-- Wherever the rule is tried, it stays within the lexemes it is given. -/
def Placed (r : Rule α) : Prop := ∀ ts, (r ts).Within ts

/-! ## Sequence and choice -/

theorem placed_pure (a : α) : Placed (pure a) := fun ts => ⟨List.suffix_refl ts, fun _ h => nomatch h⟩

theorem placed_fail : Placed (fail : Rule α) := fun ts => Fault.within_atFront ts []

theorem Placed.bind (h : Placed r) (hf : ∀ a, Placed (f a)) : Placed (r >>= f) := by
  intro ts
  have hr := h ts
  change (Rule.bind r f ts).Within ts
  unfold Rule.bind
  cases hcase : r ts with
  | fail fault =>
      rw [hcase] at hr
      exact hr
  | ok a mid hint =>
      rw [hcase] at hr
      obtain ⟨hsuffix, hhint⟩ := hr
      have hfa := hf a mid
      cases hcase' : f a mid with
      | fail fault =>
          rw [hcase'] at hfa
          have hfault : fault.Within ts := hfa.mono hsuffix.subset
          simp only [hcase']
          cases hint with
          | none => exact hfault
          | some other => exact hfault.join (hhint other rfl)
      | ok b rest hint' =>
          rw [hcase'] at hfa
          obtain ⟨hsuffix', hhint'⟩ := hfa
          simp only [hcase']
          refine ⟨hsuffix'.trans hsuffix, Fault.within_joinOpt hhint fun fault hfault => ?_⟩
          exact (hhint' fault hfault).mono hsuffix.subset

theorem Placed.map {g : α → β} (h : Placed r) : Placed (r >>= fun a => pure (g a)) :=
  h.bind fun a => placed_pure (g a)

theorem Placed.orElse (h : Placed r) (hs : Placed s) : Placed (r <|> s) := by
  intro ts
  have hr := h ts
  have hs := hs ts
  change (Rule.orElse r (fun _ => s) ts).Within ts
  unfold Rule.orElse
  cases hcase : r ts with
  | ok a rest hint =>
      rw [hcase] at hr
      exact hr
  | fail fault =>
      rw [hcase] at hr
      cases hcase' : s ts with
      | ok a rest hint =>
          rw [hcase'] at hs
          simp only [hcase']
          exact hs
      | fail fault' =>
          rw [hcase'] at hs
          simp only [hcase']
          exact Fault.Within.join hr hs

/-! ## Tokens -/

theorem placed_token (g : Token → Option α) : Placed (token g) := by
  intro ts
  cases ts with
  | nil => exact Fault.within_atFront [] []
  | cons t ts =>
      rw [token]
      cases ht : g t.token with
      | none => exact Fault.within_atFront (t :: ts) []
      | some a => exact ⟨List.suffix_cons t ts, fun _ h => nomatch h⟩

theorem placed_oneOf (table : List (Token × α)) : Placed (oneOf table) := by
  intro ts
  cases ts with
  | nil => exact Fault.within_atFront [] _
  | cons t ts =>
      rw [oneOf]
      cases ht : table.lookup t.token with
      | none => exact Fault.within_atFront (t :: ts) _
      | some a => exact ⟨List.suffix_cons t ts, fun _ h => nomatch h⟩

theorem placed_symbol (x : Symbol) : Placed (symbol x) := placed_oneOf _

theorem placed_keyword (w : Keyword) : Placed (keyword w) := placed_oneOf _

theorem placed_done : Placed done := by
  intro ts
  cases ts with
  | nil => exact ⟨List.suffix_refl [], fun _ h => nomatch h⟩
  | cons t ts => exact Fault.within_atFront (t :: ts) []

/-! ## Options and repetitions -/

/-- A fault that an option passes over is remembered, and it lies within the lexemes too. -/
theorem Placed.optional (h : Placed r) : Placed (optional r) := by
  intro ts
  have hr := h ts
  unfold Rule.optional
  cases hcase : r ts with
  | ok a rest hint =>
      rw [hcase] at hr
      exact hr
  | fail fault =>
      rw [hcase] at hr
      refine ⟨List.suffix_refl ts, fun other hother => ?_⟩
      cases hother
      exact hr

theorem Placed.upTo (h : Placed r) : ∀ count, Placed (upTo r count)
  | 0 => placed_pure []
  | count + 1 => by
      refine h.optional.bind fun o => ?_
      cases o with
      | none => exact placed_pure []
      | some a => exact (h.upTo count).map

theorem Placed.many (h : Placed r) : Placed (many r) := fun ts => h.upTo (ts.length + 1) ts

theorem Placed.many1 (h : Placed r) : Placed (many1 r) := h.bind fun _ => h.many.map

theorem Placed.sepBy1 {sep : Rule Unit} (h : Placed r) (hsep : Placed sep) : Placed (sepBy1 r sep) :=
  h.bind fun _ => (hsep.bind fun _ => h).many.map

theorem Placed.sepBy {sep : Rule Unit} (h : Placed r) (hsep : Placed sep) : Placed (sepBy r sep) :=
  (h.sepBy1 hsep).optional.map

theorem Placed.between {x y : Symbol} (h : Placed r) : Placed (between x y r) :=
  (placed_symbol x).bind fun _ => h.bind fun _ => (placed_symbol y).map

theorem Placed.withSpan (h : Placed r) : Placed (withSpan r) := by
  intro ts
  have hr := h ts
  unfold Rule.withSpan
  cases hcase : r ts with
  | ok a rest hint =>
      rw [hcase] at hr
      exact hr
  | fail fault =>
      rw [hcase] at hr
      exact hr

end Rule

/-! ## The grammar -/

namespace Grammar

open Rule

variable {e : Rule Expr} {s : Rule Stmt}

theorem placed_ident : Placed ident := placed_token _

theorem placed_typeName : Placed typeName := Placed.many1 (placed_token _)

section

variable (he : Placed e)
include he

theorem placed_varOrCall : Placed (varOrCall e) := by
  refine placed_ident.bind fun name => (he.sepBy (placed_symbol _)).between.optional.bind fun args => ?_
  cases args with
  | none => exact placed_pure _
  | some args => exact placed_pure _

theorem placed_trailed : Placed (trailed e) :=
  ((placed_token _).orElse ((placed_varOrCall he).orElse he.between)).bind fun _ =>
    (placed_oneOf _).many.map

theorem placed_unary : ∀ d, Placed (unary e d)
  | 0 => placed_fail
  | d + 1 =>
      have hmore := placed_unary d
      ((placed_oneOf _).bind fun _ => hmore.map).orElse
        ((placed_typeName.between.bind fun _ => hmore.map).orElse (placed_trailed he))

theorem placed_binary : ∀ levels strength, Placed (binary e levels strength)
  | 0, _ => he
  | levels + 1, strength =>
      have hoperand := placed_binary levels (strength + 1)
      hoperand.bind fun _ => ((placed_oneOf _).bind fun _ => hoperand.map).many.map

end

theorem placed_expr : ∀ d, Placed (expr d)
  | 0 => placed_fail
  | d + 1 => placed_binary (placed_unary (placed_expr d) (d + 1)) 6 1

section

variable (he : Placed e)
include he

theorem placed_simple : Placed (simple e) := by
  refine Placed.orElse ?_ he.map
  refine placed_ident.bind fun target => (placed_oneOf _).bind fun op => he.bind fun value => ?_
  cases op with
  | none => exact placed_pure _
  | some op => exact placed_pure _

theorem placed_simpleList : Placed (simpleList e) := (placed_simple he).sepBy (placed_symbol _)

theorem placed_declarator : Placed (declarator e) :=
  placed_ident.bind fun _ => ((placed_symbol _).bind fun _ => he).optional.map

theorem placed_declaration : Placed (declaration e) :=
  placed_typeName.bind fun _ => ((placed_declarator he).sepBy1 (placed_symbol _)).map

theorem placed_returnStmt : Placed (returnStmt e) :=
  (placed_keyword _).bind fun _ => he.optional.bind fun _ => (placed_symbol _).map

variable (hs : Placed s)
include hs

theorem placed_branch : Placed (branch e s) :=
  (placed_keyword _).bind fun _ => he.between.bind fun _ => hs.bind fun _ =>
    ((placed_keyword _).bind fun _ => hs).optional.map

theorem placed_whileLoop : Placed (whileLoop e s) :=
  (placed_keyword _).bind fun _ => he.between.bind fun _ => hs.map

theorem placed_doWhile : Placed (doWhile e s) :=
  (placed_keyword _).bind fun _ => hs.bind fun _ => (placed_keyword _).bind fun _ =>
    he.between.bind fun _ => (placed_symbol _).map

theorem placed_forLoop : Placed (forLoop e s) := by
  have hheader : Placed (do
      let init ← forInit e
      semicolon
      let cond ← optional e
      semicolon
      return (init, cond, ← simpleList e)) :=
    ((placed_declaration he).map.orElse (placed_simpleList he)).bind fun _ => (placed_symbol _).bind fun _ =>
      he.optional.bind fun _ => (placed_symbol _).bind fun _ => (placed_simpleList he).map
  exact (placed_keyword _).bind fun _ => hheader.between.bind fun _ => hs.map

end

theorem placed_jump (k : Keyword) (x : Stmt) : Placed (jump k x) :=
  (placed_keyword k).bind fun _ => (placed_symbol _).map

theorem placed_ended (hs : Placed s) : Placed (ended s) := hs.bind fun _ => (placed_symbol _).map

theorem placed_stmt : ∀ d, Placed (stmt d)
  | 0 => placed_fail
  | d + 1 => by
      have he := placed_expr (d + 1)
      have hs := placed_stmt d
      have hblock : Placed (block (stmt d)) := hs.many.between.map
      exact hblock.orElse ((placed_branch he hs).orElse ((placed_whileLoop he hs).orElse
        ((placed_doWhile he hs).orElse ((placed_forLoop he hs).orElse ((placed_returnStmt he).orElse
        ((placed_jump _ _).orElse ((placed_jump _ _).orElse ((placed_ended (placed_pure _)).orElse
        ((placed_ended (placed_declaration he)).orElse (placed_ended (placed_simple he)))))))))))

theorem placed_function (d : Nat) : Placed (function d) := by
  have hparam : Placed param := placed_typeName.bind fun _ => placed_ident.optional.map
  have hbody : Placed (braces (many (stmt d))) := (placed_stmt d).many.between
  exact placed_typeName.bind fun _ => placed_ident.bind fun _ =>
    (hparam.sepBy (placed_symbol _)).between.bind fun _ =>
      (hbody.map.orElse (placed_symbol _).map).map

theorem placed_program (d : Nat) : Placed (program d) := by
  have hglobal : Placed (globalDecl d) :=
    placed_typeName.bind fun _ => ((placed_declarator (placed_expr d)).sepBy1 (placed_symbol _)).bind fun _ =>
      (placed_symbol _).map
  have hitem : Placed (item d) := (placed_function d).withSpan.map.orElse hglobal
  exact hitem.many.bind fun _ => placed_done.map

end Grammar

theorem Program.within_of_error {ts : List Lexeme} {fault : Fault} (h : Program.ofLexemes ts = .error fault) :
    fault.Within ts := by
  have hplaced := Grammar.placed_program ts.length ts
  unfold Program.ofLexemes at h
  cases hread : Grammar.program ts.length ts with
  | ok p rest hint =>
      rw [hread] at h
      cases h
  | fail other =>
      rw [hread] at h hplaced
      cases h
      exact hplaced

/-! ## Characters and bytes -/

theorem utf8ByteSize_ofList_cons (c : Char) (cs : List Char) :
    (String.ofList (c :: cs)).utf8ByteSize = c.utf8Size + (String.ofList cs).utf8ByteSize := by
  have hsplit : String.ofList (c :: cs) = String.ofList [c] ++ String.ofList cs := by
    rw [← String.ofList_append]
    rfl
  have hone : (String.ofList [c]).utf8ByteSize = c.utf8Size := by
    rw [← String.singleton_eq_ofList, String.utf8ByteSize_singleton]
  rw [hsplit, String.utf8ByteSize_append, hone]

/-- No character takes less than a byte, and an ASCII character takes no more. -/
theorem utf8ByteSize_ofList (cs : List Char) :
    cs.length ≤ (String.ofList cs).utf8ByteSize ∧
      ((String.ofList cs).utf8ByteSize ≤ cs.length ↔ ∀ c ∈ cs, c.val ≤ 127) := by
  induction cs with
  | nil => exact ⟨Nat.le_refl _, fun _ c hc => (nomatch hc), fun _ => Nat.le_refl _⟩
  | cons c cs ih =>
      have hpos := c.utf8Size_pos
      have hone : c.utf8Size = 1 ↔ c.val ≤ 127 := Char.utf8Size_eq_one_iff
      rw [utf8ByteSize_ofList_cons, List.length_cons, List.forall_mem_cons, ← hone, ← ih.2]
      have hle := ih.1
      omega

theorem length_le_utf8ByteSize (s : String) : s.length ≤ s.utf8ByteSize := by
  have h := (utf8ByteSize_ofList s.toList).1
  rwa [String.ofList_toList, String.length_toList] at h

theorem utf8ByteSize_le_length_iff (s : String) :
    s.utf8ByteSize ≤ s.length ↔ ∀ c ∈ s.toList, c.val ≤ 127 := by
  have h := (utf8ByteSize_ofList s.toList).2
  rwa [String.ofList_toList, String.length_toList] at h

/-! ## Reports -/

namespace Program

variable {source : String} {span : Span} {found : Option Token} {expected : List Token}

/-- A grammar error is the fault that the second stage ends with. -/
theorem exists_fault_of_parse (h : parse source = .error (.grammar span found expected)) :
    ∃ ts fault, lexemes source.toList = .ok ts ∧ ofLexemes ts = .error fault ∧
      fault.toError source.utf8ByteSize = .grammar span found expected := by
  unfold parse at h
  cases hlex : lexemes source.toList with
  | error fault =>
      rw [hlex] at h
      cases h
  | ok ts =>
      rw [hlex] at h
      change (ofLexemes ts).mapError _ = _ at h
      cases hread : ofLexemes ts with
      | ok q =>
          rw [hread] at h
          cases h
      | error fault =>
          rw [hread] at h
          exact ⟨ts, fault, rfl, hread, Except.error.inj h⟩

/-- **Where a grammar error is reported.** At a lexeme of the text, or behind its last byte. -/
theorem grammar_error_place (h : parse source = .error (.grammar span found expected)) :
    (∃ ts t, lexemes source.toList = .ok ts ∧ found = some t ∧ ⟨t, span⟩ ∈ ts ∧
      span.start < span.stop ∧ span.stop ≤ source.length) ∨
    found = none ∧ span = ⟨source.utf8ByteSize, source.utf8ByteSize + 1⟩ := by
  obtain ⟨ts, fault, hlex, hread, herror⟩ := exists_fault_of_parse h
  have hwithin := within_of_error hread
  unfold Fault.toError at herror
  cases hfound : fault.found with
  | none =>
      rw [hfound] at herror
      cases herror
      exact .inr ⟨rfl, rfl⟩
  | some l =>
      rw [hfound] at herror
      cases herror
      have hl := hwithin l hfound
      have hbounds := (Lexed.of_lexemes hlex).bounds l hl
      rw [String.length_toList] at hbounds
      exact .inl ⟨ts, l.token, hlex, rfl, hl, by omega, by omega⟩

theorem label?_eq_none_iff {e : SourceError} :
    e.label? source = none ↔ ¬ e.labelStart source ≤ source.length := by
  unfold SourceError.label?
  split
  · rename_i hle
    exact iff_of_false (Option.some_ne_none _) fun hnot => hnot hle
  · rename_i hgt
    exact iff_of_true rfl hgt

/-- Bytes and characters part at the end of the text only, and only if some character has several bytes. -/
theorem labelStart_le_length_iff (h : parse source = .error (.grammar span found expected)) :
    (SourceError.grammar span found expected).labelStart source ≤ source.length ↔
      found ≠ none ∨ ∀ c ∈ source.toList, c.val ≤ 127 := by
  have hlabel : (SourceError.grammar span found expected).labelStart source =
      min span.start source.utf8ByteSize := rfl
  rcases grammar_error_place h with ⟨ts, t, hlex, rfl, hmem, hlt, hle⟩ | ⟨rfl, rfl⟩
  · exact iff_of_true (by omega) (.inl (Option.some_ne_none t))
  · rw [hlabel, ← utf8ByteSize_le_length_iff, Nat.min_self]
    exact ⟨.inr, fun h => h.resolve_left fun hne => hne rfl⟩

/-- **The label of a grammar error has a place unless a token is missing behind a text that is not ASCII.** At a
token it is attached right there, among the characters of the text. A missing token stands behind the last
byte, which is no further than the last character only if every character is a byte. -/
theorem label_of_grammar_error (h : parse source = .error (.grammar span found expected)) :
    (∀ t ∈ found, (∃ ts, lexemes source.toList = .ok ts ∧ ⟨t, span⟩ ∈ ts) ∧ span.start < source.length ∧
      (SourceError.grammar span found expected).labelStart source = span.start) ∧
    (found = none → (SourceError.grammar span found expected).labelStart source = source.utf8ByteSize) ∧
    ((SourceError.grammar span found expected).labelStart source ≤ source.length ↔
      found ≠ none ∨ ∀ c ∈ source.toList, c.val ≤ 127) ∧
    ((SourceError.grammar span found expected).label? source = none ↔
      found = none ∧ ∃ c ∈ source.toList, 127 < c.val) := by
  have hlabel : (SourceError.grammar span found expected).labelStart source =
      min span.start source.utf8ByteSize := rfl
  have hbytes := length_le_utf8ByteSize source
  refine ⟨fun t ht => ?_, fun hnone => ?_, labelStart_le_length_iff h, ?_⟩
  · rcases grammar_error_place h with ⟨ts, t', hlex, rfl, hmem, hlt, hle⟩ | ⟨rfl, _⟩
    · cases ht
      exact ⟨⟨ts, hlex, hmem⟩, by omega, by omega⟩
    · cases ht
  · rcases grammar_error_place h with ⟨_, t, _, rfl, _⟩ | ⟨_, rfl⟩
    · cases hnone
    · rw [hlabel, Nat.min_self]
  · rw [label?_eq_none_iff, labelStart_le_length_iff h, not_or, Classical.not_not]
    simp only [Classical.not_forall, UInt32.not_le, exists_prop]

/-- A number where it cannot stand, behind a comment that has more bytes than characters. -/
def accented : String := "/*é*/ int x 2;"

/-- What may stand behind the first name of an item. -/
def behindName : List Token := [.symbol .lparen, .symbol .semicolon, .symbol .assign, .symbol .comma]

theorem label_of_grammar_error_accented :
    parse accented = .error (.grammar ⟨12, 13⟩ (some (.number 2)) behindName) ∧
    (SourceError.grammar ⟨12, 13⟩ (some (.number 2)) behindName).labelStart accented ≤ accented.length :=
  have hparse : parse accented = .error (.grammar ⟨12, 13⟩ (some (.number 2)) behindName) := by
    decide +kernel
  ⟨hparse, (label_of_grammar_error hparse).2.2.1.mpr (.inl (by decide))⟩

/-- Behind the comment a name is missing, and the label would have to stand behind the last character. -/
theorem label_behind_accent :
    parse "int//é" = .error (.grammar ⟨7, 8⟩ none []) ∧
    ¬ (SourceError.grammar ⟨7, 8⟩ none []).labelStart "int//é" ≤ "int//é".length := by
  decide +kernel

end Program

end GrowthFlow.Lang
