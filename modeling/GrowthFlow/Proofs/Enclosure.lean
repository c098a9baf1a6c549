import GrowthFlow.Proofs.ParsedTrees

/-!
# What stands behind a closing brace does not matter

A function is read alone as it is read in its text. Its last token is the brace that closes its body, so the
question is whether some rule, on its way or in an attempt that is given up, looks behind that brace.

A rule gets past a closing brace only if it has read the opening one. Counting braces, `nesting` does not
change between the place where a rule starts and the one where it stops. So a rule that starts where no more
braces are opened than closed up to some brace cannot get past that brace, and whatever it tries ends
before it or at it. `Steady` says so: on all texts that go on with the brace the rule reads the same, or
fails. The rules for types, parameters and expressions read no braces, so they get past none at all.

With nothing behind the part in question, the same law says that what a rule reads has as many opening as
closing braces.
-/

namespace GrowthFlow.Lang

/-- How many braces a token leaves open. -/
def Token.nesting : Token → Int
  | symbol .lbrace => 1
  | symbol .rbrace => -1
  | _ => 0

/-- The opening braces less the closing ones. -/
def nesting (toks : List Token) : Int := toks.foldr (fun t n => t.nesting + n) 0

theorem nesting_cons (t : Token) (toks : List Token) : nesting (t :: toks) = t.nesting + nesting toks := rfl

theorem nesting_append (toks more : List Token) : nesting (toks ++ more) = nesting toks + nesting more := by
  induction toks with
  | nil => exact (Int.zero_add _).symm
  | cons t toks ih => rw [List.cons_append, nesting_cons, nesting_cons, ih, Int.add_assoc]

/-- A token that is no brace opens and closes nothing. -/
theorem nesting_cons_of_ne {t : Token} (hl : t ≠ .symbol .lbrace) (hr : t ≠ .symbol .rbrace)
    (toks : List Token) : nesting (t :: toks) = nesting toks := by
  have ht : t.nesting = 0 := by
    unfold Token.nesting
    split
    · exact absurd rfl hl
    · exact absurd rfl hr
    · rfl
  rw [nesting_cons, ht, Int.zero_add]

namespace Rule

/-! ## Texts that go on alike -/

/-- What follows a part of a text: nothing, or a closing brace and anything behind it. -/
inductive Tail where
  | ended
  | closed

/-- The tokens that may follow. -/
def Tail.Fits : Tail → List Token → Prop
  | ended, s => s = []
  | closed, s => ∃ more, s = .symbol .rbrace :: more

variable {α β : Type} {r s : Rule α} {f : α → Rule β} {m : Int} {k j : Nat} {tail : Tail}
  {u v : List Token} {a : α}

/-- At most `m` of the braces opened in the part are left open at its end, if a closing one follows. -/
def Fenced (m : Int) (tail : Tail) (u : List Token) : Prop := tail = .closed → nesting u ≤ m

/-- From a text with the part `u` the rule reads `a` and leaves the part `v`, whatever tail follows. -/
structure ReadsTo (k : Nat) (tail : Tail) (r : Rule α) (u : List Token) (a : α) (v : List Token) : Prop where
  suffix : v <:+ u
  length : v.length + k ≤ u.length
  nesting : nesting v = nesting u
  accepts : ∀ s, tail.Fits s → Accepts r (u ++ s) a (v ++ s)

/-- The rule does not look behind a closing brace that at most `m` open ones wait for: it fails or reads the
same, at least `k` tokens, on all texts that have a part in common up to there. -/
def Steady (m : Int) (k : Nat) (r : Rule α) : Prop :=
  ∀ tail u, Fenced m tail u →
    (∀ s, tail.Fits s → Rejects r (u ++ s)) ∨ ∃ a v, ReadsTo k tail r u a v

theorem ReadsTo.alone (h : ReadsTo k .ended r u a v) : Accepts r u a v := by
  have haccepts := h.accepts [] rfl
  rwa [List.append_nil, List.append_nil] at haccepts

theorem ReadsTo.fenced (h : ReadsTo k tail r u a v) (hu : Fenced m tail u) : Fenced m tail v :=
  fun hclosed => h.nesting ▸ hu hclosed

theorem Steady.mono (h : Steady m k r) (hj : j ≤ k) : Steady m j r := by
  intro tail u hu
  refine (h tail u hu).imp_right fun hread => ?_
  obtain ⟨a, v, hv⟩ := hread
  exact ⟨a, v, hv.suffix, Nat.le_trans (Nat.add_le_add_left hj _) hv.length, hv.nesting, hv.accepts⟩

theorem Steady.lax (h : Steady m k r) : Steady m 0 r := h.mono (Nat.zero_le k)

/-! ## Sequence and choice -/

theorem steady_fail : Steady m k (fail : Rule α) := fun _ _ _ => .inl fun _ _ => rejects_fail _

theorem steady_pure (a : α) : Steady m 0 (pure a) := fun _ u _ =>
  .inr ⟨a, u, List.suffix_refl u, Nat.le_refl _, rfl, fun _ _ => accepts_pure a _⟩

/-- One rule after another reads what both read. -/
theorem Steady.then (h : Steady m k r) (hf : ∀ a, Steady m j (f a)) : Steady m (k + j) (r >>= f) := by
  intro tail u hu
  rcases h tail u hu with hrejects | ⟨a, v, hv⟩
  · exact .inl fun s hs => (hrejects s hs).bind
  · rcases hf a tail v (hv.fenced hu) with hrejects | ⟨b, w, hw⟩
    · exact .inl fun s hs => (hv.accepts s hs).bind_rejects (hrejects s hs)
    · have hlength := hv.length
      have hlength' := hw.length
      exact .inr ⟨b, w, hw.suffix.trans hv.suffix, by omega, hw.nesting.trans hv.nesting,
        fun s hs => (hv.accepts s hs).bind (hw.accepts s hs)⟩

theorem Steady.bind (h : Steady m 0 r) (hf : ∀ a, Steady m k (f a)) : Steady m k (r >>= f) :=
  Nat.zero_add k ▸ h.then hf

theorem Steady.seq (h : Steady m k r) (hf : ∀ a, Steady m 0 (f a)) : Steady m k (r >>= f) := h.then hf

theorem Steady.map {g : α → β} (h : Steady m k r) : Steady m k (r >>= fun a => pure (g a)) :=
  h.seq fun a => steady_pure (g a)

theorem Steady.orElse (h : Steady m k r) (hs : Steady m k s) : Steady m k (r <|> s) := by
  intro tail u hu
  rcases h tail u hu with hrejects | ⟨a, v, hv⟩
  · rcases hs tail u hu with hrejects' | ⟨a, v, hv⟩
    · exact .inl fun s hs => (hrejects s hs).orElse_rejects (hrejects' s hs)
    · exact .inr ⟨a, v, hv.suffix, hv.length, hv.nesting,
        fun s hs => (hrejects s hs).orElse (hv.accepts s hs)⟩
  · exact .inr ⟨a, v, hv.suffix, hv.length, hv.nesting, fun s hs => (hv.accepts s hs).orElse⟩

/-! ## Tokens -/

/-- A rule for one token that is no brace. -/
theorem steady_of_token {g : Token → Option α} (hl : g (.symbol .lbrace) = none)
    (hr : g (.symbol .rbrace) = none) (haccepts : ∀ {t a}, g t = some a → ∀ more, Accepts r (t :: more) a more)
    (hrejects : ∀ {toks : List Token}, (∀ t ∈ toks.head?, g t = none) → Rejects r toks) : Steady m 1 r := by
  intro tail u _
  cases u with
  | nil =>
      refine .inl fun s hs => hrejects fun t ht => ?_
      cases tail with
      | ended =>
          cases hs
          cases ht
      | closed =>
          obtain ⟨more, rfl⟩ := hs
          cases ht
          exact hr
  | cons t v =>
      cases ht : g t with
      | none =>
          refine .inl fun s _ => hrejects fun t' ht' => ?_
          cases ht'
          exact ht
      | some a =>
          have hne : ∀ {x : Token}, g x = none → t ≠ x := by
            intro x hx heq
            rw [heq, hx] at ht
            cases ht
          exact .inr ⟨a, v, List.suffix_cons t v, Nat.le_refl _,
            (nesting_cons_of_ne (hne hl) (hne hr) v).symm, fun s _ => haccepts ht (v ++ s)⟩

theorem steady_token {g : Token → Option α} (hl : g (.symbol .lbrace) = none)
    (hr : g (.symbol .rbrace) = none) : Steady m 1 (token g) :=
  steady_of_token hl hr (fun h more => accepts_token h more) rejects_token

theorem steady_oneOf {table : List (Token × α)} (hl : table.lookup (.symbol .lbrace) = none)
    (hr : table.lookup (.symbol .rbrace) = none) : Steady m 1 (oneOf table) :=
  steady_of_token hl hr (fun h more => accepts_oneOf h more) rejects_oneOf

theorem steady_symbol {x : Symbol} (hl : x ≠ .lbrace) (hr : x ≠ .rbrace) : Steady m 1 (symbol x) := by
  have hlookup : ∀ {y : Symbol}, x ≠ y → [(Token.symbol x, ())].lookup (.symbol y) = none := by
    intro y hy
    rw [List.lookup_eq_none_iff]
    intro p hp
    cases List.mem_singleton.mp hp
    exact bne_iff_ne.mpr fun h => hy (Token.symbol.inj h).symm
  exact steady_oneOf (hlookup hl) (hlookup hr)

theorem steady_keyword (w : Keyword) : Steady m 1 (keyword w) := steady_oneOf rfl rfl

/-! ## Options and repetitions -/

theorem Steady.optional (h : Steady m k r) : Steady m 0 (optional r) := by
  intro tail u hu
  rcases h tail u hu with hrejects | ⟨a, v, hv⟩
  · exact .inr ⟨none, u, List.suffix_refl u, Nat.le_refl _, rfl, fun s hs => (hrejects s hs).optional⟩
  · exact .inr ⟨some a, v, hv.suffix, hv.suffix.length_le, hv.nesting, fun s hs => (hv.accepts s hs).optional⟩

theorem Steady.many (h : Steady m 1 r) : Steady m 0 (many r) := by
  intro tail u hu
  -- every round leaves a shorter part
  have hrounds : ∃ as v, v <:+ u ∧ nesting v = nesting u ∧
      ∀ s, tail.Fits s → Repeats r (u ++ s) as (v ++ s) := by
    induction hn : u.length using Nat.strong_induction_on generalizing u with
    | _ n ih =>
      subst hn
      rcases h tail u hu with hrejects | ⟨a, v, hv⟩
      · exact ⟨[], u, List.suffix_refl u, rfl, fun s hs => .stop (hrejects s hs)⟩
      · obtain ⟨as, w, hsuffix, hnesting, hrepeats⟩ := ih v.length hv.length v (hv.fenced hu) rfl
        refine ⟨a :: as, w, hsuffix.trans hv.suffix, hnesting.trans hv.nesting, fun s hs => ?_⟩
        refine .round (hv.accepts s hs) ?_ (hrepeats s hs)
        have hlength := hv.length
        rw [List.length_append, List.length_append]
        omega
  obtain ⟨as, v, hsuffix, hnesting, hrepeats⟩ := hrounds
  exact .inr ⟨as, v, hsuffix, hsuffix.length_le, hnesting, fun s hs => (hrepeats s hs).many⟩

theorem Steady.many1 (h : Steady m 1 r) : Steady m 1 (many1 r) := h.seq fun _ => h.many.map

theorem Steady.sepBy1 {sep : Rule Unit} (h : Steady m 1 r) (hsep : Steady m 1 sep) :
    Steady m 1 (sepBy1 r sep) :=
  h.seq fun _ => (hsep.seq fun _ => h.lax).many.map

theorem Steady.sepBy {sep : Rule Unit} (h : Steady m 1 r) (hsep : Steady m 1 sep) :
    Steady m 0 (sepBy r sep) :=
  (h.sepBy1 hsep).optional.map

/-! ## Brackets -/

theorem Steady.parens (h : Steady m k r) : Steady m 1 (parens r) :=
  (steady_symbol (by decide) (by decide)).seq fun _ => h.lax.bind fun _ =>
    (steady_symbol (by decide) (by decide)).lax.map

/-- The text starts with a token only if the part does or the part is empty. -/
theorem Tail.Fits.head?_ne {more : List Token} {t : Token} (hs : tail.Fits more) (hu : u.head? ≠ some t)
    (ht : u = [] → tail = .closed → t ≠ .symbol .rbrace) : (u ++ more).head? ≠ some t := by
  cases u with
  | cons x u => exact hu
  | nil =>
      intro hhead
      cases tail with
      | ended =>
          cases hs
          cases hhead
      | closed =>
          obtain ⟨more, rfl⟩ := hs
          cases hhead
          exact ht rfl rfl rfl

/-- A rule in braces stops at the brace that closes its own: the one that follows the part closes nothing
in it. -/
theorem Steady.braces (h : Steady m k r) (hm : m ≤ 0) : Steady m 1 (braces r) := by
  intro tail u hu
  by_cases hhead : u.head? = some (.symbol .lbrace)
  · obtain ⟨u, rfl⟩ := List.head?_eq_some_iff.mp hhead
    have hopen : nesting (.symbol .lbrace :: u) = 1 + nesting u := nesting_cons _ u
    have hinner : Fenced m tail u := fun hclosed => by
      have := hu hclosed
      omega
    rcases h tail u hinner with hrejects | ⟨a, v, hv⟩
    · exact .inl fun s hs => (accepts_symbol _ _).bind_rejects (hrejects s hs).bind
    · have hnesting := hv.nesting
      by_cases hclose : v.head? = some (.symbol .rbrace)
      · obtain ⟨w, rfl⟩ := List.head?_eq_some_iff.mp hclose
        have hcloses : nesting (.symbol .rbrace :: w) = -1 + nesting w := nesting_cons _ w
        have hlength := hv.length
        rw [List.length_cons] at hlength
        refine .inr ⟨a, w, (List.suffix_cons _ w).trans (hv.suffix.trans (List.suffix_cons _ u)), ?_, ?_,
          fun s hs => (hv.accepts s hs).between⟩
        · rw [List.length_cons]
          omega
        · omega
      · refine .inl fun s hs => (accepts_symbol _ _).bind_rejects ((hv.accepts s hs).bind_rejects ?_)
        refine (rejects_exactly (hs.head?_ne hclose fun hnil hclosed => ?_)).bind
        -- the brace behind the part would close the one that was opened here
        have hle := hu hclosed
        have hzero : nesting v = 0 := by rw [hnil]; rfl
        omega
  · exact .inl fun s hs => rejects_between (hs.head?_ne hhead fun _ _ => by decide)

/-! ## Reading up to the brace -/

theorem exists_lexemes (toks : List Token) : ∃ ts : List Lexeme, ts.map (·.token) = toks := by
  refine ⟨toks.map fun t => ⟨t, ⟨0, 0⟩⟩, ?_⟩
  rw [List.map_map]
  exact List.map_id _

theorem Accepts.unique {toks more more' : List Token} {b : α} (h : Accepts r toks a more)
    (h' : Accepts r toks b more') : a = b ∧ more = more' := by
  obtain ⟨ts, hts⟩ := exists_lexemes toks
  obtain ⟨rest, hint, hr, hrest⟩ := h ts hts
  obtain ⟨rest', hint', hr', hrest'⟩ := h' ts hts
  rw [hr] at hr'
  cases hr'
  exact ⟨rfl, hrest.symm.trans hrest'⟩

theorem Accepts.not_rejects {toks more : List Token} (h : Accepts r toks a more) : ¬ Rejects r toks := by
  intro hrejects
  obtain ⟨ts, hts⟩ := exists_lexemes toks
  obtain ⟨rest, hint, hr, _⟩ := h ts hts
  obtain ⟨fault, hfail⟩ := hrejects ts hts
  cases hr.symm.trans hfail

/-- What a rule has read from some lexemes. -/
theorem Steady.of_ok {ts rest : List Lexeme} {hint : Option Fault} (h : Steady m k r)
    (hr : r ts = .ok a rest hint) :
    ReadsTo k .ended r (ts.map (·.token)) a (rest.map (·.token)) := by
  rcases h .ended (ts.map (·.token)) (fun hclosed => nomatch hclosed) with hrejects | ⟨b, v, hv⟩
  · obtain ⟨fault, hfail⟩ := hrejects [] rfl ts (List.append_nil _).symm
    cases hr.symm.trans hfail
  · obtain ⟨rest', hint', hr', hrest'⟩ := hv.accepts [] rfl ts (List.append_nil _).symm
    rw [hr] at hr'
    cases hr'
    rw [List.append_nil] at hrest'
    exact hrest' ▸ hv

/-- The tokens behind a closing brace may be replaced. -/
theorem Steady.cut {more : List Token} (h : Steady m k r) (hu : nesting u ≤ m)
    (hread : Accepts r (u ++ .symbol .rbrace :: more) a (v ++ .symbol .rbrace :: more)) (other : List Token) :
    Accepts r (u ++ .symbol .rbrace :: other) a (v ++ .symbol .rbrace :: other) := by
  rcases h .closed u (fun _ => hu) with hrejects | ⟨b, w, hw⟩
  · exact absurd (hrejects _ ⟨more, rfl⟩) hread.not_rejects
  · obtain ⟨rfl, hrest⟩ := hread.unique (hw.accepts _ ⟨more, rfl⟩)
    cases List.append_cancel_right hrest
    exact hw.accepts _ ⟨other, rfl⟩

theorem exists_of_orElse {ts rest : List Lexeme} {hint : Option Fault}
    (h : (r <|> s) ts = .ok a rest hint) : r ts = .ok a rest hint ∨ s ts = .ok a rest hint := by
  change Rule.orElse r (fun _ => s) ts = _ at h
  unfold Rule.orElse at h
  cases hr : r ts with
  | ok b mid first =>
      rw [hr] at h
      exact .inl h
  | fail fault =>
      simp only [hr] at h
      cases hs : s ts with
      | ok b mid second =>
          rw [hs] at h
          exact .inr h
      | fail fault' =>
          rw [hs] at h
          cases h

theorem tokens_of_symbol {x : Symbol} {ts rest : List Lexeme} {y : Unit} {hint : Option Fault}
    (h : symbol x ts = .ok y rest hint) : ts.map (·.token) = .symbol x :: rest.map (·.token) := by
  by_cases hhead : (ts.map (·.token)).head? = some (.symbol x)
  · obtain ⟨more, hmore⟩ := List.head?_eq_some_iff.mp hhead
    obtain ⟨rest', hint', hr, hrest⟩ := accepts_symbol x more ts hmore
    cases h.symm.trans hr
    rw [hmore, hrest]
  · obtain ⟨fault, hfail⟩ := rejects_exactly hhead ts rfl
    cases h.symm.trans hfail

theorem exists_of_between {x y : Symbol} {ts rest : List Lexeme} {hint : Option Fault}
    (h : between x y r ts = .ok a rest hint) : ∃ inner mid first,
      ts.map (·.token) = .symbol x :: inner.map (·.token) ∧ r inner = .ok a mid first ∧
      mid.map (·.token) = .symbol y :: rest.map (·.token) := by
  unfold between at h
  obtain ⟨_, inner, _, _, hopen, h⟩ := exists_of_bind h
  obtain ⟨b, mid, first, _, hr, h⟩ := exists_of_bind h
  obtain ⟨_, after, _, _, hclose, h⟩ := exists_of_bind h
  cases h
  exact ⟨inner, mid, first, tokens_of_symbol hopen, hr, tokens_of_symbol hclose⟩

end Rule

/-! ## The grammar -/

namespace Grammar

open Rule

variable {m : Int} {d : Nat} {e : Rule Expr} {s : Rule Stmt}

theorem steady_ident : Steady m 1 ident := steady_token rfl rfl

theorem steady_typeName : Steady m 1 typeName := Steady.many1 (steady_token rfl rfl)

theorem steady_comma : Steady m 1 comma := steady_symbol (by decide) (by decide)

theorem steady_semicolon : Steady m 1 semicolon := steady_symbol (by decide) (by decide)

/-- No operator is a brace. -/
theorem steady_operator {α : Type} {ops : List α} {sym : α → Symbol}
    (hsym : ∀ op, sym op ≠ .lbrace ∧ sym op ≠ .rbrace) :
    Steady m 1 (oneOf (ops.map fun op => (.symbol (sym op), op))) := by
  have hlookup : ∀ {x : Symbol}, (∀ op, sym op ≠ x) →
      (ops.map fun op => (Token.symbol (sym op), op)).lookup (.symbol x) = none := by
    intro x hx
    rw [List.lookup_eq_none_iff]
    intro p hp
    obtain ⟨op, _, rfl⟩ := List.mem_map.mp hp
    exact bne_iff_ne.mpr fun h => hx op (Token.symbol.inj h).symm
  exact steady_oneOf (hlookup fun op => (hsym op).1) (hlookup fun op => (hsym op).2)

theorem steady_unaryOp (ops : List UnaryOp) : Steady m 1 (unaryOp ops) :=
  steady_operator fun op => by cases op <;> decide

theorem steady_binaryOp (ops : List BinaryOp) : Steady m 1 (binaryOp ops) :=
  steady_operator fun op => by cases op <;> decide

/-! ### Expressions -/

section

variable (he : Steady m 1 e)
include he

theorem steady_varOrCall : Steady m 1 (varOrCall e) := by
  refine steady_ident.seq fun name => (he.sepBy steady_comma).parens.optional.bind fun args => ?_
  cases args with
  | none => exact steady_pure _
  | some args => exact steady_pure _

theorem steady_atom : Steady m 1 (atom e) :=
  (steady_token rfl rfl).orElse ((steady_varOrCall he).orElse he.parens)

theorem steady_trailed : Steady m 1 (trailed e) :=
  (steady_atom he).seq fun _ => (steady_unaryOp _).many.map

theorem steady_unary : ∀ d, Steady m 1 (unary e d)
  | 0 => steady_fail
  | d + 1 =>
      have hmore := (steady_unary d).lax
      ((steady_unaryOp _).seq fun _ => hmore.map).orElse
        ((steady_typeName.parens.seq fun _ => hmore.map).orElse (steady_trailed he))

theorem steady_chain (ops : List BinaryOp) : Steady m 1 (chain ops e) :=
  he.seq fun _ => ((steady_binaryOp ops).seq fun _ => he.lax.map).many.map

theorem steady_binary : ∀ levels strength, Steady m 1 (binary e levels strength)
  | 0, _ => he
  | levels + 1, strength => steady_chain (steady_binary levels (strength + 1)) _

end

theorem steady_expr : ∀ d, Steady m 1 (expr d)
  | 0 => steady_fail
  | d + 1 => steady_binary (steady_unary (steady_expr d) (d + 1)) 6 1

/-! ### Statements -/

section

variable (he : Steady m 1 e)
include he

theorem steady_assignment : Steady m 1 (assignment e) := by
  refine steady_ident.seq fun target => (steady_oneOf rfl rfl).lax.bind fun op => he.lax.bind fun value => ?_
  cases op with
  | none => exact steady_pure _
  | some op => exact steady_pure _

theorem steady_simple : Steady m 1 (simple e) := (steady_assignment he).orElse he.map

theorem steady_simpleList : Steady m 0 (simpleList e) := (steady_simple he).sepBy steady_comma

theorem steady_declarator : Steady m 1 (declarator e) :=
  steady_ident.seq fun _ =>
    ((steady_symbol (by decide) (by decide)).seq fun _ => he.lax).optional.map

theorem steady_declaration : Steady m 1 (declaration e) :=
  steady_typeName.seq fun _ => ((steady_declarator he).sepBy1 steady_comma).lax.map

theorem steady_forInit : Steady m 0 (forInit e) :=
  (steady_declaration he).lax.map.orElse (steady_simpleList he)

theorem steady_returnStmt : Steady m 1 (returnStmt e) :=
  (steady_keyword _).seq fun _ => he.optional.bind fun _ => steady_semicolon.lax.map

variable (hs : Steady m 1 s)
include hs

theorem steady_branch : Steady m 1 (branch e s) :=
  (steady_keyword _).seq fun _ => he.parens.lax.bind fun _ => hs.lax.bind fun _ =>
    ((steady_keyword _).seq fun _ => hs.lax).optional.map

theorem steady_whileLoop : Steady m 1 (whileLoop e s) :=
  (steady_keyword _).seq fun _ => he.parens.lax.bind fun _ => hs.lax.map

theorem steady_doWhile : Steady m 1 (doWhile e s) :=
  (steady_keyword _).seq fun _ => hs.lax.bind fun _ => (steady_keyword _).lax.bind fun _ =>
    he.parens.lax.bind fun _ => steady_semicolon.lax.map

theorem steady_forLoop : Steady m 1 (forLoop e s) := by
  have hheader : Steady m 0 (do
      let init ← forInit e
      semicolon
      let cond ← optional e
      semicolon
      return (init, cond, ← simpleList e)) :=
    (steady_forInit he).bind fun _ => steady_semicolon.lax.bind fun _ => he.optional.bind fun _ =>
      steady_semicolon.lax.bind fun _ => (steady_simpleList he).map
  exact (steady_keyword _).seq fun _ => hheader.parens.lax.bind fun _ => hs.lax.map

end

theorem steady_jump (k : Keyword) (x : Stmt) : Steady m 1 (jump k x) :=
  (steady_keyword k).seq fun _ => steady_semicolon.lax.map

theorem steady_ended {k : Nat} (hs : Steady m k s) : Steady m 1 (ended s) :=
  hs.lax.bind fun _ => steady_semicolon.map

/-- A statement does not look behind the brace that closes the block around it. -/
theorem steady_stmt : ∀ d, Steady 0 1 (stmt d)
  | 0 => steady_fail
  | d + 1 => by
      have he : Steady 0 1 (expr (d + 1)) := steady_expr (d + 1)
      have hs := steady_stmt d
      have hblock : Steady 0 1 (block (stmt d)) := (hs.many.braces (Int.le_refl 0)).map
      exact hblock.orElse ((steady_branch he hs).orElse ((steady_whileLoop he hs).orElse
        ((steady_doWhile he hs).orElse ((steady_forLoop he hs).orElse ((steady_returnStmt he).orElse
        ((steady_jump _ _).orElse ((steady_jump _ _).orElse ((steady_ended (steady_pure _)).orElse
        ((steady_ended (steady_declaration he)).orElse (steady_ended (steady_simple he)))))))))))

/-! ### Functions -/

theorem steady_param : Steady m 1 param := steady_typeName.seq fun _ => steady_ident.optional.map

theorem steady_params : Steady m 1 (parens (sepBy param comma)) := (steady_param.sepBy steady_comma).parens

/-- The parts of a definition. A prototype has no body, so it is none. -/
theorem exists_of_function {f : Function} {ts rest : List Lexeme} {hint : Option Fault}
    (h : function d ts = .ok (some f) rest hint) :
    ∃ returns name params body atName atParams inner,
      f = ⟨returns, name, params.filterMap id, body⟩ ∧
      ReadsTo 1 .ended typeName (ts.map (·.token)) returns atName ∧
      ReadsTo 1 .ended ident atName name atParams ∧
      ReadsTo 1 .ended (parens (sepBy param comma)) atParams params (.symbol .lbrace :: inner) ∧
      ReadsTo 0 .ended (many (stmt d)) inner body (.symbol .rbrace :: rest.map (·.token)) := by
  unfold function at h
  obtain ⟨returns, atName, _, _, hreturns, h⟩ := exists_of_bind h
  obtain ⟨name, atParams, _, _, hname, h⟩ := exists_of_bind h
  obtain ⟨params, atBody, _, _, hparams, h⟩ := exists_of_bind h
  obtain ⟨body?, behind, _, _, hbody, h⟩ := exists_of_bind h
  obtain ⟨hf, rfl, _⟩ := Reply.ok.inj h
  obtain ⟨body, rfl, rfl⟩ := Option.map_eq_some_iff.mp hf
  have hbraces : ∃ hint, braces (many (stmt d)) atBody = .ok body behind hint := by
    rcases exists_of_orElse hbody with hbody | hbody
    · obtain ⟨_, _, hint, _, hbraces, hpure⟩ := exists_of_bind hbody
      cases hpure
      exact ⟨hint, hbraces⟩
    · obtain ⟨_, _, _, _, _, hpure⟩ := exists_of_bind hbody
      cases hpure
  obtain ⟨_, hbraces⟩ := hbraces
  obtain ⟨inner, atClose, _, hopen, hmany, hclose⟩ := exists_of_between hbraces
  exact ⟨returns, name, params, body, _, _, _, rfl, (steady_typeName (m := 0)).of_ok hreturns,
    (steady_ident (m := 0)).of_ok hname, hopen ▸ (steady_params (m := 0)).of_ok hparams,
    hclose ▸ (steady_stmt d).many.of_ok hmany⟩

/-- **A function is read alone as it is read in its text**, up to the brace that closes its body. -/
theorem accepts_function_alone {f : Function} {ts rest : List Lexeme} {hint : Option Fault}
    (h : function d ts = .ok (some f) rest hint) :
    ∃ u, ts.map (·.token) = u ++ .symbol .rbrace :: rest.map (·.token) ∧
      Accepts (function d) (u ++ [.symbol .rbrace]) (some f) [] := by
  obtain ⟨returns, name, params, body, atName, atParams, inner, rfl, hreturns, hname, hparams, hmany⟩ :=
    exists_of_function h
  -- each part starts at some tokens before the closing brace
  have hinner := hmany.suffix
  have hatParams := (hinner.trans (List.suffix_cons _ inner)).trans hparams.suffix
  have hatName := hatParams.trans hname.suffix
  obtain ⟨u, hu⟩ := hatName.trans hreturns.suffix
  obtain ⟨w, rfl⟩ := hinner
  obtain ⟨p, rfl⟩ := hatParams
  obtain ⟨q, rfl⟩ := hatName
  rw [← hu] at hreturns
  refine ⟨u, hu.symm, ?_⟩
  have hbalanced : nesting w ≤ 0 := by
    have hnesting := hmany.nesting
    rw [nesting_append] at hnesting
    omega
  have hbody : Accepts (braces (many (stmt d))) (.symbol .lbrace :: w ++ [.symbol .rbrace]) body [] :=
    ((steady_stmt d).many.cut (v := []) hbalanced hmany.alone []).between
  have hdefined : Accepts (do return some (← braces (many (stmt d))))
      (.symbol .lbrace :: w ++ [.symbol .rbrace]) (some body) [] := hbody.bind (accepts_pure (some body) [])
  exact (steady_typeName.cut (Int.le_refl _) hreturns.alone []).bind
    ((steady_ident.cut (Int.le_refl _) hname.alone []).bind
      ((steady_params.cut (v := .symbol .lbrace :: w) (Int.le_refl _) hparams.alone []).bind
        (hdefined.orElse.bind (accepts_pure (some _) []))))

end Grammar

end GrowthFlow.Lang
