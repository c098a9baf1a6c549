import Mathlib.Data.List.Basic
import GrowthFlow.Proofs.Spelling

/-!
# The lexemes of a text and of its pieces

The texts of the lexemes, put together again with a blank between two of them, have the same tokens: comments,
directives and suffixes are gone, but no token is glued to the next one or taken apart.

The second half is about cutting a text. `Lexed pos cs ls` says without fuel how a text falls into blanks, items
and comments, and where its lexemes lie. A text may be cut right before a lexeme, because nothing that was read
looks back, and right behind one, because an item is read in the same way whatever follows it
(`readItem_append`). Two places look ahead without reading: a comment that is never closed is no comment, and
is not closed in a shorter text either; and two characters make a symbol only if both are there, which
the cut does not change, as the longer symbol would have been read.
-/

namespace GrowthFlow.Lang

open GrowthFlow.Text

/-! ## Texts of tokens -/

/-- The texts of tokens with a blank between two of them. -/
def Token.spaced (ts : List Token) : String := " ".intercalate (ts.map text)

namespace Glyph

/-- Tokens with a blank between two of them. -/
def spaced (ts : List Token) : List Glyph := (ts.map token).intersperse space

theorem spaced_cons_cons (t u : Token) (ts : List Token) :
    spaced (t :: u :: ts) = token t :: space :: spaced (u :: ts) := List.intersperse_cons_cons

theorem tokens_spaced (ts : List Token) : tokens (spaced ts) = ts := by
  induction ts with
  | nil => rfl
  | cons t ts ih =>
      cases ts with
      | nil => rfl
      | cons u us =>
          rw [spaced_cons_cons]
          exact congrArg (t :: ·) ih

theorem isChain_spaced (ts : List Token) : (spaced ts).IsChain Apart := by
  induction ts with
  | nil => exact .nil
  | cons t ts ih =>
      cases ts with
      | nil => exact .singleton _
      | cons u us =>
          rw [spaced_cons_cons]
          refine List.isChain_cons.mpr ⟨fun g hg => ?_, List.isChain_cons.mpr ⟨fun _ _ => trivial, ih⟩⟩
          cases hg
          trivial

theorem chars_spaced (width : Nat) (ts : List Token) :
    chars width (spaced ts) = (Token.spaced ts).toList := by
  rw [Token.spaced, String.toList_intercalate, List.map_map]
  induction ts with
  | nil => rfl
  | cons t ts ih =>
      cases ts with
      | nil => rfl
      | cons u us =>
          rw [spaced_cons_cons, chars_cons, chars_cons, ih, toList_space]
          rfl

end Glyph

theorem lexemes_spaced {ts : List Token} (h : ∀ t ∈ ts, t.Spelled) :
    ∃ ls, lexemes (Token.spaced ts).toList = .ok ls ∧ ls.map (·.token) = ts := by
  have hread := Glyph.lexemes_render 0 (Glyph.isChain_spaced ts)
  rw [Glyph.tokens_spaced, Glyph.toList_render, Glyph.chars_spaced] at hread
  refine hread h fun hnil => ?_
  subst hnil
  rfl

/-- **The texts of tokens determine the tokens**: put together with single blanks they are read as the same
tokens, so two sources have the same texts only if they have the same tokens. -/
theorem tokens_of_texts {source : String} {ls : List Lexeme} (h : lexemes source.toList = .ok ls) :
    (∃ again, lexemes (Token.spaced (ls.map (·.token))).toList = .ok again ∧
      again.map (·.token) = ls.map (·.token)) ∧
    ∀ {other : String} {others : List Lexeme}, lexemes other.toList = .ok others →
      (Token.spaced (others.map (·.token)) = Token.spaced (ls.map (·.token)) ↔
        others.map (·.token) = ls.map (·.token)) := by
  have hspelled : ∀ {cs : List Char} {ls : List Lexeme}, lexemes cs = .ok ls →
      ∀ t ∈ ls.map (·.token), t.Spelled := by
    intro cs ls h t ht
    obtain ⟨l, hl, rfl⟩ := List.mem_map.mp ht
    exact spelled_of_lexemes h l hl
  refine ⟨lexemes_spaced (hspelled h), fun hother => ⟨fun heq => ?_, congrArg Token.spaced⟩⟩
  -- the common text is read only once
  obtain ⟨again, hagain, htokens⟩ := lexemes_spaced (hspelled h)
  obtain ⟨again', hagain', htokens'⟩ := lexemes_spaced (hspelled hother)
  rw [heq, hagain] at hagain'
  cases hagain'
  exact htokens'.symm.trans htokens

/-- Zeros that stand alone, a suffix, a comment that is never closed, and operators without blanks. -/
def crowded : String := "/* a */ 007u x/*--=-1UL!// b\n#c"

theorem tokens_of_texts_crowded : ∃ ls, lexemes crowded.toList = .ok ls ∧
    Token.spaced (ls.map (·.token)) = "0 0 7 x / * -- = - 1 !" ∧
    ∃ again, lexemes "0 0 7 x / * -- = - 1 !".toList = .ok again ∧
      again.map (·.token) = ls.map (·.token) := by
  have hok : (lexemes crowded.toList).isOk = true := by decide +kernel
  cases hls : lexemes crowded.toList with
  | error fault =>
      rw [hls] at hok
      cases hok
  | ok ls =>
      have htext : (lexemes crowded.toList).map (fun ls => Token.spaced (ls.map (·.token))) =
          .ok "0 0 7 x / * -- = - 1 !" := by decide +kernel
      have htext : Token.spaced (ls.map (·.token)) = "0 0 7 x / * -- = - 1 !" := by
        rw [hls] at htext
        exact Except.ok.inj htext
      exact ⟨ls, rfl, htext, htext ▸ (tokens_of_texts hls).1⟩

/-! ## The width of an item -/

/-- The width of what was read. -/
def Item.width? : Item → Option Nat
  | token _ width | skipped width => some width
  | tooLarge _ | stuck _ => none

theorem lineWidth_le (cs : List Char) : lineWidth cs ≤ cs.length := by
  induction cs with
  | nil => exact Nat.le_refl _
  | cons c cs ih =>
      rw [lineWidth, List.length_cons]
      split <;> omega

theorem commentWidth?_cons (c : Char) (cs : List Char) : commentWidth? (c :: cs) =
    if c = '*' ∧ cs.head? = some '/' then some 2 else (commentWidth? cs).map (· + 1) := by
  split
  · rename_i h
    obtain ⟨rfl, hcs⟩ := h
    obtain ⟨more, rfl⟩ := List.head?_eq_some_iff.mp hcs
    rfl
  · rename_i h
    rw [commentWidth?]
    intro more hc hcs
    exact h ⟨hc, by rw [hcs]; rfl⟩

theorem commentWidth?_bounds {cs : List Char} :
    ∀ {width}, commentWidth? cs = some width → 0 < width ∧ width ≤ cs.length := by
  induction cs with
  | nil =>
      intro width h
      cases h
  | cons c cs ih =>
      intro width h
      rw [commentWidth?_cons] at h
      split at h
      · rename_i hclose
        cases h
        obtain ⟨more, rfl⟩ := List.head?_eq_some_iff.mp hclose.2
        simp
      · obtain ⟨w, hw, rfl⟩ := Option.map_eq_some_iff.mp h
        exact ⟨Nat.succ_pos w, Nat.succ_le_succ (ih hw).2⟩

/-- The digits at the front are the first one and some that follow it. -/
theorem leadingDigits_eq (c : Char) (cs : List Char) :
    ∃ ds, leadingDigits c cs = c :: ds ∧ ds.length ≤ cs.length := by
  unfold leadingDigits
  split
  · exact ⟨[], rfl, Nat.zero_le _⟩
  · exact ⟨_, rfl, (List.takeWhile_prefix _).length_le⟩

theorem width_readToken {c : Char} {cs : List Char} {width : Nat}
    (h : (readToken c cs).width? = some width) : 0 < width ∧ width ≤ cs.length + 1 := by
  unfold readToken at h
  split at h
  · -- an integer: its suffix is taken from what the digits leave
    obtain ⟨ds, hds, hle⟩ := leadingDigits_eq c cs
    unfold readNumber at h
    rw [hds] at h
    dsimp only at h
    split at h
    · cases h
      have hsuffix := (List.takeWhile_prefix (l := cs.drop ds.length) isSuffix).length_le
      rw [List.length_drop] at hsuffix
      simp only [List.length_cons, List.drop_succ_cons]
      omega
    · cases h
  · split at h
    · cases h
      have hword := (List.takeWhile_prefix (l := cs) isWordPart).length_le
      simp only [List.length_cons]
      omega
    · unfold readSymbol at h
      split at h
      · -- two characters, so the second one is there
        rename_i hpair
        cases h
        cases cs with
        | nil => cases hpair
        | cons d ds => exact ⟨by decide, by simp⟩
      · split at h
        · cases h
          omega
        · cases h

/-- An item that is read has a character and lies in the text. -/
theorem width_readItem {cs : List Char} {width : Nat} (h : (readItem cs).width? = some width) :
    0 < width ∧ width ≤ cs.length := by
  unfold readItem at h
  split at h
  · cases h
  · rename_i more
    cases h
    have := lineWidth_le more
    simp only [List.length_cons]
    omega
  · rename_i more
    -- a comment that is never closed is read as a slash
    split at h
    · rename_i w hw
      cases h
      have := commentWidth?_bounds hw
      simp only [List.length_cons]
      omega
    · exact width_readToken h
  · rename_i more
    cases h
    have := lineWidth_le more
    simp only [List.length_cons]
    omega
  · exact width_readToken h

/-! ## What follows an item does not matter -/

theorem takeWhile_append_of_le {f : Char → Bool} {p q : List Char}
    (h : ((p ++ q).takeWhile f).length ≤ p.length) : (p ++ q).takeWhile f = p.takeWhile f := by
  rw [List.takeWhile_append] at h ⊢
  split at h
  · rename_i hall
    rw [List.length_append] at h
    have hnil : q.takeWhile f = [] := List.eq_nil_of_length_eq_zero (by omega)
    rw [if_pos hall, hnil, List.append_nil]
    exact ((List.takeWhile_prefix f).eq_of_length hall).symm
  · rename_i hall
    rw [if_neg hall]

theorem lineWidth_append {p q : List Char} (h : lineWidth (p ++ q) ≤ p.length) :
    lineWidth (p ++ q) = lineWidth p := by
  induction p with
  | nil => exact Nat.le_zero.mp h
  | cons c p ih =>
      rw [List.cons_append, lineWidth] at h ⊢
      rw [lineWidth]
      split
      · rfl
      · rename_i hc
        rw [if_neg hc, List.length_cons] at h
        rw [ih (Nat.le_of_succ_le_succ h)]

/-- A comment that is closed before the cut is closed there in the shorter text too, and one that is never
closed stays so. -/
theorem commentWidth?_append {p q : List Char}
    (h : ∀ width, commentWidth? (p ++ q) = some width → width ≤ p.length) :
    commentWidth? (p ++ q) = commentWidth? p := by
  induction p with
  | nil =>
      cases hq : commentWidth? q with
      | none => exact hq
      | some width =>
          have hzero := h width hq
          have := commentWidth?_bounds hq
          rw [List.length_nil] at hzero
          omega
  | cons c p ih =>
      rw [List.cons_append, commentWidth?_cons, commentWidth?_cons]
      rw [List.cons_append, commentWidth?_cons] at h
      have hhead : (c = '*' ∧ (p ++ q).head? = some '/') ↔ c = '*' ∧ p.head? = some '/' := by
        cases p with
        | cons d p => exact Iff.rfl
        | nil =>
            refine ⟨fun hclose => ?_, fun hclose => nomatch hclose.2⟩
            rw [if_pos hclose] at h
            exact absurd (Nat.le_of_succ_le_succ (h 2 rfl)) (Nat.not_succ_le_zero 0)
      simp only [hhead] at h ⊢
      split
      · rfl
      · rename_i hclose
        rw [if_neg hclose] at h
        refine congrArg (Option.map (· + 1)) (ih fun width hwidth => ?_)
        exact Nat.le_of_succ_le_succ (h (width + 1) (by rw [hwidth]; rfl))

theorem readNumber_append {c : Char} {p q : List Char} {width : Nat}
    (h : (readNumber c (p ++ q)).width? = some width) (hle : width ≤ p.length + 1) :
    readNumber c (p ++ q) = readNumber c p := by
  obtain ⟨ds, hds, _⟩ := leadingDigits_eq c (p ++ q)
  unfold readNumber at h ⊢
  rw [hds] at h ⊢
  simp only [List.length_cons, List.drop_succ_cons] at h ⊢
  have hwidth : ds.length + 1 + (((p ++ q).drop ds.length).takeWhile isSuffix).length ≤ p.length + 1 := by
    split at h
    · cases h
      exact hle
    · cases h
  have hdigits : leadingDigits c p = c :: ds := by
    rw [← hds]
    unfold leadingDigits at hds ⊢
    split
    · rfl
    · rename_i hc
      rw [if_neg hc] at hds
      rw [takeWhile_append_of_le]
      rw [(List.cons.inj hds).2]
      omega
  rw [List.drop_append_of_le_length (by omega)] at hwidth ⊢
  rw [hdigits, takeWhile_append_of_le (by rw [List.length_drop]; omega)]
  rfl

theorem readToken_append {c : Char} {p q : List Char} {width : Nat}
    (h : (readToken c (p ++ q)).width? = some width) (hle : width ≤ p.length + 1) :
    readToken c (p ++ q) = readToken c p := by
  unfold readToken at h ⊢
  split
  · rename_i hc
    rw [if_pos hc] at h
    exact readNumber_append h hle
  · rename_i hc
    rw [if_neg hc] at h
    split
    · rename_i hword
      rw [if_pos hword] at h
      unfold readWord at h ⊢
      cases h
      rw [takeWhile_append_of_le (Nat.le_of_succ_le_succ hle)]
    · rename_i hword
      rw [if_neg hword] at h
      cases p with
      | cons d p => rfl
      | nil =>
          -- of a longer symbol more than one character is left
          unfold readSymbol at h ⊢
          cases hpair : ([] ++ q).head?.bind (Symbol.ofPair? c) with
          | none => rfl
          | some s =>
              rw [hpair] at h
              cases h
              exact absurd hle (by decide)

theorem readItem_lineComment (cs : List Char) :
    readItem ('/' :: '/' :: cs) = .skipped (lineWidth cs + 2) := rfl

theorem readItem_closed {cs : List Char} {width : Nat} (h : commentWidth? cs = some width) :
    readItem ('/' :: '*' :: cs) = .skipped (width + 2) := by
  rw [readItem, h]

theorem readItem_unclosed {cs : List Char} (h : commentWidth? cs = none) :
    readItem ('/' :: '*' :: cs) = readToken '/' ('*' :: cs) := by
  rw [readItem, h]

theorem readItem_directive (cs : List Char) : readItem ('#' :: cs) = .skipped (lineWidth cs + 1) := rfl

/-- What starts with a slash is read in the same way whatever follows it. -/
theorem readItem_slash_append {p q : List Char} {width : Nat}
    (h : (readItem ('/' :: (p ++ q))).width? = some width) (hle : width ≤ p.length + 1) :
    readItem ('/' :: (p ++ q)) = readItem ('/' :: p) := by
  have htoken : readItem ('/' :: (p ++ q)) = readToken '/' (p ++ q) →
      readItem ('/' :: p) = readToken '/' p → readItem ('/' :: (p ++ q)) = readItem ('/' :: p) := by
    intro hlong hshort
    rw [hlong] at h
    rw [hlong, hshort, readToken_append h hle]
  cases p with
  | nil =>
      -- a comment is wider than its slash
      refine htoken ?_ rfl
      cases q with
      | nil => rfl
      | cons d q =>
          by_cases hline : d = '/'
          · subst hline
            cases h
            exact absurd hle (by rw [List.length_nil]; omega)
          · by_cases hblock : d = '*'
            · subst hblock
              cases hq : commentWidth? q with
              | none => exact readItem_unclosed hq
              | some w =>
                  rw [List.nil_append, readItem_closed hq] at h
                  cases h
                  exact absurd hle (by rw [List.length_nil]; omega)
            · refine readItem_eq_readToken (by decide) fun _ e he => ?_
              cases he
              exact ⟨hline, hblock⟩
  | cons d p =>
      rw [List.cons_append] at h ⊢
      by_cases hline : d = '/'
      · subst hline
        rw [readItem_lineComment] at h ⊢
        cases h
        rw [readItem_lineComment, lineWidth_append (by rw [List.length_cons] at hle; omega)]
      · by_cases hblock : d = '*'
        · subst hblock
          cases hpq : commentWidth? (p ++ q) with
          | none =>
              have hp : commentWidth? p = none := by
                rw [← commentWidth?_append (q := q) fun w hw => (nomatch hpq.symm.trans hw), hpq]
              exact htoken (readItem_unclosed hpq) (readItem_unclosed hp)
          | some w =>
              rw [readItem_closed hpq] at h ⊢
              cases h
              rw [commentWidth?_append] at hpq
              · rw [readItem_closed hpq]
              · intro w' hw'
                cases hpq.symm.trans hw'
                rw [List.length_cons] at hle
                omega
        · have hcomment : ∀ {cs : List Char}, ∀ e ∈ (d :: cs).head?, e ≠ '/' ∧ e ≠ '*' := by
            intro cs e he
            cases he
            exact ⟨hline, hblock⟩
          exact htoken (readItem_eq_readToken (by decide) fun _ => hcomment)
            (readItem_eq_readToken (by decide) fun _ => hcomment)

/-- **An item is read in the same way whatever follows it.** -/
theorem readItem_append {p q : List Char} {width : Nat} (h : (readItem (p ++ q)).width? = some width)
    (hle : width ≤ p.length) : readItem (p ++ q) = readItem p := by
  cases p with
  | nil => exact absurd (width_readItem h).1 (by rw [List.length_nil] at hle; omega)
  | cons c p =>
      rw [List.cons_append] at h ⊢
      by_cases hdirective : c = '#'
      · subst hdirective
        rw [readItem_directive] at h ⊢
        cases h
        rw [readItem_directive, lineWidth_append (Nat.le_of_succ_le_succ hle)]
      · by_cases hslash : c = '/'
        · subst hslash
          exact readItem_slash_append h hle
        · rw [readItem_eq_readToken hdirective fun hc => absurd hc hslash] at h ⊢
          rw [readItem_eq_readToken hdirective fun hc => absurd hc hslash, readToken_append h hle]

/-! ## Texts without fuel -/

/-- A text that starts at `pos` has the lexemes `ls`, with blanks, comments and directives around them. -/
inductive Lexed : (pos : Nat) → List Char → List Lexeme → Prop
  | done {pos : Nat} : Lexed pos [] []
  | blank {pos : Nat} {c : Char} {cs : List Char} {ls : List Lexeme} (hc : isBlank c = true)
      (hcs : Lexed (pos + 1) cs ls) : Lexed pos (c :: cs) ls
  | token {pos : Nat} {t : Token} {w cs : List Char} {ls : List Lexeme}
      (hw : readItem (w ++ cs) = .token t w.length) (hcs : Lexed (pos + w.length) cs ls) :
      Lexed pos (w ++ cs) (⟨t, ⟨pos, pos + w.length⟩⟩ :: ls)
  | skipped {pos : Nat} {w cs : List Char} {ls : List Lexeme}
      (hw : readItem (w ++ cs) = .skipped w.length) (hcs : Lexed (pos + w.length) cs ls) :
      Lexed pos (w ++ cs) ls

/-- A lexeme with its place counted from `start`. -/
def Lexeme.movedBack (start : Nat) (l : Lexeme) : Lexeme :=
  ⟨l.token, ⟨l.span.start - start, l.span.stop - start⟩⟩

/-- No item starts with a blank. -/
theorem readItem_blank {c : Char} {cs : List Char} (hc : isBlank c = true) :
    (readItem (c :: cs)).width? = none := by
  have hne : ∀ {d : Char}, isBlank d = false → c ≠ d := by
    intro d hd heq
    rw [heq, hd] at hc
    cases hc
  have hword : isWordPart c = false := by
    rw [← Bool.not_eq_true]
    intro hpart
    rw [isBlank_of_isWordPart hpart] at hc
    cases hc
  have hdigit : c.isDigit = false := by
    rw [← Bool.not_eq_true]
    exact fun h => absurd (isWordPart_of_isDigit h) (by rw [hword]; decide)
  have hstart : isWordStart c = false := by
    rw [← Bool.not_eq_true]
    exact fun h => absurd (isWordPart_of_isWordStart h) (by rw [hword]; decide)
  have hpair : cs.head?.bind (Symbol.ofPair? c) = none := by
    cases cs with
    | nil => rfl
    | cons d ds =>
        show Symbol.ofPair? c d = none
        unfold Symbol.ofPair?
        split
        all_goals first
          | rfl
          | exact absurd rfl (hne (by decide))
  have hchar : Symbol.ofChar? c = none := by
    unfold Symbol.ofChar?
    split
    all_goals first
      | rfl
      | exact absurd rfl (hne (by decide))
  rw [readItem_eq_readToken (hne (by decide)) fun h => absurd h (hne (by decide)), readToken, hdigit, hstart,
    if_neg Bool.false_ne_true, if_neg Bool.false_ne_true, readSymbol]
  simp only [hpair, hchar]
  rfl

theorem blankWidth_cons {c : Char} {cs : List Char} (hc : isBlank c = false) :
    blankWidth (c :: cs) = 0 := by
  rw [blankWidth, List.takeWhile_cons_of_neg (by rw [hc]; decide)]
  rfl

theorem readMore_cons {fuel pos : Nat} {c : Char} {cs : List Char} (hc : isBlank c = false) :
    readMore fuel pos (c :: cs) = readItems fuel pos (c :: cs) := by
  rw [readMore, blankWidth_cons hc]
  rfl

/-- An item starts with a character that is no blank. -/
theorem starts_of_width {cs : List Char} {width : Nat} (h : (readItem cs).width? = some width) :
    ∃ c more, cs = c :: more ∧ isBlank c = false := by
  cases cs with
  | nil => cases h
  | cons c cs =>
      refine ⟨c, cs, rfl, ?_⟩
      rw [← Bool.not_eq_true]
      intro hc
      cases (readItem_blank hc).symm.trans h

/-- An item in front is read right away, and there is fuel left for what follows it. -/
theorem readMore_of_width {fuel pos : Nat} {w cs : List Char}
    (h : (readItem (w ++ cs)).width? = some w.length) (hfuel : (w ++ cs).length ≤ fuel) :
    ∃ n, cs.length ≤ n ∧ readMore fuel pos (w ++ cs) = readItems (n + 1) pos (w ++ cs) := by
  obtain ⟨c, more, hstart, hc⟩ := starts_of_width h
  have hpos := (width_readItem h).1
  rw [List.length_append] at hfuel
  obtain ⟨n, rfl⟩ : ∃ n, fuel = n + 1 := Nat.exists_eq_succ_of_ne_zero (by omega)
  refine ⟨n, by omega, ?_⟩
  rw [hstart, readMore_cons hc]

namespace Lexed

variable {pos : Nat} {cs : List Char} {ls : List Lexeme}

theorem of_readMore {fuel : Nat} (hfuel : cs.length ≤ fuel) (h : readMore fuel pos cs = .ok ls) :
    Lexed pos cs ls := by
  induction hn : cs.length using Nat.strong_induction_on generalizing fuel pos cs ls with
  | _ n ih =>
    subst hn
    -- an item that was read leaves a shorter text
    have hitem : ∀ {width : Nat} {more : List Lexeme} {fuel : Nat}, (readItem cs).width? = some width →
        cs.length ≤ fuel + 1 → readMore fuel (pos + width) (cs.drop width) = .ok more →
        ∃ w rest, cs = w ++ rest ∧ width = w.length ∧ Lexed (pos + w.length) rest more := by
      intro width more fuel hwidth hfuel hmore
      obtain ⟨hpos, hle⟩ := width_readItem hwidth
      have hlength : (cs.take width).length = width := List.length_take_of_le hle
      refine ⟨_, _, (List.take_append_drop width cs).symm, hlength.symm, ?_⟩
      rw [hlength]
      refine ih _ ?_ ?_ hmore rfl
      · rw [List.length_drop]
        omega
      · rw [List.length_drop]
        omega
    cases cs with
    | nil =>
        cases h
        exact .done
    | cons c cs =>
        cases hc : isBlank c with
        | true =>
            rw [← List.singleton_append, readMore_blanks (List.forall_mem_singleton.mpr hc)] at h
            exact .blank hc (ih _ (Nat.lt_succ_self _) (Nat.le_of_succ_le hfuel) h rfl)
        | false =>
            obtain ⟨fuel, rfl⟩ : ∃ n, fuel = n + 1 :=
              Nat.exists_eq_succ_of_ne_zero (Nat.ne_of_gt (Nat.lt_of_lt_of_le (Nat.succ_pos _) hfuel))
            rw [readMore_cons hc, readItems_succ] at h
            cases hread : readItem (c :: cs) with
            | token t width =>
                rw [hread] at h
                cases hmore : readMore fuel (pos + width) ((c :: cs).drop width) with
                | error fault =>
                    simp only [hmore] at h
                    cases h
                | ok more =>
                    simp only [hmore] at h
                    cases h
                    obtain ⟨w, rest, hcs, rfl, hrest⟩ := hitem (by rw [hread]; rfl) hfuel hmore
                    rw [hcs] at hread ⊢
                    exact .token hread hrest
            | skipped width =>
                rw [hread] at h
                obtain ⟨w, rest, hcs, rfl, hrest⟩ := hitem (by rw [hread]; rfl) hfuel h
                rw [hcs] at hread ⊢
                exact .skipped hread hrest
            | tooLarge width =>
                rw [hread] at h
                cases h
            | stuck offset =>
                rw [hread] at h
                cases h

theorem readMore (h : Lexed pos cs ls) : ∀ {fuel : Nat}, cs.length ≤ fuel → readMore fuel pos cs = .ok ls := by
  induction h with
  | done => exact fun _ => rfl
  | blank hc hcs ih =>
      intro fuel hfuel
      rw [← List.singleton_append, readMore_blanks (List.forall_mem_singleton.mpr hc)]
      exact ih (Nat.le_of_succ_le hfuel)
  | token hw hcs ih =>
      intro fuel hfuel
      obtain ⟨n, hn, hread⟩ := readMore_of_width (by rw [hw]; rfl) hfuel
      rw [hread, readItems_succ, hw]
      simp only [List.drop_left, ih hn]
      rfl
  | skipped hw hcs ih =>
      intro fuel hfuel
      obtain ⟨n, hn, hread⟩ := readMore_of_width (by rw [hw]; rfl) hfuel
      rw [hread, readItems_succ, hw]
      simp only [List.drop_left, ih hn]

theorem of_lexemes (h : lexemes cs = .ok ls) : Lexed 0 cs ls := by
  refine of_readMore (Nat.le_refl _) ?_
  unfold Lang.lexemes at h
  unfold Lang.readMore
  rw [Nat.zero_add]
  cases cs with
  | nil => exact h
  | cons c cs =>
      -- with blanks alone there is no item to read
      cases hmore : (c :: cs).drop (blankWidth (c :: cs)) with
      | nil =>
          rw [hmore] at h
          cases h
      | cons d ds =>
          rw [hmore] at h
          exact h

/-- A text that does not start with a blank is read as it falls apart. -/
theorem lexemes {c : Char} (hc : isBlank c = false) (h : Lexed 0 (c :: cs) ls) :
    lexemes (c :: cs) = .ok ls := by
  have hread := h.readMore (Nat.le_refl _)
  rw [readMore_cons hc] at hread
  unfold Lang.lexemes
  rw [blankWidth_cons hc]
  exact hread

/-! ### Where the lexemes lie -/

theorem bounds (h : Lexed pos cs ls) :
    ∀ l ∈ ls, pos ≤ l.span.start ∧ l.span.start < l.span.stop ∧ l.span.stop ≤ pos + cs.length := by
  induction h with
  | done => exact fun l hl => absurd hl List.not_mem_nil
  | blank hc hcs ih =>
      intro l hl
      have := ih l hl
      rw [List.length_cons]
      omega
  | @token pos t w cs ls hw hcs ih =>
      have hwidth : (readItem (w ++ cs)).width? = some w.length := by rw [hw]; rfl
      have hpos := (width_readItem hwidth).1
      rw [List.length_append]
      refine List.forall_mem_cons.mpr ⟨⟨Nat.le_refl _, ?_, ?_⟩, fun l hl => ?_⟩
      · show pos < pos + w.length
        omega
      · show pos + w.length ≤ pos + (w.length + cs.length)
        omega
      · have := ih l hl
        omega
  | @skipped pos w cs ls hw hcs ih =>
      intro l hl
      have := ih l hl
      rw [List.length_append]
      omega

theorem ordered (h : Lexed pos cs ls) : ls.Pairwise fun a b => a.span.stop ≤ b.span.start := by
  induction h with
  | done => exact .nil
  | blank hc hcs ih => exact ih
  | token hw hcs ih => exact .cons (fun l hl => (hcs.bounds l hl).1) ih
  | skipped hw hcs ih => exact ih

/-! ### Pieces of a text -/

/-- A text may be cut right before a lexeme. -/
theorem from_lexeme {l : Lexeme} {before after : List Lexeme} (h : Lexed pos cs (before ++ l :: after)) :
    ∃ front piece, cs = front ++ piece ∧ l.span.start = pos + front.length ∧
      Lexed l.span.start piece (l :: after) := by
  generalize hls : before ++ l :: after = ls at h
  induction h generalizing before with
  | done => exact absurd hls (by simp)
  | @blank pos c cs ls hc hcs ih =>
      obtain ⟨front, piece, rfl, hstart, hpiece⟩ := ih hls
      refine ⟨c :: front, piece, rfl, ?_, hpiece⟩
      rw [hstart, List.length_cons]
      omega
  | @token pos t w cs ls hw hcs ih =>
      cases before with
      | nil =>
          cases hls
          exact ⟨[], _, rfl, rfl, .token hw hcs⟩
      | cons b before =>
          obtain ⟨front, piece, rfl, hstart, hpiece⟩ := ih (List.cons.inj hls).2
          refine ⟨w ++ front, piece, (List.append_assoc ..).symm, ?_, hpiece⟩
          rw [hstart, List.length_append]
          omega
  | @skipped pos w cs ls hw hcs ih =>
      obtain ⟨front, piece, rfl, hstart, hpiece⟩ := ih hls
      refine ⟨w ++ front, piece, (List.append_assoc ..).symm, ?_, hpiece⟩
      rw [hstart, List.length_append]
      omega

/-- A text may be cut right behind a lexeme. -/
theorem up_to_lexeme {l : Lexeme} {before after : List Lexeme} (h : Lexed pos cs (before ++ l :: after)) :
    ∃ piece back, cs = piece ++ back ∧ l.span.stop = pos + piece.length ∧
      Lexed pos piece (before ++ [l]) := by
  generalize hls : before ++ l :: after = ls at h
  -- every item before the cut is read in the piece as it was read in the text
  have hcut : ∀ {w piece back : List Char} {i : Item}, i.width? = some w.length →
      readItem (w ++ (piece ++ back)) = i → readItem (w ++ piece) = i := by
    intro w piece back i hwidth hi
    rw [← List.append_assoc] at hi
    rw [← readItem_append (q := back) (hi ▸ hwidth) (by rw [List.length_append]; omega), hi]
  induction h generalizing before with
  | done => exact absurd hls (by simp)
  | @blank pos c cs ls hc hcs ih =>
      obtain ⟨piece, back, rfl, hstop, hpiece⟩ := ih hls
      refine ⟨c :: piece, back, rfl, ?_, .blank hc hpiece⟩
      rw [hstop, List.length_cons]
      omega
  | @token pos t w cs ls hw hcs ih =>
      cases before with
      | nil =>
          cases hls
          have hpiece : Lexed pos (w ++ []) _ := .token (hcut rfl hw) .done
          rw [List.append_nil] at hpiece
          exact ⟨w, cs, rfl, rfl, hpiece⟩
      | cons b before =>
          obtain ⟨rfl, hmore⟩ := List.cons.inj hls
          obtain ⟨piece, back, rfl, hstop, hpiece⟩ := ih hmore
          refine ⟨w ++ piece, back, (List.append_assoc ..).symm, ?_, .token (hcut rfl hw) hpiece⟩
          rw [hstop, List.length_append]
          omega
  | @skipped pos w cs ls hw hcs ih =>
      obtain ⟨piece, back, rfl, hstop, hpiece⟩ := ih hls
      refine ⟨w ++ piece, back, (List.append_assoc ..).symm, ?_, .skipped (hcut rfl hw) hpiece⟩
      rw [hstop, List.length_append]
      omega

/-- A text that starts elsewhere has the same lexemes, each as far from its start. -/
theorem movedBack (h : Lexed pos cs ls) {start : Nat} (hstart : start ≤ pos) :
    Lexed (pos - start) cs (ls.map (·.movedBack start)) := by
  induction h with
  | done => exact .done
  | @blank pos c cs ls hc hcs ih =>
      refine .blank hc ?_
      rw [show pos - start + 1 = pos + 1 - start by omega]
      exact ih (by omega)
  | @token pos t w cs ls hw hcs ih =>
      have hlength : pos + w.length - start = pos - start + w.length := by omega
      have hmore := ih (by omega)
      rw [hlength] at hmore
      rw [List.map_cons, Lexeme.movedBack, hlength]
      exact .token hw hmore
  | @skipped pos w cs ls hw hcs ih =>
      refine .skipped hw ?_
      rw [show pos - start + w.length = pos + w.length - start by omega]
      exact ih (by omega)

/-- A text that starts with its first lexeme does not start with a blank. -/
theorem starts {l : Lexeme} (h : Lexed pos cs (l :: ls)) (hl : l.span.start = pos) :
    ∃ c more, cs = c :: more ∧ isBlank c = false := by
  cases h with
  | blank hc hcs =>
      have := (hcs.bounds l List.mem_cons_self).1
      omega
  | token hw hcs => exact starts_of_width (by rw [hw]; rfl)
  | skipped hw hcs => exact starts_of_width (by rw [hw]; rfl)

end Lexed

/-- The characters of a text in a range. -/
def Span.cut (s : Span) (cs : List Char) : List Char := (cs.drop s.start).take (s.stop - s.start)

/-- **A piece of a text has the lexemes of the piece**, counted from its start, if it goes from the first
character of one lexeme to the last character of the same or a later one. -/
theorem lexemes_cut {cs : List Char} {before chunk after : List Lexeme} {first last : Lexeme}
    (h : lexemes cs = .ok (before ++ (chunk ++ after))) (hfirst : chunk.head? = some first)
    (hlast : chunk.getLast? = some last) :
    lexemes (Span.cut ⟨first.span.start, last.span.stop⟩ cs) =
      .ok (chunk.map (·.movedBack first.span.start)) := by
  obtain ⟨tail, htail⟩ := List.head?_eq_some_iff.mp hfirst
  obtain ⟨init, hinit⟩ := List.getLast?_eq_some_iff.mp hlast
  have hlexed := Lexed.of_lexemes h
  rw [htail, List.cons_append] at hlexed
  obtain ⟨front, more, rfl, hstart, hmore⟩ := hlexed.from_lexeme
  rw [← List.cons_append, ← htail, hinit, List.append_assoc, List.singleton_append] at hmore
  obtain ⟨piece, back, rfl, hstop, hpiece⟩ := hmore.up_to_lexeme
  rw [← hinit] at hpiece
  have hcut : Span.cut ⟨first.span.start, last.span.stop⟩ (front ++ (piece ++ back)) = piece := by
    rw [Span.cut, hstop, hstart, Nat.zero_add, Nat.add_sub_cancel_left, List.drop_left, List.take_left]
  have hmoved := hpiece.movedBack (Nat.le_refl _)
  rw [Nat.sub_self] at hmoved
  rw [htail] at hpiece
  obtain ⟨c, rest, rfl, hc⟩ := hpiece.starts rfl
  rw [hcut]
  exact hmoved.lexemes hc

end GrowthFlow.Lang
