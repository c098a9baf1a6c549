import Mathlib.Data.List.Chain
import GrowthFlow.Lang.Layout
import GrowthFlow.Lang.Source

/-!
# Tokens are read as they are spelled

A token is read back from its own spelling as long as the next character does not belong to it. So a row
of glyphs is read back token by token if no two neighbours run into each other (`Apart`): a minus sign may
not stand right before another one, nor a word right before a word, while a bracket or a blank keeps apart
whatever it stands between.

Which tokens can be spelled at all is `Token.Spelled`. Every token that the lexer finds is one of them.
-/

namespace GrowthFlow.Lang

open GrowthFlow.Text

/-! ## Characters of words -/

theorem isAlpha_iff {c : Char} : c.isAlpha = true ↔
    (65 ≤ c.toNat ∧ c.toNat ≤ 90) ∨ (97 ≤ c.toNat ∧ c.toNat ≤ 122) := by
  change (decide ('A'.val ≤ c.val ∧ c.val ≤ 'Z'.val) || ('a'.val ≤ c.val && c.val ≤ 'z'.val)) = true ↔ _
  simp only [Bool.or_eq_true, Bool.and_eq_true, decide_eq_true_eq, UInt32.le_iff_toNat_le]
  exact Iff.rfl

theorem isDigit_iff {c : Char} : c.isDigit = true ↔ 48 ≤ c.toNat ∧ c.toNat ≤ 57 := by
  simp only [Char.isDigit, Bool.and_eq_true, decide_eq_true_eq, UInt32.le_iff_toNat_le, ge_iff_le]
  exact Iff.rfl

theorem isWordPart_iff {c : Char} :
    isWordPart c = true ↔ c.isAlpha = true ∨ c.isDigit = true ∨ c = '_' := by
  simp only [isWordPart, Char.isAlphanum, Bool.or_eq_true, beq_iff_eq, or_assoc]

theorem isWordPart_of_isWordStart {c : Char} (h : isWordStart c = true) : isWordPart c = true := by
  simp only [isWordStart, Bool.or_eq_true, beq_iff_eq] at h
  exact isWordPart_iff.mpr (h.imp_right Or.inr)

/-- A word does not start with a digit. -/
theorem isDigit_of_isWordStart {c : Char} (h : isWordStart c = true) : c.isDigit = false := by
  simp only [isWordStart, Bool.or_eq_true, beq_iff_eq] at h
  rcases h with h | h
  · rw [isAlpha_iff] at h
    rw [← Bool.not_eq_true, isDigit_iff]
    omega
  · subst h
    decide

theorem isWordPart_of_isDigit {c : Char} (h : c.isDigit = true) : isWordPart c = true :=
  isWordPart_iff.mpr (.inr (.inl h))

theorem isWordPart_of_isSuffix {c : Char} (h : isSuffix c = true) : isWordPart c = true := by
  simp only [isSuffix, Bool.or_eq_true, beq_iff_eq] at h
  rcases h with ((h | h) | h) | h <;> subst h <;> decide

/-- No character of a word is a blank. -/
theorem isBlank_of_isWordPart {c : Char} (h : isWordPart c = true) : isBlank c = false := by
  have hc : 48 ≤ c.toNat ∧ c.toNat ≤ 122 := by
    rcases isWordPart_iff.mp h with h | h | h
    · rw [isAlpha_iff] at h
      omega
    · rw [isDigit_iff] at h
      omega
    · subst h
      decide
  simp only [isBlank, Bool.or_eq_false_iff, Bool.and_eq_false_iff, decide_eq_false_iff_not,
    beq_eq_false_iff_ne, ne_eq]
  omega

/-! ## Tokens -/

/-- A letter or an underscore, and then any of these and digits. -/
def isWord (x : String) : Bool :=
  match x.toList with
  | [] => false
  | c :: cs => isWordStart c && cs.all isWordPart

theorem isWord_iff {x : String} : isWord x = true ↔
    ∃ c cs, x.toList = c :: cs ∧ isWordStart c = true ∧ ∀ d ∈ cs, isWordPart d = true := by
  unfold isWord
  cases x.toList with
  | nil => simp
  | cons c cs => simp [and_assoc]

namespace Token

/-- The tokens that a text can have: a name is not a keyword or a type word, and an integer is not
negative and not too large. -/
def Spelled : Token → Prop
  | keyword _ | symbol _ => True
  | typeWord word => word ∈ typeWords
  | ident name => isWord name = true ∧ ofWord name = ident name
  | number value => ∃ n : Nat, value = n ∧ n ≤ maxInteger

/-- Whether a character right behind the token does not belong to it. -/
def stopsAt : Token → Char → Bool
  | symbol s, c =>
    match s.text.toList with
    | [a] => (Symbol.ofPair? a c).isNone && !(a == '/' && (c == '/' || c == '*'))
    | _ => true
  | _, c => !isWordPart c

end Token

/-- Nothing but the start of a comment or a directive is skipped. -/
theorem readItem_eq_readToken {c : Char} {cs : List Char} (hc : c ≠ '#')
    (hcs : c = '/' → ∀ d ∈ cs.head?, d ≠ '/' ∧ d ≠ '*') : readItem (c :: cs) = readToken c cs := by
  unfold readItem
  split
  · exact absurd ‹_› (List.cons_ne_nil _ _)
  · rename_i h
    cases h
    exact absurd rfl (hcs rfl '/' rfl).1
  · rename_i h
    cases h
    exact absurd rfl (hcs rfl '*' rfl).2
  · rename_i h
    cases h
    exact absurd rfl hc
  · rename_i h
    cases h
    rfl

theorem readItem_of_isWordPart {c : Char} {cs : List Char} (h : isWordPart c = true) :
    readItem (c :: cs) = readToken c cs := by
  refine readItem_eq_readToken ?_ ?_
  · intro hc
    subst hc
    exact absurd h (by decide)
  · intro hc
    subst hc
    exact absurd h (by decide)

theorem takeWhile_append_of_stop {p : Char → Bool} {w cs : List Char} (hw : ∀ c ∈ w, p c = true)
    (hcs : ∀ c ∈ cs.head?, p c = false) : (w ++ cs).takeWhile p = w := by
  rw [List.takeWhile_append_of_pos hw]
  cases cs with
  | nil => rw [List.takeWhile_nil, List.append_nil]
  | cons c cs => rw [List.takeWhile_cons_of_neg (by rw [hcs c rfl]; decide), List.append_nil]

theorem readItem_word {x : String} (hx : isWord x = true) {cs : List Char}
    (hcs : ∀ c ∈ cs.head?, isWordPart c = false) :
    readItem (x.toList ++ cs) = .token (.ofWord x) x.toList.length := by
  obtain ⟨c, w, hx, hc, hw⟩ := isWord_iff.mp hx
  rw [hx, List.cons_append, readItem_of_isWordPart (isWordPart_of_isWordStart hc), readToken,
    isDigit_of_isWordStart hc, hc, if_neg Bool.false_ne_true, if_pos rfl, readWord,
    takeWhile_append_of_stop hw hcs, ← hx, String.ofList_toList]

/-! ## Integers -/

/-- Only zero starts with a zero. -/
theorem toDigits_head {n : Nat} : ∀ {ds : List Char}, Nat.toDigits 10 n = '0' :: ds → n = 0 ∧ ds = [] := by
  induction n using Nat.strong_induction_on with
  | _ n ih =>
    intro ds h
    rw [Nat.toDigits_eq_if (by decide)] at h
    split at h
    · rename_i hlt
      obtain ⟨hd, hnil⟩ := List.cons.inj h
      have hzero : ∀ m < 10, m.digitChar = '0' → m = 0 := by decide
      exact ⟨hzero n hlt hd, hnil.symm⟩
    · rename_i hge
      cases hq : Nat.toDigits 10 (n / 10) with
      | nil => exact absurd hq Nat.toDigits_ne_nil
      | cons d es =>
          rw [hq] at h
          obtain ⟨rfl, _⟩ := List.cons.inj h
          have := (ih (n / 10) (by omega) hq).1
          omega

theorem decimalValue_toDigits (n : Nat) : decimalValue (Nat.toDigits 10 n) = n := by
  have h : Nat.ofDigitChars 10 (Nat.toDigits 10 n) 0 = n := Nat.ofDigitChars_ten_toDigits
  rwa [Nat.ofDigitChars_eq_foldl] at h

theorem readItem_number {n : Nat} (hn : n ≤ maxInteger) {cs : List Char}
    (hcs : ∀ c ∈ cs.head?, isWordPart c = false) :
    readItem (Nat.toDigits 10 n ++ cs) = .token (.number n) (Nat.toDigits 10 n).length := by
  have hdigit : ∀ c ∈ Nat.toDigits 10 n, c.isDigit = true := fun c hc =>
    Nat.isDigit_of_mem_toDigits (by decide) (by decide) hc
  have hvalue := decimalValue_toDigits n
  cases hds : Nat.toDigits 10 n with
  | nil => exact absurd hds Nat.toDigits_ne_nil
  | cons d ds =>
      rw [hds] at hdigit hvalue
      have hd := hdigit d List.mem_cons_self
      -- a zero is read alone, and no other integer starts with one
      have hleading : leadingDigits d (ds ++ cs) = d :: ds := by
        unfold leadingDigits
        split
        · rename_i h
          cases eq_of_beq h
          rw [(toDigits_head hds).2]
        · rw [takeWhile_append_of_stop (fun c hc => hdigit c (List.mem_cons_of_mem _ hc))]
          intro c hc
          rw [← Bool.not_eq_true]
          exact fun h => absurd (isWordPart_of_isDigit h) (by rw [hcs c hc]; decide)
      have hsuffix : cs.takeWhile isSuffix = [] := by
        refine takeWhile_append_of_stop (w := []) (fun c hc => absurd hc List.not_mem_nil) fun c hc => ?_
        rw [← Bool.not_eq_true]
        exact fun h => absurd (isWordPart_of_isSuffix h) (by rw [hcs c hc]; decide)
      rw [List.cons_append, readItem_of_isWordPart (isWordPart_of_isDigit hd), readToken, hd,
        if_pos rfl, readNumber, hleading, ← List.cons_append, List.drop_left, hsuffix, hvalue, if_pos hn]
      rfl

/-! ## Symbols -/

/-- A character that starts a symbol and nothing else. -/
def StartsSymbol (a : Char) : Prop := a.isDigit = false ∧ isWordStart a = false ∧ isBlank a = false ∧ a ≠ '#'

/-- A symbol has one character or two. -/
theorem symbol_cases (s : Symbol) :
    (∃ a, s.text.toList = [a] ∧ StartsSymbol a ∧ Symbol.ofChar? a = some s) ∨
      (∃ a b, s.text.toList = [a, b] ∧ StartsSymbol a ∧ Symbol.ofPair? a b = some s ∧
        b ≠ '/' ∧ b ≠ '*') := by
  unfold StartsSymbol
  cases s <;> first
    | exact .inl ⟨_, rfl, by decide, rfl⟩
    | exact .inr ⟨_, _, rfl, by decide, rfl, by decide, by decide⟩

theorem readToken_of_startsSymbol {a : Char} (ha : StartsSymbol a) (cs : List Char) :
    readToken a cs = readSymbol a cs := by
  rw [readToken, ha.1, ha.2.1, if_neg Bool.false_ne_true, if_neg Bool.false_ne_true]

theorem readItem_symbol (s : Symbol) {cs : List Char}
    (hcs : ∀ c ∈ cs.head?, (Token.symbol s).stopsAt c = true) :
    readItem (s.text.toList ++ cs) = .token (.symbol s) s.text.toList.length := by
  rcases symbol_cases s with ⟨a, htext, ha, hs⟩ | ⟨a, b, htext, ha, hs, hb⟩
  · -- the next character makes neither a longer symbol nor a comment
    simp only [Token.stopsAt, htext, Bool.and_eq_true, Option.isNone_iff_eq_none, Bool.not_eq_true',
      Bool.and_eq_false_iff, Bool.or_eq_false_iff, beq_eq_false_iff_ne] at hcs
    rw [htext, List.singleton_append, readItem_eq_readToken ha.2.2.2
      (fun h c hc => (hcs c hc).2.resolve_left (fun hne => hne h)), readToken_of_startsSymbol ha,
      readSymbol]
    have hpair : cs.head?.bind (Symbol.ofPair? a) = none := by
      cases cs with
      | nil => rfl
      | cons c cs => exact (hcs c rfl).1
    simp only [hpair, hs]
    rfl
  · -- two characters are the longest match, whatever follows
    have hhead : (b :: cs).head?.bind (Symbol.ofPair? a) = some s := hs
    have hcomment : ∀ d ∈ (b :: cs).head?, d ≠ '/' ∧ d ≠ '*' := by
      intro d hd
      cases hd
      exact hb
    rw [htext, List.cons_append, List.singleton_append, readItem_eq_readToken ha.2.2.2
      (fun _ => hcomment), readToken_of_startsSymbol ha, readSymbol]
    simp only [hhead]
    rfl

/-! ## Every token -/

namespace Token

variable {t : Token}

/-- Keywords are words that stand for themselves. -/
theorem keyword_isWord (k : Keyword) : isWord k.text = true ∧ ofWord k.text = keyword k := by
  cases k <;> decide

/-- Type words are words that stand for themselves. -/
theorem typeWord_isWord : ∀ word ∈ typeWords, isWord word = true ∧ ofWord word = typeWord word := by
  decide

theorem text_number (n : Nat) : (number n).text.toList = Nat.toDigits 10 n := by
  rw [text, Int.repr_eq_if, if_pos (Int.natCast_nonneg n), Int.toNat_natCast,
    Nat.repr_eq_ofList_toDigits, String.toList_ofList]

/-- A word or an integer starts with a character of a word. -/
theorem Spelled.starts_word (ht : t.Spelled) (hs : ∀ s, t ≠ symbol s) :
    ∃ c cs, t.text.toList = c :: cs ∧ isWordPart c = true := by
  have hword : ∀ {x}, isWord x = true → ∃ c cs, x.toList = c :: cs ∧ isWordPart c = true := by
    intro x hx
    obtain ⟨c, cs, hx, hc, _⟩ := isWord_iff.mp hx
    exact ⟨c, cs, hx, isWordPart_of_isWordStart hc⟩
  cases t with
  | keyword k => exact hword (keyword_isWord k).1
  | typeWord w => exact hword (typeWord_isWord w ht).1
  | ident x => exact hword ht.1
  | number value =>
      obtain ⟨n, rfl, _⟩ := ht
      rw [text_number]
      cases hds : Nat.toDigits 10 n with
      | nil => exact absurd hds Nat.toDigits_ne_nil
      | cons d ds =>
          have hd : d ∈ Nat.toDigits 10 n := hds ▸ List.mem_cons_self
          exact ⟨d, ds, rfl,
            isWordPart_of_isDigit (Nat.isDigit_of_mem_toDigits (by decide) (by decide) hd)⟩
  | symbol s => exact absurd rfl (hs s)

/-- A token that can be spelled starts with a character that is not a blank. -/
theorem Spelled.starts (ht : t.Spelled) : ∃ c cs, t.text.toList = c :: cs ∧ isBlank c = false := by
  by_cases hs : ∃ s, t = symbol s
  · obtain ⟨s, rfl⟩ := hs
    rcases symbol_cases s with ⟨a, htext, ha, _⟩ | ⟨a, b, htext, ha, _⟩
    · exact ⟨a, [], htext, ha.2.2.1⟩
    · exact ⟨a, [b], htext, ha.2.2.1⟩
  · obtain ⟨c, cs, htext, hc⟩ := ht.starts_word fun s h => hs ⟨s, h⟩
    exact ⟨c, cs, htext, isBlank_of_isWordPart hc⟩

/-- **A token is read as it is spelled**, if the character behind it does not belong to it. -/
theorem readItem_text (ht : t.Spelled) {cs : List Char}
    (hcs : ∀ c ∈ cs.head?, t.stopsAt c = true) :
    readItem (t.text.toList ++ cs) = .token t t.text.toList.length := by
  have hword : (∀ c ∈ cs.head?, (!isWordPart c) = true) → ∀ c ∈ cs.head?, isWordPart c = false :=
    fun h c hc => by simpa using h c hc
  cases t with
  | symbol s => exact readItem_symbol s hcs
  | keyword k =>
      obtain ⟨hk, heq⟩ := keyword_isWord k
      rw [text, readItem_word hk (hword hcs), heq]
  | typeWord w =>
      obtain ⟨hw, heq⟩ := typeWord_isWord w ht
      rw [text, readItem_word hw (hword hcs), heq]
  | ident x => rw [text, readItem_word ht.1 (hword hcs), ht.2]
  | number value =>
      obtain ⟨n, rfl, hn⟩ := ht
      rw [text_number, readItem_number hn (hword hcs)]

end Token

/-! ## One item after another -/

/-- Reading behind an item, blanks included. -/
def readMore (fuel pos : Nat) (cs : List Char) : Except LexicalFault (List Lexeme) :=
  match cs.drop (blankWidth cs) with
  | [] => .ok []
  | more => readItems fuel (pos + blankWidth cs) more

theorem readItems_succ (fuel pos : Nat) (cs : List Char) : readItems (fuel + 1) pos cs =
    match readItem cs with
    | .token t width => do return ⟨t, ⟨pos, pos + width⟩⟩ :: (← readMore fuel (pos + width) (cs.drop width))
    | .skipped width => readMore fuel (pos + width) (cs.drop width)
    | .tooLarge width => .error ⟨⟨pos, pos + width⟩, none⟩
    | .stuck offset => .error (faultAt pos cs offset) := by
  rw [readItems]
  cases readItem cs <;> rfl

theorem blankWidth_append {bs cs : List Char} (hbs : ∀ c ∈ bs, isBlank c = true) :
    blankWidth (bs ++ cs) = bs.length + blankWidth cs := by
  rw [blankWidth, List.takeWhile_append_of_pos hbs, List.length_append, blankWidth]

theorem readMore_blanks {fuel pos : Nat} {bs cs : List Char} (hbs : ∀ c ∈ bs, isBlank c = true) :
    readMore fuel pos (bs ++ cs) = readMore fuel (pos + bs.length) cs := by
  rw [readMore, readMore, blankWidth_append hbs, ← List.drop_drop, List.drop_left, Nat.add_assoc]

/-! ## Rows of glyphs -/

namespace Glyph

/-- Two neighbours that do not run into each other. -/
def Apart : Glyph → Glyph → Prop
  | token t, token u => ∀ c ∈ u.text.toList.head?, t.stopsAt c = true
  | _, _ => True

/-- The characters of a row. -/
def chars (width : Nat) (gs : List Glyph) : List Char := gs.flatMap fun g => (g.text width).toList

theorem toList_render (width : Nat) (gs : List Glyph) : (render width gs).toList = chars width gs := by
  rw [render, String.toList_join, List.flatMap_map]
  rfl

theorem toList_space (width : Nat) : (space.text width).toList = [' '] := by
  rw [text, String.toList_ofList]

theorem toList_line (width level : Nat) :
    ((line level).text width).toList = '\n' :: List.replicate (level * width) ' ' := by
  rw [text, String.toList_append, String.toList_ofList, String.toList_ofList, List.singleton_append]

theorem isBlank_line (width level : Nat) : ∀ c ∈ ((line level).text width).toList, isBlank c = true := by
  intro c hc
  rw [toList_line, List.mem_cons] at hc
  rcases hc with rfl | hc
  · decide
  · rw [(List.mem_replicate.mp hc).2]
    decide

theorem chars_cons (width : Nat) (g : Glyph) (gs : List Glyph) :
    chars width (g :: gs) = (g.text width).toList ++ chars width gs := List.flatMap_cons

/-- A blank stops every token. -/
theorem stopsAt_blank (t : Token) : t.stopsAt ' ' = true ∧ t.stopsAt '\n' = true := by
  cases t with
  | symbol s => cases s <;> decide
  | _ => exact ⟨rfl, rfl⟩

/-- A token stops where a row follows that keeps apart from it. -/
theorem stopsAt_of_apart (width : Nat) {t : Token} {gs : List Glyph}
    (hspelled : ∀ u ∈ tokens gs, u.Spelled) (h : ∀ g ∈ gs.head?, Apart (token t) g) :
    ∀ c ∈ (chars width gs).head?, t.stopsAt c = true := by
  cases gs with
  | nil =>
      intro c hc
      cases hc
  | cons g gs =>
      rw [chars_cons]
      cases g with
      | space =>
          rw [toList_space]
          intro c hc
          cases hc
          exact (stopsAt_blank t).1
      | line level =>
          rw [toList_line]
          intro c hc
          cases hc
          exact (stopsAt_blank t).2
      | token u =>
          have hu : u.Spelled := hspelled u List.mem_cons_self
          obtain ⟨d, ds, hd, _⟩ := hu.starts
          have hstop := h _ rfl
          rw [Apart, hd] at hstop
          rw [show (token u).text width = u.text from rfl, hd]
          exact hstop

/-- **A row is read token by token** if its tokens can be spelled and its neighbours keep apart. -/
theorem readMore_chars (width : Nat) : ∀ (gs : List Glyph) (fuel pos : Nat), gs.IsChain Apart →
    (∀ t ∈ tokens gs, t.Spelled) → (tokens gs).length ≤ fuel →
    ∃ ls, readMore fuel pos (chars width gs) = .ok ls ∧ ls.map (·.token) = tokens gs
  | [], _, _, _, _, _ => ⟨[], rfl, rfl⟩
  | space :: gs, fuel, pos, hchain, hspelled, hfuel => by
      rw [chars_cons, toList_space, readMore_blanks (List.forall_mem_singleton.mpr rfl)]
      exact readMore_chars width gs fuel _ (List.isChain_cons.mp hchain).2 hspelled hfuel
  | line level :: gs, fuel, pos, hchain, hspelled, hfuel => by
      rw [chars_cons, readMore_blanks (isBlank_line width level)]
      exact readMore_chars width gs fuel _ (List.isChain_cons.mp hchain).2 hspelled hfuel
  | token t :: gs, 0, _, _, _, hfuel => absurd hfuel (by simp [tokens])
  | token t :: gs, fuel + 1, pos, hchain, hspelled, hfuel => by
      obtain ⟨hapart, hchain⟩ := List.isChain_cons.mp hchain
      have ht : t.Spelled := hspelled t List.mem_cons_self
      have hspelled : ∀ u ∈ tokens gs, u.Spelled := fun u hu => hspelled u (List.mem_cons_of_mem _ hu)
      obtain ⟨ls, hls, htokens⟩ := readMore_chars width gs fuel (pos + t.text.toList.length) hchain
        hspelled (Nat.le_of_succ_le_succ hfuel)
      have hitem := t.readItem_text ht (stopsAt_of_apart width hspelled hapart)
      refine ⟨⟨t, ⟨pos, pos + t.text.toList.length⟩⟩ :: ls, ?_, congrArg (t :: ·) htokens⟩
      have hread : readItems (fuel + 1) pos (t.text.toList ++ chars width gs) =
          .ok (⟨t, ⟨pos, pos + t.text.toList.length⟩⟩ :: ls) := by
        rw [readItems_succ, hitem]
        simp only [List.drop_left, hls]
        rfl
      -- no blank stands before the token
      obtain ⟨c, cs, htext, hc⟩ := ht.starts
      have hblank : blankWidth (t.text.toList ++ chars width gs) = 0 := by
        rw [htext, List.cons_append, blankWidth, List.takeWhile_cons_of_neg (by rw [hc]; decide)]
        rfl
      rw [chars_cons, readMore, show (token t).text width = t.text from rfl, hblank, List.drop_zero]
      rw [htext, List.cons_append] at hread ⊢
      exact hread

theorem length_tokens_le (width : Nat) : ∀ (gs : List Glyph), (∀ t ∈ tokens gs, t.Spelled) →
    (tokens gs).length ≤ (chars width gs).length
  | [], _ => Nat.le_refl _
  | space :: gs, h => by
      rw [chars_cons, List.length_append]
      exact Nat.le_add_left_of_le (length_tokens_le width gs h)
  | line _ :: gs, h => by
      rw [chars_cons, List.length_append]
      exact Nat.le_add_left_of_le (length_tokens_le width gs h)
  | token t :: gs, h => by
      have ih := length_tokens_le width gs fun u hu => h u (List.mem_cons_of_mem _ hu)
      obtain ⟨c, cs, htext, _⟩ := (h t List.mem_cons_self).starts
      rw [chars_cons, show (token t).text width = t.text from rfl, htext, List.length_append,
        List.length_cons]
      show (tokens gs).length + 1 ≤ _
      omega

/-- The lexemes of a printed row are its tokens. A row without tokens has to be empty, because a text of
blanks alone is not read. -/
theorem lexemes_render (width : Nat) {gs : List Glyph} (hchain : gs.IsChain Apart)
    (hspelled : ∀ t ∈ tokens gs, t.Spelled) (hempty : tokens gs = [] → gs = []) :
    ∃ ls, lexemes (render width gs).toList = .ok ls ∧ ls.map (·.token) = tokens gs := by
  rw [toList_render]
  obtain ⟨ls, hls, htokens⟩ := readMore_chars width gs (chars width gs).length 0 hchain hspelled
    (length_tokens_le width gs hspelled)
  refine ⟨ls, ?_, htokens⟩
  unfold readMore at hls
  rw [Nat.zero_add] at hls
  unfold lexemes
  split
  · rename_i hnil
    rw [hnil] at hls
    exact hls
  · rename_i hne
    split at hls
    · -- nothing but blanks: there was no token, hence no glyph
      cases hls
      exact absurd (by rw [hempty htokens.symm]; rfl) hne
    · exact hls

end Glyph

/-! ## What the lexer finds -/

theorem spelled_ofWord {x : String} (hx : isWord x = true) : (Token.ofWord x).Spelled := by
  cases hk : Keyword.ofText? x with
  | some k =>
      rw [Token.ofWord, hk]
      trivial
  | none =>
      by_cases hw : typeWords.contains x = true
      · rw [Token.ofWord, hk]
        simp only [hw, if_true]
        exact List.contains_iff_mem.mp hw
      · have hident : Token.ofWord x = .ident x := by
          rw [Token.ofWord, hk]
          simp only [hw, Bool.false_eq_true, if_false]
        rw [hident]
        exact ⟨hx, hident⟩

theorem spelled_of_readToken {c : Char} {cs : List Char} {t : Token} {width : Nat}
    (h : readToken c cs = .token t width) : t.Spelled := by
  unfold readToken at h
  split at h
  · unfold readNumber at h
    dsimp only at h
    split at h
    · rename_i hn
      cases h
      exact ⟨_, rfl, hn⟩
    · cases h
  · split at h
    · rename_i hc
      cases h
      refine spelled_ofWord (isWord_iff.mpr ⟨c, _, String.toList_ofList, hc, fun d hd => ?_⟩)
      exact List.all_eq_true.mp List.all_takeWhile d hd
    · unfold readSymbol at h
      split at h
      · cases h
        trivial
      · split at h
        · cases h
          trivial
        · cases h

theorem spelled_of_readItem {cs : List Char} {t : Token} {width : Nat}
    (h : readItem cs = .token t width) : t.Spelled := by
  unfold readItem at h
  split at h
  · cases h
  · cases h
  · split at h
    · cases h
    · exact spelled_of_readToken h
  · cases h
  · exact spelled_of_readToken h

theorem spelled_of_readItems : ∀ {fuel pos : Nat} {cs : List Char} {ls : List Lexeme},
    readItems fuel pos cs = .ok ls → ∀ l ∈ ls, l.token.Spelled
  | 0, _, _, _, h => by
      cases h
      exact fun l hl => absurd hl List.not_mem_nil
  | fuel + 1, pos, cs, ls, h => by
      have hmore : ∀ {pos : Nat} {cs : List Char} {ls : List Lexeme}, readMore fuel pos cs = .ok ls →
          ∀ l ∈ ls, l.token.Spelled := by
        intro pos cs ls h
        unfold readMore at h
        split at h
        · cases h
          exact fun l hl => absurd hl List.not_mem_nil
        · exact spelled_of_readItems h
      rw [readItems_succ] at h
      split at h
      · rename_i t width hitem
        cases hread : readMore fuel (pos + width) (cs.drop width) with
        | error fault =>
            rw [hread] at h
            cases h
        | ok more =>
            rw [hread] at h
            cases h
            exact List.forall_mem_cons.mpr ⟨spelled_of_readItem hitem, hmore hread⟩
      · exact hmore h
      · cases h
      · cases h

/-- Every token that the lexer finds can be spelled. -/
theorem spelled_of_lexemes {cs : List Char} {ls : List Lexeme} (h : lexemes cs = .ok ls) :
    ∀ l ∈ ls, l.token.Spelled := by
  unfold lexemes at h
  split at h
  · cases h
    exact fun l hl => absurd hl List.not_mem_nil
  · exact spelled_of_readItems h

end GrowthFlow.Lang
