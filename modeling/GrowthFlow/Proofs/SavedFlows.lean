import GrowthFlow.Proofs.Decoding
import GrowthFlow.Proofs.RegularResults

/-!
# Saved flows are read back

A decoder brings what it reads into normal form: demands are put in order, monomials are merged and absorbed,
values are made a set, the parts of a bound are split again at their separators. None of this changes a
value that is in normal form already. What has no written form of its own is recovered: zero is written as
the monomial `o`, which is dropped when it is read, and the number of choice indices is the length of the
first box.
-/

namespace GrowthFlow

open Json (Decoder Fields)

/-! ## Scalars, demands and polynomials -/

theorem Scalar.reads_json (s : Scalar) : decode.Reads s.json s := by
  cases s <;> rfl

/-- The value is a byte and the index a word. -/
def Delta.Fits (d : Delta) : Prop := d.value < Nat.pow 2 8 ∧ d.index < Nat.pow 2 64

theorem Delta.reads_json {d : Delta} (h : d.Fits) : decode.Reads d.json d := by
  have hpair : Decoder.pair .byte .word d.json.node = .ok (d.value, d.index) :=
    Decoder.reads_pair (Decoder.reads_natBelow h.1) (Decoder.reads_natBelow h.2)
  unfold Decoder.Reads decode
  rw [hpair]
  rfl

/-- A demand behind all others is added at the end. -/
theorem insertDelta?_of_lt {d : Delta} {ds : List Delta} (h : ∀ e ∈ ds, e.index < d.index) :
    insertDelta? d ds = some (ds ++ [d]) := by
  induction ds with
  | nil => rfl
  | cons e es ih =>
      have he := h e List.mem_cons_self
      rw [insertDelta?, if_neg (by omega), if_pos he, ih fun f hf => h f (List.mem_cons_of_mem _ hf)]
      rfl

namespace Monomial

theorem foldl_insert_of_sorted {s : Scalar} (hs : s ≠ .o) (ds es : List Delta)
    (h : Sorted (es ++ ds)) : ds.foldl insert ⟨s, es⟩ = ⟨s, es ++ ds⟩ := by
  induction ds generalizing es with
  | nil => rw [List.append_nil]; rfl
  | cons d ds ih =>
      have hlast : ∀ e ∈ es, e.index < d.index := fun e he =>
        (List.pairwise_append.mp h).2.2 e he d List.mem_cons_self
      rw [List.foldl_cons, insert, if_neg hs, insertDelta?_of_lt hlast]
      have hnext : Sorted ((es ++ [d]) ++ ds) := by rwa [List.append_assoc]
      rw [ih _ hnext, List.append_assoc, List.singleton_append]

/-- Demands in order stay as they are. -/
theorem ofDeltas_of_sorted {s : Scalar} (hs : s ≠ .o) {ds : List Delta} (h : Sorted ds) :
    ofDeltas s ds = ⟨s, ds⟩ :=
  foldl_insert_of_sorted hs ds [] h

theorem reads_json {m : Monomial} (hs : m.scalar ≠ .o) (hm : m.Formed Delta.Fits) :
    decode.Reads m.json m := by
  have hdeltas : (Decoder.list Delta.decode).Reads (.ofList Delta.json m.deltas) m.deltas :=
    Decoder.reads_list fun d hd => Delta.reads_json (hm.demands d hd)
  have hcodes := ((Fields.codes_required "scalar" m.scalar.reads_json).map ofDeltas).seq
    (Fields.codes_required "deltas" hdeltas)
  rw [ofDeltas_of_sorted hs hm.sorted] at hcodes
  exact hcodes.record (by decide)

end Monomial

namespace Poly

theorem ofMonomials_of_normal {p : Poly} (hp : p.Normal) : ofMonomials p.monomials = p :=
  (normal_ofMonomials hp.sorted).ext hp fun σ => value_ofMonomials hp.sorted σ

theorem reads_json {p : Poly} (hp : p.Normal) (hd : p.Proper Delta.Fits) : decode.Reads p.json p := by
  cases hzero : p.isZero with
  | true =>
      have hp : p = zero := by
        cases p
        exact congrArg mk (List.isEmpty_iff.mp hzero)
      rw [hp]
      rfl
  | false =>
      have hfactors : p.factors = p.monomials := by rw [factors, hzero, if_neg Bool.false_ne_true]
      have hread := (Decoder.reads_list fun m hm =>
        Monomial.reads_json (hd m hm).1 (hd m hm).2).map (f := ofMonomials)
      rw [ofMonomials_of_normal hp] at hread
      show decode (Json.ofList Monomial.json p.factors).node = .ok p
      rw [hfactors]
      exact hread

end Poly

/-! ## Matrices and relations -/

theorem FlowMatrix.reads_json {M : FlowMatrix}
    (h : ∀ p ∈ M.entries, p.Normal ∧ p.Proper Delta.Fits) : decode.Reads M.json M := by
  have hrows : (Decoder.list (.list Poly.decode)).Reads M.json M.rows :=
    Decoder.reads_list fun row hrow => Decoder.reads_list fun p hp =>
      have hentry := h p (List.mem_flatten.mpr ⟨row, hrow, hp⟩)
      Poly.reads_json hentry.1 hentry.2
  exact hrows.checked (dif_pos M.square)

theorem Relation.Regular.reads_json {P : String → Prop} {k : Nat} {R : Relation} (hR : R.Regular P k)
    (hk : k ≤ Nat.pow 2 64) : Relation.decode.Reads R.json R := by
  have hfits : R.Proper Delta.Fits := hR.proper.mono fun d hd => by
    refine ⟨Nat.lt_of_le_of_lt ?_ (show 2 < Nat.pow 2 8 by decide), Nat.lt_of_lt_of_le hd.1 hk⟩
    have hvalue : d.value ∈ [0, 1, 2] := hd.2
    simp only [List.mem_cons, List.not_mem_nil, or_false] at hvalue
    omega
  have hmatrix : FlowMatrix.decode.Reads R.matrix.json R.matrix :=
    FlowMatrix.reads_json fun p hp => by
      obtain ⟨x, _, y, _, rfl⟩ := (mem_matrix_entries hR.normal.nodup).mp hp
      exact ⟨hR.normal.entry x y, hfits.entries x y⟩
  have hcodes := ((Fields.codes_required "variables" (Decoder.reads_strings R.vars)).map
    Prod.mk).seq (Fields.codes_required "matrix" hmatrix)
  exact (hcodes.record (by decide)).checked (dif_pos R.size_eq)

/-! ## Choices -/

theorem Choices.Regular.reads_json {k : Nat} {ch : Choices} (h : ch.Regular k)
    (hfinite : ch.isInfinite = false) : Choices.decode.Reads ch.json ch := by
  have hvalue : ∀ b ∈ ch.boxes, ∀ values ∈ b, Ordered.Increasing values ∧
      ∀ x ∈ values, x < Nat.pow 2 8 := by
    intro b hb values hvalues
    obtain ⟨i, hi, hvalues⟩ := List.mem_iff_getElem.mp hvalues
    have hallowed : b.allowed i = values := (Box.allowed_eq_getElem hi).trans hvalues
    refine ⟨hallowed ▸ (h.boxes b hb).increasing i, fun x hx => ?_⟩
    have hmem : x ∈ [0, 1, 2] := (h.boxes b hb).mem i x (hallowed ▸ hx)
    simp only [List.mem_cons, List.not_mem_nil, or_false] at hmem
    exact Nat.lt_of_le_of_lt (show x ≤ 2 by omega) (by decide)
  have hboxes : (Decoder.list (.list (.list .byte))).Reads ch.json ch.boxes :=
    Decoder.reads_list fun b hb => Decoder.reads_list fun values hvalues =>
      Decoder.reads_list fun x hx => Decoder.reads_natBelow ((hvalue b hb values hvalues).2 x hx)
  have hsets : ch.boxes.map (·.map Ordered.ofList) = ch.boxes := by
    refine (List.map_congr_left fun b hb => ?_).trans (List.map_id _)
    exact (List.map_congr_left fun values hvalues => (hvalue b hb values hvalues).1.ofList_eq).trans
      (List.map_id _)
  have hindex : (ch.boxes.head?.map (·.length)).getD 0 = ch.index := by
    cases hboxes : ch.boxes with
    | nil =>
        rw [Choices.isInfinite, hboxes] at hfinite
        cases hfinite
    | cons b bs => exact (h.boxes b (hboxes ▸ List.mem_cons_self)).length.trans h.index.symm
  have hof : Choices.ofBoxes ch.boxes = ch := by rw [Choices.ofBoxes, hsets, hindex]
  have hread := hboxes.map (f := Choices.ofBoxes)
  rw [hof] at hread
  exact hread

/-! ## Bounds -/

namespace Text

variable {sep : Char}

theorem splitAt_of_not_mem {cs : List Char} (h : sep ∉ cs) : splitAt sep cs = [cs] := by
  induction cs with
  | nil => rfl
  | cons c cs ih =>
      have hc : c ≠ sep := fun heq => h (heq ▸ List.mem_cons_self)
      rw [splitAt, if_neg hc, ih fun hmem => h (List.mem_cons_of_mem _ hmem)]

theorem splitAt_append {cs : List Char} (h : sep ∉ cs) (rest : List Char) :
    splitAt sep (cs ++ sep :: rest) = cs :: splitAt sep rest := by
  induction cs with
  | nil => rw [List.nil_append, splitAt, if_pos rfl]
  | cons c cs ih =>
      have hc : c ≠ sep := fun heq => h (heq ▸ List.mem_cons_self)
      rw [List.cons_append, splitAt, if_neg hc, ih fun hmem => h (List.mem_cons_of_mem _ hmem)]

/-- Parts without a separator are found again between the separators. -/
theorem splitAt_intercalate : ∀ {parts : List (List Char)}, parts ≠ [] → (∀ part ∈ parts, sep ∉ part) →
    splitAt sep ([sep].intercalate parts) = parts
  | [], hne, _ => absurd rfl hne
  | [part], _, h => by
      rw [List.intercalate_singleton]
      exact splitAt_of_not_mem (h part List.mem_cons_self)
  | part :: next :: parts, _, h => by
      have hrest := splitAt_intercalate (List.cons_ne_nil next parts)
        fun p hp => h p (List.mem_cons_of_mem _ hp)
      rw [List.intercalate_cons_cons, List.append_assoc, List.singleton_append,
        splitAt_append (h part List.mem_cons_self), hrest]

theorem mem_intercalate {c : Char} : ∀ {parts : List (List Char)}, c ∈ [sep].intercalate parts →
    c = sep ∨ ∃ part ∈ parts, c ∈ part
  | [], h => absurd h List.not_mem_nil
  | [part], h => by
      rw [List.intercalate_singleton] at h
      exact .inr ⟨part, List.mem_cons_self, h⟩
  | part :: next :: parts, h => by
      rw [List.intercalate_cons_cons, List.append_assoc, List.mem_append, List.mem_append] at h
      rcases h with h | h | h
      · exact .inr ⟨part, List.mem_cons_self, h⟩
      · exact .inl (List.mem_singleton.mp h)
      · rcases mem_intercalate h with h | ⟨p, hp, hc⟩
        · exact .inl h
        · exact .inr ⟨p, List.mem_cons_of_mem _ hp, hc⟩

end Text

namespace Bound

/-- A name that can stand in the short form of a bound. -/
structure Listable (x : String) : Prop where
  nonempty : x.toList ≠ []
  comma : ',' ∉ x.toList
  semicolon : ';' ∉ x.toList

theorem toList_set (xs : List String) :
    (",".intercalate xs).toList = [','].intercalate (xs.map String.toList) := String.toList_intercalate

theorem semicolon_not_mem_set {xs : List String} (h : ∀ x ∈ xs, Listable x) :
    ';' ∉ (",".intercalate xs).toList := by
  rw [toList_set]
  intro hmem
  rcases Text.mem_intercalate hmem with heq | ⟨part, hpart, hmem⟩
  · cases heq
  · obtain ⟨x, hx, rfl⟩ := List.mem_map.mp hpart
    exact (h x hx).semicolon hmem

/-- A set is read back from its members. -/
theorem readSet_set {xs : List String} (hinc : Ordered.Increasing xs) (h : ∀ x ∈ xs, Listable x) :
    readSet (",".intercalate xs).toList = xs := by
  cases xs with
  | nil => rfl
  | cons x₀ xs₀ =>
      generalize hxs : x₀ :: xs₀ = xs at hinc h
      have hne : xs.map String.toList ≠ [] := by rw [← hxs]; exact List.cons_ne_nil _ _
      have hkeep : (xs.map String.toList).filter (!·.isEmpty) = xs.map String.toList := by
        refine List.filter_eq_self.mpr fun part hpart => ?_
        obtain ⟨x, hx, rfl⟩ := List.mem_map.mp hpart
        simpa using (h x hx).nonempty
      have hsplit : Text.splitAt ',' ([','].intercalate (xs.map String.toList)) =
          xs.map String.toList := by
        refine Text.splitAt_intercalate hne fun part hpart => ?_
        obtain ⟨x, hx, rfl⟩ := List.mem_map.mp hpart
        exact (h x hx).comma
      have hnames : (xs.map String.toList).map String.ofList = xs := by
        rw [List.map_map]
        exact (List.map_congr_left fun x _ => String.ofList_toList).trans (List.map_id _)
      rw [readSet, toList_set, hsplit, hkeep, hnames, hinc.ofList_eq]

/-- **A bound is read back from its short form.** -/
theorem Regular.ofTriple_triple {b : Bound} (h : b.Regular Listable) : ofTriple b.triple = b := by
  have hsplit : Text.splitAt ';' b.triple.toList =
      [b.linear, b.weak, b.poly].map fun xs => (",".intercalate xs).toList := by
    rw [triple, String.toList_intercalate, List.map_map]
    refine Text.splitAt_intercalate (List.cons_ne_nil _ _) fun part hpart => ?_
    obtain ⟨xs, hxs, rfl⟩ := List.mem_map.mp hpart
    refine semicolon_not_mem_set ?_
    simp only [List.mem_cons, List.not_mem_nil, or_false] at hxs
    rcases hxs with rfl | rfl | rfl
    · exact h.members .m
    · exact h.members .w
    · exact h.members .p
  have hlinear := readSet_set (h.increasing .m) (h.members .m)
  have hweak := readSet_set (h.increasing .w) (h.members .w)
  have hpoly := readSet_set (h.increasing .p) (h.members .p)
  simp only [part] at hlinear hweak hpoly
  simp only [ofTriple, hsplit, List.map_cons, List.map_nil, hlinear, hweak, hpoly]
  rfl

theorem Regular.reads_json {b : Bound} (h : b.Regular Listable) : Bound.decode.Reads b.json b := by
  have hread := (Decoder.reads_text b.triple).map (f := ofTriple)
  rw [h.ofTriple_triple] at hread
  exact hread

end Bound

theorem Bounds.reads_json {bs : Bounds} (h : Assoc.Regular (Bound.Regular Bound.Listable) bs) :
    Bounds.decode.Reads bs.json bs :=
  Decoder.reads_table h.nodup fun entry hentry => (h.values entry hentry).reads_json

end GrowthFlow
