import GrowthFlow.Proofs.ClearBoxes

/-!
# Choices are the largest safe boxes

Given witnesses, a vector is safe when it satisfies none of them, and a box is safe when all of its vectors
are. The boxes of the generated choices are exactly the safe boxes that lie inside no other safe box, each
once and in increasing order (`generate_exact`). So they depend on nothing but the region of safe vectors,
whatever witnesses describe it and however these were simplified on the way.
-/

namespace GrowthFlow

/-- A vector over a domain that satisfies no witness. -/
structure IsSafe (domain : List Nat) (n : Nat) (ws : List Witness) (v : List Nat) : Prop where
  vector : IsVector domain n v
  uncovered : ¬ Covers ws v

namespace Box

/-- A box over a domain, none of whose vectors satisfies a witness. -/
structure IsSafeBox (domain : List Nat) (n : Nat) (ws : List Witness) (b : Box) : Prop where
  box : IsBox domain n b
  safe : ∀ v, b.Has v → ¬ Covers ws v

/-- A safe box whose vectors are not all in another safe box. -/
structure IsLargest (domain : List Nat) (n : Nat) (ws : List Witness) (b : Box) : Prop where
  safe : IsSafeBox domain n ws b
  largest : ∀ a, IsSafeBox domain n ws a → (∀ v, b.Has v → a.Has v) → a = b

variable {domain : List Nat} {n : Nat} {ws : List Witness}

/-- Of a safe box, every vector with the given values is safe. -/
theorem IsSafeBox.isSafe_pick {b : Box} (h : IsSafeBox domain n ws b) {given : Nat → Option Nat}
    (hgiven : ∀ k x, given k = some x → k < n → x ∈ b.allowed k) :
    IsSafe domain n ws (b.pick given) := by
  have hhas := has_pick h.box hgiven
  exact ⟨h.box.isVector hhas, h.safe _ hhas⟩

theorem IsSafeBox.isSafe_least {b : Box} (h : IsSafeBox domain n ws b) :
    IsSafe domain n ws (b.pick fun _ => none) :=
  h.isSafe_pick fun _ _ hx => by cases hx

/-- A box is safe when it avoids every witness. -/
theorem isSafeBox_iff (hfits : Fits n ws) {b : Box} :
    IsSafeBox domain n ws b ↔ IsBox domain n b ∧ ∀ w ∈ ws, b.avoids w = true := by
  constructor
  · intro h
    refine ⟨h.box, fun w hw => ?_⟩
    rw [avoids_iff_has h.box (hfits w hw).1 (hfits w hw).2]
    intro v hv
    rw [← Bool.not_eq_true]
    exact fun hsat => h.safe v hv ⟨w, hw, hsat⟩
  · rintro ⟨hbox, hall⟩
    refine ⟨hbox, ?_⟩
    rintro v hv ⟨w, hw, hsat⟩
    have := (avoids_iff_has hbox (hfits w hw).1 (hfits w hw).2).mp (hall w hw) v hv
    exact absurd hsat (by simp [this])

/-- Of sorted witnesses, a box is safe when it is clear of them. -/
theorem isSafeBox_iff_clear (hfits : Fits n ws) {b : Box} :
    IsSafeBox domain n ws b ↔ IsClear domain n ws b :=
  (isSafeBox_iff hfits).trans ⟨fun h => ⟨h.1, h.2⟩, fun h => ⟨h.box, h.avoids⟩⟩

theorem isLargest_iff_widest (hfits : Fits n ws) {b : Box} :
    IsLargest domain n ws b ↔ IsWidest domain n ws b := by
  constructor
  · intro h
    refine ⟨(isSafeBox_iff_clear hfits).mp h.safe, fun a ha hba => ?_⟩
    exact h.largest a ((isSafeBox_iff_clear hfits).mpr ha) fun v hv => hv.mono hba
  · intro h
    refine ⟨(isSafeBox_iff_clear hfits).mpr h.clear, fun a ha hsub => ?_⟩
    exact h.widest a ((isSafeBox_iff_clear hfits).mp ha) (within_of_has h.clear.box ha.box hsub)

/-- The boxes that are kept are the largest safe boxes. -/
theorem mem_avoiding_iff (hd : domain ≠ []) (hfits : Fits n ws) {b : Box} :
    b ∈ avoiding domain n ws ↔ IsLargest domain n ws b := by
  rw [mem_avoiding_iff_widest hd, isLargest_iff_widest hfits]

/-- Safety depends on nothing but the vectors that are covered. -/
theorem isSafeBox_congr {vs : List Witness}
    (h : ∀ v, IsVector domain n v → (Covers vs v ↔ Covers ws v)) {b : Box} :
    IsSafeBox domain n vs b ↔ IsSafeBox domain n ws b := by
  constructor
  · exact fun hb => ⟨hb.box, fun v hv hc => hb.safe v hv ((h v (hb.box.isVector hv)).mpr hc)⟩
  · exact fun hb => ⟨hb.box, fun v hv hc => hb.safe v hv ((h v (hb.box.isVector hv)).mp hc)⟩

theorem isLargest_congr {vs : List Witness}
    (h : ∀ v, IsVector domain n v → (Covers vs v ↔ Covers ws v)) {b : Box} :
    IsLargest domain n vs b ↔ IsLargest domain n ws b := by
  constructor
  · exact fun hb => ⟨(isSafeBox_congr h).mp hb.safe,
      fun a ha => hb.largest a ((isSafeBox_congr h).mpr ha)⟩
  · exact fun hb => ⟨(isSafeBox_congr h).mpr hb.safe,
      fun a ha => hb.largest a ((isSafeBox_congr h).mp ha)⟩

end Box

namespace Choices

variable {domain : List Nat} {n : Nat} {ws : List Witness}

theorem covers_ofList {v : List Nat} : Covers (Ordered.ofList ws) v ↔ Covers ws v := by
  simp [Covers]

theorem fits_ofList (h : Fits n ws) : Fits n (Ordered.ofList ws) :=
  h.mono fun _ hw => Ordered.mem_ofList.mp hw

/-- An index that no vector has is an error. -/
theorem generate_outside {w : Witness} (hw : w ∈ ws) {d : Delta} (hd : d ∈ w) (hn : n ≤ d.index) :
    ∃ e, generate domain n ws = .error e := by
  have hfind : ((Ordered.ofList ws).flatten.find? fun d => decide (n ≤ d.index)).isSome := by
    rw [List.find?_isSome]
    exact ⟨d, List.mem_flatten.mpr ⟨w, Ordered.mem_ofList.mpr hw, hd⟩, by simpa using hn⟩
  obtain ⟨e, he⟩ := Option.isSome_iff_exists.mp hfind
  unfold generate
  simp only [he]
  exact ⟨_, rfl⟩

/-- Witnesses that fit are never an error. -/
theorem generate_of_fits (hd : domain ≠ []) (hfits : Fits n ws) :
    generate domain n ws =
      .ok ⟨Box.avoiding domain n (Witnesses.simplify domain (Ordered.ofList ws)), n⟩ :=
  generate_of_inside hd hfits.inside

/-- What is known about choices that were generated from witnesses that fit. -/
structure Exact (domain : List Nat) (n : Nat) (ws : List Witness) (ch : Choices) : Prop where
  index : ch.index = n
  increasing : Ordered.Increasing ch.boxes
  boxes : ∀ b, b ∈ ch.boxes ↔ Box.IsLargest domain n ws b

theorem exact_of_fits (hd : domain ≠ []) (hfits : Fits n ws) :
    ∃ ch, generate domain n ws = .ok ch ∧ Exact domain n ws ch := by
  refine ⟨_, generate_of_fits hd hfits, rfl, ?_, fun b => ?_⟩
  · dsimp only
    exact Ordered.increasing_ofList _
  · rw [Box.mem_avoiding_iff hd (Witnesses.fits_simplify domain (fits_ofList hfits))]
    refine Box.isLargest_congr fun v hv => ?_
    rw [Witnesses.covers_simplify (fits_ofList hfits) hv, covers_ofList]

/-- Choices are determined by the vectors that are covered. -/
theorem Exact.unique {vs : List Witness} {ch ch' : Choices} (h : Exact domain n ws ch)
    (h' : Exact domain n vs ch')
    (hcover : ∀ v, IsVector domain n v → (Covers ws v ↔ Covers vs v)) : ch = ch' := by
  have hboxes : ch.boxes = ch'.boxes := by
    refine Ordered.Increasing.ext h.increasing h'.increasing fun b => ?_
    rw [h.boxes, h'.boxes]
    exact Box.isLargest_congr hcover
  have hindex : ch.index = ch'.index := h.index.trans h'.index.symm
  cases ch
  cases ch'
  cases hboxes
  cases hindex
  rfl

/-- The box of a single vector. -/
def pointBox (v : List Nat) : Box := v.map fun x => [x]

theorem allowed_pointBox {v : List Nat} {k x : Nat} : x ∈ (pointBox v).allowed k ↔ v[k]? = some x := by
  unfold pointBox Box.allowed
  rw [List.getElem?_map]
  cases v[k]? with
  | none => simp
  | some y => simp [eq_comm]

theorem has_pointBox {v u : List Nat} (h : (pointBox v).Has u) : u = v := by
  have hlen : u.length = v.length := by simpa [pointBox] using h.1
  refine List.ext_getElem hlen fun k hk hk' => ?_
  have := allowed_pointBox.mp (h.2 k u[k] (List.getElem?_eq_getElem hk))
  rw [List.getElem?_eq_getElem hk', Option.some.injEq] at this
  exact this.symm

theorem isSafeBox_pointBox {v : List Nat} (h : IsSafe domain n ws v) :
    Box.IsSafeBox domain n ws (pointBox v) where
  box := {
    length := by simp [pointBox, h.vector.length]
    nonempty := by
      intro k hk
      have hlt : k < v.length := h.vector.length.symm ▸ hk
      exact List.ne_nil_of_mem (allowed_pointBox.mpr (List.getElem?_eq_getElem hlt))
    increasing := by
      intro k
      unfold pointBox Box.allowed
      rw [List.getElem?_map]
      cases v[k]? with
      | none => exact List.Pairwise.nil
      | some y => exact List.pairwise_singleton ..
    mem := fun k x hx => h.vector.mem x (List.mem_of_getElem? (allowed_pointBox.mp hx)) }
  safe u hu := by
    rw [has_pointBox hu]
    exact h.uncovered

/-- Every safe vector lies in one of the boxes. -/
theorem Exact.exists_box {ch : Choices} (h : Exact domain n ws ch) (hd : domain ≠ [])
    (hfits : Fits n ws) {v : List Nat} (hv : IsSafe domain n ws v) : ∃ b ∈ ch.boxes, b.Has v := by
  have hclear := (Box.isSafeBox_iff_clear hfits).mp (isSafeBox_pointBox hv)
  obtain ⟨k, hk, hwithin⟩ := hclear.exists_widest hd
  refine ⟨k, (h.boxes k).mpr ((Box.isLargest_iff_widest hfits).mpr hk), ?_⟩
  refine Box.Has.mono hwithin ⟨by simp [pointBox], fun j x hx => ?_⟩
  exact allowed_pointBox.mpr hx

theorem allows_eq_true_iff {ch : Choices} {v : List Nat} :
    ch.allows v = true ↔ ∃ b ∈ ch.boxes, v.length ≤ b.length ∧
      ∀ k x, v[k]? = some x → x ∈ b.allowed k := by
  unfold allows
  rw [List.any_eq_true]
  refine exists_congr fun b => and_congr_right fun _ => ?_
  rw [Bool.and_eq_true_iff, decide_eq_true_iff, List.all_eq_true]
  refine and_congr_right fun hlen => ?_
  constructor
  · intro h k x hx
    have hk : k < b.length := Nat.lt_of_lt_of_le (List.getElem?_eq_some_iff.mp hx).1 hlen
    have hmem : (x, b[k]) ∈ v.zip b :=
      List.mem_iff_getElem?.mpr
        ⟨k, List.getElem?_zip_eq_some.mpr ⟨hx, List.getElem?_eq_getElem hk⟩⟩
    rw [Box.allowed_eq_getElem hk]
    exact List.contains_iff_mem.mp (h _ hmem)
  · rintro h ⟨x, values⟩ hmem
    obtain ⟨k, hk⟩ := List.mem_iff_getElem?.mp hmem
    obtain ⟨hx, hvalues⟩ := List.getElem?_zip_eq_some.mp hk
    have := h k x hx
    rw [Box.allowed, hvalues] at this
    exact List.contains_iff_mem.mpr this

/-- A vector, or the first part of one, is allowed when a safe vector extends it. -/
theorem Exact.allows_iff {ch : Choices} (h : Exact domain n ws ch) (hd : domain ≠ [])
    (hfits : Fits n ws) {v : List Nat} :
    ch.allows v = true ↔ ∃ s, IsSafe domain n ws s ∧ v <+: s := by
  rw [allows_eq_true_iff]
  constructor
  · rintro ⟨b, hb, hlen, hall⟩
    have hsafe := ((h.boxes b).mp hb).safe
    -- fill up with the least values of the box
    refine ⟨_, hsafe.isSafe_pick fun k x hx _ => hall k x hx, ?_⟩
    rw [List.prefix_iff_getElem?]
    intro k hk
    rw [Box.getElem?_pick (Nat.lt_of_lt_of_le hk hlen), List.getElem?_eq_getElem hk]
    rfl
  · rintro ⟨s, hs, hstart⟩
    obtain ⟨b, hb, hhas⟩ := h.exists_box hd hfits hs
    refine ⟨b, hb, hhas.1 ▸ hstart.length_le, fun k x hx => hhas.2 k x ?_⟩
    obtain ⟨hk, hget⟩ := List.getElem?_eq_some_iff.mp hx
    rw [List.prefix_iff_getElem?.mp hstart k hk, hget]

/-- A whole vector is allowed when it is not covered. -/
theorem Exact.allows_vector {ch : Choices} (h : Exact domain n ws ch) (hd : domain ≠ [])
    (hfits : Fits n ws) {v : List Nat} (hv : IsVector domain n v) :
    ch.allows v = true ↔ ¬ Covers ws v := by
  rw [h.allows_iff hd hfits]
  constructor
  · rintro ⟨s, hs, hstart⟩
    rw [hstart.eq_of_length (hv.length.trans hs.vector.length.symm)]
    exact hs.uncovered
  · exact fun hnot => ⟨v, ⟨hv, hnot⟩, List.prefix_refl v⟩

theorem Exact.isInfinite_iff {ch : Choices} (h : Exact domain n ws ch) (hd : domain ≠ [])
    (hfits : Fits n ws) : ch.isInfinite = true ↔ ∀ v, ¬ IsSafe domain n ws v := by
  unfold isInfinite
  rw [List.isEmpty_iff]
  constructor
  · intro hnil v hv
    obtain ⟨b, hb, _⟩ := h.exists_box hd hfits hv
    rw [hnil] at hb
    exact absurd hb List.not_mem_nil
  · intro hnone
    refine List.eq_nil_iff_forall_not_mem.mpr fun b hb => ?_
    have hsafe := ((h.boxes b).mp hb).safe
    exact hnone _ hsafe.isSafe_least

/-- The least values of a box, if it has a value everywhere. -/
theorem mapM_head? {b : Box} (h : ∀ k, k < b.length → b.allowed k ≠ []) :
    b.mapM List.head? = some (b.pick fun _ => none) := by
  induction b with
  | nil => rfl
  | cons values b ih =>
      have hhead : values ≠ [] := h 0 (Nat.zero_lt_succ _)
      have htail := ih fun k hk => h (k + 1) (Nat.succ_lt_succ hk)
      cases values with
      | nil => exact absurd rfl hhead
      | cons x xs =>
          rw [List.mapM_cons, htail]
          simp [Box.pick]

theorem first?_of_cons {ch : Choices} {b : Box} {bs : List Box} (h : ch.boxes = b :: bs)
    (hb : b.IsBox domain n) : ch.first? = some (b.pick fun _ => none) := by
  unfold first?
  rw [h, List.head?_cons, Option.bind_some]
  exact mapM_head? fun k hk => hb.nonempty k (hb.length ▸ hk)

theorem Exact.first_safe {ch : Choices} (h : Exact domain n ws ch) (hd : domain ≠ [])
    (hfits : Fits n ws) {v : List Nat} (hv : IsSafe domain n ws v) :
    ∃ f, ch.first? = some f ∧ IsSafe domain n ws f := by
  obtain ⟨b, hb, _⟩ := h.exists_box hd hfits hv
  obtain ⟨a, rest, hcons⟩ := List.exists_cons_of_ne_nil (List.ne_nil_of_mem hb)
  have ha : a ∈ ch.boxes := hcons ▸ List.mem_cons_self
  have hsafe := ((h.boxes a).mp ha).safe
  exact ⟨_, first?_of_cons hcons hsafe.box, hsafe.isSafe_least⟩

/--
**Choices are exact and canonical.**

Generating choices fails exactly when a witness asks for an index that no vector has. Otherwise the boxes
are the largest safe boxes, in increasing order and each once; a partial vector is allowed exactly when it
can be completed to a safe one; nothing is allowed exactly when nothing is safe; the first choice is safe
if anything is; and witnesses that cover the same vectors give the same choices.
-/
theorem generate_exact {domain : List Nat} {n : Nat} {ws : List Witness} (hd : domain ≠ [])
    (hs : ∀ w ∈ ws, Sorted w) :
    ((∃ e, generate domain n ws = .error e) ↔ ∃ w ∈ ws, ∃ d ∈ w, n ≤ d.index) ∧
    ∀ ch, generate domain n ws = .ok ch →
      Exact domain n ws ch ∧
      (∀ v, ch.allows v = true ↔ ∃ s, IsSafe domain n ws s ∧ v <+: s) ∧
      (ch.isInfinite = true ↔ ∀ v, ¬ IsSafe domain n ws v) ∧
      ((∃ v, IsSafe domain n ws v) → ∃ f, ch.first? = some f ∧ IsSafe domain n ws f) ∧
      ∀ vs, Fits n vs → (∀ v, IsVector domain n v → (Covers vs v ↔ Covers ws v)) →
        generate domain n vs = .ok ch := by
  have hfits_of : (¬ ∃ w ∈ ws, ∃ d ∈ w, n ≤ d.index) → Fits n ws := by
    intro hnone w hw
    exact ⟨hs w hw, fun d hd => Nat.lt_of_not_le fun hle => hnone ⟨w, hw, d, hd, hle⟩⟩
  have herror : (∃ e, generate domain n ws = .error e) ↔ ∃ w ∈ ws, ∃ d ∈ w, n ≤ d.index := by
    constructor
    · rintro ⟨e, he⟩
      refine Classical.byContradiction fun hnone => ?_
      rw [generate_of_fits hd (hfits_of hnone)] at he
      exact absurd he (by simp)
    · rintro ⟨w, hw, d, hdw, hle⟩
      exact generate_outside hw hdw hle
  refine ⟨herror, ?_⟩
  intro ch hch
  have hfits : Fits n ws := by
    refine hfits_of fun hout => ?_
    obtain ⟨e, he⟩ := herror.mpr hout
    rw [hch] at he
    exact absurd he (by simp)
  obtain ⟨ch', hch', hexact⟩ := exact_of_fits hd hfits
  rw [hch, Except.ok.injEq] at hch'
  subst hch'
  refine ⟨hexact, fun v => hexact.allows_iff hd hfits, hexact.isInfinite_iff hd hfits, ?_, ?_⟩
  · rintro ⟨v, hv⟩
    exact hexact.first_safe hd hfits hv
  · intro vs hvs hcover
    obtain ⟨ch', hch', hexact'⟩ := exact_of_fits hd hvs
    rw [hch', hexact'.unique hexact hcover]

/-- Three witnesses that overlap at two indices. Two boxes remain, and the second index tells them
apart. -/
theorem generate_exact_overlapping :
    (∀ w ∈ ([[⟨0, 0⟩, ⟨1, 1⟩], [⟨2, 0⟩], [⟨1, 1⟩, ⟨0, 2⟩]] : List Witness), Sorted w) ∧
    ∃ ch, generate [0, 1, 2] 3 [[⟨0, 0⟩, ⟨1, 1⟩], [⟨2, 0⟩], [⟨1, 1⟩, ⟨0, 2⟩]] = .ok ch ∧
      ch.boxes = [[[0, 1], [0, 2], [0, 1, 2]], [[1], [0, 1, 2], [1, 2]]] ∧
      ∀ b, b ∈ ch.boxes ↔
        Box.IsLargest [0, 1, 2] 3 [[⟨0, 0⟩, ⟨1, 1⟩], [⟨2, 0⟩], [⟨1, 1⟩, ⟨0, 2⟩]] b := by
  have hs : ∀ w ∈ ([[⟨0, 0⟩, ⟨1, 1⟩], [⟨2, 0⟩], [⟨1, 1⟩, ⟨0, 2⟩]] : List Witness), Sorted w := by
    unfold Sorted
    decide
  refine ⟨hs, _, rfl, by decide, ?_⟩
  exact ((generate_exact (by decide) hs).2 _ rfl).1.boxes

end Choices

end GrowthFlow
