import GrowthFlow.Proofs.RegularRuns
import GrowthFlow.Proofs.Tables

/-!
# Choices that suit a column, and choices that suit several

The choices of a variable are about its column alone: a vector lies in one of their boxes exactly if nothing
in the column is unbounded under it (`Relation.Regular.exists_exact`). To look at several columns at once
their boxes are met pairwise. Whatever lies in a box of the intersection lies in a box of each
(`Choices.holds_intersectAll`), so the first vector of it suits all of the columns.
-/

namespace GrowthFlow

/-! ## Meeting boxes -/

namespace Choices

variable {domain : List Nat} {n k : Nat} {a b : Box} {c d ch : Choices} {v : List Nat}

theorem allowed_meet : Box.allowed (meet a b) k = (a.allowed k).filter ((b.allowed k).contains ·) := by
  unfold meet Box.allowed
  rw [List.getElem?_map, List.zip, List.getElem?_zipWith]
  cases a[k]? with
  | none => rfl
  | some xs =>
      cases b[k]? with
      | none => simp
      | some ys => rfl

theorem mem_allowed_meet {x : Nat} :
    x ∈ Box.allowed (meet a b) k ↔ x ∈ a.allowed k ∧ x ∈ b.allowed k := by
  rw [allowed_meet, List.mem_filter, List.contains_iff_mem]

theorem length_meet (h : a.length = b.length) : (meet a b).length = b.length := by
  unfold meet
  rw [List.length_map, List.length_zip, h, Nat.min_self]

/-- A vector of the meet is one of both. -/
theorem has_of_meet (h : a.length = b.length) (hv : Box.Has (meet a b) v) : a.Has v ∧ b.Has v := by
  have hlength := hv.1.trans (length_meet h)
  refine ⟨⟨hlength.trans h.symm, fun k x hx => ?_⟩, hlength, fun k x hx => ?_⟩
  · exact (mem_allowed_meet.mp (hv.2 k x hx)).1
  · exact (mem_allowed_meet.mp (hv.2 k x hx)).2

theorem isBox_meet (ha : a.IsBox domain n) (hb : b.IsBox domain n) (hne : ∀ values ∈ meet a b, values ≠ []) :
    Box.IsBox domain n (meet a b) where
  length := (length_meet (ha.length.trans hb.length.symm)).trans hb.length
  nonempty k hk := by
    have hlt : k < (meet a b).length := by
      rw [length_meet (ha.length.trans hb.length.symm), hb.length]
      exact hk
    rw [Box.allowed_eq_getElem hlt]
    exact hne _ (List.getElem_mem hlt)
  increasing k := by
    rw [allowed_meet]
    exact (ha.increasing k).filter _
  mem k x hx := ha.mem k x (mem_allowed_meet.mp hx).1

/-! ## Intersections -/

theorem exists_of_mem_intersection (h : b ∈ (c.intersection d).boxes) :
    ∃ a ∈ c.boxes, ∃ a' ∈ d.boxes, meet a a' = b ∧ ∀ values ∈ b, values ≠ [] := by
  -- removing repeats adds no box
  have hstep : ∀ (kept : List Box) (b' : Box), b ∈ (if kept.contains b' then kept else kept ++ [b']) →
      b ∈ kept ∨ b = b' := by
    intro kept b' hb
    split at hb
    · exact .inl hb
    · exact (List.mem_append.mp hb).imp_right List.mem_singleton.mp
  have hproper := (mem_of_mem_foldl hstep _ [] (Box.mem_of_mem_maximal h)).resolve_left List.not_mem_nil
  rw [List.mem_filter, List.mem_flatMap] at hproper
  obtain ⟨⟨a, ha, hb⟩, hall⟩ := hproper
  obtain ⟨a', ha', rfl⟩ := List.mem_map.mp hb
  refine ⟨a, ha, a', ha', rfl, fun values hvalues hnil => ?_⟩
  have hsome := List.all_eq_true.mp hall values hvalues
  rw [hnil] at hsome
  cases hsome

/-- The vector lies in one of the boxes. -/
def Holds (ch : Choices) (v : List Nat) : Prop := ∃ b ∈ ch.boxes, b.Has v

theorem Regular.isVector (h : ch.Regular k) (hv : ch.Holds v) : IsVector choiceValues k v := by
  obtain ⟨b, hb, hhas⟩ := hv
  exact (h.boxes b hb).isVector hhas

theorem Regular.intersection (hc : c.Regular k) (hd : d.Regular k) : (c.intersection d).Regular k := by
  refine ⟨?_, fun b hb => ?_⟩
  · show max c.index d.index = k
    rw [hc.index, hd.index, Nat.max_self]
  · obtain ⟨a, ha, a', ha', rfl, hne⟩ := exists_of_mem_intersection hb
    exact isBox_meet (hc.boxes a ha) (hd.boxes a' ha') hne

theorem holds_of_intersection (hc : c.Regular k) (hd : d.Regular k) (h : (c.intersection d).Holds v) :
    c.Holds v ∧ d.Holds v := by
  obtain ⟨b, hb, hhas⟩ := h
  obtain ⟨a, ha, a', ha', rfl, _⟩ := exists_of_mem_intersection hb
  have hlength : a.length = a'.length := (hc.boxes a ha).length.trans (hd.boxes a' ha').length.symm
  obtain ⟨hleft, hright⟩ := has_of_meet hlength hhas
  exact ⟨⟨a, ha, hleft⟩, a', ha', hright⟩

theorem holds_foldl_intersection {cs : List Choices} (hcs : ∀ c ∈ cs, c.Regular k) (hd : d.Regular k) :
    (cs.foldl intersection d).Regular k ∧
      ∀ v, (cs.foldl intersection d).Holds v → d.Holds v ∧ ∀ c ∈ cs, c.Holds v := by
  induction cs generalizing d with
  | nil => exact ⟨hd, fun v hv => ⟨hv, fun c hc => absurd hc List.not_mem_nil⟩⟩
  | cons c cs ih =>
      rw [List.forall_mem_cons] at hcs
      obtain ⟨hregular, hall⟩ := ih hcs.2 (hd.intersection hcs.1)
      refine ⟨hregular, fun v hv => ?_⟩
      obtain ⟨hboth, hrest⟩ := hall v hv
      obtain ⟨hd', hc⟩ := holds_of_intersection hd hcs.1 hboth
      exact ⟨hd', List.forall_mem_cons.mpr ⟨hc, hrest⟩⟩

/-- **What lies in the intersection of several choices lies in each of them.** -/
theorem holds_intersectAll {cs : List Choices} (hcs : ∀ c ∈ cs, c.Regular k)
    (h : intersectAll? cs = some ch) : ch.Regular k ∧ ∀ v, ch.Holds v → ∀ c ∈ cs, c.Holds v := by
  cases cs with
  | nil => cases h
  | cons d cs =>
      cases h
      rw [List.forall_mem_cons] at hcs
      obtain ⟨hregular, hall⟩ := holds_foldl_intersection hcs.2 hcs.1
      exact ⟨hregular, fun v hv => List.forall_mem_cons.mpr (hall v hv)⟩

theorem Regular.holds_first (h : ch.Regular k) (hfirst : ch.first? = some v) : ch.Holds v := by
  cases hboxes : ch.boxes with
  | nil =>
      rw [first?, hboxes] at hfirst
      cases hfirst
  | cons b bs =>
      have hmem : b ∈ ch.boxes := hboxes ▸ List.mem_cons_self
      have hb := h.boxes b hmem
      cases (first?_of_cons hboxes hb).symm.trans hfirst
      exact ⟨b, hmem, Box.has_pick hb fun _ _ hx => by cases hx⟩

theorem Exact.uncovered {ws : List Witness} (h : Exact domain n ws ch) (hv : ch.Holds v) :
    ¬ Covers ws v := by
  obtain ⟨b, hb, hhas⟩ := hv
  exact ((h.boxes b).mp hb).safe.safe v hhas

end Choices

/-! ## Columns -/

namespace Relation

variable {P : String → Prop} {k : Nat} {R : Relation} {x : String} {ch : Choices} {v : List Nat}

/-- Nothing in the column of a variable is unbounded. -/
def BoundedAt (R : Relation) (σ : Selection) (x : String) : Prop := ∀ z, R.value σ z x ≠ .i

/-- Some choice leaves nothing in the column of a variable unbounded. -/
def Boundable (R : Relation) (k : Nat) (x : String) : Prop :=
  ∃ v, IsVector choiceValues k v ∧ R.BoundedAt (.ofVector v) x

theorem mem_columnWitnesses {extra : List Scalar} {w : Witness} :
    w ∈ R.columnWitnesses extra x ↔ ∃ z ∈ R.vars, w ∈ (R.entry z x).infinities extra := by
  unfold columnWitnesses
  rw [List.mem_flatMap]
  constructor
  · intro h
    obtain ⟨p, hp, hw⟩ := h
    obtain ⟨z, hz, rfl⟩ := List.mem_map.mp hp
    exact ⟨z, hz, hw⟩
  · intro h
    obtain ⟨z, hz, hw⟩ := h
    exact ⟨_, List.mem_map.mpr ⟨z, hz, rfl⟩, hw⟩

/-- Whatever else is excluded, what is unbounded is. -/
theorem boundedAt_of_uncovered {extra : List Scalar} (h : ¬ Covers (R.columnWitnesses extra x) v) :
    R.BoundedAt (.ofVector v) x := by
  intro z hz
  obtain ⟨w, hw, hmet⟩ := Poly.value_eq_i_iff.mp hz
  refine h ⟨w, mem_columnWitnesses.mpr ⟨z, (mem_of_value_eq_i hz).1, ?_⟩, hmet⟩
  obtain ⟨m, hm, hi, rfl⟩ := Poly.mem_infinities.mp hw
  refine List.mem_map.mpr ⟨m, List.mem_filter.mpr ⟨hm, ?_⟩, rfl⟩
  rw [hi]
  rfl

theorem covers_columnWitnesses_iff : Covers (R.columnWitnesses [] x) v ↔ ¬ R.BoundedAt (.ofVector v) x := by
  constructor
  · intro h hbounded
    obtain ⟨w, hw, hmet⟩ := h
    obtain ⟨z, _, hw⟩ := mem_columnWitnesses.mp hw
    exact hbounded z (Poly.value_eq_i_iff.mpr ⟨w, hw, hmet⟩)
  · intro h
    exact Classical.byContradiction fun hnot => h (boundedAt_of_uncovered hnot)

/-- The choices of a column are found, and they are exact. -/
theorem Regular.exists_exact (hR : R.Regular P k) (hx : x ∈ R.vars) (extra : List Scalar) :
    ∃ ch, R.variableChoices choiceValues k x extra = .ok ch ∧
      ch.Exact choiceValues k (R.columnWitnesses extra x) := by
  rw [variableChoices_eq hR.normal.nodup hx]
  exact Choices.exact_of_fits (by decide) (hR.fits_column extra x)

/-- A column has no choice exactly if it is unbounded under all of them. -/
theorem Regular.isInfinite_iff (hR : R.Regular P k)
    (h : ch.Exact choiceValues k (R.columnWitnesses [] x)) : ch.isInfinite = true ↔ ¬ R.Boundable k x := by
  rw [h.isInfinite_iff (by decide) (hR.fits_column [] x)]
  constructor
  · intro hnone hboundable
    obtain ⟨v, hv, hbounded⟩ := hboundable
    exact hnone v ⟨hv, fun hcovers => covers_columnWitnesses_iff.mp hcovers hbounded⟩
  · intro hnot v hsafe
    exact hnot ⟨v, hsafe.vector, boundedAt_of_uncovered hsafe.uncovered⟩

theorem Regular.isFinite_iff (hR : R.Regular P k)
    (h : ch.Exact choiceValues k (R.columnWitnesses [] x)) : ch.isInfinite = false ↔ R.Boundable k x := by
  rw [← Bool.not_eq_true, hR.isInfinite_iff h, not_not]

/-- The choices of all variables are found, in the order of the variables, and they are exact. -/
theorem Regular.exists_allChoices (hR : R.Regular P k) :
    ∃ all, R.allVariableChoices choiceValues k = .ok all ∧ all.keys = R.vars ∧
      ∀ entry ∈ all, entry.2.Exact choiceValues k (R.columnWitnesses [] entry.1) := by
  have hnames : R.vars.map (fun x => x) = R.vars := List.map_id' _
  have hnd : (R.vars.map fun x => x).Nodup := hnames.symm ▸ hR.normal.nodup
  obtain ⟨all, hfound, hkeys, hall⟩ := exists_table (ε := ChoiceError)
    (f := fun x => do return (x, ← R.variableChoices choiceValues k x []))
    (Q := fun x ch => ch.Exact choiceValues k (R.columnWitnesses [] x)) hnd fun x hx => by
      obtain ⟨ch, hch, hexact⟩ := hR.exists_exact hx []
      exact ⟨ch, by rw [hch]; rfl, hexact⟩
  exact ⟨all, hfound, hkeys.trans hnames, hall⟩

end Relation

end GrowthFlow
