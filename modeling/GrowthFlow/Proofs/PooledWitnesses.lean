import GrowthFlow.Proofs.SharedChoices

/-!
# Intersecting choices pools their witnesses

The meet of two boxes is the widest box inside both. A box that is clear of two sets of witnesses is clear of
each, so it lies inside a widest box for the one and inside a widest box for the other, and hence inside the
meet of these. The meet is clear of both sets. So the widest boxes for both sets together are those of the
meets that no other one contains, which is what an intersection keeps (`Choices.Spans.intersection`).

The witnesses of a relation are those of its columns, one column for each variable. So intersecting the
choices of all variables leaves the choices of the relation, up to the order of the boxes.
-/

namespace GrowthFlow

namespace Choices

variable {domain : List Nat} {n : Nat} {ws vs : List Witness} {a b x : Box} {c d : Choices}

/-! ## Meets -/

theorem within_meet (ha : x.Within a) (hb : x.Within b) : x.Within (meet a b) :=
  ⟨hb.1.trans (length_meet (ha.1.symm.trans hb.1)).symm,
    fun k y hy => mem_allowed_meet.mpr ⟨ha.2 k y hy, hb.2 k y hy⟩⟩

theorem meet_within_left (h : a.length = b.length) : Box.Within (meet a b) a :=
  ⟨(length_meet h).trans h.symm, fun _ _ hy => (mem_allowed_meet.mp hy).1⟩

theorem meet_within_right (h : a.length = b.length) : Box.Within (meet a b) b :=
  ⟨length_meet h, fun _ _ hy => (mem_allowed_meet.mp hy).2⟩

/-- Boxes that have a box inside both have a value in common at each index. -/
theorem ne_nil_of_within_meet (hx : x.IsBox domain n) (hmeet : x.Within (meet a b)) :
    ∀ values ∈ meet a b, values ≠ [] := by
  intro values hvalues
  obtain ⟨k, hk, rfl⟩ := List.mem_iff_getElem.mp hvalues
  have hkn : k < n := by
    rw [← hx.length, hmeet.1]
    exact hk
  obtain ⟨y, hy⟩ := List.exists_mem_of_ne_nil _ (hx.nonempty k hkn)
  rw [← Box.allowed_eq_getElem hk]
  exact List.ne_nil_of_mem (hmeet.2 k y hy)

/-- A meet is clear of what either box is clear of. -/
theorem isClear_meet (ha : a.IsClear domain n ws) (hb : b.IsClear domain n vs)
    (hne : ∀ values ∈ meet a b, values ≠ []) : Box.IsClear domain n (ws ++ vs) (meet a b) := by
  have hlength := ha.box.length.trans hb.box.length.symm
  have hbox := isBox_meet ha.box hb.box hne
  refine Box.isClear_append_iff.mpr ⟨⟨hbox, fun w hw => ?_⟩, hbox, fun w hw => ?_⟩
  · exact Box.avoids_mono (meet_within_left hlength) (ha.avoids w hw)
  · exact Box.avoids_mono (meet_within_right hlength) (hb.avoids w hw)

/-! ## Intersections -/

/-- A pass that leaves out repeats keeps every member. -/
theorem mem_foldl_distinct (bs : List Box) {kept : List Box} (h : x ∈ kept ∨ x ∈ bs) :
    x ∈ bs.foldl (fun bs b => if bs.contains b then bs else bs ++ [b]) kept := by
  induction bs generalizing kept with
  | nil => exact h.resolve_right List.not_mem_nil
  | cons b bs ih =>
      rw [List.foldl_cons]
      refine ih ?_
      split
      · rename_i hmem
        refine h.elim .inl fun hx => ?_
        rcases List.mem_cons.mp hx with rfl | hx
        · exact .inl (List.contains_iff_mem.mp hmem)
        · exact .inr hx
      · rw [List.mem_append, List.mem_singleton, or_assoc, ← List.mem_cons]
        exact h

/-- Every meet that leaves a value at each index lies inside a box of the intersection. -/
theorem exists_mem_intersection (ha : a ∈ c.boxes) (hb : b ∈ d.boxes)
    (hne : ∀ values ∈ meet a b, values ≠ []) : ∃ k ∈ (c.intersection d).boxes, (meet a b).Within k := by
  refine Box.exists_mem_maximal (mem_foldl_distinct _ (.inr (List.mem_filter.mpr ⟨?_, ?_⟩)))
  · exact List.mem_flatMap.mpr ⟨a, ha, List.mem_map_of_mem hb⟩
  · rw [List.all_eq_true]
    intro values hvalues
    simpa using hne values hvalues

/-- **The widest boxes for two sets of witnesses together** are what is left of those for each. -/
theorem Spans.intersection (hdomain : domain ≠ []) (hc : c.Spans domain n ws) (hd : d.Spans domain n vs) :
    (c.intersection d).Spans domain n (ws ++ vs) := by
  have hindex : max c.index d.index = n := by rw [hc.index, hd.index, Nat.max_self]
  refine ⟨hindex, Box.nodup_maximal _, fun b => ?_⟩
  refine Box.mem_iff_widest (Box.antichain_maximal _) (fun k hk => ?_) fun x hx => ?_
  · obtain ⟨a, ha, a', ha', rfl, hne⟩ := exists_of_mem_intersection hk
    exact isClear_meet ((hc.boxes a).mp ha).clear ((hd.boxes a').mp ha').clear hne
  · obtain ⟨hxw, hxv⟩ := Box.isClear_append_iff.mp hx
    obtain ⟨a, ha, hxa⟩ := hxw.exists_widest hdomain
    obtain ⟨a', ha', hxa'⟩ := hxv.exists_widest hdomain
    have hmeet := within_meet hxa hxa'
    obtain ⟨k, hk, hwithin⟩ := exists_mem_intersection ((hc.boxes a).mpr ha) ((hd.boxes a').mpr ha')
      (ne_nil_of_within_meet hx.box hmeet)
    exact ⟨k, hk, hmeet.trans hwithin⟩

theorem Spans.congr (hc : c.Spans domain n ws) (h : ∀ w, w ∈ ws ↔ w ∈ vs) : c.Spans domain n vs := by
  have hclear : ∀ b, Box.IsClear domain n ws b ↔ Box.IsClear domain n vs b :=
    fun b => ⟨fun hb => hb.mono fun w => (h w).mpr, fun hb => hb.mono fun w => (h w).mp⟩
  exact ⟨hc.index, hc.nodup, fun b => (hc.boxes b).trans (Box.isWidest_congr hclear)⟩

/-- What the witnesses leave is the same up to the order of the boxes. -/
theorem Spans.perm (hc : c.Spans domain n ws) (hd : d.Spans domain n ws) : c.boxes.Perm d.boxes :=
  (List.perm_ext_iff_of_nodup hc.nodup hd.nodup).mpr fun b => (hc.boxes b).trans (hd.boxes b).symm

/-- Intersecting one after another pools the witnesses of all. -/
theorem exists_spans_foldl (hdomain : domain ≠ []) {α ε : Type} {f : α → Except ε Choices}
    {pool : α → List Witness} (ys : List α)
    (hf : ∀ y ∈ ys, ∃ ch, f y = .ok ch ∧ ch.Spans domain n (pool y)) :
    ∃ cs, ys.mapM f = .ok cs ∧ ∀ d ws, d.Spans domain n ws →
      (cs.foldl Choices.intersection d).Spans domain n (ws ++ ys.flatMap pool) := by
  induction ys with
  | nil => exact ⟨[], rfl, fun d ws hd => by simpa using hd⟩
  | cons y ys ih =>
      rw [List.forall_mem_cons] at hf
      obtain ⟨ch, hch, hspans⟩ := hf.1
      obtain ⟨cs, hcs, hfold⟩ := ih hf.2
      refine ⟨ch :: cs, by rw [List.mapM_cons, hch, hcs]; rfl, fun d ws hd => ?_⟩
      have hstep := hfold _ _ (hd.intersection hdomain hspans)
      rwa [List.append_assoc] at hstep

end Choices

/-! ## The columns of a relation -/

namespace Relation

variable {domain : List Nat} {n : Nat} {R : Relation}

/-- Every demand of an entry is at an index below `n`. -/
def DemandsBelow (n : Nat) (R : Relation) : Prop :=
  ∀ p ∈ R.matrix.entries, ∀ m ∈ p.monomials, ∀ d ∈ m.deltas, d.index < n

theorem index_lt_of_mem_infinities {p : Poly} {extra : List Scalar} {w : Witness}
    (hp : ∀ m ∈ p.monomials, ∀ d ∈ m.deltas, d.index < n) (hw : w ∈ p.infinities extra) :
    ∀ d ∈ w, d.index < n := by
  obtain ⟨m, hm, rfl⟩ := List.mem_map.mp hw
  exact hp m (List.mem_filter.mp hm).1

theorem DemandsBelow.inside_witnesses (h : R.DemandsBelow n) : Inside n R.witnesses := by
  intro w hw
  obtain ⟨p, hp, hw⟩ := List.mem_flatMap.mp hw
  exact index_lt_of_mem_infinities (h p hp) hw

/-- The witnesses of a relation are those of its columns. -/
theorem mem_flatMap_columnWitnesses (hnd : R.vars.Nodup) {w : Witness} :
    w ∈ R.vars.flatMap (R.columnWitnesses []) ↔ w ∈ R.witnesses := by
  rw [mem_witnesses hnd, List.mem_flatMap]
  constructor
  · rintro ⟨y, hy, hw⟩
    obtain ⟨z, hz, hw⟩ := mem_columnWitnesses.mp hw
    exact ⟨z, hz, y, hy, hw⟩
  · rintro ⟨z, hz, y, hy, hw⟩
    exact ⟨y, hy, mem_columnWitnesses.mpr ⟨z, hz, hw⟩⟩

/-- The choices of every variable are found, and what they have in common are the choices of the relation. -/
theorem exists_intersectAll (hdomain : domain ≠ []) (hne : R.vars ≠ []) (hnd : R.vars.Nodup)
    (hR : R.DemandsBelow n) :
    ∃ cs ch, R.vars.mapM (R.variableChoices domain n · []) = .ok cs ∧
      Choices.intersectAll? cs = some ch ∧ ch.Spans domain n R.witnesses := by
  have hcolumn : ∀ y ∈ R.vars, ∃ ch, R.variableChoices domain n y [] = .ok ch ∧
      ch.Spans domain n (R.columnWitnesses [] y) := by
    intro y hy
    rw [variableChoices_eq hnd hy]
    refine Choices.exists_spans hdomain fun w hw => ?_
    refine hR.inside_witnesses w ((mem_flatMap_columnWitnesses hnd).mp ?_)
    exact List.mem_flatMap.mpr ⟨y, hy, hw⟩
  have hpool := fun w => mem_flatMap_columnWitnesses hnd (w := w)
  cases hvars : R.vars with
  | nil => exact absurd hvars hne
  | cons y ys =>
      rw [hvars] at hcolumn hpool
      rw [List.forall_mem_cons] at hcolumn
      obtain ⟨first, hfirst, hspans⟩ := hcolumn.1
      obtain ⟨cs, hcs, hfold⟩ := Choices.exists_spans_foldl hdomain ys hcolumn.2
      refine ⟨first :: cs, _, by rw [List.mapM_cons, hfirst, hcs]; rfl, rfl, ?_⟩
      exact (hfold first _ hspans).congr hpool

end Relation

namespace Choices

/-- **Intersecting choices is pooling witnesses.** The boxes that two sets of witnesses leave have in common
what both sets together leave, up to the order of the boxes and without repeats. So the choices of a relation
are what the choices of its variables have in common, if each variable has one place. -/
theorem intersection_pools {domain : List Nat} (hdomain : domain ≠ []) (n : Nat) :
    (∀ ws vs : List Witness, (∀ w ∈ ws, ∀ d ∈ w, d.index < n) → (∀ w ∈ vs, ∀ d ∈ w, d.index < n) →
      ∃ c d both, generate domain n ws = .ok c ∧ generate domain n vs = .ok d ∧
        generate domain n (ws ++ vs) = .ok both ∧ (c.intersection d).boxes.Perm both.boxes ∧
        (c.intersection d).boxes.Nodup) ∧
      ∀ R : Relation, R.vars ≠ [] → R.vars.Nodup →
        (∀ p ∈ R.matrix.entries, ∀ m ∈ p.monomials, ∀ d ∈ m.deltas, d.index < n) →
        ∃ cs ch whole, R.vars.mapM (R.variableChoices domain n · []) = .ok cs ∧
          intersectAll? cs = some ch ∧ R.choices domain n [] = .ok whole ∧
          ch.boxes.Perm whole.boxes := by
  refine ⟨fun ws vs hws hvs => ?_, fun R hne hnd hR => ?_⟩
  · obtain ⟨c, hc, hcspans⟩ := exists_spans hdomain hws
    obtain ⟨d, hd, hdspans⟩ := exists_spans hdomain hvs
    have hinside : Inside n (ws ++ vs) :=
      fun w hw => (List.mem_append.mp hw).elim (hws w) (hvs w)
    obtain ⟨both, hboth, hspans⟩ := exists_spans hdomain hinside
    have hpool := hcspans.intersection hdomain hdspans
    exact ⟨c, d, both, hc, hd, hboth, hpool.perm hspans, hpool.nodup⟩
  · have hbelow : R.DemandsBelow n := hR
    obtain ⟨cs, ch, hcs, hch, hspans⟩ := Relation.exists_intersectAll hdomain hne hnd hbelow
    obtain ⟨whole, hwhole, hwholespans⟩ := exists_spans hdomain hbelow.inside_witnesses
    exact ⟨cs, ch, whole, hcs, hch, hwhole, hspans.perm hwholespans⟩

/-- Two witnesses that are met box by box, and a relation with an unbounded flow into each of two variables. -/
theorem intersection_pools_two_columns :
    let R : Relation :=
      ⟨["x", "y"],
        ⟨[[⟨[⟨.i, [⟨0, 0⟩]⟩]⟩, .unit],
          [.zero, ⟨[⟨.m, []⟩, ⟨.i, [⟨0, 0⟩, ⟨2, 1⟩]⟩, ⟨.i, [⟨1, 0⟩]⟩]⟩]], by decide⟩, rfl⟩
    (∃ c d both, generate [0, 1, 2] 2 [[⟨0, 0⟩, ⟨0, 1⟩]] = .ok c ∧ generate [0, 1, 2] 2 [[⟨2, 1⟩]] = .ok d ∧
        generate [0, 1, 2] 2 [[⟨0, 0⟩, ⟨0, 1⟩], [⟨2, 1⟩]] = .ok both ∧
        (c.intersection d).boxes.Perm both.boxes ∧ (c.intersection d).boxes.Nodup) ∧
      generate [0, 1, 2] 2 [[⟨0, 0⟩, ⟨0, 1⟩], [⟨2, 1⟩]] =
        .ok ⟨[[[0, 1, 2], [1]], [[1, 2], [0, 1]]], 2⟩ ∧
      R.vars.Nodup ∧ R.choices [0, 1, 2] 2 [] = .ok ⟨[[[2], [0, 1, 2]]], 2⟩ ∧
      ∃ cs ch whole, R.vars.mapM (R.variableChoices [0, 1, 2] 2 · []) = .ok cs ∧
        intersectAll? cs = some ch ∧ R.choices [0, 1, 2] 2 [] = .ok whole ∧
        ch.boxes.Perm whole.boxes := by
  intro R
  have hdomain : [0, 1, 2] ≠ [] := by decide
  obtain ⟨hpool, hcolumns⟩ := intersection_pools hdomain 2
  have hnd : R.vars.Nodup := by decide
  exact ⟨hpool _ _ (by decide) (by decide), by decide +kernel, hnd, by decide +kernel,
    hcolumns R (by decide) hnd (by decide)⟩

/-- A name that stands for two columns is looked up as the first of them. An unbounded flow into the second
one is then missed by the choices of the variables, but not by those of the relation. -/
theorem columns_of_repeated_name :
    ¬ ∀ R : Relation, R.vars ≠ [] →
      (∀ p ∈ R.matrix.entries, ∀ m ∈ p.monomials, ∀ d ∈ m.deltas, d.index < 1) →
      ∃ cs ch whole, R.vars.mapM (R.variableChoices [0, 1, 2] 1 · []) = .ok cs ∧
        intersectAll? cs = some ch ∧ R.choices [0, 1, 2] 1 [] = .ok whole ∧
        ch.boxes.Perm whole.boxes := by
  intro h
  let R : Relation := ⟨["x", "x"], ⟨[[.zero, ⟨[⟨.i, []⟩]⟩], [.zero, .zero]], by decide⟩, rfl⟩
  obtain ⟨cs, ch, whole, hcs, hch, hwhole, hperm⟩ := h R (by decide) (by decide)
  have hfull : R.vars.mapM (R.variableChoices [0, 1, 2] 1 · []) =
      .ok [⟨[[[0, 1, 2]]], 1⟩, ⟨[[[0, 1, 2]]], 1⟩] := by decide +kernel
  have hnone : R.choices [0, 1, 2] 1 [] = .ok ⟨[], 1⟩ := by decide +kernel
  cases hfull.symm.trans hcs
  cases hch
  cases hnone.symm.trans hwhole
  exact absurd hperm.length_eq (by decide)

end Choices

end GrowthFlow
