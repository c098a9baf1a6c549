import GrowthFlow.Choice.Box
import GrowthFlow.Proofs.Witnesses

/-!
# The boxes that avoid every witness

A box allows some values at each index, and a vector lies in it when it has an allowed value everywhere.
Whether a box meets a witness can be told index by index: since no witness asks for two values at one
index, a box that leaves none of its values out holds a vector that satisfies it.

The search leaves out one value for each witness that is not avoided yet. It finds nothing but boxes that
avoid all of them, and every box that does lies inside one that it finds: at a witness the smaller box
leaves out some value, and following that value keeps it inside.
-/

namespace GrowthFlow

namespace Box

/-- The values allowed at an index, none outside of the box. -/
def allowed (b : Box) (k : Nat) : List Nat := b[k]?.getD []

/-- Whether every index has an allowed value there. -/
def Has (b : Box) (v : List Nat) : Prop :=
  v.length = b.length ∧ ∀ k x, v[k]? = some x → x ∈ b.allowed k

/-- Whether a box allows no more than another one. -/
def Within (a b : Box) : Prop := a.length = b.length ∧ ∀ k x, x ∈ a.allowed k → x ∈ b.allowed k

/-- A box over a domain: some of its values at each of `n` indices, in increasing order. -/
structure IsBox (domain : List Nat) (n : Nat) (b : Box) : Prop where
  length : b.length = n
  nonempty : ∀ k, k < n → b.allowed k ≠ []
  increasing : ∀ k, Ordered.Increasing (b.allowed k)
  mem : ∀ k x, x ∈ b.allowed k → x ∈ domain

theorem allowed_eq_getElem {b : Box} {k : Nat} (h : k < b.length) : b.allowed k = b[k] := by
  simp [allowed, h]

theorem lt_length_of_mem {b : Box} {k x : Nat} (h : x ∈ b.allowed k) : k < b.length := by
  refine Nat.lt_of_not_le fun hle => ?_
  rw [allowed, List.getElem?_eq_none hle] at h
  exact absurd h List.not_mem_nil

theorem ext_allowed {a b : Box} (hlen : a.length = b.length)
    (h : ∀ k, k < a.length → a.allowed k = b.allowed k) : a = b := by
  refine List.ext_getElem hlen ?_
  intro k hk hk'
  rw [← allowed_eq_getElem hk, ← allowed_eq_getElem hk', h k hk]

theorem Within.refl (a : Box) : a.Within a := ⟨rfl, fun _ _ h => h⟩

theorem Within.trans {a b c : Box} (h : a.Within b) (h' : b.Within c) : a.Within c :=
  ⟨h.1.trans h'.1, fun k x hx => h'.2 k x (h.2 k x hx)⟩

theorem Within.antisymm {domain : List Nat} {n : Nat} {a b : Box} (ha : IsBox domain n a)
    (hb : IsBox domain n b) (h : a.Within b) (h' : b.Within a) : a = b :=
  ext_allowed h.1 fun k _ =>
    Ordered.Increasing.ext (ha.increasing k) (hb.increasing k) fun x => ⟨h.2 k x, h'.2 k x⟩

theorem contains_iff {a b : Box} : a.contains b = true ↔ b.Within a := by
  unfold contains Within
  rw [Bool.and_eq_true_iff, beq_iff_eq, List.all_eq_true, eq_comm]
  refine and_congr_right fun hlen => ?_
  constructor
  · intro h k x hx
    have hk := lt_length_of_mem hx
    have hk' : k < a.length := hlen ▸ hk
    have hmem : (a[k], b[k]) ∈ a.zip b := by
      rw [List.mem_iff_getElem?]
      exact ⟨k, List.getElem?_zip_eq_some.mpr
        ⟨List.getElem?_eq_getElem hk', List.getElem?_eq_getElem hk⟩⟩
    have := List.all_eq_true.mp (h _ hmem) x (allowed_eq_getElem hk ▸ hx)
    rw [allowed_eq_getElem hk']
    exact List.contains_iff_mem.mp this
  · rintro h ⟨x, y⟩ hmem
    obtain ⟨k, hk⟩ := List.mem_iff_getElem?.mp hmem
    obtain ⟨hxk, hyk⟩ := List.getElem?_zip_eq_some.mp hk
    refine List.all_eq_true.mpr fun z hz => List.contains_iff_mem.mpr ?_
    have := h k z (by rw [allowed, hyk]; exact hz)
    rwa [allowed, hxk] at this

/-! ## Vectors of a box -/

/-- Some vector of a box: the given values where they are given, the least ones elsewhere. -/
def pick (b : Box) (given : Nat → Option Nat) : List Nat :=
  b.mapIdx fun k values => (given k).getD (values.headD 0)

theorem getElem?_pick {b : Box} {given : Nat → Option Nat} {k : Nat} (hk : k < b.length) :
    (b.pick given)[k]? = some ((given k).getD ((b.allowed k).headD 0)) := by
  simp [pick, allowed, hk]

theorem has_pick {domain : List Nat} {n : Nat} {b : Box} (hb : IsBox domain n b)
    {given : Nat → Option Nat} (h : ∀ k x, given k = some x → k < n → x ∈ b.allowed k) :
    b.Has (b.pick given) := by
  refine ⟨by simp [pick], ?_⟩
  intro k x hx
  have hk : k < b.length := by
    have := (List.getElem?_eq_some_iff.mp hx).1
    simpa [pick] using this
  rw [getElem?_pick hk, Option.some.injEq] at hx
  have hkn : k < n := hb.length ▸ hk
  subst hx
  cases hg : given k with
  | some y => exact h k y hg hkn
  | none =>
      cases hvals : b.allowed k with
      | nil => exact absurd hvals (hb.nonempty k hkn)
      | cons y ys => exact List.mem_cons_self

theorem IsBox.isVector {domain : List Nat} {n : Nat} {b : Box} (hb : IsBox domain n b)
    {v : List Nat} (hv : b.Has v) : IsVector domain n v := by
  refine ⟨hv.1.trans hb.length, ?_⟩
  intro x hx
  obtain ⟨k, hk⟩ := List.mem_iff_getElem?.mp hx
  exact hb.mem k x (hv.2 k x hk)

/-- A box whose vectors all lie in another one allows no more than it. -/
theorem within_of_has {domain : List Nat} {n : Nat} {a b : Box} (ha : IsBox domain n a)
    (hb : IsBox domain n b) (h : ∀ v, a.Has v → b.Has v) : a.Within b := by
  refine ⟨ha.length.trans hb.length.symm, ?_⟩
  intro k x hx
  have hk := lt_length_of_mem hx
  -- a vector that has `x` at `k`
  have hhas : a.Has (a.pick fun j => if j = k then some x else none) := by
    refine has_pick ha ?_
    intro j y hy _
    split at hy
    · rename_i hjk
      rw [hjk, ← Option.some.inj hy]
      exact hx
    · exact absurd hy (by simp)
  refine (h _ hhas).2 k x ?_
  rw [getElem?_pick hk]
  simp

theorem Has.mono {a b : Box} {v : List Nat} (h : a.Within b) (hv : a.Has v) : b.Has v :=
  ⟨hv.1.trans h.1, fun k x hx => h.2 k x (hv.2 k x hx)⟩

/-! ## Avoiding a witness -/

theorem avoids_iff {b : Box} {w : Witness} :
    b.avoids w = true ↔ ∃ d ∈ w, d.value ∉ b.allowed d.index := by
  unfold avoids
  rw [List.any_eq_true]
  refine exists_congr fun d => and_congr_right fun _ => ?_
  cases hb : b[d.index]? with
  | none => simp [allowed, hb]
  | some values => simp [allowed, hb]

theorem avoids_mono {a b : Box} {w : Witness} (h : a.Within b) (hb : b.avoids w = true) :
    a.avoids w = true := by
  rw [avoids_iff] at hb ⊢
  obtain ⟨d, hd, hnot⟩ := hb
  exact ⟨d, hd, fun hmem => hnot (h.2 _ _ hmem)⟩

/-- The value that a witness asks for at an index. -/
def demandAt (w : Witness) (k : Nat) : Option Nat := (w.find? (·.index == k)).map (·.value)

theorem demandAt_mem {w : Witness} {k x : Nat} (h : demandAt w k = some x) : ⟨x, k⟩ ∈ w := by
  obtain ⟨d, hd, rfl⟩ := Option.map_eq_some_iff.mp h
  have hmem := List.mem_of_find?_eq_some hd
  have hindex : d.index = k := by simpa using List.find?_some hd
  rw [← hindex]
  exact hmem

/-- Sorted demands have one value at an index. -/
theorem demandAt_eq {w : Witness} (hs : Sorted w) {d : Delta} (hd : d ∈ w) :
    demandAt w d.index = some d.value := by
  induction w with
  | nil => exact absurd hd List.not_mem_nil
  | cons e es ih =>
      have he := List.pairwise_cons.mp hs
      unfold demandAt
      rw [List.find?_cons]
      rcases List.mem_cons.mp hd with rfl | hd
      · simp
      · have hne : (e.index == d.index) = false := by
          have := he.1 d hd
          simp
          omega
        rw [hne]
        exact ih he.2 hd

/-- **A box avoids a witness exactly when none of its vectors satisfies it.** -/
theorem avoids_iff_has {domain : List Nat} {n : Nat} {b : Box} (hb : IsBox domain n b)
    {w : Witness} (hs : Sorted w) (hfit : ∀ d ∈ w, d.index < n) :
    b.avoids w = true ↔ ∀ v, b.Has v → satisfies v w = false := by
  constructor
  · intro h v hv
    obtain ⟨d, hd, hnot⟩ := avoids_iff.mp h
    rw [← Bool.not_eq_true, satisfies_iff]
    exact fun hall => hnot (hv.2 _ _ (hall d hd))
  · intro h
    refine Classical.byContradiction fun hnot => ?_
    rw [avoids_iff, not_exists] at hnot
    have hall : ∀ d ∈ w, d.value ∈ b.allowed d.index := by
      intro d hd
      exact Classical.byContradiction fun hmem => hnot d ⟨hd, hmem⟩
    -- every demand is allowed, so they can be met together
    have hhas : b.Has (b.pick (demandAt w)) :=
      has_pick hb fun k x hx _ => hall _ (demandAt_mem hx)
    have hsat : satisfies (b.pick (demandAt w)) w = true := by
      rw [satisfies_iff]
      intro d hd
      rw [getElem?_pick (hb.length ▸ hfit d hd), demandAt_eq hs hd]
      rfl
    exact absurd hsat (by simp [h _ hhas])

/-! ## The search -/

theorem width_eq (b : Box) (k : Nat) : b.width k = (b.allowed k).length := by
  unfold width allowed
  cases b[k]? <;> rfl

theorem allowed_exclude (b : Box) (d : Delta) (k : Nat) :
    (b.exclude d).allowed k =
      if d.index = k then (b.allowed k).filter (· != d.value) else b.allowed k := by
  unfold exclude allowed
  rw [List.getElem?_modify]
  cases b[k]? with
  | none => simp
  | some values =>
      by_cases h : d.index = k
      · simp [h]
      · simp [h]

theorem mem_allowed_exclude {b : Box} {d : Delta} {k x : Nat} :
    x ∈ (b.exclude d).allowed k ↔ x ∈ b.allowed k ∧ (d.index = k → x ≠ d.value) := by
  rw [allowed_exclude]
  split
  · rename_i h
    simp [h]
  · rename_i h
    simp [h]

theorem within_exclude (b : Box) (d : Delta) : (b.exclude d).Within b :=
  ⟨by simp [exclude], fun _ _ hx => (mem_allowed_exclude.mp hx).1⟩

theorem exclude_avoids {b : Box} {w : Witness} {d : Delta} (hd : d ∈ w) :
    (b.exclude d).avoids w = true :=
  avoids_iff.mpr ⟨d, hd, fun hmem => (mem_allowed_exclude.mp hmem).2 rfl rfl⟩

/-- Among two values at least one is not left out. -/
theorem filter_ne_nil {values : List Nat} (hinc : Ordered.Increasing values)
    (hlen : 1 < values.length) (y : Nat) : values.filter (· != y) ≠ [] := by
  match values, hinc, hlen with
  | a :: b :: rest, hinc, _ =>
      have hab : a < b := (List.pairwise_cons.mp hinc).1 b List.mem_cons_self
      intro hnil
      rw [List.filter_eq_nil_iff] at hnil
      have ha := hnil a List.mem_cons_self
      have hb := hnil b (List.mem_cons_of_mem _ List.mem_cons_self)
      simp at ha hb
      omega

theorem IsBox.exclude {domain : List Nat} {n : Nat} {b : Box} (hb : IsBox domain n b) {d : Delta}
    (hwidth : b.width d.index > 1) : IsBox domain n (b.exclude d) where
  length := (within_exclude b d).1.trans hb.length
  nonempty k hk := by
    rw [allowed_exclude]
    split
    · rename_i h
      subst h
      exact filter_ne_nil (hb.increasing _) (width_eq b _ ▸ hwidth) _
    · exact hb.nonempty k hk
  increasing k := by
    rw [allowed_exclude]
    split
    · exact List.Pairwise.filter _ (hb.increasing k)
    · exact hb.increasing k
  mem k x hx := hb.mem k x (mem_allowed_exclude.mp hx).1

/-- The search finds only boxes that avoid every witness. -/
theorem search_sound {domain : List Nat} {n : Nat} {t : Box} :
    ∀ (ws : List Witness) {b : Box}, IsBox domain n b → t ∈ search ws b →
      IsBox domain n t ∧ t.Within b ∧ ∀ w ∈ ws, t.avoids w = true
  | [], b, hb, ht => by
      rw [search, List.mem_singleton] at ht
      subst ht
      exact ⟨hb, Within.refl t, fun _ hw => absurd hw List.not_mem_nil⟩
  | w :: ws, b, hb, ht => by
      rw [search] at ht
      split at ht
      · rename_i havoids
        obtain ⟨hbox, hwithin, hall⟩ := search_sound ws hb ht
        exact ⟨hbox, hwithin, List.forall_mem_cons.mpr ⟨avoids_mono hwithin havoids, hall⟩⟩
      · obtain ⟨d, hd, ht⟩ := List.mem_flatMap.mp ht
        split at ht
        · rename_i hwidth
          obtain ⟨hbox, hwithin, hall⟩ := search_sound ws (hb.exclude hwidth) ht
          refine ⟨hbox, hwithin.trans (within_exclude b d), ?_⟩
          exact List.forall_mem_cons.mpr ⟨avoids_mono hwithin (exclude_avoids hd), hall⟩
        · exact absurd ht List.not_mem_nil

/-- Every box that avoids the witnesses lies inside one that the search finds. -/
theorem search_complete {domain : List Nat} {n : Nat} {a : Box} (ha : IsBox domain n a) :
    ∀ (ws : List Witness) {b : Box}, a.Within b → (∀ w ∈ ws, a.avoids w = true) →
      ∃ t ∈ search ws b, a.Within t
  | [], b, hab, _ => ⟨b, by simp [search], hab⟩
  | w :: ws, b, hab, hall => by
      have hall := List.forall_mem_cons.mp hall
      rw [search]
      split
      · exact search_complete ha ws hab hall.2
      · rename_i hnot
        -- the value that `a` leaves out, and so the branch to follow
        obtain ⟨d, hd, hout⟩ := avoids_iff.mp hall.1
        have hin : d.value ∈ b.allowed d.index := by
          refine Classical.byContradiction fun hmem => hnot ?_
          exact avoids_iff.mpr ⟨d, hd, hmem⟩
        -- `a` has another value at that index, so `b` has two
        have hlt : d.index < n := by
          have := lt_length_of_mem hin
          rwa [← hab.1, ha.length] at this
        obtain ⟨y, hy⟩ := List.exists_mem_of_ne_nil _ (ha.nonempty d.index hlt)
        have hne : y ≠ d.value := fun heq => hout (heq ▸ hy)
        have hwidth : b.width d.index > 1 := by
          rw [width_eq]
          refine Nat.lt_of_not_le fun hle => hne ?_
          have hlen : (b.allowed d.index).length = 1 :=
            Nat.le_antisymm hle (List.length_pos_of_mem hin)
          obtain ⟨z, hz⟩ := List.length_eq_one_iff.mp hlen
          have hyz := hz ▸ hab.2 _ _ hy
          rw [hz] at hin
          rw [List.mem_singleton.mp hyz, List.mem_singleton.mp hin]
        have hwithin : a.Within (b.exclude d) := by
          refine ⟨hab.1.trans (within_exclude b d).1.symm, ?_⟩
          intro k x hx
          refine mem_allowed_exclude.mpr ⟨hab.2 k x hx, ?_⟩
          rintro rfl rfl
          exact hout hx
        obtain ⟨t, ht, hat⟩ := search_complete ha ws hwithin hall.2
        refine ⟨t, List.mem_flatMap.mpr ⟨d, hd, ?_⟩, hat⟩
        rw [if_pos hwidth]
        exact ht

/-! ## The largest boxes -/

/-- Boxes of which none lies inside another one. -/
def Antichain (bs : List Box) : Prop := ∀ a ∈ bs, ∀ b ∈ bs, a.Within b → a = b

theorem mem_addMaximal {x : Box} (kept : List Box) (b : Box) (h : x ∈ addMaximal kept b) :
    x ∈ kept ∨ x = b := by
  unfold addMaximal at h
  split at h
  · exact .inl h
  · rcases List.mem_append.mp h with h | h
    · exact .inl (List.mem_filter.mp h).1
    · exact .inr (List.mem_singleton.mp h)

theorem antichain_addMaximal {kept : List Box} (h : Antichain kept) (b : Box) :
    Antichain (addMaximal kept b) := by
  unfold addMaximal
  split
  · exact h
  · rename_i hnone
    have hnone : ∀ k ∈ kept, ¬ b.Within k := by
      intro k hk hwithin
      exact hnone (List.any_eq_true.mpr ⟨k, hk, contains_iff.mpr hwithin⟩)
    have hrest : ∀ k ∈ kept.filter (!b.contains ·), k ∈ kept ∧ ¬ k.Within b := by
      intro k hk
      rw [List.mem_filter] at hk
      refine ⟨hk.1, fun hwithin => ?_⟩
      simp [contains_iff.mpr hwithin] at hk
    intro x hx y hy hxy
    rcases List.mem_append.mp hx with hx | hx
    · rcases List.mem_append.mp hy with hy | hy
      · exact h x (hrest x hx).1 y (hrest y hy).1 hxy
      · rw [List.mem_singleton.mp hy] at hxy
        exact absurd hxy (hrest x hx).2
    · rw [List.mem_singleton.mp hx] at hxy ⊢
      rcases List.mem_append.mp hy with hy | hy
      · exact absurd hxy (hnone y (hrest y hy).1)
      · exact (List.mem_singleton.mp hy).symm

/-- What lay inside a kept box, and the new box, lie inside one that is kept. -/
theorem exists_addMaximal {kept : List Box} {b x : Box} (h : (∃ k ∈ kept, x.Within k) ∨ x = b) :
    ∃ k ∈ addMaximal kept b, x.Within k := by
  unfold addMaximal
  split
  · rename_i hany
    rcases h with h | rfl
    · exact h
    · obtain ⟨k, hk, hcontains⟩ := List.any_eq_true.mp hany
      exact ⟨k, hk, contains_iff.mp hcontains⟩
  · have hb : b ∈ kept.filter (!b.contains ·) ++ [b] :=
      List.mem_append_right _ (List.mem_singleton_self b)
    rcases h with ⟨k, hk, hxk⟩ | rfl
    · by_cases hkb : b.contains k = true
      · exact ⟨b, hb, hxk.trans (contains_iff.mp hkb)⟩
      · refine ⟨k, List.mem_append_left _ (List.mem_filter.mpr ⟨hk, ?_⟩), hxk⟩
        simpa using hkb
    · exact ⟨x, hb, Within.refl x⟩

theorem antichain_foldl_addMaximal : ∀ (bs : List Box) {kept : List Box}, Antichain kept →
    Antichain (bs.foldl addMaximal kept)
  | [], _, h => h
  | b :: bs, _, h => antichain_foldl_addMaximal bs (antichain_addMaximal h b)

theorem exists_foldl_addMaximal {x : Box} : ∀ (bs : List Box) {kept : List Box},
    (∃ k ∈ kept, x.Within k) ∨ x ∈ bs → ∃ k ∈ bs.foldl addMaximal kept, x.Within k
  | [], _, h => h.resolve_right List.not_mem_nil
  | b :: bs, _, h => by
      refine exists_foldl_addMaximal bs ?_
      rcases h with h | h
      · exact .inl (exists_addMaximal (.inl h))
      · rcases List.mem_cons.mp h with rfl | h
        · exact .inl (exists_addMaximal (.inr rfl))
        · exact .inr h

theorem mem_of_mem_maximal {bs : List Box} {x : Box} (h : x ∈ maximal bs) : x ∈ bs :=
  (mem_of_mem_foldl mem_addMaximal bs [] h).resolve_left List.not_mem_nil

theorem antichain_maximal (bs : List Box) : Antichain (maximal bs) :=
  antichain_foldl_addMaximal bs fun _ ha => absurd ha List.not_mem_nil

theorem exists_mem_maximal {bs : List Box} {x : Box} (h : x ∈ bs) : ∃ k ∈ maximal bs, x.Within k :=
  exists_foldl_addMaximal bs (.inr h)

end Box

end GrowthFlow
