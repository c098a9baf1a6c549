import Mathlib.Data.List.Nodup
import Mathlib.Data.List.Perm.Subperm
import GrowthFlow.Choice.Graph
import GrowthFlow.Proofs.Effects

/-!
# Contraction covers nothing new

A witness graph gives up a group of witnesses for what they have in common once the group takes every
value at an index. Then a vector that satisfies the common part also satisfies one of the group: it has
some value at that index, and the group leaves no value out, because different witnesses of the group
differ in their value there. So a contracted graph covers no vector that it did not cover before
(`refines_contract`), and a walk that says that every choice is covered is right
(`Sound.covered`).
-/

namespace GrowthFlow

/-! ## Neighbours -/

namespace Witness

theorem mem_without {w : Witness} {k : Nat} {d : Delta} :
    d ∈ w.without k ↔ d ∈ w ∧ d.index ≠ k := by
  unfold without
  rw [List.mem_filter, bne_iff_ne]

theorem sorted_without {w : Witness} (hw : Sorted w) (k : Nat) : Sorted (w.without k) :=
  List.Pairwise.filter _ hw

/-- Two witnesses that differ at an index only: they demand different values there, and the same
elsewhere. -/
theorem difference?_some : ∀ {w u : Witness} {k : Nat}, w.difference? u = some k →
    w.without k = u.without k ∧ ∃ d ∈ w, ∃ e ∈ u, d.index = k ∧ e.index = k ∧ d ≠ e
  | d :: v, e :: u, k, h => by
      rw [difference?] at h
      split at h
      · rename_i heq
        obtain ⟨hsame, a, ha, b, hb, hrest⟩ := difference?_some h
        refine ⟨?_, a, List.mem_cons_of_mem d ha, b, List.mem_cons_of_mem e hb, hrest⟩
        unfold without at hsame ⊢
        rw [List.filter_cons, List.filter_cons, heq, hsame]
      · rename_i hne
        split at h
        · rename_i hand
          cases h
          refine ⟨?_, d, List.mem_cons_self, e, List.mem_cons_self, rfl, hand.1.symm, hne⟩
          unfold without
          rw [List.filter_cons, List.filter_cons, hand.1, bne_self_eq_false, if_neg Bool.false_ne_true,
            if_neg Bool.false_ne_true, hand.2]
        · cases h
  | [], _, _, h => by cases h
  | _ :: _, [], _, h => by cases h

theorem difference?_self : ∀ w : Witness, w.difference? w = none
  | [] => rfl
  | d :: w => by
      rw [difference?, if_pos rfl]
      exact difference?_self w

/-- A sorted witness is determined by its demand at an index and by its other demands. -/
theorem eq_of_without_eq {w u : Witness} (hw : Sorted w) (hu : Sorted u) {d : Delta} (hdw : d ∈ w)
    (hdu : d ∈ u) (h : w.without d.index = u.without d.index) : w = u := by
  have hsub : ∀ {a b : Witness}, Sorted a → d ∈ a → d ∈ b → a.without d.index = b.without d.index →
      ∀ e ∈ a, e ∈ b := by
    intro a b ha hda hdb hab e he
    by_cases hindex : e.index = d.index
    · exact ha.unique he hda hindex ▸ hdb
    · exact (mem_without.mp (hab ▸ mem_without.mpr ⟨he, hindex⟩)).1
  exact (sublist_of_sorted hw hu (hsub hw hdw hdu h)).antisymm
    (sublist_of_sorted hu hw (hsub hu hdu hdw h.symm))

/-- The value that a witness demands at an index. -/
def valueAt (k : Nat) (w : Witness) : Nat := (Box.demandAt w k).getD 0

theorem valueAt_eq {w : Witness} (hw : Sorted w) {d : Delta} (hd : d ∈ w) :
    w.valueAt d.index = d.value := by
  rw [valueAt, Box.demandAt_eq hw hd]
  rfl

end Witness

namespace WitnessGraph

/-- What every graph of a walk is like: no witness twice, each with its demands in order, at indices
below `n` and for values that can be chosen. -/
structure Shaped (n : Nat) (g : WitnessGraph) : Prop where
  nodup : g.members.Nodup
  sorted : ∀ w ∈ g.members, Sorted w
  below : ∀ w ∈ g.members, ∀ d ∈ w, d.index < n ∧ d.value < g.degree

variable {n : Nat} {g : WitnessGraph}

theorem mem_neighbours {w u : Witness} {k : Nat} :
    u ∈ g.neighbours w k ↔ u ∈ g.members ∧ w.difference? u = some k := by
  unfold neighbours
  rw [List.mem_filter, beq_iff_eq]

/-- **A full group leaves no value out**: whatever value is chosen at the index, a member of the graph
demands it there and demands elsewhere what the witness does. -/
theorem exists_member_of_full (hg : g.Shaped n) {w : Witness} (hw : w ∈ g.members) {d : Delta}
    (hd : d ∈ w) (hfull : g.isFull w d.index = true) {x : Nat} (hx : x < g.degree) :
    ∃ u ∈ g.members, (⟨x, d.index⟩ : Delta) ∈ u ∧ u.without d.index = w.without d.index := by
  -- Every member of the group has a demand at the index, and it shares the others.
  have hgroup : ∀ u ∈ w :: g.neighbours w d.index, u ∈ g.members ∧
      u.without d.index = w.without d.index ∧ ∃ e ∈ u, e.index = d.index := by
    intro u hu
    rcases List.mem_cons.mp hu with rfl | hu
    · exact ⟨hw, rfl, d, hd, rfl⟩
    · obtain ⟨hmem, hdiff⟩ := mem_neighbours.mp hu
      obtain ⟨hsame, _, _, e, he, _, hindex, _⟩ := Witness.difference?_some hdiff
      exact ⟨hmem, hsame.symm, e, he, hindex⟩
  have hvalue : ∀ u ∈ w :: g.neighbours w d.index,
      (⟨u.valueAt d.index, d.index⟩ : Delta) ∈ u ∧ u.valueAt d.index < g.degree := by
    intro u hu
    obtain ⟨hmem, _, e, he, hindex⟩ := hgroup u hu
    have heq : (⟨u.valueAt d.index, d.index⟩ : Delta) = e := by
      rw [← hindex, Witness.valueAt_eq (hg.sorted u hmem) he]
    exact ⟨heq ▸ he, by rw [← hindex, Witness.valueAt_eq (hg.sorted u hmem) he]
                        exact (hg.below u hmem e he).2⟩
  have hnodup : (w :: g.neighbours w d.index).Nodup := by
    refine List.nodup_cons.mpr ⟨?_, hg.nodup.filter _⟩
    intro hself
    have := (mem_neighbours.mp hself).2
    rw [Witness.difference?_self] at this
    cases this
  -- So the members have as many different values as there are values.
  have hvalues : ((w :: g.neighbours w d.index).map (Witness.valueAt d.index)).Nodup := by
    refine List.Nodup.map_on ?_ hnodup
    intro a ha b hb heq
    refine Witness.eq_of_without_eq (hg.sorted a (hgroup a ha).1) (hg.sorted b (hgroup b hb).1)
      (d := ⟨a.valueAt d.index, d.index⟩) (hvalue a ha).1 (heq ▸ (hvalue b hb).1) ?_
    exact (hgroup a ha).2.1.trans (hgroup b hb).2.1.symm
  have hsubset : (w :: g.neighbours w d.index).map (Witness.valueAt d.index) ⊆
      List.range g.degree := by
    intro y hy
    obtain ⟨u, hu, rfl⟩ := List.mem_map.mp hy
    exact List.mem_range.mpr (hvalue u hu).2
  have hlength : (List.range g.degree).length ≤
      ((w :: g.neighbours w d.index).map (Witness.valueAt d.index)).length := by
    rw [List.length_range, List.length_map, List.length_cons]
    exact Nat.le_of_eq (beq_iff_eq.mp hfull).symm
  have hperm := (List.subperm_of_subset hvalues hsubset).perm_of_length_le hlength
  obtain ⟨u, hu, rfl⟩ := List.mem_map.mp (hperm.mem_iff.mpr (List.mem_range.mpr hx))
  exact ⟨u, (hgroup u hu).1, (hvalue u hu).1, (hgroup u hu).2.1⟩

/-! ## Contraction -/

theorem mem_insert {w u : Witness} : u ∈ (g.insert w).members ↔ u ∈ g.members ∨ u = w := by
  unfold insert
  split
  · rename_i hmem
    rw [List.contains_iff_mem] at hmem
    exact ⟨.inl, fun h => h.elim id fun heq => heq ▸ hmem⟩
  · simp

theorem degree_insert (g : WitnessGraph) (w : Witness) : (g.insert w).degree = g.degree := by
  unfold insert
  split
  · rfl
  · rfl

theorem Shaped.insert (hg : g.Shaped n) {w : Witness} (hsorted : Sorted w)
    (hbelow : ∀ d ∈ w, d.index < n ∧ d.value < g.degree) : (g.insert w).Shaped n where
  nodup := by
    unfold WitnessGraph.insert
    split
    · exact hg.nodup
    · rename_i hmem
      rw [List.contains_iff_mem] at hmem
      refine List.nodup_append.mpr ⟨hg.nodup, List.pairwise_singleton _ w, ?_⟩
      rintro a ha b hb rfl
      exact hmem (List.mem_singleton.mp hb ▸ ha)
  sorted u hu := (mem_insert.mp hu).elim (hg.sorted u) fun heq => heq ▸ hsorted
  below u hu := by
    rw [degree_insert]
    exact (mem_insert.mp hu).elim (hg.below u) fun heq => heq ▸ hbelow

theorem Shaped.filter (hg : g.Shaped n) (f : Witness → Bool) :
    ({ g with members := g.members.filter f } : WitnessGraph).Shaped n where
  nodup := hg.nodup.filter f
  sorted w hw := hg.sorted w (List.mem_filter.mp hw).1
  below w hw := hg.below w (List.mem_filter.mp hw).1

/-- A graph that covers nothing that another one does not cover. -/
structure Refines (n : Nat) (g g' : WitnessGraph) : Prop where
  degree : g'.degree = g.degree
  shaped : g'.Shaped n
  covers : ∀ v, IsVector (List.range g.degree) n v → Covers g'.members v → Covers g.members v

theorem Refines.refl (hg : g.Shaped n) : Refines n g g := ⟨rfl, hg, fun _ _ h => h⟩

theorem Refines.trans {g₁ g₂ g₃ : WitnessGraph} (h : Refines n g₁ g₂) (h' : Refines n g₂ g₃) :
    Refines n g₁ g₃ :=
  ⟨h'.degree.trans h.degree, h'.shaped,
    fun v hv hc => h.covers v hv (h'.covers v (h.degree.symm ▸ hv) hc)⟩

/-- **One contraction covers nothing new.** -/
theorem refines_contractAt (hg : g.Shaped n) (w : Witness) (k : Nat) :
    Refines n g (g.contractAt w k) := by
  unfold contractAt
  split
  · rename_i hcond
    rw [Bool.and_eq_true, List.contains_iff_mem] at hcond
    obtain ⟨hw, hfull⟩ := hcond
    refine ⟨degree_insert _ _, (hg.filter _).insert ?_ ?_, ?_⟩
    · exact Witness.sorted_without (hg.sorted w hw) k
    · exact fun d hd => hg.below w hw d (Witness.mem_without.mp hd).1
    · rintro v hv ⟨u, hu, hsat⟩
      rcases mem_insert.mp hu with hu | rfl
      · exact ⟨u, (List.mem_filter.mp hu).1, hsat⟩
      · -- the vector satisfies what the group has in common
        by_cases hdemand : ∃ d ∈ w, d.index = k
        · obtain ⟨d, hd, rfl⟩ := hdemand
          have hk : d.index < v.length := hv.length ▸ (hg.below w hw d hd).1
          have hx : v[d.index] < g.degree := List.mem_range.mp (hv.mem _ (List.getElem_mem hk))
          obtain ⟨u, hu, hxu, hsame⟩ := exists_member_of_full hg hw hd hfull hx
          refine ⟨u, hu, satisfies_iff.mpr fun e he => ?_⟩
          by_cases hindex : e.index = d.index
          · rw [(hg.sorted u hu).unique he hxu hindex]
            exact List.getElem?_eq_getElem hk
          · exact satisfies_iff.mp hsat e (hsame ▸ Witness.mem_without.mpr ⟨he, hindex⟩)
        · refine ⟨w, hw, satisfies_iff.mpr fun e he => satisfies_iff.mp hsat e ?_⟩
          exact Witness.mem_without.mpr ⟨he, fun hindex => hdemand ⟨e, he, hindex⟩⟩
  · exact .refl hg

/-- **Contracting is a row of single contractions**: a relation between graphs that holds for each of these,
and that can be chained, holds for the whole. -/
theorem contract_induction {r : WitnessGraph → WitnessGraph → Prop} (hrefl : ∀ g, r g g)
    (htrans : ∀ {g₁ g₂ g₃}, r g₁ g₂ → r g₂ g₃ → r g₁ g₃)
    (hstep : ∀ g w k, r g (contractAt g w k)) (g : WitnessGraph) : r g g.contract := by
  have hfold : ∀ {α : Type} {f : WitnessGraph → α → WitnessGraph}, (∀ g a, r g (f g a)) →
      ∀ (as : List α) g, r g (as.foldl f g) := by
    intro α f hf as
    induction as with
    | nil => exact hrefl
    | cons a as ih => exact fun g => htrans (hf g a) (ih (f g a))
  have hnode : ∀ g w, r g (contractNode g w) :=
    fun g w => hfold (fun g (d : Delta) => hstep g w d.index) w g
  have hlevel : ∀ g length, r g (contractLevel g length) := fun g _ => hfold hnode _ g
  have honce : ∀ g, r g (contractOnce g) := fun g => hfold (fun g n => hlevel g (n + 1)) _ g
  have hwithin : ∀ m g, r g (contractWithin m g) := by
    intro m
    induction m with
    | zero => exact hrefl
    | succ m ih =>
        intro g
        rw [contractWithin]
        split
        · exact hrefl g
        · exact htrans (honce g) (ih _)
  exact hwithin _ g

theorem refines_contract (hg : g.Shaped n) : Refines n g g.contract :=
  contract_induction (r := fun g g' => g.Shaped n → Refines n g g') (fun _ => .refl)
    (fun h h' hg => (h hg).trans (h' (h hg).shaped)) (fun _ w k hg => refines_contractAt hg w k) g hg

theorem covers_of_coversAll (h : g.coversAll = true) (v : List Nat) : Covers g.members v :=
  ⟨[], List.contains_iff_mem.mp h, rfl⟩

theorem Shaped.mono {m : Nat} (hg : g.Shaped n) (h : n ≤ m) : g.Shaped m :=
  ⟨hg.nodup, hg.sorted, fun w hw d hd =>
    ⟨Nat.lt_of_lt_of_le (hg.below w hw d hd).1 h, (hg.below w hw d hd).2⟩⟩

/-- Witnesses that are put in a graph one after the other. -/
theorem foldl_insert_spec : ∀ (ws : List Witness) {g : WitnessGraph}, g.Shaped n →
    (∀ w ∈ ws, Sorted w ∧ ∀ d ∈ w, d.index < n ∧ d.value < g.degree) →
    (ws.foldl insert g).Shaped n ∧ (ws.foldl insert g).degree = g.degree ∧
      ∀ u, u ∈ (ws.foldl insert g).members → u ∈ g.members ∨ u ∈ ws
  | [], _, hg, _ => ⟨hg, rfl, fun _ hu => .inl hu⟩
  | w :: ws, g, hg, hws => by
      obtain ⟨hw, hws⟩ := List.forall_mem_cons.mp hws
      obtain ⟨hshaped, hdegree, hmem⟩ := foldl_insert_spec ws (hg.insert hw.1 hw.2)
        (by rw [degree_insert]; exact hws)
      refine ⟨hshaped, hdegree.trans (degree_insert g w), fun u hu => ?_⟩
      rcases hmem u hu with hu | hu
      · rcases mem_insert.mp hu with hu | rfl
        · exact .inl hu
        · exact .inr List.mem_cons_self
      · exact .inr (List.mem_cons_of_mem w hu)

end WitnessGraph

/-! ## The walk -/

namespace Walk

/-- What the walk knows about demands is true: what its graph covers, the reported demands cover, and so
does every vector once it says that all of them are covered. -/
structure Sound (w : Walk) : Prop where
  degree : w.graph.degree = choiceValues.length
  shaped : w.graph.Shaped w.index
  members : ∀ n, w.index ≤ n → ∀ v, IsVector choiceValues n v →
    Covers w.graph.members v → Covers w.promotions v
  covered : w.covered = true → ∀ n, w.index ≤ n → ∀ v, IsVector choiceValues n v →
    Covers w.promotions v

theorem sound_start (start : Nat) : Sound { index := start } where
  degree := rfl
  shaped := ⟨List.Pairwise.nil, fun _ hw => absurd hw List.not_mem_nil,
    fun _ hw => absurd hw List.not_mem_nil⟩
  members := fun _ _ _ _ ⟨_, hw, _⟩ => absurd hw List.not_mem_nil
  covered h := absurd h Bool.false_ne_true

/-- A walk that goes on to further indices knows what it knew. -/
theorem Sound.of_eq {w w' : Walk} (h : w.Sound) (hindex : w.index ≤ w'.index)
    (hgraph : w'.graph = w.graph) (hcovered : w'.covered = w.covered)
    (hpromotions : w'.promotions = w.promotions) : w'.Sound where
  degree := hgraph ▸ h.degree
  shaped := hgraph ▸ h.shaped.mono hindex
  members n hn v hv hc := by
    rw [hpromotions]
    exact h.members n (Nat.le_trans hindex hn) v hv (hgraph ▸ hc)
  covered hcov n hn v hv := by
    rw [hpromotions]
    exact h.covered (hcovered ▸ hcov) n (Nat.le_trans hindex hn) v hv

theorem isVector_range {n : Nat} {v : List Nat} (hv : IsVector choiceValues n v) :
    IsVector (List.range choiceValues.length) n v := hv

/-- What a correction reports keeps the walk sound. -/
theorem Sound.promote {w : Walk} (h : w.Sound) {ws : List Witness}
    (hws : ∀ u ∈ ws, Sorted u ∧ ∀ d ∈ u, d.index < w.index ∧ d.value < choiceValues.length) :
    (Walk.promote ws w).Sound := by
  have hgraph : ∀ n, w.index ≤ n →
      WitnessGraph.Refines n (ws.foldl .insert w.graph) (ws.foldl .insert w.graph).contract ∧
        (ws.foldl .insert w.graph).degree = choiceValues.length ∧
        ∀ u, u ∈ (ws.foldl .insert w.graph).members → u ∈ w.graph.members ∨ u ∈ ws := by
    intro n hn
    obtain ⟨hshaped, hdegree, hmem⟩ := WitnessGraph.foldl_insert_spec ws (h.shaped.mono hn)
      fun u hu => ⟨(hws u hu).1, fun d hd => ⟨Nat.lt_of_lt_of_le ((hws u hu).2 d hd).1 hn,
        h.degree ▸ ((hws u hu).2 d hd).2⟩⟩
    exact ⟨WitnessGraph.refines_contract hshaped, hdegree.trans h.degree, hmem⟩
  have hcovers : ∀ n, w.index ≤ n → ∀ v, IsVector choiceValues n v →
      Covers (ws.foldl .insert w.graph).contract.members v → Covers (w.promotions ++ ws) v := by
    intro n hn v hv hc
    obtain ⟨hrefines, hdegree, hmem⟩ := hgraph n hn
    obtain ⟨u, hu, hsat⟩ := hrefines.covers v (hdegree ▸ isVector_range hv) hc
    rcases hmem u hu with hu | hu
    · obtain ⟨u, hu, hsat⟩ := h.members n hn v hv ⟨u, hu, hsat⟩
      exact ⟨u, List.mem_append_left ws hu, hsat⟩
    · exact ⟨u, List.mem_append_right _ hu, hsat⟩
  unfold Walk.promote
  split
  · exact h
  · obtain ⟨hrefines, hdegree, _⟩ := hgraph w.index (Nat.le_refl _)
    refine ⟨hrefines.degree.trans hdegree, hrefines.shaped, hcovers, ?_⟩
    intro hcov n hn v hv
    rcases Bool.or_eq_true_iff.mp hcov with hcov | hcov
    · obtain ⟨u, hu, hsat⟩ := h.covered hcov n hn v hv
      exact ⟨u, List.mem_append_left ws hu, hsat⟩
    · exact hcovers n hn v hv (WitnessGraph.covers_of_coversAll hcov v)

end Walk

/-- A complete run keeps the walk sound. -/
theorem Plan.sound_of_run {opts : Options} (hc : opts.complete = true) {p : Plan}
    (hp : p.WellFormed) {w w' : Walk} {T : Relation} (hw : w.Sound)
    (h : p.run opts w = (.ok T, w')) : w'.Sound := by
  induction p generalizing w w' T with
  | simple s e =>
      obtain ⟨w₁, hrun, hindex, hgraph, hcovered, hpromotions⟩ := run_simple opts s e w
      cases hrun.symm.trans h
      exact hw.of_eq (hindex ▸ Nat.le_add_right _ _) hgraph hcovered hpromotions
  | andThen p q ihp ihq =>
      obtain ⟨R, S, w₁, hrun, hrun', rfl⟩ := exists_run_andThen (Walk.stops_complete hc _) h
      exact ihq hp.2 (ihp hp.1 hw hrun) hrun'
  | either p q ihp ihq =>
      obtain ⟨R, S, w₁, hrun, hrun', rfl⟩ := exists_run_either (Walk.stops_complete hc _) h
      exact ihq hp.2 (ihp hp.1 hw hrun) hrun'
  | loop guard p ih =>
      obtain ⟨R, F, w₁, hrun, hF, rfl, rfl⟩ := exists_run_loop (Walk.stops_complete hc _) h
      refine (ih hp hw hrun).promote fun u hu => ?_
      obtain ⟨hR, hindex, _⟩ := run_complete hc p hrun
      obtain ⟨hsorted, hwithin⟩ := ((flow_proper (p := p) hp hR).closure hF).promoted hu
      refine ⟨hsorted, fun d hd => ?_⟩
      obtain ⟨_, hlt, hvalue⟩ := hwithin d hd
      exact ⟨hindex ▸ hlt, List.mem_range.mp hvalue⟩

end GrowthFlow
