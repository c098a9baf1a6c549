import Mathlib.Data.List.Perm.Subperm
import Mathlib.Data.Nat.Factorial.Basic
import GrowthFlow.Proofs.NormalForm
import GrowthFlow.Proofs.Witnesses

/-!
# The rounds of a simplification end

A round adds shorter witnesses, drops longer ones and shortens others, so neither the number of witnesses nor
their total length falls. What falls is their weight: a witness of length `n` weighs the factorial of `n + 1`,
and it gives way to at most `n` witnesses of length `n - 1`, or to a single shorter one. A round that changes
something makes a set lighter (`Tidy.step_cases`), so the number of rounds is bounded by the weight at the
start, and the last one changed nothing.

A rule gives way in this sense only because the witness it works on is dropped: what it adds is a part of that
witness, and what contains another witness is left out. That needs the search for parts to find what is
there, hence sorted witnesses (`Witness.has_iff`).
-/

namespace GrowthFlow

/-! ## Finding a delta by halving -/

theorem Sorted.lt_of_places {ds : List Delta} (hs : Sorted ds) {i j : Nat} {d e : Delta}
    (hd : ds[i]? = some d) (he : ds[j]? = some e) (hij : i < j) : d < e := by
  obtain ⟨hi, rfl⟩ := List.getElem?_eq_some_iff.mp hd
  obtain ⟨hj, rfl⟩ := List.getElem?_eq_some_iff.mp he
  exact .inl (List.pairwise_iff_getElem.mp hs i j hi hj hij)

namespace Witness

variable {w : Witness} {d : Delta}

/-- Halving keeps the place of the delta in the part that is searched. -/
theorem searchFrom_of_place (hs : Sorted w) {k : Nat} (hk : w[k]? = some d) :
    ∀ fuel base size : Nat, base ≤ k → k < base + size → size ≤ fuel + 1 →
      w.searchFrom d fuel base size = true
  | 0, base, size, hbase, hsize, hfuel => by
      have hplace : base = k := by omega
      rw [searchFrom, hplace, hk]
      exact beq_self_eq_true _
  | fuel + 1, base, size, hbase, hsize, hfuel => by
      rw [searchFrom]
      split
      · have hplace : base = k := by omega
        rw [hplace, hk]
        exact beq_self_eq_true _
      · dsimp only
        have hlength := (List.getElem?_eq_some_iff.mp hk).1
        cases hmid : w[base + size / 2]? with
        | none =>
            have hend := List.getElem?_eq_none_iff.mp hmid
            simp only [if_true]
            exact searchFrom_of_place hs hk fuel base (size - size / 2) hbase (by omega) (by omega)
        | some e =>
            by_cases hlt : k < base + size / 2
            · have habove : d < e := hs.lt_of_places hk hmid hlt
              simp only [habove, decide_true, if_true]
              exact searchFrom_of_place hs hk fuel base (size - size / 2) hbase (by omega) (by omega)
            · have hbelow : ¬ d < e := by
                rcases Nat.eq_or_lt_of_le (Nat.le_of_not_lt hlt) with heq | hgt
                · rw [heq, hk] at hmid
                  cases hmid
                  exact Ordered.Total.irrefl d
                · exact Ordered.lt_asymm (hs.lt_of_places hmid hk hgt)
              simp only [hbelow, decide_false, Bool.false_eq_true, if_false]
              exact searchFrom_of_place hs hk fuel (base + size / 2) (size - size / 2) (by omega) (by omega)
                (by omega)

theorem has_iff (hs : Sorted w) : w.has d = true ↔ d ∈ w := by
  refine ⟨mem_of_searchFrom, fun hd => ?_⟩
  obtain ⟨k, hk⟩ := List.mem_iff_getElem?.mp hd
  have hlt := (List.getElem?_eq_some_iff.mp hk).1
  exact searchFrom_of_place hs hk w.length 0 w.length (Nat.zero_le k) (by omega) (by omega)

theorem isPartOf_iff {small large : Witness} (hs : Sorted large) :
    small.isPartOf large = true ↔ ∀ d ∈ small, d ∈ large := by
  unfold isPartOf
  rw [List.all_eq_true]
  exact forall_congr' fun d => imp_congr_right fun _ => has_iff hs

end Witness

/-! ## What a round starts from -/

theorem Thins.sorted {vs ws : List Witness} (h : Thins vs ws) (hws : ∀ w ∈ ws, Sorted w) :
    ∀ v ∈ vs, Sorted v := by
  intro v hv
  obtain ⟨w, hw, hsub⟩ := h v hv
  exact List.Pairwise.sublist hsub (hws w hw)

namespace Witnesses

/-- No witness contains another one. -/
def Unrelated (ws : List Witness) : Prop := ∀ v ∈ ws, ∀ w ∈ ws, (∀ d ∈ v, d ∈ w) → v = w

/-- Sorted witnesses in increasing order, none of which contains another one. -/
structure Tidy (ws : Witnesses) : Prop where
  increasing : Ordered.Increasing ws
  sorted : ∀ w ∈ ws, Sorted w
  unrelated : Unrelated ws

variable {ws : Witnesses} {domain : List Nat}

theorem perm_insertByLength (w : Witness) (ws : List Witness) : (insertByLength w ws).Perm (w :: ws) := by
  induction ws with
  | nil => exact .refl _
  | cons v vs ih =>
      rw [insertByLength]
      split
      · exact .refl _
      · exact (ih.cons v).trans (.swap w v vs)

theorem perm_byLength (ws : List Witness) : (byLength ws).Perm ws := by
  induction ws with
  | nil => exact .refl _
  | cons w ws ih => exact (perm_insertByLength w (byLength ws)).trans (ih.cons w)

theorem ordered_insertByLength (w : Witness) {ws : List Witness}
    (h : ws.Pairwise fun u v => u.length ≤ v.length) :
    (insertByLength w ws).Pairwise fun u v => u.length ≤ v.length := by
  induction ws with
  | nil => exact List.pairwise_singleton ..
  | cons v vs ih =>
      have hvs := List.pairwise_cons.mp h
      rw [insertByLength]
      split
      · rename_i hle
        refine .cons (fun u hu => ?_) h
        rcases List.mem_cons.mp hu with rfl | hu
        · exact hle
        · exact Nat.le_trans hle (hvs.1 u hu)
      · rename_i hgt
        refine .cons (fun u hu => ?_) (ih hvs.2)
        rcases mem_insertByLength.mp hu with rfl | hu
        · exact Nat.le_of_not_le hgt
        · exact hvs.1 u hu

theorem ordered_byLength (ws : List Witness) :
    (byLength ws).Pairwise fun u v => u.length ≤ v.length := by
  induction ws with
  | nil => exact .nil
  | cons w ws ih => exact ordered_insertByLength w ih

/-- A sorted witness that is part of one that is not longer is that one. -/
theorem eq_of_part {v w : Witness} (hv : Sorted v) (hw : Sorted w) (hpart : ∀ d ∈ v, d ∈ w)
    (hlength : w.length ≤ v.length) : v = w :=
  (sublist_of_sorted hv hw hpart).eq_of_length_le hlength

/-- A witness that contains none of the kept ones, and is no shorter, may be kept as well. -/
theorem Unrelated.append_singleton {kept : List Witness} {w : Witness} (h : Unrelated kept)
    (hnone : ∀ k ∈ kept, ¬ ∀ d ∈ k, d ∈ w) (hshort : ∀ k ∈ kept, k.length ≤ w.length)
    (hw : Sorted w) (hkept : ∀ k ∈ kept, Sorted k) : Unrelated (kept ++ [w]) := by
  intro u hu v hv hpart
  rcases List.mem_append.mp hu with hu | hu
  · rcases List.mem_append.mp hv with hv | hv
    · exact h u hu v hv hpart
    · exact absurd (List.mem_singleton.mp hv ▸ hpart) (hnone u hu)
  · rw [List.mem_singleton.mp hu] at hpart ⊢
    rcases List.mem_append.mp hv with hv | hv
    · exact eq_of_part hw (hkept v hv) hpart (hshort v hv)
    · exact (List.mem_singleton.mp hv).symm

/-- From short to long, a witness that is kept contains none of those kept before, and is contained in none
of them. -/
theorem unrelated_foldl_keep : ∀ {ws kept : List Witness},
    ws.Pairwise (fun u v => u.length ≤ v.length) → (∀ k ∈ kept, ∀ w ∈ ws, k.length ≤ w.length) →
    (∀ w ∈ kept ++ ws, Sorted w) → Unrelated kept → Unrelated (ws.foldl keep kept)
  | [], _, _, _, _, hkept => hkept
  | w :: ws, kept, hordered, hshort, hsorted, hkept => by
      obtain ⟨hw, hws⟩ := List.pairwise_cons.mp hordered
      have hsortedW : Sorted w := hsorted w (List.mem_append_right _ List.mem_cons_self)
      rw [List.foldl_cons]
      by_cases hany : kept.any (·.isPartOf w) = true
      · have hkeep : keep kept w = kept := if_pos hany
        rw [hkeep]
        refine unrelated_foldl_keep hws (fun k hk u hu => hshort k hk u (List.mem_cons_of_mem w hu))
          (fun u hu => hsorted u ?_) hkept
        rcases List.mem_append.mp hu with hu | hu
        · exact List.mem_append_left _ hu
        · exact List.mem_append_right _ (List.mem_cons_of_mem w hu)
      · have hkeep : keep kept w = kept ++ [w] := if_neg hany
        rw [hkeep]
        have hnone : ∀ k ∈ kept, ¬ ∀ d ∈ k, d ∈ w := by
          intro k hk hpart
          exact hany (List.any_eq_true.mpr ⟨k, hk, (Witness.isPartOf_iff hsortedW).mpr hpart⟩)
        have hnext : Unrelated (kept ++ [w]) :=
          hkept.append_singleton hnone (fun k hk => hshort k hk w List.mem_cons_self) hsortedW
            fun k hk => hsorted k (List.mem_append_left _ hk)
        refine unrelated_foldl_keep hws (fun k hk u hu => ?_) (fun u hu => hsorted u ?_) hnext
        · rcases List.mem_append.mp hk with hk | hk
          · exact hshort k hk u (List.mem_cons_of_mem w hu)
          · exact List.mem_singleton.mp hk ▸ hw u hu
        · rwa [List.append_assoc, List.singleton_append] at hu

theorem tidy_subsume (hws : ∀ w ∈ ws, Sorted w) : Tidy (subsume ws) where
  increasing := Ordered.increasing_ofList _
  sorted := (thins_subsume ws).sorted hws
  unrelated := by
    intro v hv w hw
    rw [subsume_def, Ordered.mem_ofList] at hv hw
    exact unrelated_foldl_keep (ordered_byLength ws) (fun k hk => absurd hk List.not_mem_nil)
      (fun u hu => hws u (mem_byLength.mp hu)) (fun k hk => absurd hk List.not_mem_nil) v hv w hw

/-- Nothing is left out where none contains another one. -/
theorem foldl_keep_eq : ∀ {ws kept : List Witness}, (kept ++ ws).Nodup → Unrelated (kept ++ ws) →
    ws.foldl keep kept = kept ++ ws
  | [], kept, _, _ => (List.append_nil kept).symm
  | w :: ws, kept, hnd, h => by
      have hmem : w ∈ kept ++ w :: ws := List.mem_append_right _ List.mem_cons_self
      have hkeep : keep kept w = kept ++ [w] := by
        refine if_neg fun hany => ?_
        obtain ⟨k, hk, hpart⟩ := List.any_eq_true.mp hany
        have hkw := h k (List.mem_append_left _ hk) w hmem (Witness.mem_of_isPartOf hpart)
        exact (List.nodup_append.mp hnd).2.2 k hk w List.mem_cons_self hkw
      have happend : kept ++ w :: ws = (kept ++ [w]) ++ ws := by
        rw [List.append_assoc, List.singleton_append]
      rw [List.foldl_cons, hkeep, happend]
      rw [happend] at hnd h
      exact foldl_keep_eq hnd h

theorem Tidy.subsume_eq (h : Tidy ws) : subsume ws = ws := by
  have hkeep : (byLength ws).foldl keep [] = byLength ws := by
    refine foldl_keep_eq ((perm_byLength ws).nodup_iff.mpr h.increasing.nodup) fun v hv w hw => ?_
    exact h.unrelated v (mem_byLength.mp hv) w (mem_byLength.mp hw)
  rw [subsume_def, hkeep]
  exact (Ordered.increasing_ofList _).ext h.increasing fun _ => by rw [Ordered.mem_ofList, mem_byLength]

/-! ## Weights -/

theorem factorial_eq (n : Nat) : factorial n = n.factorial := by
  induction n with
  | zero => rfl
  | succ n ih => rw [factorial, ih, Nat.factorial_succ]

theorem factorial_lt {m n : Nat} (h : m < n) : factorial (m + 1) < factorial (n + 1) := by
  rw [factorial_eq, factorial_eq, Nat.factorial_lt (Nat.succ_pos m)]
  exact Nat.succ_lt_succ h

theorem weight_cons (w : Witness) (ws : Witnesses) :
    weight (w :: ws) = factorial (w.length + 1) + weight ws := by
  have hshift : ∀ (ns : List Nat) (a : Nat), ns.foldl (· + ·) a = a + ns.foldl (· + ·) 0 := by
    intro ns
    induction ns with
    | nil => exact fun _ => rfl
    | cons n ns ih =>
        intro a
        rw [List.foldl_cons, List.foldl_cons, ih (a + n), ih (0 + n)]
        omega
  unfold weight
  rw [List.map_cons, List.foldl_cons, hshift]
  omega

theorem weight_singleton (w : Witness) : weight [w] = factorial (w.length + 1) := weight_cons w []

theorem weight_append (us vs : Witnesses) : weight (us ++ vs) = weight us + weight vs := by
  induction us with
  | nil => exact (Nat.zero_add _).symm
  | cons u us ih =>
      rw [List.cons_append, weight_cons, weight_cons, ih]
      omega

theorem weight_perm {us vs : Witnesses} (h : us.Perm vs) : weight us = weight vs := by
  induction h with
  | nil => rfl
  | cons w _ ih => rw [weight_cons, weight_cons, ih]
  | swap u v ws =>
      rw [weight_cons, weight_cons, weight_cons, weight_cons]
      omega
  | trans _ _ ih ih' => exact ih.trans ih'

theorem weight_sublist {us vs : Witnesses} (h : us.Sublist vs) : weight us ≤ weight vs := by
  induction h with
  | slnil => exact Nat.le_refl _
  | cons w _ ih =>
      rw [weight_cons]
      omega
  | cons_cons w _ ih =>
      rw [weight_cons, weight_cons]
      omega

/-- A set weighs no more than a list that has its members. -/
theorem weight_le_of_subset {us vs : Witnesses} (hnd : us.Nodup) (hsub : us ⊆ vs) :
    weight us ≤ weight vs := by
  obtain ⟨rest, hperm, hsublist⟩ := hnd.subperm hsub
  exact weight_perm hperm ▸ weight_sublist hsublist

theorem weight_flatMap_le {f : Witness → List Witness} (h : ∀ w ∈ ws, weight (f w) ≤ weight [w]) :
    weight (ws.flatMap f) ≤ weight ws := by
  induction ws with
  | nil => exact Nat.le_refl _
  | cons w ws ih =>
      rw [List.forall_mem_cons, weight_singleton] at h
      have hws := ih h.2
      rw [List.flatMap_cons, weight_append, weight_cons]
      omega

/-- If each witness gives way to lighter ones, or stays, what is left of them all is lighter. -/
theorem weight_lt_of_replaced {us : Witnesses} {f : Witness → List Witness} (hnd : us.Nodup)
    (hus : ∀ u ∈ us, ∃ w ∈ ws, u ∈ f w) (hle : ∀ w ∈ ws, weight (f w) ≤ weight [w])
    (hlt : ∃ w ∈ ws, weight (f w) < weight [w]) : weight us < weight ws := by
  obtain ⟨w, hw, hlt⟩ := hlt
  obtain ⟨front, back, rfl⟩ := List.append_of_mem hw
  have hsub : us ⊆ (front ++ w :: back).flatMap f := fun u hu => List.mem_flatMap.mpr (hus u hu)
  have hall := weight_le_of_subset hnd hsub
  have hfront : weight (front.flatMap f) ≤ weight front :=
    weight_flatMap_le fun v hv => hle v (List.mem_append_left _ hv)
  have hback : weight (back.flatMap f) ≤ weight back :=
    weight_flatMap_le fun v hv => hle v (List.mem_append_right _ (List.mem_cons_of_mem w hv))
  rw [weight_singleton] at hlt
  rw [List.flatMap_append, List.flatMap_cons, weight_append, weight_append] at hall
  rw [weight_append, weight_cons]
  omega

/-- What is left of a witness without one of its deltas, for each of them. -/
def rests (w : Witness) : List Witness := (List.range w.length).map w.eraseIdx

theorem weight_rests_lt (w : Witness) : weight (rests w) < weight [w] := by
  have hlength : ∀ (us : List Witness) (n : Nat), (∀ u ∈ us, u.length + 1 = n) →
      weight us = us.length * factorial n := by
    intro us n h
    induction us with
    | nil => exact (Nat.zero_mul _).symm
    | cons u us ih =>
        rw [List.forall_mem_cons] at h
        rw [weight_cons, ih h.2, h.1, List.length_cons, Nat.succ_mul, Nat.add_comm]
  have hrests : ∀ u ∈ rests w, u.length + 1 = w.length := by
    intro u hu
    obtain ⟨i, hi, rfl⟩ := List.mem_map.mp hu
    have hlt := List.mem_range.mp hi
    rw [List.length_eraseIdx_of_lt hlt]
    omega
  have hpos : 0 < factorial w.length := by
    rw [factorial_eq]
    exact Nat.factorial_pos _
  rw [hlength _ _ hrests, weight_singleton, factorial, rests, List.length_map, List.length_range, Nat.succ_mul]
  omega

/-! ## Each rule alone -/

theorem exists_part_subsume {w : Witness} (hw : w ∈ ws) : ∃ k ∈ subsume ws, ∀ d ∈ k, d ∈ w := by
  obtain ⟨k, hk, hpart⟩ := exists_part_foldl_keep _ [] (.inr (mem_byLength.mpr hw))
  refine ⟨k, ?_, hpart⟩
  rw [subsume_def, Ordered.mem_ofList]
  exact hk

theorem increasing_saturate (h : Ordered.Increasing ws) (domain : List Nat) :
    Ordered.Increasing (saturate domain ws) := by
  refine List.foldlRecOn ws _ h fun acc hacc w _ => ?_
  refine List.foldlRecOn w.zipIdx _ hacc fun acc hacc b _ => ?_
  obtain ⟨d, pos⟩ := b
  dsimp only
  split
  · exact Ordered.increasing_insert _ hacc
  · exact hacc

/-- Whether the witness has a delta whose every value is covered. -/
def shrinks (domain : List Nat) (ws : Witnesses) (w : Witness) : Bool :=
  w.zipIdx.any fun b => ws.coversAt domain w b.2 b.1

theorem shrinks_iff {w : Witness} :
    shrinks domain ws w = true ↔ ∃ b ∈ w.zipIdx, ws.coversAt domain w b.2 b.1 = true := List.any_eq_true

theorem lt_length_of_mem_zipIdx {w : Witness} {b : Delta × Nat} (hb : b ∈ w.zipIdx) : b.2 < w.length :=
  (List.getElem?_eq_some_iff.mp (List.mem_zipIdx_iff_getElem?.mp hb)).1

/-- A witness that loses a delta is left out, since it contains what is left of it. -/
theorem not_shrinks_of_kept (hws : ∀ w ∈ ws, Sorted w) {u : Witness} (hu : u ∈ ws)
    (hkept : u ∈ subsume (saturate domain ws)) : ¬ shrinks domain ws u = true := by
  intro hshrinks
  obtain ⟨b, hb, hcovers⟩ := shrinks_iff.mp hshrinks
  have hsorted := (thins_saturate domain ws).sorted hws
  have hrest : u.eraseIdx b.2 ∈ saturate domain ws := mem_saturate.mpr (.inr ⟨u, hu, b, hb, hcovers, rfl⟩)
  obtain ⟨k, hk, hpart⟩ := exists_part_subsume hrest
  have hku := (tidy_subsume hsorted).unrelated k hk u hkept fun d hd => List.mem_of_mem_eraseIdx (hpart d hd)
  have hlength := (sublist_of_sorted (hws u hu) (hsorted _ hrest) (hku ▸ hpart)).length_le
  have hlt := lt_length_of_mem_zipIdx hb
  rw [List.length_eraseIdx_of_lt hlt] at hlength
  omega

/-- **Saturation** changes nothing, or makes the set lighter once what contains another witness is left
out. -/
theorem Tidy.saturate_cases (h : Tidy ws) (domain : List Nat) :
    saturate domain ws = ws ∨ weight (subsume (saturate domain ws)) < weight ws := by
  have hkept := tidy_subsume ((thins_saturate domain ws).sorted h.sorted)
  by_cases hshrinks : ∃ w ∈ ws, shrinks domain ws w = true
  · refine .inr (weight_lt_of_replaced (f := fun w => if shrinks domain ws w then rests w else [w])
      hkept.increasing.nodup (fun u hu => ?_) (fun w _ => ?_) ?_)
    · rcases mem_saturate.mp (mem_of_mem_subsume hu) with hmem | ⟨w, hw, b, hb, hcovers, rfl⟩
      · refine ⟨u, hmem, ?_⟩
        rw [if_neg (not_shrinks_of_kept h.sorted hmem hu)]
        exact List.mem_singleton_self u
      · refine ⟨w, hw, ?_⟩
        rw [if_pos (shrinks_iff.mpr ⟨b, hb, hcovers⟩)]
        exact List.mem_map.mpr ⟨b.2, List.mem_range.mpr (lt_length_of_mem_zipIdx hb), rfl⟩
    · split
      · exact Nat.le_of_lt (weight_rests_lt w)
      · exact Nat.le_refl _
    · obtain ⟨w, hw, hw'⟩ := hshrinks
      refine ⟨w, hw, ?_⟩
      rw [if_pos hw']
      exact weight_rests_lt w
  · refine .inl ((increasing_saturate h.increasing domain).ext h.increasing fun u => ⟨fun hu => ?_, fun hu => ?_⟩)
    · rcases mem_saturate.mp hu with hu | ⟨w, hw, b, hb, hcovers, _⟩
      · exact hu
      · exact absurd ⟨w, hw, shrinks_iff.mpr ⟨b, hb, hcovers⟩⟩ hshrinks
    · exact mem_saturate.mpr (.inl hu)

/-- What a witness is without the deltas that are the only way. -/
def unforced (domain : List Nat) (ws : Witnesses) (w : Witness) : Witness :=
  if w.length > 1 then w.filter (!(ws.forced domain).contains ·) else w

theorem dropForced_def (domain : List Nat) (ws : Witnesses) :
    dropForced domain ws = Ordered.ofList (ws.map (unforced domain ws)) := rfl

theorem unforced_sublist (w : Witness) : (unforced domain ws w).Sublist w := by
  unfold unforced
  split
  · exact List.filter_sublist
  · exact List.Sublist.refl w

theorem unforced_eq_or_shorter (w : Witness) :
    unforced domain ws w = w ∨ (unforced domain ws w).length < w.length := by
  rcases Nat.eq_or_lt_of_le (unforced_sublist w).length_le with heq | hlt
  · exact .inl ((unforced_sublist w).eq_of_length heq)
  · exact .inr hlt

/-- **Leaving out what is the only way** changes nothing, or makes the set lighter. -/
theorem Tidy.dropForced_cases (h : Tidy ws) (domain : List Nat) :
    dropForced domain ws = ws ∨ weight (subsume (dropForced domain ws)) < weight ws := by
  by_cases hshorter : ∃ w ∈ ws, unforced domain ws w ≠ w
  · refine .inr (weight_lt_of_replaced (f := fun w => [unforced domain ws w])
      (Ordered.increasing_ofList _).nodup (fun u hu => ?_) (fun w _ => ?_) ?_)
    · obtain ⟨w, hw, rfl⟩ := List.mem_map.mp (Ordered.mem_ofList.mp (mem_of_mem_subsume hu))
      exact ⟨w, hw, List.mem_singleton_self _⟩
    · rw [weight_singleton, weight_singleton]
      rcases unforced_eq_or_shorter w with heq | hlt
      · rw [heq]
      · exact Nat.le_of_lt (factorial_lt hlt)
    · obtain ⟨w, hw, hne⟩ := hshorter
      refine ⟨w, hw, ?_⟩
      rw [weight_singleton, weight_singleton]
      exact factorial_lt ((unforced_eq_or_shorter w).resolve_left hne)
  · have hsame : ∀ w ∈ ws, unforced domain ws w = w := by
      intro w hw
      by_contra hne
      exact hshorter ⟨w, hw, hne⟩
    rw [dropForced_def, List.map_congr_left hsame, List.map_id']
    exact .inl h.increasing.ofList_eq

/-! ## Rounds -/

theorem tidy_step (h : Tidy ws) : Tidy (ws.step domain) :=
  tidy_subsume (((thins_dropForced domain _).trans ((thins_subsume _).trans (thins_saturate domain ws))).sorted
    h.sorted)

/-- **A round changes nothing, or makes the set lighter.** -/
theorem Tidy.step_cases (h : Tidy ws) (domain : List Nat) :
    (saturate domain ws = ws ∧ dropForced domain ws = ws) ∨ weight (ws.step domain) < weight ws := by
  have hbetween : Tidy (subsume (saturate domain ws)) :=
    tidy_subsume ((thins_saturate domain ws).sorted h.sorted)
  unfold step
  rcases h.saturate_cases domain with hsaturate | hsaturate
  · rw [hsaturate, h.subsume_eq]
    exact (h.dropForced_cases domain).imp_left fun hdrop => ⟨rfl, hdrop⟩
  · right
    rcases hbetween.dropForced_cases domain with hdrop | hdrop
    · rw [hdrop, hbetween.subsume_eq]
      exact hsaturate
    · exact Nat.lt_trans hdrop hsaturate

/-- The rounds of a simplification: they go on as long as one changes something. -/
inductive Settles (domain : List Nat) : Witnesses → Witnesses → Prop
  | stop {ws : Witnesses} (h : ws.step domain = ws) : Settles domain ws ws
  | round {ws vs : Witnesses} (h : ws.step domain ≠ ws) (hmore : Settles domain (ws.step domain) vs) :
      Settles domain ws vs

theorem settles_simplifyWithin (h : Tidy ws) {fuel : Nat} (hfuel : weight ws < fuel) :
    Settles domain ws (simplifyWithin domain fuel ws) := by
  induction fuel generalizing ws with
  | zero => exact absurd hfuel (Nat.not_lt_zero _)
  | succ fuel ih =>
      rw [simplifyWithin]
      split
      · rename_i hsame
        exact .stop hsame
      · rename_i hne
        refine .round hne (ih (tidy_step h) ?_)
        rcases h.step_cases domain with ⟨hsaturate, hdrop⟩ | hlt
        · refine absurd ?_ hne
          rw [step, hsaturate, h.subsume_eq, hdrop, h.subsume_eq]
        · omega

theorem Settles.tidy {vs : Witnesses} (h : Settles domain ws vs) (hws : Tidy ws) : Tidy vs := by
  induction h with
  | stop _ => exact hws
  | round _ _ ih => exact ih (tidy_step hws)

theorem Settles.step_eq {vs : Witnesses} (h : Settles domain ws vs) : vs.step domain = vs := by
  induction h with
  | stop h => exact h
  | round _ _ ih => exact ih

/-- Where a round changes nothing, no rule does. -/
theorem Tidy.rules_of_step_eq (h : Tidy ws) (hstep : ws.step domain = ws) :
    saturate domain ws = ws ∧ dropForced domain ws = ws := by
  refine (h.step_cases domain).resolve_right fun hlt => ?_
  rw [hstep] at hlt
  exact Nat.lt_irrefl _ hlt

/-- **Simplification ends, is exact and leaves nothing to simplify.** -/
theorem simplify_settles (domain : List Nat) (hws : ∀ w ∈ ws, Sorted w) :
    Settles domain (subsume ws) (simplify domain ws) ∧
    (∀ n v, Inside n ws → IsVector domain n v → (Covers (simplify domain ws) v ↔ Covers ws v)) ∧
    (∀ u ∈ simplify domain ws, ∀ w ∈ simplify domain ws, (∀ d ∈ u, d ∈ w) → u = w) ∧
    saturate domain (simplify domain ws) = simplify domain ws ∧
    dropForced domain (simplify domain ws) = simplify domain ws ∧
    subsume (simplify domain ws) = simplify domain ws := by
  have hstart := tidy_subsume hws
  have hsettles : Settles domain (subsume ws) (simplify domain ws) :=
    settles_simplifyWithin hstart (Nat.lt_succ_self _)
  have htidy := hsettles.tidy hstart
  obtain ⟨hsaturate, hdrop⟩ := htidy.rules_of_step_eq hsettles.step_eq
  refine ⟨hsettles, fun n v hinside hv => ?_, htidy.unrelated, hsaturate, hdrop, htidy.subsume_eq⟩
  exact covers_simplify (fun w hw => ⟨hws w hw, hinside w hw⟩) hv

/-- The first three leave one value at index 1, which the fifth then need not ask for; without it, the last
three take every value at index 2. -/
def cascade : Witnesses :=
  [[⟨0, 0⟩, ⟨2, 1⟩], [⟨1, 0⟩, ⟨2, 1⟩], [⟨2, 0⟩, ⟨2, 1⟩], [⟨0, 1⟩], [⟨1, 1⟩, ⟨0, 2⟩, ⟨0, 3⟩], [⟨1, 2⟩, ⟨0, 3⟩],
    [⟨2, 2⟩, ⟨0, 3⟩]]

theorem simplify_settles_cascade : (∀ w ∈ cascade, Sorted w) ∧
    simplify [0, 1, 2] cascade = [[⟨0, 1⟩], [⟨2, 1⟩], [⟨0, 3⟩]] ∧
    Settles [0, 1, 2] (subsume cascade) [[⟨0, 1⟩], [⟨2, 1⟩], [⟨0, 3⟩]] ∧
    (Covers [[⟨0, 1⟩], [⟨2, 1⟩], [⟨0, 3⟩]] [1, 1, 2, 0] ↔ Covers cascade [1, 1, 2, 0]) := by
  have hsorted : ∀ w ∈ cascade, Sorted w := by decide
  have hsimplify : simplify [0, 1, 2] cascade = [[⟨0, 1⟩], [⟨2, 1⟩], [⟨0, 3⟩]] := by decide +kernel
  obtain ⟨hsettles, hexact, _⟩ := simplify_settles [0, 1, 2] hsorted
  rw [hsimplify] at hsettles hexact
  exact ⟨hsorted, hsimplify, hsettles, hexact 4 _ (by unfold Inside; decide) ⟨rfl, by decide⟩⟩

end Witnesses

end GrowthFlow
