import Mathlib.Data.List.Nodup
import GrowthFlow.Assoc

/-!
# Tables and rows of values

A table is *regular* if no key comes twice and its values have a property. Tables are only ever built by
setting keys, which keeps them regular, and a regular table is rebuilt from its own pairs.

The other half is about rows of computations that can fail: when they all succeed, and where the values of
a row that succeeded come from.
-/

namespace GrowthFlow

namespace Assoc

variable {α : Type} {Q : α → Prop} {t : Assoc α} {key : String} {value : α}

/-- No key comes twice, and the values have a property. -/
structure Regular (Q : α → Prop) (t : Assoc α) : Prop where
  nodup : t.keys.Nodup
  values : ∀ entry ∈ t, Q entry.2

theorem regular_nil : Regular Q [] := ⟨List.nodup_nil, fun _ h => absurd h List.not_mem_nil⟩

theorem mem_set {entry : String × α} (h : entry ∈ set key value t) :
    entry = (key, value) ∨ entry ∈ t := by
  induction t with
  | nil => exact .inl (List.mem_singleton.mp h)
  | cons first rest ih =>
      rw [set] at h
      split at h
      · rename_i hkey
        rw [hkey] at h
        exact (List.mem_cons.mp h).imp_right (List.mem_cons_of_mem _)
      · rcases List.mem_cons.mp h with rfl | h
        · exact .inr List.mem_cons_self
        · exact (ih h).imp_right (List.mem_cons_of_mem _)

theorem nodup_keys_set (ht : t.keys.Nodup) : (set key value t).keys.Nodup := by
  rw [keys_set]
  split
  · exact ht
  · rename_i hnew
    rw [List.nodup_append]
    refine ⟨ht, List.nodup_singleton key, fun k hk l hl => ?_⟩
    rw [List.mem_singleton.mp hl]
    exact fun heq => hnew (heq ▸ hk)

theorem Regular.set (ht : t.Regular Q) (hv : Q value) : (set key value t).Regular Q := by
  refine ⟨nodup_keys_set ht.nodup, fun entry hentry => ?_⟩
  rcases mem_set hentry with rfl | hentry
  · exact hv
  · exact ht.values entry hentry

theorem regular_foldl_set (pairs : List (String × α)) (hpairs : ∀ entry ∈ pairs, Q entry.2)
    (ht : t.Regular Q) : Regular Q (pairs.foldl (fun t (k, v) => set k v t) t) := by
  induction pairs generalizing t with
  | nil => exact ht
  | cons pair pairs ih =>
      exact ih (fun entry h => hpairs entry (List.mem_cons_of_mem _ h))
        (ht.set (hpairs pair List.mem_cons_self))

theorem regular_ofPairs {pairs : List (String × α)} (h : ∀ entry ∈ pairs, Q entry.2) :
    (ofPairs pairs).Regular Q :=
  regular_foldl_set pairs h regular_nil

theorem mem_foldl_set {entry : String × α} (pairs : List (String × α))
    (h : entry ∈ pairs.foldl (fun t (k, v) => set k v t) t) : entry ∈ pairs ∨ entry ∈ t := by
  induction pairs generalizing t with
  | nil => exact .inr h
  | cons pair pairs ih =>
      rcases ih h with h | h
      · exact .inl (List.mem_cons_of_mem _ h)
      · rcases mem_set h with rfl | h
        · exact .inl List.mem_cons_self
        · exact .inr h

theorem mem_ofPairs {entry : String × α} {pairs : List (String × α)} (h : entry ∈ ofPairs pairs) :
    entry ∈ pairs :=
  (mem_foldl_set pairs h).resolve_right List.not_mem_nil

theorem Regular.get? (ht : t.Regular Q) (h : get? t key = some value) : Q value := by
  obtain ⟨entry, hfound, rfl⟩ := Option.map_eq_some_iff.mp h
  exact ht.values entry (List.mem_of_find?_eq_some hfound)

theorem set_of_not_mem (h : key ∉ t.keys) : set key value t = t ++ [(key, value)] := by
  induction t with
  | nil => rfl
  | cons first rest ih =>
      have hne : first.1 ≠ key := fun heq => h (heq ▸ List.mem_cons_self)
      rw [set, if_neg hne, ih fun hmem => h (List.mem_cons_of_mem _ hmem), List.cons_append]

theorem foldl_set_of_nodup (pairs : List (String × α)) (h : (t ++ pairs).keys.Nodup) :
    pairs.foldl (fun t (k, v) => set k v t) t = t ++ pairs := by
  induction pairs generalizing t with
  | nil => exact (List.append_nil t).symm
  | cons pair pairs ih =>
      obtain ⟨k, v⟩ := pair
      have hnew : k ∉ t.keys := by
        intro hmem
        rw [keys, List.map_append, List.nodup_append] at h
        exact h.2.2 _ hmem _ List.mem_cons_self rfl
      have hnext := ih (t := t ++ [(k, v)]) (by rw [List.append_assoc]; exact h)
      rw [← set_of_not_mem hnew] at hnext
      rw [List.foldl_cons, hnext, set_of_not_mem hnew, List.append_assoc]
      rfl

/-- A table is rebuilt from its own pairs. -/
theorem ofPairs_of_nodup (h : t.keys.Nodup) : ofPairs t = t :=
  foldl_set_of_nodup (t := []) t h

end Assoc

/-! ## Rows -/

/-- If every item has a value, so have all of them. -/
theorem exists_mapM {ε α β : Type} {f : α → Except ε β} {Q : β → Prop} {xs : List α}
    (h : ∀ x ∈ xs, ∃ y, f x = .ok y ∧ Q y) : ∃ ys, xs.mapM f = .ok ys ∧ ∀ y ∈ ys, Q y := by
  induction xs with
  | nil => exact ⟨[], rfl, fun _ hy => absurd hy List.not_mem_nil⟩
  | cons x xs ih =>
      obtain ⟨y, hy, hQ⟩ := h x List.mem_cons_self
      obtain ⟨ys, hys, hall⟩ := ih fun x hx => h x (List.mem_cons_of_mem _ hx)
      refine ⟨y :: ys, by rw [List.mapM_cons, hy, hys]; rfl, fun z hz => ?_⟩
      rcases List.mem_cons.mp hz with rfl | hz
      · exact hQ
      · exact hall z hz

theorem mapM_map_of_ok {ε α β : Type} {f : β → Except ε α} {g : α → β} {as : List α}
    (h : ∀ a ∈ as, f (g a) = .ok a) : (as.map g).mapM f = .ok as := by
  induction as with
  | nil => rfl
  | cons a as ih =>
      rw [List.map_cons, List.mapM_cons, h a List.mem_cons_self,
        ih fun b hb => h b (List.mem_cons_of_mem _ hb)]
      rfl

theorem exists_of_mapM {ε α β : Type} {f : α → Except ε β} {xs : List α} {ys : List β}
    (h : xs.mapM f = .ok ys) : ∀ y ∈ ys, ∃ x ∈ xs, f x = .ok y := by
  induction xs generalizing ys with
  | nil =>
      cases h
      exact fun y hy => absurd hy List.not_mem_nil
  | cons x xs ih =>
      rw [List.mapM_cons] at h
      rcases hx : f x with e | y₀ <;> rw [hx] at h
      · cases h
      · rcases hxs : xs.mapM f with e | ys₀ <;> rw [hxs] at h
        · cases h
        · cases h
          intro y hy
          rcases List.mem_cons.mp hy with rfl | hy
          · exact ⟨x, List.mem_cons_self, hx⟩
          · obtain ⟨x', hx', hy⟩ := ih hxs y hy
            exact ⟨x', List.mem_cons_of_mem _ hx', hy⟩

/-- If every item has a value under a name of its own, there is a table of them in the same order. -/
theorem exists_table {ε α β : Type} {f : α → Except ε (String × β)} {name : α → String}
    {Q : String → β → Prop} {xs : List α} (hnd : (xs.map name).Nodup)
    (h : ∀ x ∈ xs, ∃ v, f x = .ok (name x, v) ∧ Q (name x) v) :
    ∃ t, (do return Assoc.ofPairs (← xs.mapM f) : Except ε (Assoc β)) = .ok t ∧ t.keys = xs.map name ∧
      ∀ entry ∈ t, Q entry.1 entry.2 := by
  have hrow : ∃ t, xs.mapM f = .ok t ∧ Assoc.keys t = xs.map name ∧ ∀ entry ∈ t, Q entry.1 entry.2 := by
    clear hnd
    induction xs with
    | nil => exact ⟨[], rfl, rfl, fun _ hentry => absurd hentry List.not_mem_nil⟩
    | cons x xs ih =>
        obtain ⟨v, hv, hQ⟩ := h x List.mem_cons_self
        obtain ⟨t, ht, hkeys, hall⟩ := ih fun x hx => h x (List.mem_cons_of_mem _ hx)
        refine ⟨(name x, v) :: t, by rw [List.mapM_cons, hv, ht]; rfl, ?_, ?_⟩
        · rw [List.map_cons, ← hkeys]
          rfl
        · exact List.forall_mem_cons.mpr ⟨hQ, hall⟩
  obtain ⟨t, ht, hkeys, hall⟩ := hrow
  refine ⟨t, ?_, hkeys, hall⟩
  rw [ht]
  refine congrArg Except.ok (Assoc.ofPairs_of_nodup ?_)
  rw [hkeys]
  exact hnd

end GrowthFlow
