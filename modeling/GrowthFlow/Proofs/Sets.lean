import GrowthFlow.Flow.Delta
import GrowthFlow.Ordered

/-!
# Increasing lists are finite sets

Names, choice values, witnesses and boxes are all kept as increasing lists. This module says why that is
sound: over a strict total order an increasing list is determined by its members, and the operations on
such lists are the operations on sets.

The orders themselves are built from that on natural numbers. Deltas compare by index and then by value,
and lists compare from the left, so both inherit what is needed.
-/

namespace GrowthFlow.Ordered

/-- A strict total order. -/
class Total (α : Type) [LT α] : Prop where
  /-- Nothing is below itself. -/
  irrefl (a : α) : ¬ a < a
  /-- What is below something smaller is below. -/
  trans {a b c : α} : a < b → b < c → a < c
  /-- Of two different elements one is below the other. -/
  connected {a b : α} : ¬ a < b → ¬ b < a → a = b

instance : Total Nat where
  irrefl := Nat.lt_irrefl
  trans := Nat.lt_trans
  connected h h' := Nat.le_antisymm (Nat.not_lt.mp h') (Nat.not_lt.mp h)

instance : Total String where
  irrefl := String.lt_irrefl
  trans := String.lt_trans
  connected h h' := String.le_antisymm (String.not_lt.mp h') (String.not_lt.mp h)

theorem delta_lt_iff {a b : Delta} :
    a < b ↔ a.index < b.index ∨ (a.index = b.index ∧ a.value < b.value) := Iff.rfl

instance : Total Delta where
  irrefl a h := by
    rcases delta_lt_iff.mp h with h | ⟨_, h⟩
    · exact Nat.lt_irrefl _ h
    · exact Nat.lt_irrefl _ h
  trans h h' := by
    rw [delta_lt_iff] at h h' ⊢
    omega
  connected {a b} h h' := by
    rw [delta_lt_iff] at h h'
    cases a
    cases b
    simp only [Delta.mk.injEq]
    simp only at h h'
    omega

variable {α : Type} [LT α] [Total α]

theorem lt_asymm {a b : α} (h : a < b) : ¬ b < a :=
  fun h' => Total.irrefl a (Total.trans h h')

theorem list_lt_trans : ∀ {as bs cs : List α}, as < bs → bs < cs → as < cs
  | _, _, [], _, h' => absurd h' (List.not_lt_nil _)
  | _, [], _ :: _, h, _ => absurd h (List.not_lt_nil _)
  | [], _ :: _, c :: cs, _, _ => List.nil_lt_cons c cs
  | a :: as, b :: bs, c :: cs, h, h' => by
      rw [List.cons_lt_cons_iff] at h h' ⊢
      rcases h with h | ⟨rfl, h⟩
      · rcases h' with h' | ⟨rfl, _⟩
        · exact .inl (Total.trans h h')
        · exact .inl h
      · rcases h' with h' | ⟨rfl, h'⟩
        · exact .inl h'
        · exact .inr ⟨rfl, list_lt_trans h h'⟩

theorem list_lt_connected : ∀ {as bs : List α}, ¬ as < bs → ¬ bs < as → as = bs
  | [], [], _, _ => rfl
  | [], b :: bs, h, _ => absurd (List.nil_lt_cons b bs) h
  | a :: as, [], _, h' => absurd (List.nil_lt_cons a as) h'
  | a :: as, b :: bs, h, h' => by
      rw [List.cons_lt_cons_iff] at h h'
      have hab : a = b := Total.connected (fun hlt => h (.inl hlt)) (fun hlt => h' (.inl hlt))
      subst hab
      rw [list_lt_connected (fun hlt => h (.inr ⟨rfl, hlt⟩)) (fun hlt => h' (.inr ⟨rfl, hlt⟩))]

instance : Total (List α) where
  irrefl := List.lex_irrefl Total.irrefl
  trans := list_lt_trans
  connected := list_lt_connected

/-! ## An increasing list is determined by its members -/

/-- Increasing, and so without repeats. -/
abbrev Increasing (as : List α) : Prop := as.Pairwise (· < ·)

theorem Increasing.nodup {as : List α} (h : Increasing as) : as.Nodup := by
  refine List.Pairwise.imp ?_ h
  intro a b hlt heq
  exact Total.irrefl b (heq ▸ hlt)

theorem Increasing.ext : ∀ {as bs : List α}, Increasing as → Increasing bs →
    (∀ x, x ∈ as ↔ x ∈ bs) → as = bs
  | [], [], _, _, _ => rfl
  | [], b :: _, _, _, h => absurd ((h b).mpr List.mem_cons_self) List.not_mem_nil
  | a :: _, [], _, _, h => absurd ((h a).mp List.mem_cons_self) List.not_mem_nil
  | a :: as, b :: bs, ha, hb, h => by
      have ha := List.pairwise_cons.mp ha
      have hb := List.pairwise_cons.mp hb
      -- both heads are the least member
      have hab : a = b := by
        rcases List.mem_cons.mp ((h a).mp List.mem_cons_self) with hab | hab
        · exact hab
        · rcases List.mem_cons.mp ((h b).mpr List.mem_cons_self) with hba | hba
          · exact hba.symm
          · exact absurd (hb.1 a hab) (lt_asymm (ha.1 b hba))
      subst hab
      have hmem : ∀ x, x ∈ as ↔ x ∈ bs := by
        intro x
        constructor
        · intro hx
          rcases List.mem_cons.mp ((h x).mp (List.mem_cons_of_mem _ hx)) with rfl | hx'
          · exact absurd (ha.1 x hx) (Total.irrefl x)
          · exact hx'
        · intro hx
          rcases List.mem_cons.mp ((h x).mpr (List.mem_cons_of_mem _ hx)) with rfl | hx'
          · exact absurd (hb.1 x hx) (Total.irrefl x)
          · exact hx'
      rw [Increasing.ext ha.2 hb.2 hmem]

/-! ## The operations are those on sets -/

variable [DecidableLT α] [DecidableEq α]

theorem mem_insert_iff {a x : α} {bs : List α} : x ∈ insert a bs ↔ x = a ∨ x ∈ bs :=
  mem_insert (fun _ _ => Total.connected) a x bs

theorem increasing_insert (a : α) {bs : List α} (h : Increasing bs) :
    Increasing (insert a bs) := by
  induction bs with
  | nil => exact List.pairwise_singleton ..
  | cons b bs ih =>
      rw [insert]
      have hb := List.pairwise_cons.mp h
      split
      · rename_i hab
        refine List.pairwise_cons.mpr ⟨?_, h⟩
        intro x hx
        rcases List.mem_cons.mp hx with rfl | hx
        · exact hab
        · exact Total.trans hab (hb.1 x hx)
      · split
        · rename_i hba
          refine List.pairwise_cons.mpr ⟨?_, ih hb.2⟩
          intro x hx
          rcases mem_insert_iff.mp hx with rfl | hx
          · exact hba
          · exact hb.1 x hx
        · exact h

@[simp] theorem mem_ofList {x : α} {as : List α} : x ∈ ofList as ↔ x ∈ as := by
  induction as with
  | nil => simp [ofList]
  | cons a as ih => rw [ofList, mem_insert_iff, ih, List.mem_cons]

theorem increasing_ofList (as : List α) : Increasing (ofList as) := by
  induction as with
  | nil => exact List.Pairwise.nil
  | cons a as ih => exact increasing_insert a ih

theorem Increasing.ofList_eq {as : List α} (h : Increasing as) : ofList as = as :=
  (increasing_ofList as).ext h fun _ => mem_ofList

@[simp] theorem mem_union {x : α} {as bs : List α} : x ∈ union as bs ↔ x ∈ as ∨ x ∈ bs := by
  induction as with
  | nil => simp [union]
  | cons a as ih => rw [union, mem_insert_iff, ih, List.mem_cons, or_assoc]

theorem increasing_union (as : List α) {bs : List α} (h : Increasing bs) :
    Increasing (union as bs) := by
  induction as with
  | nil => exact h
  | cons a as ih => exact increasing_insert a ih

end GrowthFlow.Ordered
