/-!
# Tables with an order

A table is a list of keys with their values. The order is that in which the keys first appeared; setting a
key again changes its value and leaves it where it is.
-/

namespace GrowthFlow

/-- Keys with their values, each key once. -/
abbrev Assoc (α : Type) := List (String × α)

namespace Assoc

variable {α β : Type}

/-- Gives a key a value. A new key comes last. -/
def set (key : String) (value : α) : Assoc α → Assoc α
  | [] => [(key, value)]
  | (k, v) :: rest => if k = key then (k, value) :: rest else (k, v) :: set key value rest

/-- The table of some pairs; a later value of a key replaces an earlier one. -/
def ofPairs (pairs : List (String × α)) : Assoc α := pairs.foldl (fun t (k, v) => set k v t) []

/-- The value of a key. -/
def get? (t : Assoc α) (key : String) : Option α := (t.find? (·.1 == key)).map (·.2)

/-- The keys in order. -/
def keys (t : Assoc α) : List String := t.map (·.1)

/-- The values changed, with the keys as they are. -/
def mapValues (f : α → β) (t : Assoc α) : Assoc β := t.map fun (k, v) => (k, f v)

/-- Whether two tables give the same keys the same values, in any order. -/
def sameBy (eq : α → α → Bool) (t u : Assoc α) : Bool :=
  t.length == u.length && t.all fun (k, v) => ((get? u k).map (eq v)).getD false

/-- A key has the value it was given last. -/
theorem get?_set (key x : String) (value : α) (t : Assoc α) :
    get? (set key value t) x = if x = key then some value else get? t x := by
  induction t with
  | nil =>
    by_cases h : x = key
    · simp [set, get?, h]
    · simp [set, get?, h, Ne.symm h]
  | cons kv rest ih =>
    obtain ⟨k, v⟩ := kv
    unfold set
    by_cases hk : k = key
    · subst hk
      by_cases h : x = k
      · simp [get?, h]
      · simp [get?, h, Ne.symm h]
    · simp only [hk, if_false]
      by_cases hx : k = x
      · subst hx
        simp [get?, hk]
      · simpa [get?, hx] using ih

/-- Setting a key that is there keeps the keys; a new one comes last. -/
theorem keys_set (key : String) (value : α) (t : Assoc α) :
    keys (set key value t) = if key ∈ keys t then keys t else keys t ++ [key] := by
  induction t with
  | nil => simp [set, keys]
  | cons kv rest ih =>
    obtain ⟨k, v⟩ := kv
    unfold set
    by_cases hk : k = key
    · simp [keys, hk]
    · simp only [hk, if_false]
      have hkey : key ≠ k := Ne.symm hk
      unfold keys at ih ⊢
      rw [List.map_cons, ih]
      by_cases hmem : key ∈ rest.map (·.1)
      · simp [hmem]
      · simp [hmem, hkey]

end Assoc

end GrowthFlow
