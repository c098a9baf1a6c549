/-!
# Deltas

The calculus types some assignments in more than one way; which way is taken is a choice, and the
choices of a program are numbered by *choice indices*. A delta asks for a particular value at one index.
A list of deltas asks for all of them; a choice vector gives one value per index, and it satisfies the
list when it agrees with every delta.

Deltas are ordered by index and then by value, lists of them lexicographically, a shorter list before
its extensions.
-/

namespace GrowthFlow

/-- The demand that the choice at `index` is `value`. -/
structure Delta where
  value : Nat
  index : Nat
deriving DecidableEq, Repr, Inhabited

namespace Delta

instance : LT Delta := ⟨fun a b => a.index < b.index ∨ (a.index = b.index ∧ a.value < b.value)⟩

instance : DecidableLT Delta := fun a b =>
  inferInstanceAs (Decidable (a.index < b.index ∨ (a.index = b.index ∧ a.value < b.value)))

/-- The text of a delta. -/
def text (d : Delta) : String := "δ(" ++ d.value.repr ++ "," ++ d.index.repr ++ ")"

/-- Whether a choice vector, or the first part of one, has the demanded value. -/
def holds (v : List Nat) (d : Delta) : Bool := v[d.index]? == some d.value

end Delta

/-- Whether a choice vector satisfies every delta of a list. -/
def satisfies (c : List Nat) (ds : List Delta) : Bool := ds.all (·.holds c)

end GrowthFlow
