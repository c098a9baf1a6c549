/-!
# Ordered lists

Lists that are kept in increasing order without repeats stand for finite sets: of names, of choice
values, of witnesses. Two of them that hold the same elements are equal, so set equality is equality.
-/

namespace GrowthFlow.Ordered

variable {α : Type} [LT α] [DecidableLT α]

/-- Adds an element at its place, unless it is there. -/
def insert (a : α) : List α → List α
  | [] => [a]
  | b :: bs =>
    if a < b then a :: b :: bs
    else if b < a then b :: insert a bs
    else b :: bs

/-- The set of the elements of a list. -/
def ofList : List α → List α
  | [] => []
  | a :: as => insert a (ofList as)

/-- The elements of both sets. -/
def union : List α → List α → List α
  | [], bs => bs
  | a :: as, bs => insert a (union as bs)

/-- Adding an element adds that element and keeps the others. -/
theorem mem_insert [DecidableEq α] (htri : ∀ a b : α, ¬ a < b → ¬ b < a → a = b) (a x : α)
    (bs : List α) : x ∈ insert a bs ↔ x = a ∨ x ∈ bs := by
  induction bs with
  | nil => simp [insert]
  | cons b bs ih =>
    rw [insert]
    split
    · simp
    · rename_i hab
      split
      · rw [List.mem_cons, ih, List.mem_cons]
        constructor
        · rintro (h | h | h)
          · exact .inr (.inl h)
          · exact .inl h
          · exact .inr (.inr h)
        · rintro (h | h | h)
          · exact .inr (.inl h)
          · exact .inl h
          · exact .inr (.inr h)
      · rename_i hba
        have hab' := htri a b hab hba
        subst hab'
        simp

end GrowthFlow.Ordered
