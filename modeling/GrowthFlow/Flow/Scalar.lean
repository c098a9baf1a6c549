/-!
# Scalars

A scalar says how the value of one variable may depend on another one: not at all (`o`), as a maximum
(`m`), as a weak polynomial (`w`), as a polynomial (`p`), or without a polynomial bound (`i`). Each
allows more growth than the one before it.

Two alternatives allow the larger growth of the two, so a sum is a maximum. One dependency after another
also allows the larger of the two; it vanishes when one of them does, unless the other is unbounded: a
value without a bound stays without a bound.
-/

namespace GrowthFlow

/-- How much a value may grow. -/
inductive Scalar where
  | o | m | w | p | i
deriving DecidableEq, Repr, Inhabited

namespace Scalar

/-- The place of a scalar in the order `o < m < w < p < i`. -/
def rank : Scalar → Nat
  | o => 0
  | m => 1
  | w => 2
  | p => 3
  | i => 4

instance : LE Scalar := ⟨fun a b => a.rank ≤ b.rank⟩

instance : DecidableLE Scalar := fun a b => inferInstanceAs (Decidable (a.rank ≤ b.rank))

/-- The larger of two scalars. -/
protected def add (a b : Scalar) : Scalar := if a ≤ b then b else a

instance : Add Scalar := ⟨Scalar.add⟩

/-- One dependency after another. -/
protected def mul : Scalar → Scalar → Scalar
  | i, _ => i
  | _, i => i
  | o, _ => o
  | _, o => o
  | a, b => a + b

instance : Mul Scalar := ⟨Scalar.mul⟩

/-- Every scalar once, in increasing order. -/
def all : List Scalar := [o, m, w, p, i]

/-- The letter of a scalar. -/
def letter : Scalar → Char
  | o => 'o'
  | m => 'm'
  | w => 'w'
  | p => 'p'
  | i => 'i'

/-- The text of a scalar. -/
def text (s : Scalar) : String := s.letter.toString

/-- The scalar of a letter. -/
def ofLetter? (c : Char) : Option Scalar := all.find? (·.letter == c)

/-- The scalar that a text of one letter names; otherwise the letter that names none, which is a blank
for the empty text and the first letter of a longer one. -/
def ofText (s : String) : Except Char Scalar :=
  match s.toList with
  | [] => .error ' '
  | [c] =>
    match ofLetter? c with
    | some a => .ok a
    | none => .error c
  | c :: _ => .error c

/-- What to say of a letter that names no scalar. -/
def unknownMessage (c : Char) : String := "unknown scalar '" ++ c.toString ++ "'"

theorem rank_injective {a b : Scalar} (h : a.rank = b.rank) : a = b := by
  cases a <;> cases b <;> first | rfl | exact absurd h (by decide)

theorem le_iff_rank {a b : Scalar} : a ≤ b ↔ a.rank ≤ b.rank := Iff.rfl

theorem add_def (a b : Scalar) : a + b = if a ≤ b then b else a := rfl

@[simp] theorem rank_add (a b : Scalar) : (a + b).rank = max a.rank b.rank := by
  rw [add_def]
  split
  · rename_i h
    exact (Nat.max_eq_right h).symm
  · rename_i h
    exact (Nat.max_eq_left (Nat.le_of_not_le h)).symm

end Scalar

end GrowthFlow
