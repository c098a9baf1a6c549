import GrowthFlow.Flow.Poly
import GrowthFlow.Ordered

/-!
# Flow matrices

The entry in row `i` and column `j` of a flow matrix says how the old value of the variable `i` flows into
the new value of the variable `j`. A product is one step after another, a sum offers two alternatives, and
the closure of a matrix describes any number of repetitions.

Every operation is given by its entries (`ofFn`), and two matrices of one size with the same entries are
equal (`ext_get`).
-/

namespace GrowthFlow

/-- A square matrix of polynomials. -/
structure FlowMatrix where
  rows : List (List Poly)
  square : ∀ row ∈ rows, row.length = rows.length
deriving DecidableEq, Repr

/-- Rows that make no square, or names that do not fit the rows. -/
inductive ShapeError where
  /-- The given row has the wrong number of entries. -/
  | row (index entries expected : Nat)
  /-- The number of variables is not the size of the matrix. -/
  | names (count size : Nat)
deriving DecidableEq, Repr

namespace ShapeError

/-- What is wrong, in words. -/
def message : ShapeError → String
  | row i entries expected =>
    "malformed matrix: row " ++ i.repr ++ " has " ++ entries.repr ++ " entries, expected " ++
      expected.repr
  | names count size =>
    "malformed matrix: " ++ count.repr ++ " variables for a " ++ size.repr ++ "x" ++ size.repr ++
      " matrix"

end ShapeError

namespace FlowMatrix

/-- The number of rows, and of columns. -/
def size (M : FlowMatrix) : Nat := M.rows.length

/-- The entry in row `i` and column `j`; zero outside of the matrix. -/
def get (M : FlowMatrix) (i j : Nat) : Poly := ((M.rows[i]?).bind (·[j]?)).getD .zero

/-- The matrix with the given entries. -/
def ofFn (n : Nat) (f : Nat → Nat → Poly) : FlowMatrix where
  rows := (List.range n).map fun i => (List.range n).map (f i)
  square := by
    intro row hrow
    obtain ⟨i, _, rfl⟩ := List.mem_map.mp hrow
    simp

@[simp] theorem size_ofFn (n : Nat) (f : Nat → Nat → Poly) : (ofFn n f).size = n := by
  simp [size, ofFn]

/-- Inside the matrix, an entry is what it was given as. -/
theorem get_ofFn {n i j : Nat} (f : Nat → Nat → Poly) (hi : i < n) (hj : j < n) :
    (ofFn n f).get i j = f i j := by
  simp [get, ofFn, hi, hj]

/-- A matrix is determined by its size and its entries. -/
theorem ext_get {M N : FlowMatrix} (hsize : M.size = N.size)
    (hget : ∀ i j, i < M.size → j < M.size → M.get i j = N.get i j) : M = N := by
  have hrows : M.rows = N.rows := by
    refine List.ext_getElem hsize ?_
    intro i hi hi'
    have hrow : (M.rows[i]).length = M.size := M.square _ (List.getElem_mem hi)
    have hrow' : (N.rows[i]).length = N.size := N.square _ (List.getElem_mem hi')
    refine List.ext_getElem (by rw [hrow, hrow', hsize]) ?_
    intro j hj hj'
    have h := hget i j hi (by rw [← hrow]; exact hj)
    simpa [get, hi, hi', hj, hj'] using h
  cases M
  cases N
  cases hrows
  rfl

/-- The matrix with the given rows, if they make a square. -/
def ofRows (rows : List (List Poly)) : Except ShapeError FlowMatrix :=
  if h : ∀ row ∈ rows, row.length = rows.length then .ok ⟨rows, h⟩
  else
    let i := rows.findIdx (·.length != rows.length)
    .error (.row i ((rows[i]?.map (·.length)).getD 0) rows.length)

/-- No flow at all. -/
def zero (n : Nat) : FlowMatrix := ofFn n fun _ _ => .zero

/-- Every variable keeps its value. -/
def identity (n : Nat) : FlowMatrix := ofFn n fun i j => if i = j then .unit else .zero

/-- Two alternatives. -/
protected def add (M N : FlowMatrix) : FlowMatrix :=
  ofFn (min M.size N.size) fun i j => M.get i j + N.get i j

instance : Add FlowMatrix := ⟨FlowMatrix.add⟩

/-- One step after another. -/
protected def mul (M N : FlowMatrix) : FlowMatrix :=
  ofFn M.size fun i j =>
    (List.range M.size).foldl (fun acc k => acc + M.get i k * N.get k j) .zero

instance : Mul FlowMatrix := ⟨FlowMatrix.mul⟩

/-- A matrix of another size, where new variables keep their value. -/
def resize (M : FlowMatrix) (n : Nat) : FlowMatrix :=
  ofFn n fun i j => if i < M.size ∧ j < M.size then M.get i j else (identity n).get i j

/-- Every entry changed, given its place. -/
def map (f : Nat → Nat → Poly → Poly) (M : FlowMatrix) : FlowMatrix :=
  ofFn M.size fun i j => f i j (M.get i j)

/-- All entries, row by row. -/
def entries (M : FlowMatrix) : List Poly := M.rows.flatten

/-! ## Closure -/

/-- The deltas that occur in the matrix. -/
def deltas (M : FlowMatrix) : List Delta :=
  Ordered.ofList (M.entries.flatMap fun p => p.monomials.flatMap (·.deltas))

/-- The number of ways to demand values, among those of the matrix, at some of its indices. -/
def demands (M : FlowMatrix) : Nat :=
  let ds := M.deltas
  (Ordered.ofList (ds.map (·.index))).foldl (fun n k => n * ((ds.filter (·.index == k)).length + 1)) 1

/-- How often the entries of a matrix can grow in turn: under each demand every entry rises at most four
times, from `o` to `i`. -/
def height (M : FlowMatrix) : Nat := 4 * M.size * M.size * M.demands

/-- The sum of the powers of `M` from a partial sum and the power it ends with. It is complete when the
next power adds nothing; after `limit` further powers the search ends with what there is. -/
def sumPowers (M : FlowMatrix) : (limit : Nat) → (sum power : FlowMatrix) → Bool × FlowMatrix
  | 0, sum, _ => (false, sum)
  | limit + 1, sum, power =>
    let power := power * M
    let next := sum + power
    if next = sum then (true, sum) else sumPowers M limit next power

/-- Any number of repetitions, if at most `limit` powers show that the sum is complete. -/
def closureWithin? (limit : Nat) (M : FlowMatrix) : Option FlowMatrix :=
  match M.sumPowers limit (identity M.size) (identity M.size) with
  | (true, sum) => some sum
  | (false, _) => none

/-- Any number of repetitions. The sum of the powers cannot grow more often than `height` says, so it is
complete after one more. -/
def closure (M : FlowMatrix) : FlowMatrix :=
  (M.sumPowers (M.height + 1) (identity M.size) (identity M.size)).2

end FlowMatrix

end GrowthFlow
