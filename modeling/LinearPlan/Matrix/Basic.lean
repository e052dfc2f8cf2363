import LinearPlan.Element

/-!
# Matrices

Dense matrices with their dimensions as data. Every operation is given by its entries through
`Matrix.ofFn`, and two matrices with the same dimensions and entries are equal.
-/
namespace LinearPlan

structure Matrix (α : Type) where
  rows : Nat
  cols : Nat
  entries : Vector (Vector α cols) rows
deriving DecidableEq, Repr

namespace Matrix
variable {α β : Type}

def get (m : Matrix α) (i : Fin m.rows) (j : Fin m.cols) : α := m.entries[i.val][j.val]

def ofFn (rows cols : Nat) (f : Fin rows → Fin cols → α) : Matrix α :=
  ⟨rows, cols, Vector.ofFn fun i => Vector.ofFn (f i)⟩

@[simp] theorem get_ofFn (rows cols : Nat) (f : Fin rows → Fin cols → α) (i : Fin rows)
    (j : Fin cols) : (ofFn rows cols f).get i j = f i j := by
  simp [get, ofFn]

theorem ext_get {a b : Matrix α} (hr : a.rows = b.rows) (hc : a.cols = b.cols)
    (h : ∀ i j, a.get i j = b.get (i.cast hr) (j.cast hc)) : a = b := by
  obtain ⟨rows, cols, x⟩ := a
  obtain ⟨rows', cols', y⟩ := b
  dsimp only at hr hc
  subst hr hc
  congr 1
  apply Vector.ext
  intro i hi
  apply Vector.ext
  intro j hj
  exact h ⟨i, hi⟩ ⟨j, hj⟩

def empty : Matrix α := ⟨0, 0, #v[]⟩

def ofList? (rows cols : Nat) (entries : List α) : Option (Matrix α) :=
  if h : entries.length = rows * cols then
    some <| ofFn rows cols fun i j =>
      entries.get ⟨i * cols + j, by
        rw [h]
        calc i * cols + j < i * cols + cols := by omega
          _ = (i + 1) * cols := by rw [Nat.add_mul, Nat.one_mul]
          _ ≤ rows * cols := Nat.mul_le_mul_right _ i.isLt⟩
  else none

inductive DimFault where
  | zeroLength
  | negative
  | mismatch
deriving DecidableEq, Repr

def DimFault.message : DimFault → String
  | .zeroLength => "mat: zero length in matrix dimension"
  | .negative => "mat: negative dimension"
  | .mismatch => "mat: dimension mismatch"

/-- A matrix of given dimensions. The empty matrix has no rows and no columns; otherwise both
dimensions have to be positive. -/
def build (rows cols : Int) (entries : List α) : Except DimFault (Matrix α) :=
  if rows = 0 ∧ cols = 0 then .ok empty
  else if rows = 0 ∨ cols = 0 then .error .zeroLength
  else if rows < 0 ∨ cols < 0 then .error .negative
  else match ofList? rows.toNat cols.toNat entries with
    | some m => .ok m
    | none => .error .mismatch

def toList (m : Matrix α) : List α := m.entries.toList.flatMap Vector.toList

def column (m : Matrix α) (j : Fin m.cols) : List α := (List.finRange m.rows).map fun i => m.get i j

def map (f : α → β) (m : Matrix α) : Matrix β := ofFn m.rows m.cols fun i j => f (m.get i j)

def transpose (m : Matrix α) : Matrix α := ofFn m.cols m.rows fun i j => m.get j i

@[simp] theorem get_transpose (m : Matrix α) (i : Fin m.cols) (j : Fin m.rows) :
    m.transpose.get i j = m.get j i := get_ofFn _ _ _ i j

/-- A matrix product. Each entry starts from zero and adds one product after the other, leaving
out those with a zero on the left. -/
def mul [Element α] (a b : Matrix α) (h : a.cols = b.rows) : Matrix α :=
  ofFn a.rows b.cols fun i j =>
    (List.finRange a.cols).foldl
      (fun sum l =>
        if Element.isZero (a.get i l) then sum
        else Element.add sum (Element.mul (a.get i l) (b.get (l.cast h) j)))
      Element.zero

/-- The dimension of an element-wise result. A dimension of one is repeated as often as needed. -/
def commonDim? (a b : Nat) : Option Nat :=
  if a = b ∨ b = 1 then some a else if a = 1 then some b else none

theorem commonDim?_pos {a b d : Nat} (h : commonDim? a b = some d) (hd : 0 < d) :
    0 < a ∧ 0 < b := by
  unfold commonDim? at h
  split at h
  · rename_i hab
    cases h
    rcases hab with rfl | rfl <;> omega
  · split at h
    · cases h
      omega
    · cases h

def cyclic (m : Matrix α) (hr : 0 < m.rows) (hc : 0 < m.cols) (i j : Nat) : α :=
  m.get ⟨i % m.rows, Nat.mod_lt _ hr⟩ ⟨j % m.cols, Nat.mod_lt _ hc⟩

def zipWith (f : α → α → α) (a b : Matrix α) (rows cols : Nat)
    (hr : 0 < rows → 0 < a.rows ∧ 0 < b.rows) (hc : 0 < cols → 0 < a.cols ∧ 0 < b.cols) :
    Matrix α :=
  ofFn rows cols fun i j =>
    f (a.cyclic (hr i.pos).1 (hc j.pos).1 i j) (b.cyclic (hr i.pos).2 (hc j.pos).2 i j)

/-- A block inside `rows × cols`, given by its first row and column and its size. -/
structure Block (rows cols : Nat) where
  top : Nat
  left : Nat
  height : Nat
  width : Nat
  top_add_height_le : top + height ≤ rows
  left_add_width_le : left + width ≤ cols

namespace Block
variable {rows cols : Nat}

def row (b : Block rows cols) (i : Fin b.height) : Fin rows :=
  ⟨b.top + i, by have := b.top_add_height_le; omega⟩

def col (b : Block rows cols) (j : Fin b.width) : Fin cols :=
  ⟨b.left + j, by have := b.left_add_width_le; omega⟩

def Covers (b : Block rows cols) (i j : Nat) : Prop :=
  (b.top ≤ i ∧ i < b.top + b.height) ∧ b.left ≤ j ∧ j < b.left + b.width

instance (b : Block rows cols) (i j : Nat) : Decidable (b.Covers i j) :=
  inferInstanceAs (Decidable (_ ∧ _))

end Block

def read (m : Matrix α) (b : Block m.rows m.cols) : Matrix α :=
  ofFn b.height b.width fun i j => m.get (b.row i) (b.col j)

def write (m : Matrix α) (b : Block m.rows m.cols) (f : Fin b.height → Fin b.width → α) :
    Matrix α :=
  ofFn m.rows m.cols fun i j =>
    if h : b.Covers i j then
      f ⟨i - b.top, by unfold Block.Covers at h; omega⟩
        ⟨j - b.left, by unfold Block.Covers at h; omega⟩
    else m.get i j

end Matrix
end LinearPlan
