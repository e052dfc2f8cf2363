import LinearPlan.Matrix.Basic

/-!
# Values

What a node of a plan stands for: a scalar or a matrix.
-/
namespace LinearPlan

inductive Value (α : Type) where
  | scalar (a : α)
  | matrix (m : Matrix α)
deriving DecidableEq, Repr

namespace Value
variable {α : Type}

def isScalar : Value α → Bool
  | .scalar _ => true
  | .matrix _ => false

/-- Number of rows; a scalar has none. -/
def rows : Value α → Nat
  | .scalar _ => 0
  | .matrix m => m.rows

def cols : Value α → Nat
  | .scalar _ => 0
  | .matrix m => m.cols

end Value
end LinearPlan
