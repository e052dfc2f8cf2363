import LinearPlan.Number.Text

/-!
# Element arithmetic

Matrices and scalars are evaluated over any type of elements with the five element-wise operations,
a zero that can be recognised, and a reading of the numbers that occur in a plan. Bounds of slices
are elements too, so an element may stand for an index. The binary64 floats are the instance that
plans are run with; laws are stated over instances with exact arithmetic.
-/
namespace LinearPlan

class Element (α : Type) where
  zero : α
  isZero : α → Bool
  add : α → α → α
  sub : α → α → α
  mul : α → α → α
  div : α → α → α
  pow : α → α → α
  ofNumber : Number → α
  toInt? : α → Option Int
  text : α → String

namespace Element

def ofInt {α : Type} [Element α] (n : Int) : α := ofNumber (Number.ofInt n)

end Element

instance : Element Float where
  zero := 0
  isZero x := x == 0
  add x y := x + y
  sub x y := x - y
  mul x y := x * y
  div x y := x / y
  pow x y := Float.pow x y
  ofNumber := Number.toFloat
  toInt? x := (Number.ofFloat x).toInt?
  text x := (Number.ofFloat x).text

end LinearPlan
