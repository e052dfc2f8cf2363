import LinearPlan.Value

/-!
# Approximate equality

Scalars are close when they differ by at most the tolerance. Matrices are close when they have the
same dimensions and all entries are close, absolutely or relative to the larger of the two.
-/
namespace LinearPlan

def leastNormal : Float := Float.ofBits 0x0010000000000000

def largerFloat (x y : Float) : Float :=
  if x == 1.0 / 0.0 || y == 1.0 / 0.0 then 1.0 / 0.0
  else if x.isNaN || y.isNaN then 0.0 / 0.0
  else if x < y then y else x

def closeFloats (tolerance x y : Float) : Bool :=
  let d := (x - y).abs
  x == y || d ≤ tolerance ||
    (if d ≤ leastNormal then d ≤ tolerance * leastNormal
      else d / largerFloat x.abs y.abs ≤ tolerance)

def Matrix.isClose (tolerance : Float) (a b : Matrix Float) : Bool :=
  a.rows == b.rows && a.cols == b.cols &&
    (a.toList.zip b.toList).all fun e => closeFloats tolerance e.1 e.2

def Value.isClose (tolerance : Float) : Value Float → Value Float → Bool
  | .scalar x, .scalar y => (x - y).abs ≤ tolerance
  | .matrix a, .matrix b => a.isClose tolerance b
  | _, _ => false

end LinearPlan
