/-!
# Grouped integers

Decimal integers with a comma before every third digit from the right.
-/
namespace LinearPlan.Text

def groupReversed : List Char → List Char → List Char
  | a :: b :: c :: d :: rest, read => groupReversed (d :: rest) (',' :: c :: b :: a :: read)
  | short, read => short.reverse ++ read

def grouped (n : Int) : String :=
  let digits := String.ofList (groupReversed (Nat.toDigits 10 n.natAbs).reverse [])
  if n < 0 then "-" ++ digits else digits

end LinearPlan.Text
