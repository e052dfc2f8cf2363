import LinearPlan.Number.Shortest

/-!
# Texts of numbers

Numbers are written with their shortest decimal: positionally when the exponent of the leading
digit is at least `-4` and below `6`, otherwise in scientific form with a signed exponent of at
least two digits.
-/
namespace LinearPlan.Number

/-- Which leading exponents are written positionally, and how wide an exponent is at least. -/
structure Layout where
  least : Int
  bound : Int
  exponentDigits : Nat

def layout : Layout := ⟨-4, 6, 2⟩

def Decimal.significant (d : Decimal) : List Char :=
  match ((Nat.toDigits 10 d.digits).reverse.dropWhile (· == '0')).reverse with
  | [] => ['0']
  | digits => digits

def Decimal.leading (d : Decimal) : Int :=
  ((Nat.toDigits 10 d.digits).length : Int) - 1 + d.exponent

def zeros (n : Nat) : List Char := List.replicate n '0'

def positional (digits : List Char) (leading : Int) : List Char :=
  if leading < 0 then '0' :: '.' :: zeros (-leading - 1).toNat ++ digits
  else
    let whole := leading.toNat + 1
    if digits.length ≤ whole then digits ++ zeros (whole - digits.length)
    else digits.take whole ++ '.' :: digits.drop whole

def scientific (format : Layout) (digits : List Char) (leading : Int) : List Char :=
  let fraction := digits.drop 1
  let exponent := Nat.toDigits 10 leading.natAbs
  digits.take 1 ++ (if fraction = [] then [] else '.' :: fraction) ++
    ['e', if leading < 0 then '-' else '+'] ++
    zeros (format.exponentDigits - exponent.length) ++ exponent

def Decimal.text (format : Layout) (d : Decimal) : List Char :=
  if format.least ≤ d.leading ∧ d.leading < format.bound then positional d.significant d.leading
  else scientific format d.significant d.leading

def text : Number → String
  | .nan => "NaN"
  | .infinite negative => if negative then "-Inf" else "+Inf"
  | .finite negative mantissa exponent =>
    let magnitude :=
      if mantissa = 0 then ['0'] else (shortest mantissa exponent).text layout
    String.ofList (if negative then '-' :: magnitude else magnitude)

end LinearPlan.Number
