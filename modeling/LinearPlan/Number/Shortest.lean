import LinearPlan.Number

/-!
# Shortest decimals

The shortest decimal of a positive binary64 value is the decimal with the fewest digits among those
that round to the value, and of these the one closest to it. A value `4 m` in units of
`2 ^ (e - 2)` is the nearest float of everything between `4 m - 2` (`4 m - 1` at the lower end of a
binade) and `4 m + 2`, the ends included when `m` is even. For each number of digits only the two
neighbours of the value on that decimal grid have to be tried.
-/
namespace LinearPlan.Number

structure Decimal where
  digits : Nat
  exponent : Int
deriving DecidableEq, Repr

/-- A positive value with the interval that rounds to it, over one denominator. -/
structure Rounding where
  low : Nat
  value : Nat
  high : Nat
  denominator : Nat
  closed : Bool
deriving DecidableEq, Repr

def roundingOf (mantissa : Nat) (exponent : Int) : Rounding :=
  let (m, e) := normal mantissa exponent
  let below := if m = leadingBit ∧ e ≠ -1074 then 1 else 2
  let scale := Nat.pow 2 (e - 2).toNat
  { low := (4 * m - below) * scale
    value := 4 * m * scale
    high := (4 * m + 2) * scale
    denominator := Nat.pow 2 (2 - e).toNat
    closed := m % 2 = 0 }

def Rounding.admits (r : Rounding) (d : Decimal) : Bool :=
  let scaled := d.digits * Nat.pow 10 d.exponent.toNat * r.denominator
  let unit := Nat.pow 10 (-d.exponent).toNat
  if r.closed then decide (r.low * unit ≤ scaled ∧ scaled ≤ r.high * unit)
  else decide (r.low * unit < scaled ∧ scaled < r.high * unit)

def leadingZeros (value denominator : Nat) : Nat → Nat → Nat
  | 0, tried => tried
  | fuel + 1, tried =>
    if denominator ≤ value * Nat.pow 10 tried then tried
    else leadingZeros value denominator fuel (tried + 1)

def Rounding.magnitude (r : Rounding) : Int :=
  if r.denominator ≤ r.value then ((Nat.toDigits 10 (r.value / r.denominator)).length : Int) - 1
  else -(leadingZeros r.value r.denominator 400 1 : Nat)

def Rounding.onGrid? (r : Rounding) (exponent : Int) : Option Decimal :=
  let numerator := r.value * Nat.pow 10 (-exponent).toNat
  let step := r.denominator * Nat.pow 10 exponent.toNat
  let floor := numerator / step
  let down : Decimal := ⟨floor, exponent⟩
  let up : Decimal := ⟨floor + 1, exponent⟩
  let twice := 2 * (numerator % step)
  let upFirst := decide (step < twice ∨ (twice = step ∧ floor % 2 = 1))
  let (first, second) := if upFirst then (up, down) else (down, up)
  if r.admits first then some first
  else if r.admits second then some second
  else none

def Rounding.search (r : Rounding) : Nat → Int → Decimal
  | 0, exponent =>
    ⟨r.value * Nat.pow 10 (-exponent).toNat / (r.denominator * Nat.pow 10 exponent.toNat), exponent⟩
  | fuel + 1, exponent => (r.onGrid? exponent).getD (r.search fuel (exponent - 1))

def shortest (mantissa : Nat) (exponent : Int) : Decimal :=
  let r := roundingOf mantissa exponent
  r.search 17 r.magnitude

end LinearPlan.Number
