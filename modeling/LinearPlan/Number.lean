/-!
# Binary floating-point numbers

A number is the exact value of a binary64 float: `± mantissa · 2 ^ exponent`, one of the two
infinities, or not a number. The sign is kept apart, so the two zeros differ. All questions about a
number, such as whether it is an integer, are settled in integer arithmetic.
-/
namespace LinearPlan

inductive Number where
  | nan
  | infinite (negative : Bool)
  | finite (negative : Bool) (mantissa : Nat) (exponent : Int)
deriving DecidableEq, Repr, Inhabited

namespace Number

def signBit : Nat := Nat.pow 2 63

def leadingBit : Nat := Nat.pow 2 52

def ofBits (bits : UInt64) : Number :=
  let n := bits.toNat
  let negative := decide (signBit ≤ n)
  let biased : Nat := n / leadingBit % 0x800
  let fraction := n % leadingBit
  if biased = 0x7ff then
    if fraction = 0 then .infinite negative else .nan
  else if biased = 0 then .finite negative fraction (-1074)
  else .finite negative (leadingBit + fraction) ((biased : Int) - 1075)

def ofFloat (x : Float) : Number := ofBits x.toBits

def normal (mantissa : Nat) (exponent : Int) : Nat × Int :=
  let shift := min (52 - mantissa.log2) (exponent + 1074).toNat
  (mantissa * Nat.pow 2 shift, exponent - shift)

def toBits : Number → UInt64
  | .nan => UInt64.ofNat (0x7ff8 * Nat.pow 2 48)
  | .infinite negative => UInt64.ofNat ((if negative then signBit else 0) + 0x7ff * leadingBit)
  | .finite negative mantissa exponent =>
    let (m, e) := normal mantissa exponent
    let magnitude := if m < leadingBit then m else (e + 1075).toNat * leadingBit + (m - leadingBit)
    UInt64.ofNat ((if negative then signBit else 0) + magnitude)

def toFloat (x : Number) : Float := Float.ofBits x.toBits

def roundShift (n shift : Nat) : Nat :=
  let unit := Nat.pow 2 shift
  let quotient := n / unit
  let twice := 2 * (n % unit)
  if unit < twice ∨ (twice = unit ∧ quotient % 2 = 1) then quotient + 1 else quotient

/-- The number closest to an integer. Integers below `2 ^ 53` in absolute value are exact. -/
def ofInt (n : Int) : Number :=
  if n.natAbs < Nat.pow 2 53 then .finite (decide (n < 0)) n.natAbs 0
  else
    let shift := n.natAbs.log2 - 52
    .finite (decide (n < 0)) (roundShift n.natAbs shift) shift

def toInt? : Number → Option Int
  | .finite negative mantissa exponent =>
    let signed : Nat → Int := fun n => if negative then -(n : Int) else n
    if 0 ≤ exponent then some (signed (mantissa * Nat.pow 2 exponent.toNat))
    else
      let scale := Nat.pow 2 (-exponent).toNat
      if mantissa % scale = 0 then some (signed (mantissa / scale)) else none
  | _ => none

theorem toInt?_ofInt {n : Int} (h : n.natAbs < Nat.pow 2 53) : (ofInt n).toInt? = some n := by
  have hunit : n.natAbs * Nat.pow 2 (0 : Int).toNat = n.natAbs := Nat.mul_one _
  by_cases hn : n < 0
  · have ha : -(n.natAbs : Int) = n := by omega
    rw [ofInt, if_pos h, decide_eq_true hn]
    show some (-((n.natAbs * Nat.pow 2 (0 : Int).toNat : Nat) : Int)) = some n
    rw [hunit, ha]
  · have ha : (n.natAbs : Int) = n := by omega
    rw [ofInt, if_pos h, decide_eq_false hn]
    show some ((n.natAbs * Nat.pow 2 (0 : Int).toNat : Nat) : Int) = some n
    rw [hunit, ha]

end Number
end LinearPlan
