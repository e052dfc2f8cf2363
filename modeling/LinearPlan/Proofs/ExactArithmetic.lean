import LinearPlan.Element
import Mathlib.Tactic.Ring

/-!
# Exact arithmetic

Reordering the factors of a product keeps its value when elements are multiplied exactly: products
are associative and commutative, and a power with a small integer as exponent is a repeated product.
Slices need no arithmetic, but small integers have to be read back from elements, as bounds are
elements. With exact elements all numbers stand for the integers they are. The integers are an
example, with an extra element for all that is no integer; without the extra element they form a ring.
-/
namespace LinearPlan

namespace Element
variable {α : Type} [Element α]

def timesSelf (a : α) : Nat → α
  | 0 => a
  | n + 1 => mul (timesSelf a n) a

end Element

/-- Elements that are multiplied exactly. Nothing is asked of the other operations. -/
class ProductElement (α : Type) [Element α] : Prop where
  mul_assoc (a b c : α) : Element.mul (Element.mul a b) c = Element.mul a (Element.mul b c)
  mul_comm (a b : α) : Element.mul a b = Element.mul b a
  pow_ofInt (a : α) {n : Nat} (h : n + 1 < 2 ^ 53) :
    Element.pow a (Element.ofInt (n + 1)) = Element.timesSelf a n

/-- Elements that small integers can be read back from. Nothing is asked of the operations. -/
class IndexElement (α : Type) [Element α] : Prop where
  toInt?_ofInt {n : Int} (h : n.natAbs < 2 ^ 53) : Element.toInt? (Element.ofInt n : α) = some n

/-- Elements that are multiplied exactly, and that stand for the integers they are read from. -/
class ExactElement (α : Type) [Element α] : Prop extends ProductElement α where
  toInt?_ofNumber (value : Number) : Element.toInt? (Element.ofNumber value : α) = value.toInt?

instance (priority := low) {α : Type} [Element α] [ExactElement α] : IndexElement α where
  toInt?_ofInt h := (ExactElement.toInt?_ofNumber _).trans (Number.toInt?_ofInt h)

instance : Element (Option Int) where
  zero := some 0
  isZero x := x == some 0
  add x y := x.bind fun a => y.map (a + ·)
  sub x y := x.bind fun a => y.map (a - ·)
  mul x y := x.bind fun a => y.map (a * ·)
  div x y := x.bind fun a => y.bind fun b => if b ≠ 0 ∧ b ∣ a then some (a / b) else none
  pow x y := x.bind fun a => y.bind fun n => if 0 ≤ n then some (a ^ n.toNat) else none
  ofNumber := Number.toInt?
  toInt? := id
  text x := match x with
    | some n => toString n
    | none => "?"

theorem timesSelf_some (a : Int) (n : Nat) :
    Element.timesSelf (some a) n = some (a ^ (n + 1)) := by
  induction n with
  | zero => simp [Element.timesSelf]
  | succ n ih =>
    rw [Element.timesSelf, ih]
    show some (a ^ (n + 1) * a) = _
    rw [← pow_succ]

theorem timesSelf_none (n : Nat) : Element.timesSelf (none : Option Int) n = none := by
  induction n with
  | zero => rfl
  | succ n ih =>
    rw [Element.timesSelf, ih]
    rfl

instance : ExactElement (Option Int) where
  mul_assoc a b c := by
    rcases a with _ | a <;> rcases b with _ | b <;> rcases c with _ | c <;>
      simp [Element.mul, Int.mul_assoc]
  mul_comm a b := by
    rcases a with _ | a <;> rcases b with _ | b <;> simp [Element.mul, Int.mul_comm]
  pow_ofInt a n h := by
    have hread : (Element.ofInt (n + 1) : Option Int) = some (n + 1) :=
      Number.toInt?_ofInt (by show ((n : Int) + 1).natAbs < 2 ^ 53; omega)
    rw [hread]
    rcases a with _ | a
    · rw [timesSelf_none]
      rfl
    · rw [timesSelf_some]
      show (if (0 : Int) ≤ n + 1 then some (a ^ ((n : Int) + 1).toNat) else none) = _
      rw [if_pos (by omega)]
      congr 2
  toInt?_ofNumber _ := rfl

instance : Element Int where
  zero := 0
  isZero x := x == 0
  add := (· + ·)
  sub := (· - ·)
  mul := (· * ·)
  div := (· / ·)
  pow x y := x ^ y.toNat
  ofNumber value := value.toInt?.getD 0
  toInt? := some
  text := toString

end LinearPlan
