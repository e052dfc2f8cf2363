import LinearPlan.Proofs.ExactArithmetic
import LinearPlan.Proofs.ProductBuild
import LinearPlan.Proofs.Slices
import Mathlib.Algebra.Group.WithOne.Basic
import Mathlib.Algebra.BigOperators.Group.Multiset.Basic

/-!
# Values of products

Element-wise products are partial: dimensions have to fit, and a result has rows and columns. With
exact elements the partial product is associative and commutative, also in where it is defined. So
the value of a product depends on its factors only, and the product that is built from given factors
has the value of every other product of them.
-/
namespace LinearPlan

namespace Matrix
variable {α : Type}

def Common (a b d : Nat) : Prop := 0 < d ∧ (a = d ∨ a = 1) ∧ (b = d ∨ b = 1) ∧ (d = a ∨ d = b)

theorem common_iff {a b d : Nat} : Common a b d ↔ commonDim? a b = some d ∧ d ≠ 0 := by
  unfold Common commonDim?
  by_cases h : a = b ∨ b = 1
  · rw [if_pos h, Option.some.injEq]
    omega
  · by_cases h' : a = 1
    · rw [if_neg h, if_pos h', Option.some.injEq]
      omega
    · rw [if_neg h, if_neg h']
      simp only [reduceCtorEq, false_and, iff_false]
      omega

theorem Common.symm {a b d : Nat} (h : Common a b d) : Common b a d := by
  unfold Common at *
  omega

theorem Common.assoc {a b c d e : Nat} (h : Common a b d) (h' : Common d c e) :
    ∃ f, Common b c f ∧ Common a f e := by
  unfold Common at *
  by_cases hb : b = 1
  · exact ⟨c, by omega, by omega⟩
  · exact ⟨b, by omega, by omega⟩

theorem common_self {a d : Nat} : Common a a d ↔ d = a ∧ 0 < a := by
  unfold Common
  omega

theorem Common.mod {a b d : Nat} (h : Common a b d) (i : Nat) : i % d % a = i % a := by
  rcases h.2.1 with rfl | rfl
  · exact Nat.mod_mod i a
  · rw [Nat.mod_one, Nat.mod_one]

theorem cyclic_ofFn {rows cols : Nat} {f : Fin rows → Fin cols → α} (hr : 0 < rows)
    (hc : 0 < cols) (i j : Nat) :
    (ofFn rows cols f).cyclic hr hc i j = f ⟨i % rows, Nat.mod_lt i hr⟩ ⟨j % cols, Nat.mod_lt j hc⟩ :=
  get_ofFn ..

end Matrix

open LinearPlan.Matrix (Common)

namespace Value
variable {α : Type}

def dims? : Value α → Option (Nat × Nat)
  | .scalar _ => none
  | .matrix m => some (m.rows, m.cols)

def element? (v : Value α) (i j : Nat) : Option α :=
  match v with
  | .scalar a => some a
  | .matrix m => if h : 0 < m.rows ∧ 0 < m.cols then some (m.cyclic h.1 h.2 i j) else none

/-- How the dimensions of an element-wise result follow from those of the operands. -/
def Fits : Option (Nat × Nat) → Option (Nat × Nat) → Option (Nat × Nat) → Prop
  | none, none, none => True
  | none, some e, some d => d = e ∧ 0 < d.1 ∧ 0 < d.2
  | some e, none, some d => d = e ∧ 0 < d.1 ∧ 0 < d.2
  | some a, some b, some d => Common a.1 b.1 d.1 ∧ Common a.2 b.2 d.2
  | _, _, _ => False

theorem Fits.symm {a b d : Option (Nat × Nat)} (h : Fits a b d) : Fits b a d := by
  match a, b, d, h with
  | none, none, none, _ => trivial
  | none, some _, some _, h => exact h
  | some _, none, some _, h => exact h
  | some _, some _, some _, h => exact ⟨h.1.symm, h.2.symm⟩

theorem Fits.assoc {a b c d e : Option (Nat × Nat)} (h : Fits a b d) (h' : Fits d c e) :
    ∃ f, Fits b c f ∧ Fits a f e := by
  match a, b, c, d, e, h, h' with
  | none, none, none, none, none, _, _ => exact ⟨none, trivial, trivial⟩
  | none, none, some _, none, some e, _, h' => exact ⟨some e, h', rfl, h'.2⟩
  | none, some _, none, some d, some e, h, h' => exact ⟨some d, h, h'⟩
  | some _, none, none, some _, some e, h, h' => exact ⟨none, trivial, h'.1.trans h.1, h'.2⟩
  | none, some _, some _, some _, some e, h, h' =>
    obtain ⟨rfl, -⟩ := h
    exact ⟨some e, h', rfl, h'.1.1, h'.2.1⟩
  | some _, none, some c, some _, some _, h, h' =>
    obtain ⟨rfl, -⟩ := h
    refine ⟨some c, ⟨rfl, ?_⟩, h'⟩
    unfold Fits Common at h'
    omega
  | some _, some b, none, some _, some _, h, h' =>
    obtain ⟨rfl, -⟩ := h'
    refine ⟨some b, ⟨rfl, ?_⟩, h⟩
    unfold Fits Common at h
    omega
  | some _, some _, some _, some _, some _, h, h' =>
    obtain ⟨r, hbr, har⟩ := h.1.assoc h'.1
    obtain ⟨k, hbk, hak⟩ := h.2.assoc h'.2
    exact ⟨some (r, k), ⟨hbr, hbk⟩, har, hak⟩

theorem fits_self {a d : Option (Nat × Nat)} : Fits a a d ↔ Fits a none d := by
  match a, d with
  | none, _ => rfl
  | some a, none => rfl
  | some (r, c), some (r', c') =>
    simp only [Fits, Matrix.common_self, Prod.mk.injEq]
    omega

theorem Fits.eq {a d : Option (Nat × Nat)} (h : Fits a none d) : d = a := by
  match a, d, h with
  | none, none, _ => rfl
  | some a, some d, h => rw [h.1]

theorem ext_entry {v w : Value α} (hd : v.dims? = w.dims?)
    (h : ∀ i j, v.element? i j = w.element? i j) : v = w := by
  cases v with
  | scalar a =>
    cases w with
    | scalar b => rw [Option.some.inj (h 0 0)]
    | matrix m => cases hd
  | matrix m =>
    cases w with
    | scalar b => cases hd
    | matrix n =>
      obtain ⟨hr, hc⟩ := Prod.mk.inj (Option.some.inj hd)
      refine congrArg _ (Matrix.ext_get hr hc fun i j => ?_)
      have hij := h i j
      have hm : 0 < m.rows ∧ 0 < m.cols := ⟨i.pos, j.pos⟩
      have hn : 0 < n.rows ∧ 0 < n.cols := hr ▸ hc ▸ hm
      simp only [element?, hm, hn, and_self, dif_pos, Option.some.injEq] at hij
      have hi' : i.val < n.rows := hr ▸ i.isLt
      have hj' : j.val < n.cols := hc ▸ j.isLt
      simp only [Matrix.cyclic, Nat.mod_eq_of_lt i.isLt, Nat.mod_eq_of_lt j.isLt,
        Nat.mod_eq_of_lt hi', Nat.mod_eq_of_lt hj'] at hij
      exact hij

theorem element?_matrix {m : Matrix α} (hr : 0 < m.rows) (hc : 0 < m.cols) (i j : Nat) :
    (matrix m).element? i j = some (m.cyclic hr hc i j) := dif_pos ⟨hr, hc⟩

end Value

namespace Eval
variable {α : Type} {node : NodeRef} {f : α → α → α} {a b v : Value α}

theorem zip_eq_ok_iff {m n : Matrix α} : zip node f m n = .ok v ↔ ∃ rows cols,
    ∃ (hr : Matrix.commonDim? m.rows n.rows = some rows)
      (hc : Matrix.commonDim? m.cols n.cols = some cols),
      (rows ≠ 0 ∧ cols ≠ 0) ∧ v = .matrix (m.zipWith f n rows cols (Matrix.commonDim?_pos hr)
        (Matrix.commonDim?_pos hc)) := by
  unfold zip
  split
  · rename_i hr
    simp [hr]
  · rename_i rows hr
    split
    · rename_i hc
      simp [hc]
    · rename_i cols hc
      rw [nonempty_eq_ok_iff]
      constructor
      · exact fun h => ⟨rows, cols, hr, hc, h⟩
      · rintro ⟨rows', cols', hr', hc', h⟩
        rw [hr] at hr'
        rw [hc] at hc'
        cases hr'
        cases hc'
        exact h

theorem entry_elementwise (h : elementwise node f a b = .ok v) :
    Value.Fits a.dims? b.dims? v.dims? ∧
      ∀ i j, v.element? i j = Option.map₂ f (a.element? i j) (b.element? i j) := by
  match a, b, h with
  | .scalar a, .scalar b, h =>
    cases h
    exact ⟨trivial, fun i j => rfl⟩
  | .scalar a, .matrix n, h =>
    obtain ⟨hpos, rfl⟩ := nonempty_eq_ok_iff.1 h
    have hr : 0 < n.rows := Nat.pos_of_ne_zero hpos.1
    have hc : 0 < n.cols := Nat.pos_of_ne_zero hpos.2
    refine ⟨⟨rfl, hr, hc⟩, fun i j => ?_⟩
    rw [Value.element?_matrix hr hc, Value.element?_matrix (m := n.map (f a)) hr hc]
    exact congrArg some (Matrix.cyclic_ofFn hr hc i j)
  | .matrix m, .scalar b, h =>
    obtain ⟨hpos, rfl⟩ := nonempty_eq_ok_iff.1 h
    have hr : 0 < m.rows := Nat.pos_of_ne_zero hpos.1
    have hc : 0 < m.cols := Nat.pos_of_ne_zero hpos.2
    refine ⟨⟨rfl, hr, hc⟩, fun i j => ?_⟩
    rw [Value.element?_matrix hr hc, Value.element?_matrix (m := m.map (f · b)) hr hc]
    exact congrArg some (Matrix.cyclic_ofFn hr hc i j)
  | .matrix m, .matrix n, h =>
    obtain ⟨rows, cols, hr, hc, hpos, rfl⟩ := zip_eq_ok_iff.1 h
    have hcr : Common m.rows n.rows rows := Matrix.common_iff.2 ⟨hr, hpos.1⟩
    have hcc : Common m.cols n.cols cols := Matrix.common_iff.2 ⟨hc, hpos.2⟩
    obtain ⟨hmr, hnr⟩ := Matrix.commonDim?_pos hr hcr.1
    obtain ⟨hmc, hnc⟩ := Matrix.commonDim?_pos hc hcc.1
    refine ⟨⟨hcr, hcc⟩, fun i j => ?_⟩
    rw [Value.element?_matrix hmr hmc, Value.element?_matrix hnr hnc, Value.element?_matrix hcr.1 hcc.1]
    refine congrArg some ((Matrix.cyclic_ofFn hcr.1 hcc.1 i j).trans ?_)
    simp only [Matrix.cyclic, hcr.mod, hcc.mod, hcr.symm.mod, hcc.symm.mod]

theorem exists_elementwise (node : NodeRef) (f : α → α → α) {d : Option (Nat × Nat)} (h : Value.Fits a.dims? b.dims? d) :
    ∃ v, elementwise node f a b = .ok v ∧ v.dims? = d := by
  match a, b, d, h with
  | .scalar a, .scalar b, none, _ => exact ⟨_, rfl, rfl⟩
  | .scalar a, .matrix n, some _, ⟨rfl, hr, hc⟩ =>
    exact ⟨_, nonempty_eq_ok_iff.2 ⟨⟨Nat.ne_of_gt hr, Nat.ne_of_gt hc⟩, rfl⟩, rfl⟩
  | .matrix m, .scalar b, some _, ⟨rfl, hr, hc⟩ =>
    exact ⟨_, nonempty_eq_ok_iff.2 ⟨⟨Nat.ne_of_gt hr, Nat.ne_of_gt hc⟩, rfl⟩, rfl⟩
  | .matrix m, .matrix n, some (rows, cols), ⟨hr, hc⟩ =>
    obtain ⟨hr, hrows⟩ := Matrix.common_iff.1 hr
    obtain ⟨hc, hcols⟩ := Matrix.common_iff.1 hc
    exact ⟨_, zip_eq_ok_iff.2 ⟨rows, cols, hr, hc, ⟨hrows, hcols⟩, rfl⟩, rfl⟩

theorem elementwise_eq_ok_iff (node : NodeRef) : elementwise node f a b = .ok v ↔
    Value.Fits a.dims? b.dims? v.dims? ∧
      ∀ i j, v.element? i j = Option.map₂ f (a.element? i j) (b.element? i j) := by
  refine ⟨entry_elementwise, fun ⟨hd, he⟩ => ?_⟩
  obtain ⟨w, hw, hwd⟩ := exists_elementwise node f hd
  rw [hw, Value.ext_entry hwd fun i j => ((entry_elementwise hw).2 i j).trans (he i j).symm]

end Eval

abbrev Partial (α : Type) : Type := Option (Value α)

namespace Partial
variable {α : Type} [Element α]

def times (a b : Value α) : Partial α :=
  (Eval.elementwise ⟨0, .binary .mult⟩ Element.mul a b).toOption

theorem times_eq_some_iff {a b v : Value α} : times a b = some v ↔
    Value.Fits a.dims? b.dims? v.dims? ∧
      ∀ i j, v.element? i j = Option.map₂ Element.mul (a.element? i j) (b.element? i j) := by
  rw [← Eval.elementwise_eq_ok_iff ⟨0, .binary .mult⟩]
  unfold times
  cases Eval.elementwise ⟨0, .binary .mult⟩ Element.mul a b with
  | error e => exact ⟨nofun, nofun⟩
  | ok w => exact ⟨fun h => congrArg _ (Option.some.inj h), fun h => congrArg _ (Except.ok.inj h)⟩

instance : Mul (Partial α) := ⟨fun o o' => Option.bind o fun a => Option.bind o' fun b => times a b⟩

theorem mul_eq_some_iff {o o' : Partial α} {v : Value α} :
    o * o' = some v ↔ ∃ a b, o = some a ∧ o' = some b ∧ times a b = some v := by
  show Option.bind o (fun a => Option.bind o' fun b => times a b) = some v ↔ _
  simp only [Option.bind_eq_some_iff]
  constructor
  · rintro ⟨a, ha, b, hb, h⟩
    exact ⟨a, b, ha, hb, h⟩
  · rintro ⟨a, b, ha, hb, h⟩
    exact ⟨a, ha, b, hb, h⟩

def timesSelf (o : Partial α) : Nat → Partial α
  | 0 => o
  | n + 1 => timesSelf o n * o

theorem timesSelf_eq_some_iff {u v : Value α} (n : Nat) :
    timesSelf (some u : Partial α) (n + 1) = some v ↔ Value.Fits u.dims? none v.dims? ∧
      ∀ i j, v.element? i j = (u.element? i j).map (Element.timesSelf · (n + 1)) := by
  have hone : ∀ {w : Value α} {k : Nat}, (∀ i j, w.element? i j =
      (u.element? i j).map (Element.timesSelf · k)) → ∀ i j,
      Option.map₂ Element.mul (w.element? i j) (u.element? i j) =
        (u.element? i j).map (Element.timesSelf · (k + 1)) := by
    intro w k hw i j
    rw [hw i j]
    cases u.element? i j <;> rfl
  have hstart : ∀ i j, u.element? i j = (u.element? i j).map (Element.timesSelf · 0) := fun i j => by
    cases u.element? i j <;> rfl
  induction n generalizing v with
  | zero =>
    have hmul : timesSelf (some u : Partial α) 1 = some v ↔ times u u = some v := Iff.rfl
    rw [hmul, times_eq_some_iff, Value.fits_self]
    simp only [hone hstart]
  | succ n ih =>
    have hmul : timesSelf (some u : Partial α) (n + 2) = some v ↔
        ∃ w, timesSelf (some u : Partial α) (n + 1) = some w ∧ times w u = some v := by
      rw [timesSelf, mul_eq_some_iff]
      constructor
      · rintro ⟨w, u', hw, hu, h⟩
        cases hu
        exact ⟨w, hw, h⟩
      · rintro ⟨w, hw, h⟩
        exact ⟨w, u, hw, rfl, h⟩
    rw [hmul]
    constructor
    · rintro ⟨w, hw, h⟩
      obtain ⟨hd, he⟩ := ih.1 hw
      obtain ⟨hd', he'⟩ := times_eq_some_iff.1 h
      rw [hd.eq, Value.fits_self] at hd'
      exact ⟨hd', fun i j => (he' i j).trans (hone he i j)⟩
    · rintro ⟨hd, he⟩
      obtain ⟨w, hrun, hwd⟩ := Eval.exists_elementwise ⟨0, .binary .mult⟩
        (fun a _ => Element.timesSelf a (n + 1)) (b := .scalar Element.zero) hd
      obtain ⟨hfit, hew⟩ := (Eval.elementwise_eq_ok_iff _).1 hrun
      have hew : ∀ i j, w.element? i j = (u.element? i j).map (Element.timesSelf · (n + 1)) :=
        fun i j => by
          rw [hew i j]
          cases u.element? i j <;> rfl
      refine ⟨w, ih.2 ⟨hfit, hew⟩, times_eq_some_iff.2 ⟨?_, fun i j => ?_⟩⟩
      · rw [hfit.eq, Value.fits_self]
        exact hd
      · rw [he i j, hone hew i j]

variable [ProductElement α]

theorem times_comm {a b v : Value α} (h : times a b = some v) : times b a = some v := by
  obtain ⟨hd, he⟩ := times_eq_some_iff.1 h
  refine times_eq_some_iff.2 ⟨hd.symm, fun i j => ?_⟩
  rw [he i j, Option.map₂_comm ProductElement.mul_comm]

theorem times_assoc {a b c d v : Value α} (h : times a b = some d) (h' : times d c = some v) :
    ∃ e, times b c = some e ∧ times a e = some v := by
  obtain ⟨hd, he⟩ := times_eq_some_iff.1 h
  obtain ⟨hd', he'⟩ := times_eq_some_iff.1 h'
  obtain ⟨k, hbc, hak⟩ := hd.assoc hd'
  obtain ⟨e, hrun, hek⟩ :=
    Eval.exists_elementwise ⟨0, .binary .mult⟩ Element.mul hbc
  obtain ⟨hde, hee⟩ := (Eval.elementwise_eq_ok_iff _).1 hrun
  refine ⟨e, times_eq_some_iff.2 ⟨hde, hee⟩, times_eq_some_iff.2 ⟨hek ▸ hak, fun i j => ?_⟩⟩
  rw [he' i j, he i j, hee i j, Option.map₂_assoc ProductElement.mul_assoc]

instance : CommSemigroup (Partial α) where
  mul_comm o o' := Option.ext fun v => by
    simp only [mul_eq_some_iff]
    constructor <;> rintro ⟨a, b, ha, hb, h⟩ <;> exact ⟨b, a, hb, ha, times_comm h⟩
  mul_assoc o o' o'' := Option.ext fun v => by
    simp only [mul_eq_some_iff]
    constructor
    · rintro ⟨d, c, ⟨a, b, ha, hb, hab⟩, hc, h⟩
      obtain ⟨e, hbc, hae⟩ := times_assoc hab h
      exact ⟨a, e, ha, ⟨b, c, hb, hc, hbc⟩, hae⟩
    · rintro ⟨a, e, ha, ⟨b, c, hb, hc, hbc⟩, h⟩
      obtain ⟨d, hba, hcd⟩ := times_assoc (times_comm hbc) (times_comm h)
      exact ⟨d, c, ⟨a, b, ha, hb, times_comm hba⟩, hc, times_comm hcd⟩

theorem coe_timesSelf (o : Partial α) (n : Nat) :
    WithOne.coe (timesSelf o n) = WithOne.coe o ^ (n + 1) := by
  induction n with
  | zero => rw [timesSelf, pow_one]
  | succ n ih => rw [timesSelf, WithOne.coe_mul, ih, pow_succ _ (n + 1)]

theorem pow_eq_ok_iff (node : NodeRef) {u v : Value α} {n : Nat} (hn : n + 2 < 2 ^ 53) :
    Eval.binary node .pow u (.scalar (Element.ofInt (n + 2))) = .ok v ↔
      timesSelf (some u : Partial α) (n + 1) = some v := by
  have hpow : ∀ a : α, Element.pow a (Element.ofInt ((n : Int) + 2)) = Element.timesSelf a (n + 1) :=
    fun a => ProductElement.pow_ofInt a (n := n + 1) (by omega)
  have hentry : ∀ o : Option α, Option.map₂ Element.pow o (some (Element.ofInt ((n : Int) + 2))) =
      o.map (Element.timesSelf · (n + 1)) := fun o => by
    cases o with
    | none => rfl
    | some a => exact congrArg some (hpow a)
  have hrun : Eval.binary node .pow u (.scalar (Element.ofInt ((n : Int) + 2))) =
      Eval.elementwise node Element.pow u (.scalar (Element.ofInt ((n : Int) + 2))) := rfl
  rw [hrun, Eval.elementwise_eq_ok_iff, timesSelf_eq_some_iff]
  simp only [Value.dims?, Value.element?, hentry]

def productOf (val : NodeId → Partial α) (m : Multiset NodeId) : WithOne (Partial α) :=
  (m.map fun y => WithOne.coe (val y)).prod

variable {val : NodeId → Partial α}

@[simp] theorem productOf_singleton (y : NodeId) : productOf val {y} = WithOne.coe (val y) := by
  simp [productOf]

@[simp] theorem productOf_add (m m' : Multiset NodeId) :
    productOf val (m + m') = productOf val m * productOf val m' := by
  simp [productOf]

theorem productOf_replicate (y : NodeId) (n : Nat) :
    productOf val (Multiset.replicate (n + 1) y) = WithOne.coe (timesSelf (val y) n) := by
  rw [coe_timesSelf, productOf, Multiset.map_replicate, Multiset.prod_replicate]

theorem productOf_congr {val' : NodeId → Partial α} {m : Multiset NodeId}
    (h : ∀ y ∈ m, val y = val' y) : productOf val m = productOf val' m :=
  congrArg Multiset.prod (Multiset.map_congr rfl fun y hy => congrArg WithOne.coe (h y hy))

end Partial

namespace Graph
variable {α : Type} [Element α] {g : Graph} {inputs : Inputs α} {x : NodeId}
  {i : Item} {v : Value α}

def value? (g : Graph) (inputs : Inputs α) (x : NodeId) : Partial α :=
  (g.value inputs x).toOption

theorem value?_eq_some_iff (ha : g.plan.Acyclic) :
    g.value? inputs x = some v ↔ g.HasValue inputs x v := by
  rw [← value_eq_ok_iff ha]
  unfold value?
  cases g.value inputs x <;> simp [Except.toOption]

theorem hasValue_binary {op : BinaryOp} {a b : NodeId} (hx : g.plan x = some i)
    (hop : i.op = .binary op) (hi : i.inputs = [a, b]) : g.HasValue inputs x v ↔
      ∃ u w, g.HasValue inputs a u ∧ g.HasValue inputs b w ∧
        Eval.binary ⟨x, .binary op⟩ op u w = .ok v := by
  obtain ⟨n, hn, hr, rfl⟩ := get?_of_plan hx
  have hnop : n.op = .binary op := hop
  have hnin : n.inputs = [a, b] := hi
  rw [hasValue_iff]
  constructor
  · rintro ⟨m, vs, hm, -, hvs, happ⟩
    rw [hn] at hm
    cases hm
    rw [hnin] at hvs
    rw [hnop] at happ
    rcases hvs with _ | ⟨hu, _ | ⟨hw, _ | _⟩⟩
    exact ⟨_, _, hu, hw, happ⟩
  · rintro ⟨u, w, hu, hw, h⟩
    refine ⟨n, [u, w], hn, hr, ?_, ?_⟩
    · rw [hnin]
      exact .cons hu (.cons hw .nil)
    · rw [hnop]
      exact h

theorem hasValue_literal {value : Number} (hx : g.plan x = some i) (hop : i.op = .literal value)
    (hi : i.inputs = []) : g.HasValue inputs x (.scalar (Element.ofNumber value)) := by
  obtain ⟨n, hn, hr, rfl⟩ := get?_of_plan hx
  have hnop : n.op = .literal value := hop
  have hnin : n.inputs = [] := hi
  refine hasValue_iff.2 ⟨n, [], hn, hr, ?_, ?_⟩
  · rw [hnin]
    exact .nil
  · rw [hnop]
    rfl

theorem value?_product {a b : NodeId} (ha : g.plan.Acyclic) (hx : g.plan x = some i)
    (hop : i.op = .binary .mult) (hi : i.inputs = [a, b]) :
    g.value? inputs x = g.value? inputs a * g.value? inputs b := by
  refine Option.ext fun v => ?_
  rw [value?_eq_some_iff ha, hasValue_binary hx hop hi, Partial.mul_eq_some_iff]
  simp only [value?_eq_some_iff ha, Partial.times_eq_some_iff, ← Eval.elementwise_eq_ok_iff
    ⟨x, .binary .mult⟩]
  rfl

variable [ProductElement α]

theorem value?_of_factors (ha : g.plan.Acyclic) {M : Multiset NodeId} (h : g.plan.Factors x M) :
    WithOne.coe (g.value? inputs x) = Partial.productOf (g.value? inputs) M := by
  induction h with
  | leaf hx hm => rw [Partial.productOf_singleton]
  | product hx hm hi _ _ iha ihb =>
    rw [value?_product ha hx (Optimizer.Factoring.isMult_iff.1 hm) hi, WithOne.coe_mul, iha, ihb,
      Partial.productOf_add]

theorem value?_power (ha : g.plan.Acyclic) {base e : NodeId} {j : Item} {n : Nat}
    (hx : g.plan x = some i) (hop : i.op = .binary .pow) (hi : i.inputs = [base, e])
    (he : g.plan e = some j) (hj : j.op = .literal (.ofInt (n + 2))) (hjin : j.inputs = [])
    (hn : n + 2 < 2 ^ 53) :
    g.value? inputs x = Partial.timesSelf (g.value? inputs base) (n + 1) := by
  have hexp : g.HasValue inputs e (.scalar (Element.ofInt (n + 2))) := hasValue_literal he hj hjin
  refine Option.ext fun v => ?_
  rw [value?_eq_some_iff ha, hasValue_binary hx hop hi]
  cases hb : g.value? inputs base with
  | none =>
    have hnone : ∀ k, Partial.timesSelf (none : Partial α) k = none := fun k => by
      induction k with
      | zero => rfl
      | succ k ih => rw [Partial.timesSelf, ih]; rfl
    rw [hnone]
    simp only [reduceCtorEq, iff_false]
    rintro ⟨u, w, hu, -⟩
    rw [(value?_eq_some_iff ha).2 hu] at hb
    cases hb
  | some u =>
    have hu := (value?_eq_some_iff ha).1 hb
    rw [← Partial.pow_eq_ok_iff ⟨x, .binary .pow⟩ hn]
    constructor
    · rintro ⟨u', w, hu', hw, h⟩
      rw [hu.unique hu', hexp.unique hw]
      exact h
    · exact fun h => ⟨u, _, hu, hexp, h⟩

theorem value?_of_built (ho : g.Ordered) {s : Int} {M m : Multiset NodeId}
    (hM : ∀ y, M.count y < 2 ^ 53) (h : g.plan.Built s M x m) :
    WithOne.coe (g.value? inputs x) = Partial.productOf (g.value? inputs) m := by
  induction h with
  | leaf => rw [Partial.productOf_singleton]
  | @power x e leaf i j k hx _ hop hi _ _ he _ hj hn =>
    obtain ⟨n, hcount⟩ : ∃ n, M.count leaf = n + 2 := ⟨M.count leaf - 2, by omega⟩
    have hjin : j.inputs = [] := by
      have harity := ho.arity_of_plan he
      rw [hj] at harity
      exact List.length_eq_zero_iff.1 (Option.some.inj harity).symm
    have hlt := hM leaf
    rw [hcount] at hj hlt ⊢
    rw [Partial.productOf_replicate]
    exact congrArg _ (value?_power ho.acyclic hx hop hi he hj hjin hlt)
  | product hx _ hop hi _ _ _ iha ihb =>
    rw [value?_product ho.acyclic hx hop hi, WithOne.coe_mul, iha, ihb, Partial.productOf_add]

end Graph
end LinearPlan
