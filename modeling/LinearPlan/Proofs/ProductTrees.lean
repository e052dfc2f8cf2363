import LinearPlan.Proofs.LeafOrder
import LinearPlan.Proofs.Soundness
import LinearPlan.Proofs.Unfoldings
import Mathlib.Algebra.Order.Group.Multiset

/-!
# Trees of products

A product in a plan has a multiset of factors: the nodes that are no products themselves, each as
often as it is multiplied in. Collecting the tree of a product counts exactly these, and finds the
products inside of the tree.
-/
namespace LinearPlan

namespace Plan
variable {P : Plan} {x y : NodeId}

/-- The factors of a node: of a product those of both operands, else the node itself. -/
inductive Factors (P : Plan) : NodeId → Multiset NodeId → Prop
  | leaf {x : NodeId} {i : Item} (hx : P x = some i) (hm : i.op.isMult = false) : Factors P x {x}
  | product {x a b : NodeId} {i : Item} {m m' : Multiset NodeId} (hx : P x = some i)
      (hm : i.op.isMult = true) (hi : i.inputs = [a, b]) (ha : Factors P a m)
      (hb : Factors P b m') : Factors P x (m + m')

/-- The products that a product consists of, itself included. -/
inductive Inside (P : Plan) (root : NodeId) : NodeId → Prop
  | root {i : Item} (hx : P root = some i) (hm : i.op.isMult = true) : Inside P root root
  | step {x y : NodeId} {i j : Item} (h : Inside P root x) (hx : P x = some i) (hy : y ∈ i.inputs)
      (hj : P y = some j) (hm : j.op.isMult = true) : Inside P root y

theorem Inside.product (h : P.Inside x y) : ∃ i, P y = some i ∧ i.op.isMult = true := by
  cases h with
  | root hx hm => exact ⟨_, hx, hm⟩
  | step _ _ _ hj hm => exact ⟨_, hj, hm⟩

theorem Inside.isMult {i : Item} (h : P.Inside x y) (hi : P y = some i) : i.op.isMult = true := by
  obtain ⟨j, hj, hm⟩ := h.product
  cases hi.symm.trans hj
  exact hm

theorem Inside.base (h : P.Inside x y) : P.Inside x x := by
  induction h with
  | root hx hm => exact .root hx hm
  | step _ _ _ _ _ ih => exact ih

theorem Inside.trans {z : NodeId} (h : P.Inside x y) (h' : P.Inside y z) : P.Inside x z := by
  induction h' with
  | root _ _ => exact h
  | step _ hx hy hj hm ih => exact .step ih hx hy hj hm

theorem Inside.mem_of_closed {S : NodeId → Prop}
    (hS : ∀ x i, S x → P x = some i → ∀ y ∈ i.inputs, S y) (h : P.Inside x y) (hx : S x) :
    S y := by
  induction h with
  | root => exact hx
  | step _ hz hy _ _ ih => exact hS _ _ ih hz _ hy

theorem inside_iff {i : Item} {a b : NodeId} (hx : P x = some i) (hm : i.op.isMult = true)
    (hi : i.inputs = [a, b]) : P.Inside x y ↔ y = x ∨ P.Inside a y ∨ P.Inside b y := by
  have hsub : ∀ {c z}, c ∈ i.inputs → P.Inside c z → P.Inside x z := by
    intro c z hc hz
    obtain ⟨j, hj, hjm⟩ := hz.base.product
    exact (Inside.step (.root hx hm) hx hc hj hjm).trans hz
  constructor
  · intro h
    induction h with
    | root _ _ => exact .inl rfl
    | @step z w k j _ hz hw hj hjm ih =>
      rcases ih with rfl | ih | ih
      · rw [hx] at hz
        cases hz
        rw [hi] at hw
        rcases List.mem_cons.1 hw with rfl | hw
        · exact .inr (.inl (.root hj hjm))
        · rw [List.mem_singleton.1 hw] at hj ⊢
          exact .inr (.inr (.root hj hjm))
      · exact .inr (.inl (.step ih hz hw hj hjm))
      · exact .inr (.inr (.step ih hz hw hj hjm))
  · rintro (rfl | h | h)
    · exact .root hx hm
    · exact hsub (hi ▸ List.mem_cons_self) h
    · exact hsub (hi ▸ List.mem_cons_of_mem a List.mem_cons_self) h

theorem not_inside_of_leaf {i : Item} (hx : P x = some i) (hm : i.op.isMult = false) :
    ¬ P.Inside x y := by
  intro h
  obtain ⟨j, hj, hjm⟩ := h.base.product
  rw [hx] at hj
  cases hj
  rw [hm] at hjm
  cases hjm

theorem Factors.mem {m : Multiset NodeId} (h : P.Factors x m) (hy : y ∈ m) :
    ∃ j, P y = some j ∧ j.op.isMult = false ∧
      (y = x ∨ ∃ z k, P.Inside x z ∧ P z = some k ∧ y ∈ k.inputs) := by
  induction h with
  | leaf hx hm =>
    rw [Multiset.mem_singleton.1 hy]
    exact ⟨_, hx, hm, .inl rfl⟩
  | @product x a b i m m' hx hm hi ha hb iha ihb =>
    have hcase : ∀ {c}, c ∈ i.inputs → (∃ j, P y = some j ∧ j.op.isMult = false ∧
        (y = c ∨ ∃ z k, P.Inside c z ∧ P z = some k ∧ y ∈ k.inputs)) →
        ∃ j, P y = some j ∧ j.op.isMult = false ∧
          (y = x ∨ ∃ z k, P.Inside x z ∧ P z = some k ∧ y ∈ k.inputs) := by
      rintro c hc ⟨j, hj, hjm, rfl | ⟨z, k, hz, hk, hyk⟩⟩
      · exact ⟨j, hj, hjm, .inr ⟨x, i, .root hx hm, hx, hc⟩⟩
      · refine ⟨j, hj, hjm, .inr ⟨z, k, (inside_iff hx hm hi).2 ?_, hk, hyk⟩⟩
        rw [hi] at hc
        rcases List.mem_cons.1 hc with rfl | hc
        · exact .inr (.inl hz)
        · rw [List.mem_singleton.1 hc] at hz
          exact .inr (.inr hz)
    rcases Multiset.mem_add.1 hy with hy | hy
    · exact hcase (hi ▸ List.mem_cons_self) (iha hy)
    · exact hcase (hi ▸ List.mem_cons_of_mem a List.mem_cons_self) (ihb hy)

theorem Factors.unique {m m' : Multiset NodeId} (h : P.Factors x m) (h' : P.Factors x m') :
    m = m' := by
  induction h generalizing m' with
  | leaf hx hm =>
    cases h' with
    | leaf => rfl
    | product hx' hm' =>
      rw [hx] at hx'
      cases hx'
      rw [hm] at hm'
      cases hm'
  | product hx hm hi _ _ iha ihb =>
    cases h' with
    | leaf hx' hm' =>
      rw [hx] at hx'
      cases hx'
      rw [hm] at hm'
      cases hm'
    | product hx' hm' hi' ha' hb' =>
      rw [hx] at hx'
      cases hx'
      rw [hi] at hi'
      cases hi'
      rw [iha ha', ihb hb']

theorem Factors.mem_of_closed {S : NodeId → Prop} {m : Multiset NodeId}
    (hS : ∀ x i, S x → P x = some i → ∀ y ∈ i.inputs, S y) (h : P.Factors x m) (hx : S x)
    (hy : y ∈ m) : S y := by
  obtain ⟨-, -, -, rfl | ⟨z, k, hz, hk, hyk⟩⟩ := h.mem hy
  · exact hx
  · exact hS z k (hz.mem_of_closed hS hx) hk y hyk

theorem Factors.mem_of_inside {z : NodeId} {i j : Item} {m : Multiset NodeId} (h : P.Factors x m)
    (hz : P.Inside x z) (hi : P z = some i) (hy : y ∈ i.inputs) (hj : P y = some j)
    (hm : j.op.isMult = false) : y ∈ m := by
  induction h with
  | leaf hx hmx => exact absurd hz (not_inside_of_leaf hx hmx)
  | @product x a b k m m' hx hmx hin ha hb iha ihb =>
    rw [Multiset.mem_add]
    rcases (inside_iff hx hmx hin).1 hz with rfl | hz | hz
    · rw [hx] at hi
      cases hi
      rw [hin] at hy
      rcases List.mem_cons.1 hy with rfl | hy
      · rw [ha.unique (.leaf hj hm)]
        exact .inl (Multiset.mem_singleton_self y)
      · rw [← List.mem_singleton.1 hy] at hb
        rw [hb.unique (.leaf hj hm)]
        exact .inr (Multiset.mem_singleton_self y)
    · exact .inl (iha hz)
    · exact .inr (ihb hz)

theorem Factors.ne_zero {m : Multiset NodeId} (h : P.Factors x m) : m ≠ 0 := by
  induction h with
  | leaf _ _ => simp
  | product _ _ _ _ _ iha _ =>
    rw [Ne, ← Multiset.card_eq_zero] at iha ⊢
    rw [Multiset.card_add]
    omega

/-- A product that may be factored: another product is inside, a factor is repeated, and what is inside
is used inside only. -/
structure Collapsible (P : Plan) (x : NodeId) : Prop where
  inner : ∃ y, P.Inside x y ∧ y ≠ x
  repeated : ∃ m y, P.Factors x m ∧ 1 < m.count y
  closed : ∀ {y p i}, P.Inside x y → y ≠ x → P p = some i → y ∈ i.inputs → P.Inside x p

theorem Collapsible.product (h : P.Collapsible x) : ∃ i, P x = some i ∧ i.op.isMult = true := by
  obtain ⟨y, hy, -⟩ := h.inner
  exact hy.base.product

theorem Inside.rank_le {rank : NodeId → Nat} (hrank : P.Ranked rank) (h : P.Inside x y) :
    rank y ≤ rank x := by
  induction h with
  | root => exact le_rfl
  | step _ hx hy _ _ ih => exact (hrank hx hy).le.trans ih

theorem Inside.of_operand {c w : NodeId} {i : Item} (hx : P.Inside x y) (hi : P y = some i)
    (hc : c ∈ i.inputs) (hw : P.Inside c w) : P.Inside x w := by
  obtain ⟨k, hk, hkm⟩ := hw.base.product
  exact (hx.step hi hc hk hkm).trans hw

structure Unshared (P : Plan) (root : NodeId) : Prop where
  distinct : ∀ {x i}, P.Inside root x → P x = some i → i.inputs.Nodup
  user : ∀ {x x' y i i'}, P.Inside root x → P.Inside root x' → P x = some i → P x' = some i' →
    y ∈ i.inputs → y ∈ i'.inputs → x = x'

namespace Unshared
variable {rank : NodeId → Nat} {root a b c w z : NodeId} {i j : Item}

theorem not_mem (h : P.Unshared root) (hrank : P.Ranked rank) (hx : P.Inside root x)
    (hi : P x = some i) (hy : y ∈ i.inputs) (hc : c ∈ i.inputs) (hw : P.Inside c w)
    (hj : P w = some j) : y ∉ j.inputs := by
  intro hyj
  have he := h.user (hx.of_operand hi hc hw) hx hj hi hyj hy
  have hle := hw.rank_le hrank
  have hlt := hrank hi hc
  rw [he] at hle
  omega

theorem apart (h : P.Unshared root) (hrank : P.Ranked rank) (hx : P.Inside root x)
    (hi : P x = some i) (hin : i.inputs = [a, b]) (ha : P.Inside a z) : ¬ P.Inside b z := by
  have hma : a ∈ i.inputs := hin ▸ List.mem_cons_self
  have hmb : b ∈ i.inputs := hin ▸ List.mem_cons_of_mem a List.mem_cons_self
  induction ha with
  | root _ _ =>
    intro hb
    cases hb with
    | root _ _ =>
      have hnodup := h.distinct hx hi
      simp [hin] at hnodup
    | step hw hj hz _ _ => exact h.not_mem hrank hx hi hma hmb hw hj hz
  | step hw hj hz _ _ ih =>
    intro hb
    cases hb with
    | root _ _ => exact h.not_mem hrank hx hi hmb hma hw hj hz
    | step hw' hj' hz' _ _ =>
      have he := h.user (hx.of_operand hi hma hw) (hx.of_operand hi hmb hw') hj hj' hz hz'
      exact ih (he ▸ hw')

theorem nodup (h : P.Unshared root) (hrank : P.Ranked rank) {m : Multiset NodeId}
    (hm : P.Factors x m) (hx : ∀ i, P x = some i → i.op.isMult = true → P.Inside root x) :
    m.Nodup := by
  induction hm with
  | leaf _ _ => exact Multiset.nodup_singleton _
  | @product x a b i m m' hi hmult hin hfa hfb iha ihb =>
    have hx := hx i hi hmult
    have hma : a ∈ i.inputs := hin ▸ List.mem_cons_self
    have hmb : b ∈ i.inputs := hin ▸ List.mem_cons_of_mem a List.mem_cons_self
    rw [Multiset.nodup_add, Multiset.disjoint_left]
    refine ⟨iha fun j hj hjm => hx.step hi hma hj hjm, ihb fun j hj hjm => hx.step hi hmb hj hjm,
      fun {y} hy hy' => ?_⟩
    obtain ⟨-, -, -, rfl | ⟨w, j, hw, hj, hyj⟩⟩ := hfa.mem hy
    · obtain ⟨-, -, -, rfl | ⟨w', j', hw', hj', hyj'⟩⟩ := hfb.mem hy'
      · have hnodup := h.distinct hx hi
        simp [hin] at hnodup
      · exact h.not_mem hrank hx hi hma hmb hw' hj' hyj'
    · obtain ⟨-, -, -, rfl | ⟨w', j', hw', hj', hyj'⟩⟩ := hfb.mem hy'
      · exact h.not_mem hrank hx hi hmb hma hw hj hyj
      · have he := h.user (hx.of_operand hi hma hw) (hx.of_operand hi hmb hw') hj hj' hyj hyj'
        exact h.apart hrank hx hi hin hw (he ▸ hw')

end Unshared
end Plan

namespace Optimizer.Factoring
open LinearPlan.Graph
variable {g : Graph}

theorem isMult_iff {op : Op} : op.isMult = true ↔ op = .binary .mult := by
  unfold Op.isMult Op.binaryOp
  cases op <;> simp [BinaryOp.absent]

theorem inputs_of_isMult (h : g.Linked) {x : NodeId} {i : Item} (hx : g.plan x = some i)
    (hm : i.op.isMult = true) : ∃ a b, i.inputs = [a, b] := by
  have ha := h.arity_of_plan hx
  rw [isMult_iff.1 hm] at ha
  exact List.length_eq_two.1 (Option.some.inj ha).symm

section Unfolding
variable {todo products leaves : List NodeId}

theorem Unfolds.factors (hu : Unfolds g todo products leaves) (h : g.Linked)
    (hlive : ∀ x ∈ todo, ∃ i, g.plan x = some i) :
    ∃ ms, List.Forall₂ g.plan.Factors todo ms ∧ ms.sum = (leaves : Multiset NodeId) := by
  induction hu with
  | nil => exact ⟨[], .nil, rfl⟩
  | @leaf x n rest products leaves hn hm _ ih =>
    obtain ⟨⟨i, hi⟩, hrest⟩ := List.forall_mem_cons.1 hlive
    obtain ⟨n', hn', -, rfl⟩ := get?_of_plan hi
    cases hn.symm.trans hn'
    obtain ⟨ms, hms, hsum⟩ := ih hrest
    exact ⟨{x} :: ms, .cons (.leaf hi hm) hms, by rw [List.sum_cons, hsum]; rfl⟩
  | @product x n rest inner leaves products leaves' hn hm _ _ ihb iha =>
    obtain ⟨⟨i, hi⟩, hrest⟩ := List.forall_mem_cons.1 hlive
    obtain ⟨n', hn', -, rfl⟩ := get?_of_plan hi
    cases hn.symm.trans hn'
    obtain ⟨ms, hms, hsum⟩ := ihb (h.closed hi)
    obtain ⟨ms', hms', hsum'⟩ := iha hrest
    obtain ⟨a, b, hab⟩ := inputs_of_isMult h hi hm
    have hab : n.inputs = [a, b] := hab
    rw [hab] at hms
    obtain ⟨m, _, ha, hone, rfl⟩ := List.forall₂_cons_left_iff.1 hms
    obtain ⟨m', _, hb, hnil, rfl⟩ := List.forall₂_cons_left_iff.1 hone
    cases hnil
    refine ⟨(m + m') :: ms', .cons (.product hi hm hab ha hb) hms', ?_⟩
    rw [List.sum_cons, hsum', ← Multiset.coe_add, ← hsum]
    simp

theorem Unfolds.mem_products (hu : Unfolds g todo products leaves) (h : g.Linked)
    (hlive : ∀ x ∈ todo, ∃ i, g.plan x = some i) {y : NodeId} :
    y ∈ products ↔ ∃ x ∈ todo, g.plan.Inside x y := by
  induction hu with
  | nil => simp
  | @leaf x n rest products leaves hn hm _ ih =>
    obtain ⟨⟨i, hi⟩, hrest⟩ := List.forall_mem_cons.1 hlive
    obtain ⟨n', hn', -, rfl⟩ := get?_of_plan hi
    cases hn.symm.trans hn'
    simp [ih hrest, Plan.not_inside_of_leaf hi hm]
  | @product x n rest inner leaves products leaves' hn hm _ _ ihb iha =>
    obtain ⟨⟨i, hi⟩, hrest⟩ := List.forall_mem_cons.1 hlive
    obtain ⟨n', hn', -, rfl⟩ := get?_of_plan hi
    cases hn.symm.trans hn'
    have hinner := ihb (h.closed hi)
    obtain ⟨a, b, hab⟩ := inputs_of_isMult h hi hm
    have hab : n.inputs = [a, b] := hab
    simp [hinner, iha hrest, Plan.inside_iff hi hm hab, hab, or_assoc]

end Unfolding

structure Collected (g : Graph) (root : NodeId) (t : Tree) (m : Multiset NodeId) : Prop where
  factors : g.plan.Factors root m
  count : ∀ y, t.leaves.count y = m.count y
  interior : ∀ y, y ∈ t.interior ↔ g.plan.Inside root y
  members : ∀ y, y ∈ t.members ↔ y ∈ t.interior
  head : ∃ rest, t.interior = root :: rest
  nodup : t.interior.Nodup
  wellFormed : t.leaves.WellFormed

theorem collect_ok (h : g.Ordered) {x : NodeId} {i : Item} (hx : g.plan x = some i)
    (hm : i.op.isMult = true) : ∃ t m, collect g x = .ok t ∧ Collected g x t m := by
  obtain ⟨rank, hrank, hlt⟩ := exists_rank_lt_size h.acyclic h.closed
  obtain ⟨n, hn, -, rfl⟩ := get?_of_plan hx
  have hops : ∀ x, ∀ y ∈ g.inputsOf x, ∃ n, g.get? y = some n := fun x y hy =>
    (h.operand_live hy).imp fun _ hm => hm.1
  obtain ⟨t, ht⟩ := collect_total (h.ranked_iff.1 hrank) hops hn (hlt hx).le
  obtain ⟨n', products, leaves, hn', hu, rfl⟩ := unfolds_of_collect ht
  cases hn.symm.trans hn'
  have hroot : Unfolds g [x] (x :: products) leaves := by simpa using Unfolds.product hn hm hu .nil
  have hlive : ∀ y ∈ [x], ∃ i, g.plan y = some i := by simpa using ⟨_, hx⟩
  obtain ⟨ms, hms, hsum⟩ := hroot.factors h.toLinked hlive
  obtain ⟨m, _, hfactors, hnil, rfl⟩ := List.forall₂_cons_left_iff.1 hms
  cases hnil
  rw [List.sum_singleton] at hsum
  rw [gather_empty] at ht
  refine ⟨_, m, ht, hfactors, fun y => ?_, fun y => ?_, fun y => List.mem_reverse,
    ⟨_, List.eraseDups_cons⟩, nodup_eraseDups _, Tally.wellFormed_ofList leaves⟩
  · rw [Tally.count_ofList, hsum, Multiset.coe_count]
  · rw [List.mem_eraseDups, hroot.mem_products h.toLinked hlive]
    simp

namespace Collected
variable {root : NodeId} {t : Tree} {m : Multiset NodeId}

theorem inside (h : Collected g root t m) : g.plan.Inside root root := by
  obtain ⟨rest, hrest⟩ := h.head
  exact (h.interior root).1 (hrest ▸ List.mem_cons_self)

theorem mem_keys (h : Collected g root t m) {y : NodeId} : y ∈ t.leaves.keys ↔ y ∈ m := by
  rw [h.wellFormed.mem_keys, h.count, Multiset.count_pos]

theorem users (h : Collected g root t m) (hl : g.Linked) (hf : t.hasForeignParent g = false)
    {y p : NodeId} {k : Item} (hy : y ∈ t.interior) (hne : y ≠ root) (hp : g.plan p = some k)
    (hk : y ∈ k.inputs) : p ∈ t.interior := by
  obtain ⟨rest, hrest⟩ := h.head
  have hy' : y ∈ t.interior.drop 1 := by
    rw [hrest] at hy ⊢
    exact (List.mem_cons.1 hy).resolve_left hne
  unfold Tree.hasForeignParent at hf
  rw [List.any_eq_false] at hf
  have hno := hf y hy'
  rw [Bool.not_eq_true, List.any_eq_false] at hno
  have hmem : p ∈ g.parentsOf y := hl.matched.mem_iff.2 (inputsOf_of_plan hp ▸ hk)
  simpa [h.members] using hno p hmem

/-- A tree with `n` products and a repeated factor has at most `n` different factors. Its products
have `2 n` operands; all products but the root and all factors are among these, and if all operands
are different then no factor is repeated. -/
theorem length_keys_le (h : Collected g root t m) (ho : g.Ordered) (hrep : ∃ y, 1 < m.count y) :
    t.leaves.keys.length ≤ t.interior.length := by
  obtain ⟨rest, hrest⟩ := h.head
  have hnodup := h.nodup
  rw [hrest, List.nodup_cons] at hnodup
  have hproduct : ∀ {x}, x ∈ t.interior → ∃ i, g.plan x = some i ∧ i.op.isMult = true :=
    fun hx => ((h.interior _).1 hx).product
  have hslots : (t.interior.flatMap g.inputsOf).length = 2 * t.interior.length := by
    have htwo : ∀ x ∈ t.interior, (g.inputsOf x).length = 2 := by
      intro x hx
      obtain ⟨i, hi, hm⟩ := hproduct hx
      obtain ⟨a, b, hab⟩ := inputs_of_isMult ho.toLinked hi hm
      rw [inputsOf_of_plan hi, hab]
      rfl
    rw [List.length_flatMap, List.map_congr_left htwo, List.map_const', List.sum_replicate]
    simp [Nat.mul_comm]
  have hmem : ∀ {x y i}, x ∈ t.interior → g.plan x = some i → y ∈ i.inputs →
      y ∈ t.interior.flatMap g.inputsOf := fun hx hi hy =>
    List.mem_flatMap.2 ⟨_, hx, inputsOf_of_plan hi ▸ hy⟩
  have hroot : root ∈ t.interior := hrest ▸ List.mem_cons_self
  obtain ⟨ir, hir, hirm⟩ := hproduct hroot
  have hsub : t.leaves.keys ++ rest ⊆ t.interior.flatMap g.inputsOf := by
    intro y hy
    rcases List.mem_append.1 hy with hy | hy
    · obtain ⟨j, hj, hjm, rfl | ⟨z, k, hz, hk, hyk⟩⟩ := h.factors.mem (h.mem_keys.1 hy)
      · rw [hj] at hir
        cases hir
        rw [hjm] at hirm
        cases hirm
      · exact hmem ((h.interior z).2 hz) hk hyk
    · have hyi : y ∈ t.interior := hrest ▸ List.mem_cons_of_mem root hy
      have hyr : y ≠ root := fun he => hnodup.1 (he ▸ hy)
      cases (h.interior y).1 hyi with
      | root _ _ => exact absurd rfl hyr
      | step hz hk hyk _ _ => exact hmem ((h.interior _).2 hz) hk hyk
  have hdisjoint : (t.leaves.keys ++ rest).Nodup := by
    refine List.nodup_append.2 ⟨h.wellFormed.nodup, hnodup.2, fun y hy z hz he => ?_⟩
    subst he
    obtain ⟨j, hj, hjm, -⟩ := h.factors.mem (h.mem_keys.1 hy)
    obtain ⟨i, hi, him⟩ := hproduct (hrest ▸ List.mem_cons_of_mem root hz)
    rw [hj] at hi
    cases hi
    rw [hjm] at him
    cases him
  have hperm := List.subperm_of_subset hdisjoint hsub
  by_contra hlt
  -- All operands are different then.
  have hall : (t.interior.flatMap g.inputsOf).Nodup := by
    refine (hperm.perm_of_length_le ?_).nodup_iff.1 hdisjoint
    rw [hslots, List.length_append, hrest, List.length_cons]
    rw [hrest, List.length_cons] at hlt
    omega
  rw [List.nodup_flatMap] at hall
  have hun : g.plan.Unshared root := by
    refine ⟨fun {x i} hx hi => ?_, fun {x x' y i i'} hx hx' hi hi' hy hy' => ?_⟩
    · rw [← inputsOf_of_plan hi]
      exact hall.1 x ((h.interior x).2 hx)
    · by_contra hne
      rw [← inputsOf_of_plan hi] at hy
      rw [← inputsOf_of_plan hi'] at hy'
      have hsymm : Std.Symm (Function.onFun List.Disjoint g.inputsOf) :=
        ⟨fun _ _ hd => List.Disjoint.symm hd⟩
      exact hall.2.forall ((h.interior x).2 hx) ((h.interior x').2 hx') hne hy hy'
  obtain ⟨rank, hrank⟩ := ho.acyclic
  obtain ⟨y, hy⟩ := hrep
  have hone := hun.nodup hrank h.factors fun _ _ _ => (h.interior root).1 hroot
  exact absurd (Multiset.nodup_iff_count_le_one.1 hone y) (not_le.2 hy)

end Collected

theorem sortLeaves_ok {leaves : List NodeId} (h : ∀ y ∈ leaves, ∃ i, g.plan y = some i) :
    ∃ l, sortLeaves g leaves = .ok l ∧ l.Perm leaves := by
  have hnode : ∀ y ∈ leaves, ∃ n, g.get? y = some n := by
    intro y hy
    obtain ⟨i, hi⟩ := h y hy
    obtain ⟨n, hn, -⟩ := get?_of_plan hi
    exact ⟨n, hn⟩
  obtain ⟨l, hrun, hperm, -⟩ := sortLeaves_sorted hnode
  exact ⟨l, hrun, hperm⟩

end Optimizer.Factoring
end LinearPlan
