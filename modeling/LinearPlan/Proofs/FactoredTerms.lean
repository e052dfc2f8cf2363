import LinearPlan.Proofs.RuleValues
import Mathlib.Data.Set.Card

/-!
# The terms of a factored product

A factor of a product is counted once for every way that leads down to it through products, so a
product that is shared counts as often as it is reached. The replacement has a tree of its own: all
of its products are new, and it has one term for each factor, reached in one way only. The term is
the factor itself or a new power of it, whose exponent is the number of ways to the factor before.

There are no more factors than products inside the old tree, and one product less than factors in the
new one, so each replacement leaves fewer products than there were.
-/
namespace LinearPlan

namespace Plan
variable {P P' : Plan} {x y z a b : NodeId} {i : Item} {way : List Nat} {m M : Multiset NodeId}

/-- A way down from a node through products, by the positions of the operands that it takes. -/
inductive Path (P : Plan) : NodeId → List Nat → NodeId → Prop
  | nil (x : NodeId) : Path P x [] x
  | cons {x y z : NodeId} {i : Item} {pos : Nat} {way : List Nat} (hx : P x = some i)
      (hm : i.op.isMult = true) (hy : i.inputs[pos]? = some y) (h : Path P y way z) :
      Path P x (pos :: way) z

def ways (P : Plan) (x y : NodeId) : Set (List Nat) := {way | P.Path x way y}

/-- The products that are found below a node through products, itself included. -/
def interior (P : Plan) (x : NodeId) : Set NodeId :=
  {y | (P.ways x y).Nonempty ∧ ∃ i, P y = some i ∧ i.op.isMult = true}

/-- The other nodes that are found there. -/
def leaves (P : Plan) (x : NodeId) : Set NodeId :=
  {y | (P.ways x y).Nonempty ∧ ∃ i, P y = some i ∧ i.op.isMult = false}

theorem not_product {j : Item} (hx : P x = some i) (hm : i.op.isMult = false) (hj : P x = some j) :
    ¬ j.op.isMult = true := by
  rw [hx] at hj
  cases hj
  simp [hm]

theorem ways_self (hx : P x = some i) (hm : i.op.isMult = false) : P.ways x x = {[]} := by
  ext way
  constructor
  · rintro (_ | ⟨hj, hjm, -, -⟩)
    · rfl
    · exact absurd hjm (not_product hx hm hj)
  · rintro rfl
    exact .nil x

theorem ways_of_ne (hx : P x = some i) (hm : i.op.isMult = false) (hy : y ≠ x) :
    P.ways x y = ∅ := by
  rw [Set.eq_empty_iff_forall_notMem]
  rintro way (_ | ⟨hj, hjm, -, -⟩)
  · exact hy rfl
  · exact not_product hx hm hj hjm

theorem ways_product (hx : P x = some i) (hm : i.op.isMult = true) (hi : i.inputs = [a, b])
    (hy : y ≠ x) :
    P.ways x y = List.cons 0 '' P.ways a y ∪ List.cons 1 '' P.ways b y := by
  ext way
  constructor
  · rintro (_ | @⟨_, c, _, j, pos, way, hx', -, hc, h⟩)
    · exact absurd rfl hy
    · rw [hx] at hx'
      cases hx'
      rw [hi] at hc
      rcases pos with _ | _ | pos
      · cases hc
        exact .inl ⟨way, h, rfl⟩
      · cases hc
        exact .inr ⟨way, h, rfl⟩
      · simp at hc
  · rintro (⟨way, h, rfl⟩ | ⟨way, h, rfl⟩)
    · exact .cons hx hm (by rw [hi]; rfl) h
    · exact .cons hx hm (by rw [hi]; rfl) h

theorem Factors.encard_ways (h : P.Factors x m) (hy : P y = some i) (hm : i.op.isMult = false) :
    (P.ways x y).encard = m.count y := by
  induction h with
  | @leaf x j hx hj =>
    by_cases hyx : y = x
    · subst hyx
      simp [ways_self hx hj]
    · simp [ways_of_ne hx hj hyx, hyx]
  | @product x a b j m m' hx hj hin _ _ iha ihb =>
    have hyx : y ≠ x := fun he => not_product hy hm (he ▸ hx) hj
    have hdisjoint : Disjoint (List.cons 0 '' P.ways a y) (List.cons 1 '' P.ways b y) := by
      rw [Set.disjoint_left]
      rintro _ ⟨w, -, rfl⟩ ⟨w', -, he⟩
      cases he
    rw [ways_product hx hj hin hyx, Set.encard_union_eq hdisjoint,
      List.cons_injective.encard_image, List.cons_injective.encard_image, iha, ihb,
      Multiset.count_add, Nat.cast_add]

theorem Factors.mem_leaves (h : P.Factors x m) : y ∈ P.leaves x ↔ y ∈ m := by
  constructor
  · rintro ⟨hne, i, hi, hm⟩
    rw [← Set.encard_ne_zero, h.encard_ways hi hm, Nat.cast_ne_zero] at hne
    exact Multiset.count_ne_zero.1 hne
  · intro hy
    obtain ⟨i, hi, hm, -⟩ := h.mem hy
    refine ⟨?_, i, hi, hm⟩
    rw [← Set.encard_ne_zero, h.encard_ways hi hm, Nat.cast_ne_zero]
    exact Multiset.count_ne_zero.2 hy

theorem Path.inside (h : P.Path x way y) (hy : P y = some i) (hm : i.op.isMult = true) :
    P.Inside x y := by
  induction h with
  | nil => exact .root hy hm
  | cons hx hxm hc _ ih =>
    have hin := ih hy
    obtain ⟨j, hj, hjm⟩ := hin.base.product
    exact (Inside.step (.root hx hxm) hx (List.mem_of_getElem? hc) hj hjm).trans hin

theorem Inside.exists_path (h : P.Inside x y) : ∃ way, P.Path x way y := by
  have hend : ∀ {x y z : NodeId} {way : List Nat} {i : Item} {pos : Nat}, P.Path x way y →
      P y = some i → i.op.isMult = true → i.inputs[pos]? = some z → P.Path x (way ++ [pos]) z := by
    intro x y z way i pos h
    induction h with
    | nil => exact fun hy hm hz => .cons hy hm hz (.nil z)
    | cons hx hxm hc _ ih => exact fun hy hm hz => .cons hx hxm hc (ih hy hm hz)
  induction h with
  | root => exact ⟨[], .nil x⟩
  | step hin hx hy _ _ ih =>
    obtain ⟨way, hway⟩ := ih
    obtain ⟨j, hj, hm⟩ := hin.product
    rw [hx] at hj
    cases hj
    obtain ⟨pos, hpos⟩ := List.mem_iff_getElem?.1 hy
    exact ⟨_, hend hway hx hm hpos⟩

theorem mem_interior : y ∈ P.interior x ↔ P.Inside x y := by
  constructor
  · rintro ⟨⟨way, h⟩, i, hi, hm⟩
    exact h.inside hi hm
  · exact fun h => ⟨h.exists_path, h.product⟩

/-- What stands for a factor that is reached in a number of ways, among nodes that are new from the
id `s` on. The exponent is exact as far as floating-point numbers are. -/
inductive TermFor (P : Plan) (s leaf : Int) : Nat → NodeId → Prop
  | once (hs : leaf < s) : TermFor P s leaf 1 leaf
  | power {k : Nat} {x e : Int} {i j : Item} (hk : 2 ≤ k) (hx : P x = some i) (hs : s ≤ x)
      (hop : i.op = .binary .pow) (hi : i.inputs = [leaf, e]) (he : P e = some j) (hes : s ≤ e)
      (hj : j.op = .literal (.ofInt k)) (hexact : k < 2 ^ 53 → j.op.literalInt? = some (k : Int)) :
      TermFor P s leaf k x

theorem TermFor.unique {s y z x : Int} {k k' : Nat} (h : P.TermFor s y k x)
    (h' : P.TermFor s z k' x) : y = z := by
  cases h with
  | once hs =>
    cases h' with
    | once => rfl
    | power _ _ hs' => omega
  | power _ hx hs _ hi =>
    cases h' with
    | once hs' => omega
    | power _ hx' _ _ hi' =>
      rw [hx] at hx'
      cases hx'
      rw [hi] at hi'
      cases hi'
      rfl

theorem TermFor.of_wires {s y : Int} {k : Nat} (h : P.wires = P'.wires) (ht : P.TermFor s y k x) :
    P'.TermFor s y k x := by
  cases ht with
  | once hs => exact .once hs
  | power hk hx hs hop hi he hes hj hexact =>
    obtain ⟨i', hx', hop', hin'⟩ := exists_of_wires h hx
    obtain ⟨j', he', hj', -⟩ := exists_of_wires h he
    exact .power hk hx' hs (hop'.trans hop) (hin'.trans hi) he' hes (hj'.trans hj) (hj' ▸ hexact)

theorem leaves_self (hx : P x = some i) (hm : i.op.isMult = false) : P.leaves x = {x} := by
  ext y
  rw [(Factors.leaf hx hm).mem_leaves, Multiset.mem_singleton, Set.mem_singleton_iff]

theorem leaves_product (hx : P x = some i) (hm : i.op.isMult = true) (hi : i.inputs = [a, b]) :
    P.leaves x = P.leaves a ∪ P.leaves b := by
  have hne : ∀ {y j}, P y = some j → j.op.isMult = false → y ≠ x := fun hy hj he =>
    not_product hy hj (he ▸ hx) hm
  ext y
  constructor
  · rintro ⟨hw, j, hj, hjm⟩
    rw [ways_product hx hm hi (hne hj hjm), Set.union_nonempty, Set.image_nonempty,
      Set.image_nonempty] at hw
    exact hw.imp (fun h => ⟨h, j, hj, hjm⟩) fun h => ⟨h, j, hj, hjm⟩
  · intro hy
    obtain ⟨j, hj, hjm⟩ : ∃ j, P y = some j ∧ j.op.isMult = false := hy.elim And.right And.right
    refine ⟨?_, j, hj, hjm⟩
    rw [ways_product hx hm hi (hne hj hjm), Set.union_nonempty, Set.image_nonempty,
      Set.image_nonempty]
    exact hy.imp And.left And.left

theorem Built.not_mem {s : Int} {m' : Multiset NodeId} (ha : P.Built s M a m)
    (hb : P.Built s M b m') (hle : m + m' ≤ M) (hy : y ∈ m) : y ∉ m' := by
  intro hy'
  have hcount := Multiset.count_le_of_le y hle
  rw [Multiset.count_add, ha.count_eq hy, hb.count_eq hy'] at hcount
  have hpos := Multiset.count_pos.2 (Multiset.mem_of_le hle (Multiset.mem_add.2 (.inl hy)))
  omega

theorem Built.exists_terms {s : Int} (hleaf : ∀ y ∈ M, ∀ i, P y = some i → i.op.isMult = false)
    (h : P.Built s M x m) (hm : m ≤ M) : ∃ term : NodeId → NodeId,
      Set.BijOn term {y | y ∈ m} (P.leaves x) ∧ ∀ y ∈ m, P.TermFor s y (M.count y) (term y) := by
  classical
  induction h with
  | @leaf x i hx hs hone =>
    have hxm := hleaf x (Multiset.mem_of_le hm (Multiset.mem_singleton_self x)) i hx
    refine ⟨fun y => y, ?_, fun y hy => ?_⟩
    · rw [leaves_self hx hxm]
      simp
    · rw [Multiset.mem_singleton.1 hy, hone]
      exact .once hs
  | @power x e leaf i j k hx hs hop hi hl hls he hes hj hn =>
    have hmem : {y | y ∈ Multiset.replicate (M.count leaf) leaf} = {leaf} := by
      ext y
      simp [Multiset.mem_replicate, show M.count leaf ≠ 0 by omega]
    refine ⟨fun _ => x, ?_, fun y hy => ?_⟩
    · rw [hmem, leaves_self hx (by rw [hop]; rfl), Set.bijOn_singleton]
    · rw [Multiset.eq_of_mem_replicate hy]
      refine .power hn hx hs hop hi he hes hj fun hlt => ?_
      rw [hj]
      exact Number.toInt?_ofInt (by simpa using hlt)
  | @product x a b i m m' hx hs hop hi ha hb hle iha ihb =>
    obtain ⟨ta, hta, hfa⟩ := iha ((Multiset.le_add_right m m').trans hm)
    obtain ⟨tb, htb, hfb⟩ := ihb ((Multiset.le_add_left m' m).trans hm)
    have hright : ∀ {y}, y ∈ m' → y ∉ m := fun hy hy' => ha.not_mem hb hle hy' hy
    have hterm : ∀ y ∈ m + m', P.TermFor s y (M.count y) (if y ∈ m then ta y else tb y) := by
      intro y hy
      split
      · exact hfa y ‹_›
      · exact hfb y ((Multiset.mem_add.1 hy).resolve_left ‹_›)
    have hsplit : {y | y ∈ m + m'} = {y | y ∈ m} ∪ {y | y ∈ m'} := by
      ext y
      simp
    refine ⟨_, ?_, hterm⟩
    have hinj : Set.InjOn (fun y => if y ∈ m then ta y else tb y) {y | y ∈ m + m'} := by
      intro y hy z hz (he : (if y ∈ m then ta y else tb y) = if z ∈ m then ta z else tb z)
      have hyt := hterm y hy
      rw [he] at hyt
      exact hyt.unique (hterm z hz)
    rw [hsplit] at hinj ⊢
    rw [leaves_product hx (by rw [hop]; rfl) hi]
    exact (hta.congr fun y hy => (if_pos hy).symm).union
      (htb.congr fun y hy => (if_neg (hright hy)).symm) hinj

end Plan

namespace Graph
variable {g g' : Graph}

def IsRetired (g : Graph) (x : NodeId) : Prop := ∃ n, g.get? x = some n ∧ n.retired = true

theorem retired_of_plan {x : Int} {i : Item} (hx : g.plan x = some i) (hsize : g.size ≤ g'.size)
    (hgone : g'.plan x = none) : g'.IsRetired x := by
  obtain ⟨h0, hlt⟩ := range_of_plan hx
  obtain ⟨n, hn⟩ := get?_of_lt h0 (hlt.trans_le (Int.ofNat_le.2 hsize))
  refine ⟨n, hn, ?_⟩
  by_contra hr
  rw [plan_eq_some hn (by simpa using hr)] at hgone
  cases hgone

end Graph

namespace Optimizer
open LinearPlan.Graph
variable {p p' : Pass} {g g₁ g' : Graph} {id root : NodeId} {M : Multiset NodeId}

/-- A node stands for a product: what is below it is new, and has one term for each leaf of the
product, which counts the ways to the leaf. The old products are retired. -/
structure CarriesFactors (g : Graph) (id root : NodeId) (g' : Graph) : Prop where
  new : ∀ x : Int, x = root ∨ x ∈ g'.plan.interior root → (g.size : Int) ≤ x
  once : ∀ x ∈ g'.plan.leaves root, (g'.plan.ways root x).encard = 1
  terms : ∃ term : NodeId → NodeId, Set.BijOn term (g.plan.leaves id) (g'.plan.leaves root) ∧
    ∀ y ∈ g.plan.leaves id, ∃ k : Nat, (g.plan.ways id y).encard = k ∧
      g'.plan.TermFor g.size y k (term y)
  retired : ∀ x, x ∈ g.plan.interior id ↔ g'.IsRetired x ∧ ¬ g.IsRetired x

namespace Factoring.Refactored

theorem interior_new (h : Refactored g id M root g₁) {x : NodeId} (hx : g₁.plan.Inside root x) :
    @LE.le Int _ g.size x := by
  induction hx with
  | root => exact h.new
  | step _ hx hy hj hm ih => exact h.operand_of_new hx ih hy hj hm

theorem retired_iff (h : Refactored g id M root g₁) (hres : g₁.Resized g') {x : NodeId} :
    g.plan.Inside id x ↔ g'.IsRetired x ∧ ¬ g.IsRetired x := by
  constructor
  · intro hin
    obtain ⟨i, hi, -⟩ := hin.product
    have hgone := hres.plan_eq_none.2 (h.gone x hin)
    refine ⟨retired_of_plan hi (h.size_le.trans hres.size.ge) hgone, ?_⟩
    rintro ⟨n, hn, hr⟩
    rw [plan_eq_none_of_retired hn hr] at hi
    cases hi
  · rintro ⟨⟨n, hn, hr⟩, hlive⟩
    have hgone := hres.plan_eq_none.1 (plan_eq_none_of_retired hn hr)
    by_contra hin
    obtain ⟨h0, hlt⟩ := range_of_get? hn
    by_cases hx : @LT.lt Int _ x g.size
    · obtain ⟨m, hm⟩ := get?_of_lt h0 hx
      have hmr : m.retired = false := by
        by_contra hmr
        exact hlive ⟨m, hm, by simpa using hmr⟩
      rw [h.kept x hx hin, plan_eq_some hm hmr] at hgone
      cases hgone
    · obtain ⟨i, hi, -⟩ := h.fresh x (not_lt.1 hx) (hres.size ▸ hlt)
      rw [hi] at hgone
      cases hgone

theorem carriesFactors (h : Refactored g id M root g₁) (hres : g₁.Resized g') :
    CarriesFactors g id root g' := by
  obtain ⟨r, hr⟩ := h.built.item
  obtain ⟨N, hN⟩ := exists_factors h.ordered hr
  have hN' := hN.of_wires hres.wires.symm
  refine ⟨?_, fun x hx => ?_, ?_, fun x => ?_⟩
  · rintro x (rfl | hx)
    · exact h.new
    · exact h.interior_new ((Plan.mem_interior.1 hx).of_wires hres.wires)
  · have hpos := Multiset.count_pos.2 (hN'.mem_leaves.1 hx)
    obtain ⟨-, i, hi, hm⟩ := hx
    rw [hN'.encard_ways hi hm, Nat.cast_eq_one]
    exact le_antisymm (h.distinct hN x) hpos
  · obtain ⟨term, hbij, hterm⟩ := h.built.exists_terms h.leaf_op le_rfl
    have hbefore : {y | y ∈ M} = g.plan.leaves id := Set.ext fun y => h.factors.mem_leaves.symm
    have hafter : g₁.plan.leaves root = g'.plan.leaves root :=
      Set.ext fun y => hN.mem_leaves.trans hN'.mem_leaves.symm
    rw [hbefore, hafter] at hbij
    refine ⟨term, hbij, fun y hy => ⟨M.count y, ?_, ?_⟩⟩
    · obtain ⟨-, i, hi, hm⟩ := hy
      exact h.factors.encard_ways hi hm
    · exact (hterm y (h.factors.mem_leaves.1 hy)).of_wires hres.wires.symm
  · exact Plan.mem_interior.trans (h.retired_iff hres)

end Factoring.Refactored

/-- Factoring carries every leaf of a product over with the number of ways to it, and leaves nothing
to factor. -/
theorem factoring_carries_factors (hedges : p.graph.EdgesConsistent)
    (hacyclic : p.graph.plan.Acyclic) (hrun : Factoring.rule.apply id p = .ok (some root) p') :
    CarriesFactors p.graph id root p'.graph ∧ Factoring.rule.apply root p' = .ok none p' := by
  obtain ⟨M, g, hre, hres⟩ := Factoring.refactored_of_apply ⟨hedges.linked, hacyclic⟩ hrun
  refine ⟨hre.carriesFactors hres, ?_⟩
  obtain ⟨i, op, hi, hop⟩ := hre.built.isBinary hre.new
  obtain ⟨j, hj, hjop, -⟩ := hres.item hi
  have hidle := PassM.idle_of_distinct (hres.ordered hre.ordered) hj (hjop.trans hop) fun hN =>
    hre.distinct (hN.of_wires hres.wires)
  exact hidle _ (.inl rfl) p' rfl

def sharedSquare : Graph :=
  (Graph.empty "g").afterCalls [.matrix "A" 2 2 (-1), .matrix "B" 2 2 (-1), .matrix "C" 2 2 (-1),
    .mult 0 1, .mult 3 3, .mult 4 2]

theorem sharedSquare_applies : sharedSquare.Ordered ∧
    ∃ p', Factoring.rule.apply 5 (.start sharedSquare) = .ok (some 11) p' := by
  have hc : sharedSquare.check = .ok () := by decide +kernel
  have hrun : (success? (Factoring.rule.apply 5) (.start sharedSquare)).map Prod.fst =
      some (some 11) := by decide +kernel
  obtain ⟨⟨result, p'⟩, hrun, rfl⟩ := Option.map_eq_some_iff.1 hrun
  exact ⟨check_eq_ok_iff_ordered.1 hc, p', ok_of_success? hrun⟩

theorem factoring_carries_factors_sharedSquare :
    sharedSquare.EdgesConsistent ∧ sharedSquare.plan.Acyclic ∧
    ∃ p', Factoring.rule.apply 5 (.start sharedSquare) = .ok (some 11) p' ∧
      CarriesFactors sharedSquare 5 11 p'.graph ∧ Factoring.rule.apply 11 p' = .ok none p' := by
  obtain ⟨ho, p', hrun⟩ := sharedSquare_applies
  have hedges := ho.toLinked.edgesConsistent
  exact ⟨hedges, ho.acyclic, p', hrun,
    factoring_carries_factors (p := .start sharedSquare) hedges ho.acyclic hrun⟩

namespace Factoring
variable {I : Graph → Prop} {t t' : Tree} {edges : List Edge} {g₂ g₃ : Graph} {x : NodeId}

def productIds (g : Graph) : List NodeId :=
  g.ids.filter fun x => (g.get? x).any fun n => !n.retired && n.op.isMult

def newProductIds (g g' : Graph) : List NodeId :=
  (productIds g').filter fun x : Int => decide ((g.size : Int) ≤ x)

theorem any_product_iff : ((g.get? x).any fun n => !n.retired && n.op.isMult) = true ↔
    ∃ i, g.plan x = some i ∧ i.op.isMult = true := by
  constructor
  · intro h
    obtain ⟨n, hn, hp⟩ := Option.any_eq_true _ _ |>.1 h
    rw [Bool.and_eq_true, Bool.not_eq_true'] at hp
    exact ⟨n.item, plan_eq_some hn hp.1, hp.2⟩
  · rintro ⟨i, hi, hm⟩
    obtain ⟨n, hn, hr, rfl⟩ := get?_of_plan hi
    have hop : n.op.isMult = true := hm
    simp [hn, hr, hop]

theorem mem_productIds : x ∈ productIds g ↔ ∃ i, g.plan x = some i ∧ i.op.isMult = true := by
  rw [productIds, List.mem_filter, any_product_iff]
  refine and_iff_right_of_imp ?_
  rintro ⟨i, hi, -⟩
  exact mem_ids.2 (range_of_plan hi)

theorem nodup_productIds (g : Graph) : (productIds g).Nodup :=
  (List.nodup_range.map Int.ofNat_injective).filter _

theorem length_productIds (g : Graph) : (productIds g).length = products g := by
  rw [← List.toFinset_card_of_nodup (nodup_productIds g)]
  unfold products Plan.tally
  refine congrArg Finset.card (Finset.ext fun x => ?_)
  rw [List.mem_toFinset, mem_productIds, Plan.mem_having]
  refine (and_iff_right_of_imp ?_).symm
  rintro ⟨i, hi, -⟩
  exact range_of_plan hi

theorem productIds_resized (h : g.Resized g') : productIds g' = productIds g := by
  unfold productIds ids
  rw [h.size]
  refine List.filter_congr fun x _ => ?_
  rw [Bool.eq_iff_iff, any_product_iff, any_product_iff]
  constructor
  · rintro ⟨i, hi, hm⟩
    obtain ⟨j, hj, hop, -⟩ := Plan.exists_of_wires h.wires hi
    exact ⟨j, hj, hop ▸ hm⟩
  · rintro ⟨i, hi, hm⟩
    obtain ⟨j, hj, hop, -⟩ := h.item hi
    exact ⟨j, hj, hop ▸ hm⟩

namespace Replacing

theorem plan_eq (h : Replacing I g id t M root edges g₁ g₂ g₃) :
    g₃.plan = Prepared.plan t id root g₁ := by
  obtain ⟨edges', g₂', g₃', hrun₂, hrun₃, -, hrew, -⟩ := h.prepared.retire_ok
  rw [h.moved] at hrun₂
  cases hrun₂
  rw [h.retired] at hrun₃
  cases hrun₃
  exact hrew.plan_eq

theorem built_perm (h : Replacing I g id t M root edges g₁ g₂ g₃) :
    (productIds g₁).Perm (productIds g ++ newProductIds g g₃) := by
  refine (List.perm_ext_iff_of_nodup (nodup_productIds _) ?_).2 fun x => ?_
  · refine List.nodup_append.2 ⟨nodup_productIds g, (nodup_productIds g₃).filter _, ?_⟩
    rintro x hx y hy rfl
    obtain ⟨i, hi, -⟩ := mem_productIds.1 hx
    exact absurd (range_of_plan hi).2 (not_lt.2 (of_decide_eq_true (List.mem_filter.1 hy).2))
  · rw [List.mem_append, newProductIds, List.mem_filter, mem_productIds, mem_productIds,
      mem_productIds, decide_eq_true_eq, h.plan_eq]
    by_cases hx : @LT.lt Int _ x g.size
    · rw [h.prepared.stage.old x hx, or_iff_left fun hnew => absurd hx (not_lt.2 hnew.2)]
    · rw [h.prepared.plan_new (not_lt.1 hx), plan_eq_none_of_size_le (g := g) (not_lt.1 hx),
        and_iff_left (not_lt.1 hx)]
      simp

theorem retired_perm (h : Replacing I g id t M root edges g₁ g₂ g₃) :
    (productIds g₁).Perm (t.interior ++ productIds g₃) := by
  have hc := h.prepared.collected
  refine (List.perm_ext_iff_of_nodup (nodup_productIds _) ?_).2 fun x => ?_
  · refine List.nodup_append.2 ⟨hc.nodup, nodup_productIds g₃, ?_⟩
    rintro x hx y hy rfl
    obtain ⟨i, hi, -⟩ := mem_productIds.1 hy
    rw [h.plan_eq] at hi
    exact (Prepared.plan_eq_some hi).1 hx
  · rw [List.mem_append, mem_productIds, mem_productIds, h.plan_eq]
    by_cases hx : x ∈ t.interior
    · obtain ⟨i, hi, hm⟩ := ((hc.interior x).1 hx).product
      exact iff_of_true ⟨i, h.prepared.stage.extends hi, hm⟩ (.inl hx)
    · rw [Prepared.plan, if_neg hx, or_iff_right hx]
      constructor
      · rintro ⟨i, hi, hm⟩
        exact ⟨i.subst id root, by rw [hi]; rfl, hm⟩
      · rintro ⟨i, hi, hm⟩
        obtain ⟨j, hj, rfl⟩ := Option.map_eq_some_iff.1 hi
        exact ⟨j, hj, hm⟩

end Replacing

/-- A replacement leaves fewer products: the new ones are one less than the leaves of the tree, and
those of the tree are retired. -/
structure Reduces (g : Graph) (t : Tree) (g' : Graph) : Prop where
  leaves_le : t.leaves.size ≤ t.interior.length
  created : (newProductIds g g').length + 1 = t.leaves.size
  nodup : t.interior.Nodup
  retired : ∀ x, x ∈ t.interior ↔ g'.IsRetired x ∧ ¬ g.IsRetired x
  balance : (productIds g').length + t.interior.length =
    (productIds g).length + (newProductIds g g').length
  fewer : (productIds g').length < (productIds g).length

theorem Replacing.reduces (h : Replacing I g id t M root edges g₁ g₂ g₃) (hres : g₃.Resized g') :
    Reduces g t g' := by
  have hc := h.prepared.collected
  have hkeys : t.leaves.keys.length = t.leaves.size := rfl
  have hle := hc.length_keys_le h.prepared.ordered h.prepared.repeated
  have hbuilt := h.built_perm.length_eq
  have hretired := h.retired_perm.length_eq
  have hcount := h.count
  rw [← length_productIds, ← length_productIds, hbuilt, List.length_append, hkeys] at hcount
  rw [hbuilt, List.length_append, List.length_append] at hretired
  have hnew : newProductIds g g' = newProductIds g g₃ := by
    rw [newProductIds, newProductIds, productIds_resized hres]
  refine ⟨by omega, by rw [hnew]; omega, hc.nodup, fun x => ?_, ?_, ?_⟩
  · rw [hc.interior, h.refactored.retired_iff hres]
  · rw [hnew, productIds_resized hres]
    omega
  · rw [productIds_resized hres]
    omega

theorem Collected.perm {M' : Multiset NodeId} (h : Collected g id t M) (h' : Collected g id t' M') :
    t.interior.Perm t'.interior ∧ t.leaves.keys.Perm t'.leaves.keys := by
  obtain rfl := h.factors.unique h'.factors
  constructor
  · refine (List.perm_ext_iff_of_nodup h.nodup h'.nodup).2 fun x => ?_
    rw [h.interior, h'.interior]
  · refine (List.perm_ext_iff_of_nodup h.wellFormed.nodup h'.wellFormed.nodup).2 fun x => ?_
    rw [h.mem_keys, h'.mem_keys]

theorem Reduces.of_perm (h : Reduces g t g') (hi : t.interior.Perm t'.interior)
    (hl : t.leaves.size = t'.leaves.size) : Reduces g t' g' where
  leaves_le := hl ▸ hi.length_eq ▸ h.leaves_le
  created := hl ▸ h.created
  nodup := hi.nodup_iff.1 h.nodup
  retired x := hi.mem_iff.symm.trans (h.retired x)
  balance := hi.length_eq ▸ h.balance
  fewer := h.fewer

/-- Factoring a product makes the number of products in use smaller. -/
theorem factoring_reduces_products (hedges : p.graph.EdgesConsistent)
    (hacyclic : p.graph.plan.Acyclic) (hrun : Factoring.rule.apply id p = .ok (some root) p') :
    ∃ t, collect p.graph id = .ok t ∧ Reduces p.graph t p'.graph := by
  have ho : p.graph.Ordered := ⟨hedges.linked, hacyclic⟩
  obtain ⟨t, M, edges, g₁, g₂, g₃, hstep, hres⟩ := replacing_of_apply ho hrun
  have hc := hstep.prepared.collected
  obtain ⟨i, hi, hm⟩ := hc.inside.product
  obtain ⟨t', M', hrun', hc'⟩ := collect_ok ho hi hm
  obtain ⟨hint, hkeys⟩ := hc.perm hc'
  refine ⟨t', hrun', (hstep.reduces hres).of_perm hint ?_⟩
  simpa [Tally.keys, Tally.size] using hkeys.length_eq

theorem factoring_reduces_products_sharedSquare :
    sharedSquare.EdgesConsistent ∧ sharedSquare.plan.Acyclic ∧
    ∃ p', Factoring.rule.apply 5 (.start sharedSquare) = .ok (some 11) p' ∧
      ∃ t, collect sharedSquare 5 = .ok t ∧ Reduces sharedSquare t p'.graph := by
  obtain ⟨ho, p', hrun⟩ := sharedSquare_applies
  have hedges := ho.toLinked.edgesConsistent
  exact ⟨hedges, ho.acyclic, p', hrun,
    factoring_reduces_products (p := .start sharedSquare) hedges ho.acyclic hrun⟩

end Factoring
end Optimizer
end LinearPlan
