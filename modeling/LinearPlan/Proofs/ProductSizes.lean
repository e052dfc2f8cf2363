import LinearPlan.Proofs.ProductShapes

/-!
# Sizes of products

The type, the values and the dimensions of a product are those of its factors taken together. They
do not depend on the order of the factors nor on how the product is nested, and whether there are any
depends on the factors only. In a graph that is up to date the product of the factors, built anew
with powers for the repeated ones, has the size of the product that it stands for.

Factors may have any of the declared types. What is neither a scalar nor a matrix may have
dimensions of its own, which no product of it keeps.
-/
namespace LinearPlan

namespace Shape
variable {node : NodeRef} {own lhs rhs s t : Shape} {op : BinaryOp} {e : Option Int} {a b c : Int}

structure Common (s : Shape) : Prop where
  type : s.dataType ∈ [DataType.scalar, .matrix, .frame, .object, .unknown]
  rows : -1 ≤ s.rows
  cols : -1 ≤ s.cols

instance (s : Shape) : Decidable s.Common :=
  decidable_of_iff (s.dataType ∈ [DataType.scalar, .matrix, .frame, .object, .unknown] ∧
    -1 ≤ s.rows ∧ -1 ≤ s.cols) ⟨fun h => ⟨h.1, h.2.1, h.2.2⟩, fun h => ⟨h.type, h.rows, h.cols⟩⟩

def extents (s : Shape) : DataType × ValueType × Int × Int :=
  (s.dataType, s.valueType, s.rows, s.cols)

theorem Common.coded (h : s.Common) : s.Coded := by
  intro hm hc
  have htype := h.type
  unfold isMatrix at hm
  unfold isScalar at hc
  cases ht : s.dataType <;> simp [ht, DataType.rank, DataType.ofCode] at htype hm hc ⊢

theorem common_ofScalar (v : ValueType) : (ofScalar v).Common := by
  constructor <;> simp [ofScalar]

theorem neg_one_le_broadcast? (hb : -1 ≤ b) (h : broadcast? a b = some c) : -1 ≤ c := by
  unfold broadcast? at h
  grind

theorem ofBinary_common (hl : lhs.Common) (hr : rhs.Common)
    (h : ofBinary node op own lhs rhs e = .ok s) : s.Common := by
  have hmatrix : DataType.matrix ∈ [DataType.scalar, .matrix, .frame, .object, .unknown] := by simp
  unfold ofBinary at h
  cases hlm : lhs.isMatrix <;> cases hrm : rhs.isMatrix <;>
    simp only [hlm, hrm, if_true, if_false, Bool.false_eq_true] at h
  · split at h
    · cases h
      exact common_ofScalar _
    · cases h
      refine ⟨?_, le_rfl, le_rfl⟩
      unfold DataType.higher
      split
      · exact hr.type
      · exact hl.type
  · cases h
    exact ⟨hmatrix, hr.rows, hr.cols⟩
  · cases h
    exact ⟨hmatrix, hl.rows, hl.cols⟩
  · split at h
    · cases h
    · rename_i rows hrows
      split at h
      · cases h
      · rename_i cols hcols
        cases h
        exact ⟨hmatrix, neg_one_le_broadcast? hr.rows hrows, neg_one_le_broadcast? hr.cols hcols⟩

variable {α : Type} {f : α → Shape} {m m' : Multiset α}

structure Combines (f : α → Shape) (m : Multiset α) (s : Shape) : Prop where
  common : s.Common
  profile : s.profile = (m.map fun x => (f x).profile).sup
  isInt : s.valueType = .int64 ↔ ∀ x ∈ m, (f x).valueType = .int64

structure IsProduct (f : α → Shape) (m : Multiset α) (s : Shape) : Prop extends Combines f m s where
  legal : s.Legal

theorem combines_singleton {x : α} (h : (f x).Common) : Combines f {x} (f x) :=
  ⟨h, by simp, by simp⟩

theorem IsProduct.extents_eq (hs : IsProduct f m s) (ht : IsProduct f m t) :
    s.extents = t.extents := by
  have hv : s.valueType = t.valueType := by
    have hiff := hs.isInt.trans ht.isInt.symm
    cases hsv : s.valueType <;> cases htv : t.valueType <;> simp_all
  have houtline := hs.legal.outline_eq ht.legal (hs.profile.trans ht.profile.symm) hv
  have hrows : max s.rows (-1) = max t.rows (-1) := congrArg Shape.rows houtline
  have hcols : max s.cols (-1) = max t.cols (-1) := congrArg Shape.cols houtline
  rw [max_eq_left hs.common.rows, max_eq_left ht.common.rows] at hrows
  rw [max_eq_left hs.common.cols, max_eq_left ht.common.cols] at hcols
  rw [extents, extents, hrows, hcols, hv, (outline_eq_iff.1 houtline).1]

theorem Combines.mult_cases (node : NodeRef) (own : Shape) (e : Option Int) (hl : Combines f m lhs)
    (hr : Combines f m' rhs) :
    (∃ s, ofBinary node .mult own lhs rhs e = .ok s ∧ IsProduct f (m + m') s) ∨
      (∃ fault, ofBinary node .mult own lhs rhs e = .error fault) ∧
        ¬ ((m + m').map fun x => (f x).profile).sup.Proper := by
  have hsup : ((m + m').map fun x => (f x).profile).sup = lhs.profile ⊔ rhs.profile := by
    rw [Multiset.map_add, Multiset.sup_add, hl.profile, hr.profile]
  rw [hsup]
  refine (ofBinary_cases node .mult own e hl.common.coded hr.common.coded).imp_left ?_
  rintro ⟨s, hs, hlegal, hp⟩
  refine ⟨s, hs, ⟨ofBinary_common hl.common hr.common hs, hp.trans hsup.symm, ?_⟩, hlegal⟩
  rw [ofBinary_valueType hs, binaryValueType_eq_int64_iff (by decide), hl.isInt, hr.isInt]
  simp [or_imp, forall_and]

end Shape

/-- A product of factors, in some order and nesting. -/
inductive Nesting (α : Type) where
  | factor (x : α)
  | times (lhs rhs : Nesting α)
deriving DecidableEq, Repr

namespace Nesting
variable {α : Type} {node : NodeRef} {own : Shape} {f : α → Shape} {nest nest' : Nesting α}

def factors : Nesting α → Multiset α
  | factor x => {x}
  | times lhs rhs => lhs.factors + rhs.factors

/-- The shape of a product as it follows from the shapes of the factors, if these fit. The node and
the shape before are those of each of the products. -/
def shape? (node : NodeRef) (own : Shape) (f : α → Shape) : Nesting α → Option Shape
  | factor x => some (f x)
  | times lhs rhs => do
    let a ← lhs.shape? node own f
    let b ← rhs.shape? node own f
    (Shape.ofBinary node .mult own a b none).toOption

theorem card_factors_pos (nest : Nesting α) : 0 < nest.factors.card := by
  induction nest with
  | factor x => simp [factors]
  | times lhs rhs ihl _ =>
    rw [factors, Multiset.card_add]
    omega

theorem shape?_cases (node : NodeRef) (own : Shape) (nest : Nesting α)
    (h : ∀ x ∈ nest.factors, (f x).Common) :
    (∃ s, nest.shape? node own f = some s ∧ Shape.Combines f nest.factors s ∧
      (2 ≤ nest.factors.card → s.Legal)) ∨
    nest.shape? node own f = none ∧ ¬ (nest.factors.map fun x => (f x).profile).sup.Proper := by
  induction nest with
  | factor x =>
    have hx : (f x).Common := h x (Multiset.mem_singleton_self x)
    exact .inl ⟨f x, rfl, Shape.combines_singleton hx, by simp [factors]⟩
  | times lhs rhs ihl ihr =>
    have hle : ∀ {m m' : Multiset α}, ¬ (m.map fun x => (f x).profile).sup.Proper → m ≤ m' →
        ¬ (m'.map fun x => (f x).profile).sup.Proper := fun hno hm hp =>
      hno (hp.of_le (Multiset.sup_mono (Multiset.subset_of_le (Multiset.map_le_map hm))))
    rcases ihl fun x hx => h x (Multiset.mem_add.2 (.inl hx)) with ⟨a, ha, hsa, -⟩ | ⟨ha, hno⟩
    · rcases ihr fun x hx => h x (Multiset.mem_add.2 (.inr hx)) with ⟨b, hb, hsb, -⟩ | ⟨hb, hno⟩
      · rcases hsa.mult_cases node own none hsb with ⟨s, hs, hprod⟩ | ⟨⟨fault, hfault⟩, hno⟩
        · refine .inl ⟨s, ?_, hprod.toCombines, fun _ => hprod.legal⟩
          simp [shape?, ha, hb, hs, Except.toOption]
        · exact .inr ⟨by simp [shape?, ha, hb, hfault, Except.toOption], hno⟩
      · exact .inr ⟨by simp [shape?, ha, hb], hle hno (Multiset.le_add_left _ _)⟩
    · exact .inr ⟨by simp [shape?, ha], hle hno (Multiset.le_add_right _ _)⟩

theorem eq_factor {x : α} (h : nest.factors = {x}) : nest = factor x := by
  cases nest with
  | factor y => rw [Multiset.singleton_inj.1 h]
  | times lhs rhs =>
    have hcard := congrArg Multiset.card h
    have hl := lhs.card_factors_pos
    have hr := rhs.card_factors_pos
    rw [factors, Multiset.card_add, Multiset.card_singleton] at hcard
    omega

theorem map_extents_of_isProduct {s : Shape} (hs : Shape.IsProduct f nest.factors s)
    (hcard : 2 ≤ nest.factors.card) (h : ∀ x ∈ nest.factors, (f x).Common) :
    (nest.shape? node own f).map Shape.extents = some s.extents := by
  rcases shape?_cases node own nest h with ⟨t, ht, hspan, hlegal⟩ | ⟨-, hno⟩
  · rw [ht, Option.map_some, hs.extents_eq ⟨hspan, hlegal hcard⟩]
  · rw [← hs.profile] at hno
    exact absurd (Shape.profile_proper s) hno

theorem map_extents_eq (hf : nest.factors = nest'.factors) (h : ∀ x ∈ nest.factors, (f x).Common) :
    (nest.shape? node own f).map Shape.extents = (nest'.shape? node own f).map Shape.extents := by
  by_cases hcard : 2 ≤ nest.factors.card
  · rcases shape?_cases node own nest h with ⟨s, hs, hspan, hlegal⟩ | ⟨hs, hno⟩
    · rw [hs, Option.map_some]
      have hprod : Shape.IsProduct f nest.factors s := ⟨hspan, hlegal hcard⟩
      rw [hf] at hprod hcard h
      exact (map_extents_of_isProduct hprod hcard h).symm
    · rcases shape?_cases node own nest' (hf ▸ h) with ⟨t, -, hspan, -⟩ | ⟨ht, -⟩
      · rw [hf, ← hspan.profile] at hno
        exact absurd (Shape.profile_proper t) hno
      · rw [hs, ht]
  · -- A single factor is no product, and keeps its own dimensions.
    have hpos := nest.card_factors_pos
    obtain ⟨x, hx⟩ := Multiset.card_eq_one.1 (show nest.factors.card = 1 by omega)
    rw [eq_factor hx, eq_factor (hf.symm.trans hx)]

end Nesting

namespace Graph
variable {g g' : Graph} {x y a b : NodeId} {i ia ib : Item} {n : Node} {op : BinaryOp}

def CommonShapes (g : Graph) : Prop :=
  ∀ x n, g.get? x = some n → n.retired = false → n.shape.Common

theorem commonShapes_of_ids (h : ∀ x ∈ g.ids, ∀ n ∈ g.get? x, n.shape.Common) : g.CommonShapes :=
  fun x n hn _ => h x (mem_ids.2 (range_of_get? hn)) n hn

theorem SettledBut.outline {D : NodeId → Prop} (h : g.SettledBut id D) :
    g.SettledBut Shape.outline D :=
  ⟨h.linked, fun x => (h.settled x).imp_right SettledAt.outline⟩

theorem isInt_iff_shapeOf (hx : g.plan x = some i) :
    g.IsInt x ↔ (g.shapeOf x).valueType = .int64 := by
  obtain ⟨n, hn, -, -⟩ := get?_of_plan hx
  rw [isInt_iff hn, shapeOf_eq hn]

theorem profile_shapeOf (hx : g.plan x = some i) : (g.shapeOf x).profile = i.profile := by
  obtain ⟨n, hn, -, rfl⟩ := get?_of_plan hx
  rw [shapeOf_eq hn]
  rfl

theorem Retains.shapeOf_eq (h : g.Retains g') (hx : g.plan x = some i) :
    g'.shapeOf x = g.shapeOf x := by
  obtain ⟨n, hn, -, -⟩ := get?_of_plan hx
  obtain ⟨m, hm, hmn⟩ := get?_of_core? (h x n.core (core?_eq_some hn))
  have hshape : m.core.shape = n.core.shape := congrArg Node.shape hmn
  rw [Graph.shapeOf_eq hm, Graph.shapeOf_eq hn]
  exact hshape

theorem CommonShapes.join (h : g.CommonShapes) (hs : g.AllSettled id) (hx : g.plan x = some i)
    (hop : i.op = .binary op) (hi : i.inputs = [a, b]) (ha : g.plan a = some ia)
    (hb : g.plan b = some ib) : (g.shapeOf x).Legal ∧ i.profile = ia.profile ⊔ ib.profile := by
  obtain ⟨n, na, nb, s, hn, hna, hra, hnb, hrb, hsize, rfl⟩ :=
    (hs.all x).ofBinary hs.linked hx hop hi
  rw [plan_eq_some hna hra] at ha
  rw [plan_eq_some hnb hrb] at hb
  cases ha
  cases hb
  obtain ⟨m, hm, -, rfl⟩ := get?_of_plan hx
  rw [hn] at hm
  cases hm
  rcases Shape.ofBinary_cases ⟨x, n.op⟩ op n.shape nb.op.literalInt? (h a na hna hra).coded
    (h b nb hnb hrb).coded with ⟨s, hs', hlegal, hp⟩ | ⟨⟨fault, hf⟩, -⟩
  · rw [hsize] at hs'
    cases hs'
    exact ⟨shapeOf_eq hn ▸ hlegal, hp⟩
  · rw [hsize] at hf
    cases hf

theorem CommonShapes.joined (h : g.CommonShapes) (hs : g.AllSettled id) : g.plan.Joined where
  binary hx hop hi ha hb := (h.join hs hx hop hi ha hb).2
  literal {x i v} hx hop := by
    obtain ⟨n, hn, hr, rfl⟩ := get?_of_plan hx
    obtain ⟨s, hsize, rfl⟩ := hs.all x n hn hr
    have hnop : n.op = .literal v := hop
    have hres := resolves_of_plan (hs.linked.closed hx)
    rw [sizeNode_eq hres (hs.linked.arity_eq hn hr), hnop] at hsize
    have hshape : n.shape = Shape.ofLiteral v := (Except.ok.inj hsize).symm
    show n.shape.profile = ⊥
    rw [hshape]
    rfl

end Graph

namespace Optimizer.Factoring
open LinearPlan.Graph
variable {g₀ g g₁ : Graph} {M m : Multiset NodeId} {op : Op} {inputs : List NodeId} {a b : NodeId}
  {ia ib : Item}

structure Tidy (g₀ g : Graph) : Prop where
  settled : g.AllSettled id
  common : g.CommonShapes
  retains : g₀.Retains g

theorem Tidy.joined (h : Tidy g₀ g) : g.plan.Joined := h.common.joined h.settled

theorem adding_tidy (h : Tidy g₀ g) {s : Shape} (hin : ∀ y ∈ inputs, ∃ i, g.plan y = some i)
    (ha : op.arity? = some inputs.length)
    (hs : g.sizeNode g.size (Edit.start g op inputs) = .ok s) (hc : s.Common) :
    Adding (Tidy g₀) (fun _ _ => False) g op inputs := by
  have hlive : ∀ y ∈ inputs, ∃ m, g.get? y = some m ∧ m.retired = false := fun y hy => by
    obtain ⟨i, hi⟩ := hin y hy
    obtain ⟨m, hm, hr, -⟩ := get?_of_plan hi
    exact ⟨m, hm, hr⟩
  have hrun := Edit.addNode_eq hlive ha hs
  have happ := Edit.appends_extended g op inputs s
  obtain ⟨hset, hret⟩ := (ends_ok hrun).1
    (Edit.addNode_settled Shape.respects_id h.settled op inputs fun _ => ha)
  refine (ends_ok hrun).2 ⟨rfl, ⟨hset, fun x n hn hr => ?_, h.retains.trans hret⟩,
    Edit.adds_of_appends happ⟩
  have hcore := happ.core x
  rw [core?_eq_some hn] at hcore
  split at hcore
  · have hshape : n.core.shape = s := congrArg Node.shape (Option.some.inj hcore)
    exact (show n.shape = s from hshape) ▸ hc
  · obtain ⟨m, hm, hmn⟩ := get?_of_core? hcore.symm
    have hshape : m.core.shape = n.core.shape := congrArg Node.shape hmn
    have hretired : m.core.retired = n.core.retired := congrArg Node.retired hmn
    exact (show m.shape = n.shape from hshape) ▸ h.common x m hm (hretired.trans hr)

theorem adding_tidy_binary (h : Tidy g₀ g) {op : BinaryOp} (ha : g.plan a = some ia)
    (hb : g.plan b = some ib) (hp : (ia.profile ⊔ ib.profile).Proper) :
    Adding (Tidy g₀) (fun _ _ => False) g (.binary op) [a, b] := by
  obtain ⟨na, hna, hra, rfl⟩ := get?_of_plan ha
  obtain ⟨nb, hnb, hrb, rfl⟩ := get?_of_plan hb
  have hca := h.common a na hna hra
  have hcb := h.common b nb hnb hrb
  have hin : ∀ y ∈ [a, b], ∃ i, g.plan y = some i := by
    intro y hy
    rcases List.mem_pair.1 hy with rfl | rfl
    · exact ⟨_, ha⟩
    · exact ⟨_, hb⟩
  have hsize := sizeNode_eq (x := g.size) (n := Edit.start g (.binary op) [a, b])
    (resolves_of_plan hin) rfl
  rw [operands, show (Edit.start g (.binary op) [a, b]).inputs = [a, b] from rfl,
    List.filterMap_cons_some (core?_eq_some hna),
    List.filterMap_cons_some (core?_eq_some hnb)] at hsize
  rcases Shape.ofBinary_cases ⟨g.size, .binary op⟩ op Shape.initial nb.op.literalInt? hca.coded
    hcb.coded with ⟨s, hs, -, -⟩ | ⟨-, hno⟩
  · exact adding_tidy h hin rfl (hsize.trans hs) (Shape.ofBinary_common hca hcb hs)
  · exact absurd hp hno

theorem builds_tidy (hM : Factorable g₀ M) :
    Builds (Tidy g₀) (fun _ _ => False) (fun _ _ => False) g₀ M where
  item := hM.item
  literal h := adding_tidy h.inv (fun y hy => by cases hy) rfl rfl (Shape.common_ofScalar _)
  pow {g leaf e v p} h hmem he := by
    obtain ⟨k, hk⟩ := hM.item leaf hmem
    obtain ⟨node, -, -, rfl⟩ := get?_of_plan hk
    refine adding_tidy_binary h.inv (h.extends hk) he ?_
    rw [show p = ⊥ from h.inv.joined.literal he rfl, sup_bot_eq]
    exact Shape.profile_proper _
  mult h ha hb hle := by
    obtain ⟨ia, ib, hia, hib, hproper⟩ := hM.proper_pair h h.inv.joined ha hb hle
    exact adding_tidy_binary h.inv hia hib hproper
  undo := False.elim

variable {id root x : NodeId} {i : Item} {t : Tree}

theorem Tidy.isProduct (h : Tidy g₀ g) {op : BinaryOp} (hx : g.plan x = some i)
    (hop : i.op = .binary op) (hM : ∀ y ∈ M, ∃ j, g₀.plan y = some j)
    (hp : i.profile = g.plan.profileAll M) (hint : g.IsInt x ↔ ∀ y ∈ M, g.IsInt y) :
    Shape.IsProduct g₀.shapeOf M (g.shapeOf x) := by
  have hl := h.settled.linked
  have harity := hl.arity_of_plan hx
  rw [hop] at harity
  obtain ⟨a, b, hi⟩ := List.length_eq_two.1 (Option.some.inj harity).symm
  obtain ⟨ia, hia⟩ := hl.closed hx a (hi ▸ List.mem_cons_self)
  obtain ⟨ib, hib⟩ := hl.closed hx b (hi ▸ List.mem_cons_of_mem a List.mem_cons_self)
  obtain ⟨n, hn, hr, -⟩ := get?_of_plan hx
  have hlegal := (h.common.join h.settled hx hop hi hia hib).1
  refine ⟨⟨shapeOf_eq hn ▸ h.common x n hn hr, ?_, ?_⟩, hlegal⟩
  · rw [profile_shapeOf hx, hp]
    refine congrArg Multiset.sup (Multiset.map_congr rfl fun y hy => ?_)
    obtain ⟨j, hj⟩ := hM y hy
    rw [Plan.profileOf_eq (h.retains.plan_eq hj), profile_shapeOf hj]
  · rw [← isInt_iff_shapeOf hx, hint]
    refine forall₂_congr fun y hy => ?_
    obtain ⟨j, hj⟩ := hM y hy
    rw [isInt_iff_shapeOf (h.retains.plan_eq hj), h.retains.shapeOf_eq hj]

theorem collected_of_isFactorable (ho : g.Ordered) {n : Node} (hn : g.get? id = some n)
    (hm : n.op.isMult = true) (ht : collect g id = .ok t) (hf : t.isFactorable g = true) :
    n.retired = false ∧ ∃ M, Collected g id t M := by
  cases hr : n.retired with
  | true =>
    -- A retired product is alone in its tree.
    rw [collect_retired ho.toLinked hn hr] at ht
    cases ht
    have hlen := (isFactorable_iff.1 hf).1
    simp [Tree.enter, Tree.empty] at hlen
  | false =>
    obtain ⟨t', M, ht', hc⟩ := collect_ok ho (plan_eq_some hn hr) hm
    rw [ht] at ht'
    cases ht'
    exact ⟨rfl, M, hc⟩

theorem Collected.isProduct (hc : Collected g id t M) (h : Tidy g g) :
    Shape.IsProduct g.shapeOf M (g.shapeOf id) := by
  obtain ⟨i, hi, hm⟩ := hc.inside.product
  obtain ⟨j, hj, hp⟩ := hc.factors.profile h.joined
  rw [hi] at hj
  cases hj
  exact h.isProduct hi (isMult_iff.1 hm) (fun y hy => hc.item hy) hp
    (isInt_factors h.settled.outline hc.factors)

theorem Prepared.isProduct (hp : Prepared (Tidy g) g id t M root g₁) :
    Shape.IsProduct g.shapeOf M (g₁.shapeOf root) := by
  have h := hp.stage.inv
  obtain ⟨i, op, hi, hop⟩ := hp.built.isBinary hp.new
  obtain ⟨j, hj, hprofile⟩ := hp.built.profile h.joined
  rw [hi] at hj
  cases hj
  exact h.isProduct hi hop (fun y hy => hp.collected.item hy) hprofile
    (isInt_built h.settled.outline hp.built)

theorem Collected.buildProduct_size (hc : Collected g id t M) (ho : g.Ordered) (h : Tidy g g)
    (hf : t.isFactorable g = true) {leaves : List NodeId} (hl : leaves.Perm t.leaves.keys) :
    ∃ product root g₁ m, buildProduct leaves t.leaves.count g = .ok product g₁ ∧
      product.root = some root ∧ g₁.get? root = some m ∧ m.retired = false ∧
      m.shape.extents = (g.shapeOf id).extents := by
  obtain ⟨i, hi, hp⟩ := hc.factors.profile h.joined
  obtain ⟨n, -, -, rfl⟩ := get?_of_plan hi
  have hM : Factorable g M := ⟨fun y hy => hc.item hy, hp ▸ Shape.profile_proper _⟩
  obtain ⟨product, g₁, hrun, root, hroot, hmul, -⟩ := (buildProduct_ends (builds_tidy hM) h
    hc.factors.ne_zero (hl.nodup_iff.2 hc.wellFormed.nodup)
    (fun y => hl.mem_iff.trans hc.mem_keys) hc.count).exists_ok
  have hprep : Prepared (Tidy g) g id t M root g₁ := ⟨ho, hmul.stage.inv.settled.linked, hc,
    hc.repeated hf, (isFactorable_iff.1 hf).2.2, hmul.stage, hmul.built⟩
  obtain ⟨j, hj⟩ := hmul.built.item
  obtain ⟨m, hm, hr, -⟩ := get?_of_plan hj
  refine ⟨product, root, g₁, m, hrun, hroot, hm, hr, ?_⟩
  rw [← shapeOf_eq hm]
  exact hprep.isProduct.extents_eq (hc.isProduct h)

/-- In a valid graph that is up to date a factored product has the size of the old one, and so have
its factors in any other order and nesting. For all nodes in use, the size of a product of them, and
whether there is one, depends on neither. -/
theorem factored_product_keeps_size (hcheck : g.check = .ok ()) (hfresh : g.Refreshed)
    (hcommon : g.CommonShapes) :
    (∀ id n t, g.get? id = some n → n.op.isMult = true → collect g id = .ok t →
      t.isFactorable g = true →
      (∃ leaves, sortLeaves g t.leaves.keys = .ok leaves ∧ leaves.Perm t.leaves.keys) ∧
      (∀ leaves : List NodeId, leaves.Perm t.leaves.keys → ∃ product root g₁ m,
        buildProduct leaves t.leaves.count g = .ok product g₁ ∧ product.root = some root ∧
        g₁.get? root = some m ∧ m.retired = false ∧ m.shape.extents = n.shape.extents) ∧
      ∀ (node : NodeRef) (own : Shape) (nest : Nesting NodeId),
        (∀ y, nest.factors.count y = t.leaves.count y) →
        (nest.shape? node own g.shapeOf).map Shape.extents = some n.shape.extents) ∧
    ∀ (node : NodeRef) (own : Shape) (nest nest' : Nesting NodeId), nest.factors = nest'.factors →
      (∀ x ∈ nest.factors, ∃ n, g.get? x = some n ∧ n.retired = false) →
      (nest.shape? node own g.shapeOf).map Shape.extents =
        (nest'.shape? node own g.shapeOf).map Shape.extents := by
  have ho : g.Ordered := check_eq_ok_iff_ordered.1 hcheck
  have h : Tidy g g :=
    ⟨⟨ho.toLinked, fun x => .inr (hfresh.settledAt x)⟩, hcommon, fun _ _ hx => hx⟩
  have hshape : ∀ {x n}, g.get? x = some n → n.retired = false → (g.shapeOf x).Common :=
    fun {x n} hn hr => shapeOf_eq hn ▸ hcommon x n hn hr
  refine ⟨fun id n t hn hm ht hf => ?_, fun node own nest nest' hnest hlive => ?_⟩
  · obtain ⟨hr, M, hc⟩ := collected_of_isFactorable ho hn hm ht hf
    rw [← shapeOf_eq hn]
    refine ⟨sortLeaves_ok fun y hy => hc.item (hc.mem_keys.1 hy),
      fun leaves hl => hc.buildProduct_size ho h hf hl, fun node own nest hnest => ?_⟩
    obtain rfl : nest.factors = M := Multiset.ext.2 fun y => (hnest y).trans (hc.count y)
    obtain ⟨y, hy⟩ := hc.repeated hf
    refine Nesting.map_extents_of_isProduct (hc.isProduct h)
      (hy.trans_le (Multiset.count_le_card y _)) fun x hx => ?_
    obtain ⟨i, hi⟩ := hc.item hx
    obtain ⟨k, hk, hkr, -⟩ := get?_of_plan hi
    exact hshape hk hkr
  · refine Nesting.map_extents_eq hnest fun x hx => ?_
    obtain ⟨k, hk, hkr⟩ := hlive x hx
    exact hshape hk hkr

def mixedProduct : Graph :=
  (Graph.empty "g").afterCalls [.matrix "A" (-1) 1 (-1), .matrix "B" 1 4 (-1),
    .data "F" .frame 3 2 (-1), .scalar "s", .mult 0 2, .mult 4 0, .mult 5 3, .mult 6 1]

def mixedTree : Tree :=
  ⟨[7, 6, 5, 4], [4, 5, 6, 7], ⟨[(1, 1), (3, 1), (0, 2), (2, 1)], [0, 2, 3, 1]⟩⟩

theorem factored_product_keeps_size_mixedProduct : mixedProduct.check = .ok () ∧
    mixedProduct.Refreshed ∧ mixedProduct.CommonShapes ∧ collect mixedProduct 7 = .ok mixedTree ∧
    mixedTree.isFactorable mixedProduct = true ∧
    ∀ leaves : List NodeId, leaves.Perm [0, 2, 3, 1] → ∃ product root g₁ m,
      buildProduct leaves mixedTree.leaves.count mixedProduct = .ok product g₁ ∧
      product.root = some root ∧ g₁.get? root = some m ∧ m.retired = false ∧
      m.shape.extents = (.matrix, .float64, -1, 4) := by
  have hcheck : mixedProduct.check = .ok () := by decide +kernel
  have hfresh : mixedProduct.Refreshed := refreshed_of_settled (by decide +kernel)
  have hcommon : mixedProduct.CommonShapes := commonShapes_of_ids (by decide +kernel)
  have hnode : (mixedProduct.get? 7).map (fun n => (n.op.isMult, n.shape.extents)) =
      some (true, .matrix, .float64, -1, 4) := by decide +kernel
  have ht : collect mixedProduct 7 = .ok mixedTree := by decide +kernel
  have hf : mixedTree.isFactorable mixedProduct = true := by decide +kernel
  obtain ⟨n, hn, hfields⟩ := Option.map_eq_some_iff.1 hnode
  obtain ⟨hm, hextents⟩ := Prod.mk.inj hfields
  refine ⟨hcheck, hfresh, hcommon, ht, hf, fun leaves hl => ?_⟩
  rw [← hextents]
  have hall := (factored_product_keeps_size hcheck hfresh hcommon).1 7 n mixedTree hn hm ht hf
  exact hall.2.1 leaves hl

end Optimizer.Factoring
end LinearPlan
