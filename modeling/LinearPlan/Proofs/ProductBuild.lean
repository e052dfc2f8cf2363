import LinearPlan.Proofs.Postconditions
import LinearPlan.Proofs.ProductTrees
import Mathlib.Data.Multiset.Lattice
import Mathlib.Tactic.Abel

/-!
# Building a product

A product of given factors is built from powers and products, in groups by the class of the factors.
Every node that is built stands for a part of the factors. What is built depends on how nodes are
added: to a sound graph whose product was sized before each part can be added, has the joint profile
of its factors, and building never fails.
-/
namespace LinearPlan

namespace Plan
variable {P P' : Plan} {x : NodeId}

def profileOf (P : Plan) (x : NodeId) : Profile := ((P x).map Item.profile).getD ⊥

def profileAll (P : Plan) (m : Multiset NodeId) : Profile := (m.map P.profileOf).sup

theorem profileOf_eq {i : Item} (h : P x = some i) : P.profileOf x = i.profile := by
  rw [profileOf, h]
  rfl

theorem profileAll_add (P : Plan) (m m' : Multiset NodeId) :
    P.profileAll (m + m') = P.profileAll m ⊔ P.profileAll m' := by
  rw [profileAll, Multiset.map_add, Multiset.sup_add]
  rfl

theorem profileAll_singleton (P : Plan) (x : NodeId) : P.profileAll {x} = P.profileOf x := by
  rw [profileAll, Multiset.map_singleton, Multiset.sup_singleton]

theorem profileAll_replicate (P : Plan) (x : NodeId) {n : Nat} (hn : n ≠ 0) :
    P.profileAll (Multiset.replicate n x) = P.profileOf x := by
  rw [profileAll, Multiset.map_replicate]
  refine le_antisymm (Multiset.sup_le.2 fun p hp => ?_) (Multiset.le_sup ?_)
  · rw [Multiset.eq_of_mem_replicate hp]
  · exact Multiset.mem_replicate.2 ⟨hn, rfl⟩

theorem profileAll_le {m m' : Multiset NodeId} (h : m ≤ m') : P.profileAll m ≤ P.profileAll m' :=
  Multiset.sup_mono (Multiset.subset_of_le (Multiset.map_le_map h))

theorem operands_pair {i : Item} {a b : NodeId} {ia ib : Item} (hi : i.inputs = [a, b])
    (ha : P a = some ia) (hb : P b = some ib) : P.operands i = [ia, ib] := by
  simp [operands, hi, ha, hb]

theorem sizeFrom_pair {own : Profile} {op : BinaryOp} {ia ib : Item} {p : Profile} :
    own.sizeFrom (.binary op) [ia, ib] = some p ↔
      p = ia.profile ⊔ ib.profile ∧ (ia.profile ⊔ ib.profile).Proper := by
  show (if _ then _ else _) = _ ↔ _
  split
  · rename_i hp
    rw [Option.some.injEq, and_iff_left hp, eq_comm]
  · rename_i hp
    exact ⟨nofun, fun h => absurd h.2 hp⟩

structure Joined (P : Plan) : Prop where
  binary : ∀ {x a b i ia ib op}, P x = some i → i.op = .binary op → i.inputs = [a, b] →
    P a = some ia → P b = some ib → i.profile = ia.profile ⊔ ib.profile
  literal : ∀ {x i v}, P x = some i → i.op = .literal v → i.profile = ⊥

theorem Sized.joined (h : P.Sized) : P.Joined where
  binary {x a b i ia ib op} hx hop hi ha hb := by
    have hsize := h hx
    rw [operands_pair hi ha hb, hop, sizeFrom_pair] at hsize
    exact hsize.1
  literal {x i v} hx hop := by
    have hsize := h hx
    rw [hop] at hsize
    exact (Option.some.inj hsize).symm

theorem Factors.profile (hj : P.Joined) {m : Multiset NodeId} (h : P.Factors x m) :
    ∃ i, P x = some i ∧ i.profile = P.profileAll m := by
  induction h with
  | leaf hx hm => exact ⟨_, hx, by rw [profileAll_singleton, profileOf_eq hx]⟩
  | @product x a b i m m' hx hm hi ha hb iha ihb =>
    obtain ⟨ia, hia, hpa⟩ := iha
    obtain ⟨ib, hib, hpb⟩ := ihb
    refine ⟨i, hx, ?_⟩
    rw [hj.binary hx (Optimizer.Factoring.isMult_iff.1 hm) hi hia hib, profileAll_add, hpa, hpb]

/-- A node that was built from the id `s` on, for a part of the factors `M`. It has each of its
factors as often as `M` has it. -/
inductive Built (P : Plan) (s : Int) (M : Multiset NodeId) : NodeId → Multiset NodeId → Prop
  | leaf {x : Int} {i : Item} (hx : P x = some i) (hs : x < s) (hone : M.count x = 1) :
      Built P s M x {x}
  | power {x e leaf : Int} {i j k : Item} (hx : P x = some i) (hs : s ≤ x)
      (hop : i.op = .binary .pow) (hi : i.inputs = [leaf, e]) (hleaf : P leaf = some k)
      (hls : leaf < s) (he : P e = some j) (hes : s ≤ e)
      (hj : j.op = .literal (.ofInt (M.count leaf))) (hn : 2 ≤ M.count leaf) :
      Built P s M x (Multiset.replicate (M.count leaf) leaf)
  | product {x a b : Int} {i : Item} {m m' : Multiset NodeId} (hx : P x = some i) (hs : s ≤ x)
      (hop : i.op = .binary .mult) (hi : i.inputs = [a, b]) (ha : Built P s M a m)
      (hb : Built P s M b m') (hle : m + m' ≤ M) : Built P s M x (m + m')

namespace Built
variable {s : Int} {M m : Multiset NodeId}

theorem transfer (h : P.Built s M x m) (hnew : ∀ y : Int, s ≤ y → P' y = P y)
    (hold : ∀ y ∈ m, ∃ j, P' y = some j) : P'.Built s M x m := by
  induction h with
  | leaf hx hs hone =>
    obtain ⟨j, hj⟩ := hold _ (Multiset.mem_singleton_self _)
    exact .leaf hj hs hone
  | power hx hs hop hi hleaf hls he hes hj hn =>
    obtain ⟨k, hk⟩ := hold _ (Multiset.mem_replicate.2 ⟨by omega, rfl⟩)
    exact .power ((hnew _ hs).trans hx) hs hop hi hk hls ((hnew _ hes).trans he) hes hj hn
  | product hx hs hop hi _ _ hle iha ihb =>
    exact .product ((hnew _ hs).trans hx) hs hop hi
      (iha fun y hy => hold y (Multiset.mem_add.2 (.inl hy)))
      (ihb fun y hy => hold y (Multiset.mem_add.2 (.inr hy))) hle

theorem mono (hP : P'.Extends P) (h : P.Built s M x m) : P'.Built s M x m := by
  induction h with
  | leaf hx hs hone => exact .leaf (hP hx) hs hone
  | power hx hs hop hi hleaf hls he hes hj hn =>
    exact .power (hP hx) hs hop hi (hP hleaf) hls (hP he) hes hj hn
  | product hx hs hop hi _ _ hle iha ihb => exact .product (hP hx) hs hop hi iha ihb hle

theorem item (h : P.Built s M x m) : ∃ i, P x = some i := by
  cases h with
  | leaf hx => exact ⟨_, hx⟩
  | power hx => exact ⟨_, hx⟩
  | product hx => exact ⟨_, hx⟩

theorem isBinary {x : Int} (h : P.Built s M x m) (hs : s ≤ x) :
    ∃ i op, P x = some i ∧ i.op = .binary op := by
  cases h with
  | leaf _ hlt => exact absurd hlt (not_lt.2 hs)
  | power hx _ hop => exact ⟨_, _, hx, hop⟩
  | product hx _ hop => exact ⟨_, _, hx, hop⟩

theorem eq_singleton {x : Int} (h : P.Built s M x m) (hx : x < s) : m = {x} := by
  cases h with
  | leaf => rfl
  | power _ hs => exact absurd hs (not_le.2 hx)
  | product _ hs => exact absurd hs (not_le.2 hx)

theorem operand {x : Int} (h : P.Built s M x m) : x ∈ m ∨ s ≤ x := by
  cases h with
  | leaf => exact .inl (Multiset.mem_singleton_self x)
  | power _ hs => exact .inr hs
  | product _ hs => exact .inr hs

theorem profile (hjoin : P.Joined) (h : P.Built s M x m) :
    ∃ i, P x = some i ∧ i.profile = P.profileAll m := by
  induction h with
  | leaf hx => exact ⟨_, hx, by rw [profileAll_singleton, profileOf_eq hx]⟩
  | @power x e leaf i j k hx hs hop hi hleaf hls he hes hj hn =>
    refine ⟨i, hx, ?_⟩
    rw [hjoin.binary hx hop hi hleaf he, hjoin.literal he hj, sup_bot_eq,
      profileAll_replicate P leaf (by omega), profileOf_eq hleaf]
  | @product x a b i m m' hx hs hop hi _ _ _ iha ihb =>
    obtain ⟨ia, hia, hpa⟩ := iha
    obtain ⟨ib, hib, hpb⟩ := ihb
    refine ⟨i, hx, ?_⟩
    rw [hjoin.binary hx hop hi hia hib, profileAll_add, hpa, hpb]

theorem count_eq (h : P.Built s M x m) {y : NodeId} (hy : y ∈ m) : m.count y = M.count y := by
  induction h with
  | leaf _ _ hone =>
    rw [Multiset.mem_singleton.1 hy, hone, Multiset.count_singleton_self]
  | power => rw [Multiset.eq_of_mem_replicate hy, Multiset.count_replicate_self]
  | @product x a b i m m' hx hs hop hi _ _ hle iha ihb =>
    have hcount := Multiset.count_le_of_le y hle
    rw [Multiset.count_add] at hcount ⊢
    rcases Multiset.mem_add.1 hy with hy | hy
    · have h₁ := iha hy
      omega
    · have h₁ := ihb hy
      omega

theorem user (h : P.Built s M x m) {y : NodeId} (hy : y ∈ m) : y = x ∨
    ∃ p i op, s ≤ p ∧ P p = some i ∧ i.op = .binary op ∧ y ∈ i.inputs := by
  induction h with
  | leaf => exact .inl (Multiset.mem_singleton.1 hy)
  | power hx hs hop hi =>
    rw [Multiset.eq_of_mem_replicate hy]
    exact .inr ⟨_, _, _, hs, hx, hop, hi ▸ List.mem_cons_self⟩
  | @product x a b i m m' hx hs hop hi _ _ _ iha ihb =>
    rcases Multiset.mem_add.1 hy with hy | hy
    · rcases iha hy with rfl | hp
      · exact .inr ⟨_, _, _, hs, hx, hop, hi ▸ List.mem_cons_self⟩
      · exact .inr hp
    · rcases ihb hy with rfl | hp
      · exact .inr ⟨_, _, _, hs, hx, hop, hi ▸ List.mem_cons_of_mem a List.mem_cons_self⟩
      · exact .inr hp

theorem ne_zero (h : P.Built s M x m) : m ≠ 0 := by
  induction h with
  | leaf => exact Multiset.singleton_ne_zero _
  | power _ _ _ _ _ _ _ _ _ hn =>
    intro h0
    have hcard := congrArg Multiset.card h0
    rw [Multiset.card_replicate, Multiset.card_zero] at hcard
    omega
  | product _ _ _ _ _ _ _ iha _ => 
    exact fun h0 => iha (Multiset.le_zero.1 (h0 ▸ Multiset.le_add_right _ _))

theorem le_of_new {x : Int} (h : P.Built s M x m) (hs : s ≤ x) : m ≤ M := by
  cases h with
  | leaf _ hlt => omega
  | power => exact Multiset.le_count_iff_replicate_le.1 le_rfl
  | product _ _ _ _ _ _ hle => exact hle

theorem unique {m' : Multiset NodeId} (h : P.Built s M x m) (h' : P.Built s M x m') : m = m' := by
  induction h generalizing m' with
  | leaf _ hs => exact (h'.eq_singleton hs).symm
  | power hx hs hop hi =>
    cases h' with
    | leaf _ hs' => exact absurd hs (not_le.2 hs')
    | power hx' _ _ hi' =>
      rw [hx] at hx'
      cases hx'
      rw [hi] at hi'
      cases hi'
      rfl
    | product hx' _ hop' =>
      rw [hx] at hx'
      cases hx'
      rw [hop] at hop'
      cases hop'
  | product hx hs hop hi _ _ _ iha ihb =>
    cases h' with
    | leaf _ hs' => exact absurd hs (not_le.2 hs')
    | power hx' _ hop' =>
      rw [hx] at hx'
      cases hx'
      rw [hop] at hop'
      cases hop'
    | product hx' _ _ hi' ha' hb' =>
      rw [hx] at hx'
      cases hx'
      rw [hi] at hi'
      cases hi'
      rw [iha ha', ihb hb']

theorem root_unused {root x : Int} {i : Item} (hroot : P.Built s M root M) (hs : s ≤ root)
    (h : P.Built s M x m) (hxs : s ≤ x) (hi : P x = some i) : root ∉ i.inputs := by
  intro hmem
  cases h with
  | leaf _ hlt => omega
  | power hx _ _ hin _ hls he _ hj =>
    rw [hi] at hx
    cases hx
    rw [hin] at hmem
    rcases List.mem_cons.1 hmem with rfl | hmem
    · omega
    · obtain ⟨j, op, hj', hop⟩ := hroot.isBinary hs
      rw [List.mem_singleton.1 hmem, he] at hj'
      cases hj'
      rw [hj] at hop
      cases hop
  | @product _ a b j m m' hx _ _ hin ha hb hle =>
    rw [hi] at hx
    cases hx
    rw [hin] at hmem
    have hcard := Multiset.card_le_card hle
    have hm := Multiset.card_pos.2 ha.ne_zero
    have hm' := Multiset.card_pos.2 hb.ne_zero
    rw [Multiset.card_add] at hcard
    rcases List.mem_cons.1 hmem with rfl | hmem
    · rw [hroot.unique ha] at hcard
      omega
    · rw [← List.mem_singleton.1 hmem] at hb
      rw [hroot.unique hb] at hcard
      omega

end Built

theorem Extends.profileAll_eq (h : P'.Extends P) {m : Multiset NodeId}
    (hm : ∀ y ∈ m, ∃ i, P y = some i) : P'.profileAll m = P.profileAll m := by
  refine congrArg Multiset.sup (Multiset.map_congr rfl fun y hy => ?_)
  obtain ⟨i, hi⟩ := hm y hy
  rw [profileOf_eq hi, profileOf_eq (h hi)]

def Term (P : Plan) (s : Int) (M : Multiset NodeId) : Option NodeId → Multiset NodeId → Prop
  | none, m => m = 0
  | some x, m => P.Built s M x m

theorem Term.mono {s : Int} {t : Option NodeId} {M m : Multiset NodeId} (hP : P'.Extends P)
    (h : P.Term s M t m) : P'.Term s M t m := by
  cases t with
  | none => exact h
  | some x => exact Built.mono hP h

end Plan

namespace Optimizer.Factoring
open LinearPlan.Graph
variable {g₀ g g' : Graph} {M : Multiset NodeId}

structure Fresh (s : Int) (M : Multiset NodeId) (x : Int) (i : Item) : Prop where
  op : (∃ v, i.op = .literal v) ∨ i.op = .binary .pow ∨ i.op = .binary .mult
  operand : ∀ y : Int, y ∈ i.inputs → y ∈ M ∨ s ≤ y ∧ y < x

structure Stage (I : Graph → Prop) (g₀ : Graph) (M : Multiset NodeId) (g : Graph) : Prop where
  inv : I g
  ops : g₀.KeepsOps g
  size_le : g₀.size ≤ g.size
  old : ∀ x : Int, x < (g₀.size : Int) → g.plan x = g₀.plan x
  fresh : ∀ x : Int, (g₀.size : Int) ≤ x → x < (g.size : Int) →
    ∃ i, g.plan x = some i ∧ Fresh g₀.size M x i
  terms : ∀ {x : Int} {i op}, (g₀.size : Int) ≤ x → g.plan x = some i → i.op = .binary op →
    ∃ m, g.plan.Built g₀.size M x m

noncomputable def products (g : Graph) : Nat := g.plan.tally g.size fun _ i => i.op.isMult = true

variable {I : Graph → Prop} {E E' : Fault → Graph → Prop} {op : Op} {inputs : List NodeId}

theorem products_adds (h : Edit.Adds g op inputs g') (hop : op.isMult = false) :
    products g' = products g := by
  obtain ⟨p, hp⟩ := h.plan_eq
  unfold products
  rw [h.size, hp]
  exact Plan.tally_update_of_not (by simp [hop])

theorem products_adds_mult (h : Edit.Adds g (.binary .mult) inputs g') :
    products g' = products g + 1 := by
  obtain ⟨p, hp⟩ := h.plan_eq
  unfold products
  rw [h.size, hp]
  exact Plan.tally_update rfl

theorem Stage.extends (h : Stage I g₀ M g) : g.plan.Extends g₀.plan := by
  intro x i hx
  rw [h.old x (range_of_plan hx).2, hx]

theorem Stage.adds (h : Stage I g₀ M g) (hI : I g') (hadds : Edit.Adds g op inputs g')
    (hin : ∀ y : Int, y ∈ inputs → y ∈ M ∨ (g₀.size : Int) ≤ y ∧ y < (g.size : Int))
    (hop : (∃ v, op = .literal v) ∨ op = .binary .pow ∨ op = .binary .mult)
    (hterm : ∀ o, op = .binary o → ∃ m, g'.plan.Built g₀.size M g.size m) :
    Stage I g₀ M g' := by
  have hle := h.size_le
  have hsize := hadds.size
  refine ⟨hI, h.ops.trans hadds.ops, by omega, ?_, ?_, ?_⟩
  · intro x hx
    rw [hadds.of_ne (by omega), h.old x hx]
  · intro x hlow hlt
    by_cases hx : x = (g.size : Int)
    · subst hx
      obtain ⟨p, hp⟩ := hadds.self
      exact ⟨_, hp, hop, hin⟩
    · rw [hadds.of_ne hx]
      exact h.fresh x hlow (by omega)
  · intro x i o hlow hx hop
    by_cases hxs : x = (g.size : Int)
    · subst hxs
      obtain ⟨p, hp⟩ := hadds.self
      rw [hp] at hx
      cases hx
      exact hterm o hop
    · rw [hadds.of_ne hxs] at hx
      obtain ⟨m, hm⟩ := h.terms hlow hx hop
      exact ⟨m, hm.mono hadds.extends_⟩

theorem operand_cases {x : Int} {m : Multiset NodeId}
    (hb : g.plan.Built g₀.size M x m) (hm : m ≤ M) :
    x ∈ M ∨ (g₀.size : Int) ≤ x ∧ x < (g.size : Int) := by
  obtain ⟨i, hi⟩ := hb.item
  rcases hb.operand with hx | hx
  · exact .inl (Multiset.mem_of_le hm hx)
  · exact .inr ⟨hx, (range_of_plan hi).2⟩

def Adding (I : Graph → Prop) (E : Fault → Graph → Prop) (g : Graph) (op : Op)
    (inputs : List NodeId) : Prop :=
  Ends (Edit.addNode op inputs) g E fun x g' =>
    x = (g.size : Int) ∧ I g' ∧ Edit.Adds g op inputs g'

/-- The nodes of a product can be added, up to faults in `E`. After a fault the graph is cut back, which
leaves one in `E'`. -/
structure Builds (I : Graph → Prop) (E E' : Fault → Graph → Prop) (g₀ : Graph)
    (M : Multiset NodeId) : Prop where
  item : ∀ y ∈ M, ∃ i, g₀.plan y = some i
  literal : ∀ {g v}, Stage I g₀ M g → Adding I E g (.literal v) []
  pow : ∀ {g leaf e v p}, Stage I g₀ M g → leaf ∈ M → g.plan e = some ⟨.literal v, [], p⟩ →
    Adding I E g (.binary .pow) [leaf, e]
  mult : ∀ {g a b m m'}, Stage I g₀ M g → g.plan.Built g₀.size M a m →
    g.plan.Built g₀.size M b m' → m + m' ≤ M → Adding I E g (.binary .mult) [a, b]
  undo : ∀ {g fault}, E fault g → Ends (Edit.truncate g₀.size) g E' fun _ g' => E' fault g'

structure Makes (I : Graph → Prop) (g₀ : Graph) (M : Multiset NodeId) (g : Graph)
    (m : Multiset NodeId) (t : Option NodeId) (g' : Graph) : Prop where
  stage : Stage I g₀ M g'
  extends_ : g'.plan.Extends g.plan
  term : g'.plan.Term g₀.size M t m

theorem mult_ends (hB : Builds I E E' g₀ M) (h : Stage I g₀ M g) {a b : Int} {m m' : Multiset NodeId}
    (ha : g.plan.Built g₀.size M a m) (hb : g.plan.Built g₀.size M b m') (hle : m + m' ≤ M) :
    Ends (Edit.mult a b) g E fun x g' => Makes I g₀ M g (m + m') (some x) g' ∧
      products g' = products g + 1 := by
  have hm : m ≤ M := (Multiset.le_add_right m m').trans hle
  have hm' : m' ≤ M := (Multiset.le_add_left m' m).trans hle
  refine (hB.mult h ha hb hle).mono ?_
  rintro x g' ⟨rfl, hI, hadds⟩
  obtain ⟨p, hp⟩ := hadds.self
  have hbuilt : g'.plan.Built g₀.size M g.size (m + m') :=
    .product hp (Int.ofNat_le.2 h.size_le) rfl rfl (ha.mono hadds.extends_)
      (hb.mono hadds.extends_) hle
  refine ⟨⟨h.adds hI hadds ?_ (.inr (.inr rfl)) fun _ _ => ⟨_, hbuilt⟩, hadds.extends_, hbuilt⟩,
    products_adds_mult hadds⟩
  intro y hy
  rcases List.mem_cons.1 hy with rfl | hy
  · exact operand_cases ha hm
  · rw [List.mem_singleton.1 hy]
    exact operand_cases hb hm'

theorem pow_ends (hB : Builds I E E' g₀ M) (h : Stage I g₀ M g) {leaf : Int} {n : Nat} (hn : 2 ≤ n)
    (hcount : n = M.count leaf) :
    Ends (Edit.pow leaf n) g E fun x g' =>
      Makes I g₀ M g (Multiset.replicate n leaf) (some x) g' ∧ products g' = products g := by
  have hmem : leaf ∈ M := Multiset.count_pos.1 (by omega)
  obtain ⟨k, hk₀⟩ := hB.item leaf hmem
  have hsize₀ := h.size_le
  unfold Edit.pow
  -- The exponent.
  refine Ends.bind (hB.literal h) ?_
  rintro e g₁ ⟨rfl, hI₁, hadds₁⟩
  have hstage₁ := h.adds hI₁ hadds₁ (fun y hy => by cases hy) (.inl ⟨_, rfl⟩) nofun
  obtain ⟨p, he⟩ := hadds₁.self
  have hk : g₁.plan leaf = some k := hadds₁.extends_ (h.extends hk₀)
  have hsize₁ := hadds₁.size
  -- The power.
  refine (hB.pow hstage₁ hmem he).mono ?_
  rintro x g₂ ⟨rfl, hI₂, hadds₂⟩
  obtain ⟨q, hq⟩ := hadds₂.self
  have hbuilt : g₂.plan.Built g₀.size M g₁.size (Multiset.replicate n leaf) := by
    subst hcount
    exact .power hq (by omega) rfl rfl (hadds₂.extends_ hk) (range_of_plan hk₀).2
      (hadds₂.extends_ he) (by omega) rfl hn
  refine ⟨⟨hstage₁.adds hI₂ hadds₂ ?_ (.inr (.inl rfl)) fun _ _ => ⟨_, hbuilt⟩,
    fun y j hy => hadds₂.extends_ (hadds₁.extends_ hy), hbuilt⟩, ?_⟩
  · intro y hy
    rcases List.mem_cons.1 hy with rfl | hy
    · exact .inl hmem
    · rw [List.mem_singleton.1 hy]
      omega
  · rw [products_adds hadds₂ rfl, products_adds hadds₁ rfl]

theorem times_ends (hB : Builds I E E' g₀ M) (h : Stage I g₀ M g) {t t' : Option NodeId}
    {m m' : Multiset NodeId} (ht : g.plan.Term g₀.size M t m) (ht' : g.plan.Term g₀.size M t' m')
    (hle : m + m' ≤ M) :
    Ends (times t t') g E fun r g' => Makes I g₀ M g (m + m') r g' ∧
      products g' + r.toList.length = products g + t.toList.length + t'.toList.length := by
  cases t with
  | none =>
    have hm : m = 0 := ht
    exact ends_pure.2 ⟨⟨h, fun _ _ hx => hx, by rw [hm, zero_add]; exact ht'⟩, rfl⟩
  | some a =>
    cases t' with
    | none =>
      have hm : m' = 0 := ht'
      exact ends_pure.2 ⟨⟨h, fun _ _ hx => hx, by rw [hm, add_zero]; exact ht⟩, rfl⟩
    | some b =>
      refine Ends.map ((mult_ends hB h ht ht' hle).mono fun x g' hx => ⟨hx.1, ?_⟩)
      simp [hx.2]

def Grouped (P : Plan) (s : Int) (M : Multiset NodeId) (groups : Groups) (m : Multiset NodeId) :
    Prop :=
  ∃ a b c d, P.Term s M groups.scalarsAndColVectors a ∧ P.Term s M groups.rowVectors b ∧
    P.Term s M groups.matrices c ∧ P.Term s M groups.others d ∧ m = a + b + c + d

def Groups.terms (groups : Groups) : Nat :=
  groups.scalarsAndColVectors.toList.length + groups.rowVectors.toList.length +
    groups.matrices.toList.length + groups.others.toList.length

structure Fills (I : Graph → Prop) (g₀ : Graph) (M : Multiset NodeId) (groups : Groups)
    (m : Multiset NodeId) (g : Graph) : Prop where
  stage : Stage I g₀ M g
  grouped : Grouped g.plan g₀.size M groups m

theorem insert_ends (hB : Builds I E E' g₀ M) {groups : Groups} {m t : Multiset NodeId} {x : Int}
    (h : Fills I g₀ M groups m g) (hx : g.plan.Built g₀.size M x t) (hle : m + t ≤ M)
    (cls : TermClass) :
    Ends (groups.insert cls x) g E fun groups' g' => Fills I g₀ M groups' (m + t) g' ∧
      products g' + groups'.terms = products g + groups.terms + 1 := by
  obtain ⟨hstage, a, b, c, d, ha, hb, hc, hd, rfl⟩ := h
  have hpart : ∀ u : Multiset NodeId, u ≤ a + b + c + d → u + t ≤ M := fun u hu =>
    (add_le_add_left hu t).trans hle
  have hterm : g.plan.Term g₀.size M (some x) t := hx
  cases cls with
  | scalar | colVector =>
    refine (times_ends hB hstage hterm ha ?_).bind fun r g' ⟨hmakes, hcount⟩ => ?_
    · rw [add_comm t a]
      exact hpart a (by rw [add_assoc, add_assoc]; exact Multiset.le_add_right _ _)
    · refine ends_pure.2 ⟨⟨hmakes.stage, t + a, b, c, d, hmakes.term, hb.mono hmakes.extends_,
        hc.mono hmakes.extends_, hd.mono hmakes.extends_, by abel⟩, ?_⟩
      simp only [Groups.terms, Option.toList_some, List.length_singleton] at hcount ⊢
      omega
  | rowVector =>
    refine (times_ends hB hstage hb hterm (hpart b ?_)).bind fun r g' ⟨hmakes, hcount⟩ => ?_
    · rw [add_comm a b, add_assoc, add_assoc]
      exact Multiset.le_add_right _ _
    · refine ends_pure.2 ⟨⟨hmakes.stage, a, b + t, c, d, ha.mono hmakes.extends_, hmakes.term,
        hc.mono hmakes.extends_, hd.mono hmakes.extends_, by abel⟩, ?_⟩
      simp only [Groups.terms, Option.toList_some, List.length_singleton] at hcount ⊢
      omega
  | matrix =>
    refine (times_ends hB hstage hc hterm (hpart c ?_)).bind fun r g' ⟨hmakes, hcount⟩ => ?_
    · rw [add_comm _ c, add_assoc]
      exact Multiset.le_add_right _ _
    · refine ends_pure.2 ⟨⟨hmakes.stage, a, b, c + t, d, ha.mono hmakes.extends_,
        hb.mono hmakes.extends_, hmakes.term, hd.mono hmakes.extends_, by abel⟩, ?_⟩
      simp only [Groups.terms, Option.toList_some, List.length_singleton] at hcount ⊢
      omega
  | frame | object | unknown =>
    refine (times_ends hB hstage hd hterm (hpart d (Multiset.le_add_left _ _))).bind
      fun r g' ⟨hmakes, hcount⟩ => ?_
    refine ends_pure.2 ⟨⟨hmakes.stage, a, b, c, d + t, ha.mono hmakes.extends_,
      hb.mono hmakes.extends_, hc.mono hmakes.extends_, hmakes.term, by abel⟩, ?_⟩
    simp only [Groups.terms, Option.toList_some, List.length_singleton] at hcount ⊢
    omega

theorem Grouped.mono {P P' : Plan} {s : Int} {groups : Groups} {m : Multiset NodeId}
    (hP : P'.Extends P) (h : Grouped P s M groups m) : Grouped P' s M groups m := by
  obtain ⟨a, b, c, d, ha, hb, hc, hd, he⟩ := h
  exact ⟨a, b, c, d, ha.mono hP, hb.mono hP, hc.mono hP, hd.mono hP, he⟩

theorem addLeaf_ends (hB : Builds I E E' g₀ M) {groups : Groups} {m : Multiset NodeId} {leaf : Int}
    {count : NodeId → Nat} (h : Fills I g₀ M groups m g) (hmem : leaf ∈ M)
    (hcount : count leaf = M.count leaf) (hle : m + Multiset.replicate (count leaf) leaf ≤ M) :
    Ends (groups.addLeaf count leaf) g E fun groups' g' =>
      Fills I g₀ M groups' (m + Multiset.replicate (count leaf) leaf) g' ∧
      products g' + groups'.terms = products g + groups.terms + 1 := by
  have hpos := Multiset.count_pos.2 hmem
  obtain ⟨i, hi₀⟩ := hB.item leaf hmem
  unfold Groups.addLeaf
  by_cases hn : 1 < count leaf
  · simp only [hn, decide_true, if_true]
    refine (pow_ends hB h.stage hn hcount).bind fun x g₁ ⟨hmakes, hcount₁⟩ => ?_
    obtain ⟨n, hnode, -, -⟩ := get?_of_plan (hmakes.stage.extends hi₀)
    rw [ends_bind_ok (Edit.node_run hnode)]
    have hfills : Fills I g₀ M { groups with powers := groups.powers + 1 } m g₁ :=
      ⟨hmakes.stage, h.grouped.mono hmakes.extends_⟩
    rw [← hcount₁]
    exact insert_ends hB hfills hmakes.term hle _
  · have hone : count leaf = 1 := by omega
    simp only [hn, decide_false, Bool.false_eq_true, if_false]
    obtain ⟨n, hnode, -, -⟩ := get?_of_plan (h.stage.extends hi₀)
    have hbuilt : g.plan.Built g₀.size M leaf (Multiset.replicate (count leaf) leaf) := by
      rw [hone, Multiset.replicate_one]
      exact .leaf (h.stage.extends hi₀) (range_of_plan hi₀).2 (hcount ▸ hone)
    rw [ends_bind_ok (Edit.pure_apply leaf), ends_bind_ok (Edit.node_run hnode)]
    exact insert_ends hB h hbuilt hle _

def powersOf (count : NodeId → Nat) (leaves : List NodeId) : Multiset NodeId :=
  (leaves.map fun y => Multiset.replicate (count y) y).sum

theorem addLeaves_ends (hB : Builds I E E' g₀ M) {leaves : List NodeId} {groups : Groups}
    {m : Multiset NodeId} {count : NodeId → Nat} (h : Fills I g₀ M groups m g)
    (hmem : ∀ y ∈ leaves, y ∈ M) (hcount : ∀ y, count y = M.count y)
    (hle : m + powersOf count leaves ≤ M) :
    Ends (leaves.foldlM (Groups.addLeaf count) groups) g E fun groups' g' =>
      Fills I g₀ M groups' (m + powersOf count leaves) g' ∧
      products g' + groups'.terms = products g + groups.terms + leaves.length := by
  induction leaves generalizing groups m g with
  | nil => exact ends_pure.2 ⟨by simpa [powersOf] using h, rfl⟩
  | cons y rest ih =>
    have hsum : m + powersOf count (y :: rest) =
        m + Multiset.replicate (count y) y + powersOf count rest := by
      rw [powersOf, List.map_cons, List.sum_cons, add_assoc]
      rfl
    rw [hsum] at hle ⊢
    rw [List.foldlM_cons]
    refine (addLeaf_ends hB h (hmem y List.mem_cons_self) (hcount y)
      ((Multiset.le_add_right _ _).trans hle)).bind fun groups₁ g₁ ⟨hf₁, hcount₁⟩ => ?_
    refine (ih hf₁ (fun z hz => hmem z (List.mem_cons_of_mem y hz)) hle).mono
      fun groups' g' ⟨hf, hcount'⟩ => ⟨hf, ?_⟩
    rw [hcount', hcount₁, List.length_cons]
    omega

theorem product_ends (hB : Builds I E E' g₀ M) {groups : Groups} {m : Multiset NodeId}
    (h : Fills I g₀ M groups m g) (hle : m ≤ M) :
    Ends groups.product g E fun r g' => Makes I g₀ M g m r g' ∧
      products g' + r.toList.length = products g + groups.terms := by
  obtain ⟨hstage, a, b, c, d, ha, hb, hc, hd, rfl⟩ := h
  have hdc : d + c ≤ M := by
    refine le_trans ?_ hle
    rw [add_comm d c, add_assoc]
    exact Multiset.le_add_left _ _
  have hdcb : d + c + b ≤ M := by
    refine le_trans ?_ hle
    rw [show a + b + c + d = d + c + b + a by abel]
    exact Multiset.le_add_right _ _
  have hall : d + c + b + a = a + b + c + d := by abel
  unfold Groups.product
  refine (times_ends hB hstage hd hc hdc).bind fun r₁ g₁ ⟨hm₁, hcount₁⟩ => ?_
  refine (times_ends hB hm₁.stage hm₁.term (hb.mono hm₁.extends_) hdcb).bind
    fun r₂ g₂ ⟨hm₂, hcount₂⟩ => ?_
  refine (times_ends hB hm₂.stage hm₂.term ((ha.mono hm₁.extends_).mono hm₂.extends_)
    (hall ▸ hle)).mono fun r₃ g₃ ⟨hm₃, hcount₃⟩ => ⟨⟨hm₃.stage, ?_, hall ▸ hm₃.term⟩, ?_⟩
  · exact fun x i hx => hm₃.extends_ (hm₂.extends_ (hm₁.extends_ hx))
  · simp only [Groups.terms]
    omega

theorem powersOf_eq {leaves : List NodeId} {count : NodeId → Nat} (hnodup : leaves.Nodup)
    (hmem : ∀ y, y ∈ leaves ↔ y ∈ M) (hcount : ∀ y, count y = M.count y) :
    powersOf count leaves = M := by
  have hpart : ∀ z, (powersOf count leaves).count z = if z ∈ leaves then count z else 0 := by
    intro z
    clear hmem
    induction leaves with
    | nil => simp [powersOf]
    | cons y rest ih =>
      rw [List.nodup_cons] at hnodup
      have ih := ih hnodup.2
      rw [powersOf] at ih ⊢
      rw [List.map_cons, List.sum_cons, Multiset.count_add, ih, Multiset.count_replicate]
      by_cases hz : y = z
      · subst hz
        simp [hnodup.1]
      · simp [hz, Ne.symm hz]
  ext z
  rw [hpart, hcount]
  split
  · rfl
  · rename_i hz
    rw [hmem] at hz
    exact (Multiset.count_eq_zero.2 hz).symm

structure Multiplied (I : Graph → Prop) (g : Graph) (M : Multiset NodeId) (root : NodeId)
    (created : List NodeId) (g' : Graph) : Prop where
  stage : Stage I g M g'
  built : g'.plan.Built g.size M root M
  mem_created : ∀ y : Int, y ∈ created ↔ (g.size : Int) ≤ y ∧ y < (g'.size : Int)

theorem buildProduct_ends (hB : Builds I E E' g M) (hI : I g) (hne : M ≠ 0) {leaves : List NodeId}
    {count : NodeId → Nat} (hnodup : leaves.Nodup) (hmem : ∀ y, y ∈ leaves ↔ y ∈ M)
    (hcount : ∀ y, count y = M.count y) :
    Ends (buildProduct leaves count) g E' fun product g' => ∃ root, product.root = some root ∧
      Multiplied I g M root product.created g' ∧
      products g' + 1 = products g + leaves.length := by
  have hstart : Fills I g M .empty 0 g := by
    refine ⟨⟨hI, fun _ _ hx => hx, le_rfl, fun _ _ => rfl, fun x hlow hlt => ?_,
      fun {x i op} hlow hx => ?_⟩, ?_⟩
    · exact absurd hlt (by omega)
    · exact absurd (range_of_plan hx).2 (not_lt.2 hlow)
    · exact ⟨0, 0, 0, 0, rfl, rfl, rfl, rfl, rfl⟩
  have hall : 0 + powersOf count leaves = M := by rw [zero_add, powersOf_eq hnodup hmem hcount]
  have hbody : Ends (do
      let groups ← leaves.foldlM (Groups.addLeaf count) .empty
      return (← groups.product, groups.powers) : Edit (Option NodeId × Nat)) g E fun r g' =>
        ∃ root, r.1 = some root ∧ Makes I g M g M (some root) g' ∧
          products g' + 1 = products g + leaves.length := by
    refine (addLeaves_ends hB hstart (fun y hy => (hmem y).1 hy) hcount hall.le).bind
      fun groups g₁ ⟨hf, hcount₁⟩ => ?_
    rw [hall] at hf
    refine (product_ends hB hf le_rfl).bind fun r g' ⟨hmakes, hcount'⟩ => ends_pure.2 ?_
    cases r with
    | none =>
      have hzero : M = 0 := hmakes.term
      exact absurd hzero hne
    | some root =>
      refine ⟨root, rfl, ⟨hmakes.stage, hmakes.stage.extends, hmakes.term⟩, ?_⟩
      simp only [Groups.terms, Groups.empty, Option.toList_some, Option.toList_none,
        List.length_singleton, List.length_nil] at hcount₁ hcount'
      omega
  unfold buildProduct
  rw [ends_bind_ok Edit.get_apply]
  refine (Edit.ends_undoing hbody fun fault g' hE => hB.undo hE).bind ?_
  rintro ⟨r, powers⟩ g' ⟨root, rfl, hmakes, hproducts⟩
  simp only
  rw [ends_bind_ok Edit.get_apply]
  exact ends_pure.2 ⟨root, rfl, ⟨hmakes.stage, hmakes.term, fun y => mem_drop_ids⟩, hproducts⟩

structure Factorable (g₀ : Graph) (M : Multiset NodeId) : Prop where
  item : ∀ y ∈ M, ∃ i, g₀.plan y = some i
  proper : (g₀.plan.profileAll M).Proper

theorem adding_sound (h : g.Sound) {p : Profile} (hin : ∀ y ∈ inputs, ∃ i, g.plan y = some i)
    (ha : op.arity? = some inputs.length) (hop : op ≠ .data op.name)
    (hs : Profile.scalar.sizeFrom op (inputs.filterMap g.plan) = some p) :
    Adding Sound (fun _ _ => False) g op inputs := by
  obtain ⟨g', hrun, hsize, hsound, hleaves⟩ := h.addNode hin ha hop hs
  exact (ends_ok hrun).2 ⟨rfl, hsound, hsize, ⟨p, hleaves.plan_eq⟩, hleaves.ops⟩

theorem Factorable.proper_pair (hM : Factorable g₀ M) (h : Stage I g₀ M g) (hj : g.plan.Joined)
    {a b : NodeId} {m m' : Multiset NodeId} (ha : g.plan.Built g₀.size M a m)
    (hb : g.plan.Built g₀.size M b m') (hle : m + m' ≤ M) :
    ∃ ia ib, g.plan a = some ia ∧ g.plan b = some ib ∧ (ia.profile ⊔ ib.profile).Proper := by
  obtain ⟨ia, hia, hpa⟩ := ha.profile hj
  obtain ⟨ib, hib, hpb⟩ := hb.profile hj
  refine ⟨ia, ib, hia, hib, ?_⟩
  rw [hpa, hpb, ← Plan.profileAll_add]
  refine Profile.Proper.of_le (Plan.profileAll_le hle) ?_
  rw [h.extends.profileAll_eq hM.item]
  exact hM.proper

theorem builds_sound (hM : Factorable g₀ M) :
    Builds Sound (fun _ _ => False) (fun _ _ => False) g₀ M where
  item := hM.item
  literal h := adding_sound h.inv nofun rfl nofun rfl
  pow {g leaf e v p} h hmem he := by
    obtain ⟨k, hk₀⟩ := hM.item leaf hmem
    have hk := h.extends hk₀
    have hproper : k.profile.Proper := by
      obtain ⟨node, -, -, rfl⟩ := get?_of_plan hk
      exact Shape.profile_proper _
    have hscalar : p = ⊥ := (Option.some.inj (h.inv.sized he)).symm
    refine adding_sound h.inv ?_ rfl nofun ?_ (p := k.profile)
    · intro y hy
      rcases List.mem_cons.1 hy with rfl | hy
      · exact ⟨k, hk⟩
      · rw [List.mem_singleton.1 hy]
        exact ⟨_, he⟩
    · simp only [List.filterMap_cons, hk, he, List.filterMap_nil]
      have hsup : k.profile ⊔ p = k.profile := by rw [hscalar, sup_bot_eq]
      exact Plan.sizeFrom_pair.2 ⟨hsup.symm, hsup.symm ▸ hproper⟩
  mult {g a b m m'} h ha hb hle := by
    obtain ⟨ia, ib, hia, hib, hproper⟩ := hM.proper_pair h (Plan.Sized.joined h.inv.sized) ha hb hle
    refine adding_sound h.inv ?_ rfl nofun ?_ (p := ia.profile ⊔ ib.profile)
    · intro y hy
      rcases List.mem_cons.1 hy with rfl | hy
      · exact ⟨ia, hia⟩
      · rw [List.mem_singleton.1 hy]
        exact ⟨ib, hib⟩
    · simp only [List.filterMap_cons, hia, hib, List.filterMap_nil]
      exact Plan.sizeFrom_pair.2 ⟨rfl, hproper⟩
  undo := False.elim

end Optimizer.Factoring
end LinearPlan
