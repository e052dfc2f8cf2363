import LinearPlan.Proofs.ProductBuild

/-!
# Replacing a product

The product of all factors, built anew, takes the place of a product: its uses are moved, and the
old product is retired with all products inside of it. Sizes do not change, as both have the profile
of the factors. No cycle arises, as the new nodes are above the factors and below the users only.
-/
namespace LinearPlan

namespace Item

structure Alike (i j : Item) : Prop where
  profile : i.profile = j.profile
  literal : i.op.literalInt? = j.op.literalInt?

theorem Alike.subst {old new : NodeId} (i : Item) : Alike i (i.subst old new) := ⟨rfl, rfl⟩

end Item

theorem Profile.sizeFrom_congr {own : Profile} {op : Op} {l l' : List Item}
    (h : List.Forall₂ Item.Alike l l') : own.sizeFrom op l = own.sizeFrom op l' := by
  rcases h with _ | ⟨⟨pa, la⟩, _ | ⟨⟨pb, lb⟩, _ | ⟨⟨pc, lc⟩, _ | ⟨⟨pd, ld⟩, _ |
    ⟨⟨pe, le⟩, _ | ⟨_, _⟩⟩⟩⟩⟩⟩
  all_goals cases op <;> simp_all [sizeFrom]

namespace Plan
variable {P P' : Plan} {old new : NodeId} {i : Item}

theorem sizeFrom_subst {own : Profile} (h : ∀ y ∈ i.inputs, ∃ j j', P y = some j ∧
    P' (if y = old then new else y) = some j' ∧ j.Alike j') :
    own.sizeFrom i.op (P'.operands (i.subst old new)) = own.sizeFrom i.op (P.operands i) := by
  refine (Profile.sizeFrom_congr ?_).symm
  unfold operands Item.subst
  generalize i.inputs = inputs at h
  induction inputs with
  | nil => exact .nil
  | cons y rest ih =>
    obtain ⟨j, j', hj, hj', ha⟩ := h y List.mem_cons_self
    simp only [List.map_cons, List.filterMap_cons, hj, hj']
    exact .cons ha (ih fun z hz => h z (List.mem_cons_of_mem y hz))

theorem Factors.rank_lt {rank : NodeId → Nat} (hrank : P.Ranked rank) {x y : NodeId}
    {m : Multiset NodeId} (h : P.Factors x m) (hx : P.Inside x x) (hy : y ∈ m) :
    rank y < rank x := by
  obtain ⟨j, hj, hjm, rfl | ⟨z, k, hz, hk, hyk⟩⟩ := h.mem hy
  · exact absurd hx (not_inside_of_leaf hj hjm)
  · exact (hrank hk hyk).trans_le (hz.rank_le hrank)

theorem Built.rank_le {rank : NodeId → Nat} (hrank : P.Ranked rank) {s : Int} {x y : NodeId}
    {M m : Multiset NodeId} (h : P.Built s M x m) (hy : y ∈ m) : rank y ≤ rank x := by
  induction h with
  | leaf => rw [Multiset.mem_singleton.1 hy]
  | power hx _ _ hi =>
    rw [Multiset.eq_of_mem_replicate hy]
    exact (hrank hx (hi ▸ List.mem_cons_self)).le
  | @product x a b i m m' hx _ _ hi _ _ _ iha ihb =>
    rcases Multiset.mem_add.1 hy with hy | hy
    · exact (iha hy).trans (hrank hx (hi ▸ List.mem_cons_self)).le
    · exact (ihb hy).trans (hrank hx (hi ▸ List.mem_cons_of_mem a List.mem_cons_self)).le

theorem Built.rank_lt {rank : NodeId → Nat} (hrank : P.Ranked rank) {s x : Int} {y : NodeId}
    {M m : Multiset NodeId} (h : P.Built s M x m) (hs : s ≤ x) (hy : y ∈ m) : rank y < rank x := by
  cases h with
  | leaf _ hlt => omega
  | power hx _ _ hi =>
    rw [Multiset.eq_of_mem_replicate hy]
    exact hrank hx (hi ▸ List.mem_cons_self)
  | @product _ a b i m m' hx _ _ hi ha hb =>
    rcases Multiset.mem_add.1 hy with hy | hy
    · exact (ha.rank_le hrank hy).trans_lt (hrank hx (hi ▸ List.mem_cons_self))
    · exact (hb.rank_le hrank hy).trans_lt
        (hrank hx (hi ▸ List.mem_cons_of_mem a List.mem_cons_self))

end Plan

namespace Optimizer.RuleM
variable {α β : Type} {p p' : Pass}

theorem bind_ok {x : RuleM α} {f : α → RuleM β} {a : α} (h : x p = .ok a p') :
    (x >>= f) p = f a p' := by
  show EStateM.bind x f p = _
  rw [EStateM.bind, h]

theorem bind_congr {x y : RuleM α} {f : α → RuleM β} (h : x p = y p) :
    (x >>= f) p = (y >>= f) p := by
  show EStateM.bind x f p = EStateM.bind y f p
  rw [EStateM.bind, EStateM.bind, h]

theorem read_ok {f : Graph → Except Fault α} {a : α} (h : f p.graph = .ok a) :
    read f p = .ok a p := by
  rw [read, h]

theorem edit_ok {e : Edit α} {a : α} {g' : Graph} (h : e p.graph = .ok a g') :
    edit e p = .ok a { p with graph := g' } := by
  rw [edit, h]

theorem markVisited_apply (ids : List NodeId) :
    markVisited ids p = .ok () { p with visited := ids ++ p.visited } := rfl

theorem forM_edit (f : α → Edit Unit) (l : List α) :
    (l.forM fun a => edit (f a)) = edit (l.forM f) := by
  funext p
  induction l generalizing p with
  | nil => rfl
  | cons a rest ih =>
    show EStateM.bind (edit (f a)) (fun _ => rest.forM fun a => edit (f a)) p =
      edit (EStateM.bind (f a) fun _ => rest.forM f) p
    unfold EStateM.bind edit
    cases ha : f a p.graph with
    | error fault g => simp only [ha]
    | ok u g =>
      simp only [ha]
      exact ih _

end Optimizer.RuleM

namespace Optimizer.Factoring
open LinearPlan.Graph
variable {g g' : Graph} {id root : NodeId} {M : Multiset NodeId}

/-- What replacing a product by the product of its factors does to a graph, before its users are
refreshed. -/
structure Refactored (g : Graph) (id : NodeId) (M : Multiset NodeId) (root : NodeId) (g' : Graph) :
    Prop where
  ordered : g'.Ordered
  ops : g.KeepsOps g'
  factors : g.plan.Factors id M
  inside : g.plan.Inside id id
  built : g'.plan.Built g.size M root M
  new : (g.size : Int) ≤ root
  size_le : g.size ≤ g'.size
  gone : ∀ x, g.plan.Inside id x → g'.plan x = none
  kept : ∀ x : Int, x < (g.size : Int) → ¬ g.plan.Inside id x →
    g'.plan x = (g.plan x).map (Item.subst id root)
  fresh : ∀ x : Int, (g.size : Int) ≤ x → x < (g'.size : Int) →
    ∃ i, g'.plan x = some i ∧ Fresh g.size M x i
  terms : ∀ x i op, @LE.le Int _ g.size x → g'.plan x = some i → i.op = .binary op →
    ∃ m, g'.plan.Built g.size M x m
  unused : ∀ x i, @LE.le Int _ g.size x → g'.plan x = some i → root ∉ i.inputs
  products_lt : products g' < products g

structure Factored (g : Graph) (id : NodeId) (M : Multiset NodeId) (root : NodeId) (g' : Graph) :
    Prop extends Refactored g id M root g' where
  sound : g'.Sound

def newRank (rank : NodeId → Nat) (s : Int) (id : NodeId) (k : Nat) (x : Int) : Nat :=
  if x < s then k * rank x else k * rank id + 1 + (x - s).toNat

theorem newRank_old {rank : NodeId → Nat} {s x : Int} {k : Nat} (h : x < s) :
    newRank rank s id k x = k * rank x := if_pos h

theorem newRank_new {rank : NodeId → Nat} {s x : Int} {k : Nat} (h : s ≤ x) :
    newRank rank s id k x = k * rank id + 1 + (x - s).toNat := if_neg (by omega)

theorem ranked_replace {P P' : Plan} {rank : NodeId → Nat} {s root : Int} {k : Nat}
    (hrank : P.Ranked rank) (hc : P.Closed) (hP : ∀ {x : Int} {i}, P x = some i → x < s)
    (hM : ∀ y ∈ M, ∃ i, P y = some i ∧ rank y < rank id)
    (hold : ∀ {x : Int} {i}, P' x = some i → x < s →
      ∃ j, P x = some j ∧ i = j.subst id root)
    (hnew : ∀ {x : Int} {i}, P' x = some i → s ≤ x → x < s + k ∧ Fresh s M x i)
    (hroot : s ≤ root ∧ root < s + k) : P'.Ranked (newRank rank s id (k + 1)) := by
  intro x i y hx hy
  have hk : (root - s).toNat < k := by omega
  by_cases hxs : (x : Int) < s
  · obtain ⟨j, hj, rfl⟩ := hold hx hxs
    rw [newRank_old hxs]
    rcases Item.mem_subst.1 hy with ⟨hy, -⟩ | ⟨rfl, ho⟩
    · obtain ⟨l, hl⟩ := hc hj y hy
      rw [newRank_old (hP hl)]
      exact Nat.mul_lt_mul_of_pos_left (hrank hj hy) (Nat.succ_pos k)
    · rw [newRank_new hroot.1]
      have hlt : rank id + 1 ≤ rank x := hrank hj ho
      have hmul := Nat.mul_le_mul_left (k + 1) hlt
      rw [Nat.mul_add, Nat.mul_one] at hmul
      omega
  · have hxs : s ≤ (x : Int) := not_lt.1 hxs
    obtain ⟨-, hf⟩ := hnew hx hxs
    rw [newRank_new hxs]
    rcases hf.operand y hy with hy | ⟨hys, hyx⟩
    · obtain ⟨l, hl, hlt⟩ := hM y hy
      rw [newRank_old (hP hl)]
      have hmul := Nat.mul_le_mul_left (k + 1) hlt.le
      omega
    · rw [newRank_new hys]
      omega

structure Prepared (I : Graph → Prop) (g : Graph) (id : NodeId) (t : Tree) (M : Multiset NodeId)
    (root : NodeId) (g₁ : Graph) : Prop where
  ordered : g.Ordered
  linked : g₁.Linked
  collected : Collected g id t M
  repeated : ∃ y, 1 < M.count y
  inner : t.hasForeignParent g = false
  stage : Stage I g M g₁
  built : g₁.plan.Built g.size M root M

namespace Prepared
variable {I : Graph → Prop} {t : Tree} {g₁ : Graph}

theorem new (h : Prepared I g id t M root g₁) : (g.size : Int) ≤ root := by
  by_contra hroot
  obtain ⟨y, hy⟩ := h.repeated
  rw [h.built.eq_singleton (not_le.1 hroot)] at hy
  exact absurd hy (not_lt.2 (Multiset.nodup_iff_count_le_one.1 (Multiset.nodup_singleton _) y))

theorem inside (h : Prepared I g id t M root g₁) : g.plan.Inside id id := h.collected.inside

theorem old_of_mem (h : Prepared I g id t M root g₁) {x : Int} (hx : x ∈ t.interior) :
    x < (g.size : Int) := by
  obtain ⟨i, hi, -⟩ := ((h.collected.interior x).1 hx).product
  exact (range_of_plan hi).2

theorem not_mem_interior (h : Prepared I g id t M root g₁) {y : NodeId} (hy : y ∈ M) :
    y ∉ t.interior := by
  intro hyi
  obtain ⟨j, hj, hjm, -⟩ := h.collected.factors.mem hy
  exact Plan.not_inside_of_leaf hj hjm (((h.collected.interior y).1 hyi).product.elim
    fun i hi => .root hi.1 hi.2)

theorem root_not_mem (h : Prepared I g id t M root g₁) : root ∉ t.interior := fun hroot =>
  absurd (h.old_of_mem hroot) (not_lt.2 h.new)

theorem operand_kept (h : Prepared I g id t M root g₁) {x y : Int} {i : Item}
    (hx : g₁.plan x = some i) (hxi : x ∉ t.interior) (hy : y ∈ i.inputs) (hne : y ≠ id) :
    y ∉ t.interior := by
  intro hyi
  by_cases hxs : x < (g.size : Int)
  · rw [h.stage.old x hxs] at hx
    exact hxi (h.collected.users h.ordered.toLinked h.inner hyi hne hx hy)
  · have hlt := (range_of_plan hx).2
    obtain ⟨j, hj, hf⟩ := h.stage.fresh x (by omega) hlt
    rw [hx] at hj
    cases hj
    rcases hf.operand y hy with hy | ⟨hys, -⟩
    · exact h.not_mem_interior hy hyi
    · have hold := h.old_of_mem hyi
      omega

theorem not_mem_fresh (h : Prepared I g id t M root g₁) {x : Int} {i : Item}
    (hf : Fresh g.size M x i) : id ∉ i.inputs := by
  intro hid
  have hidi := (h.collected.interior id).2 h.inside
  rcases hf.operand id hid with hid | ⟨hids, -⟩
  · exact h.not_mem_interior hid hidi
  · exact absurd (h.old_of_mem hidi) (not_lt.2 hids)

def plan (t : Tree) (id root : NodeId) (g₁ : Graph) : Plan := fun x =>
  if x ∈ t.interior then none else (g₁.plan x).map (Item.subst id root)

theorem plan_eq_some {x : NodeId} {i : Item} (hx : plan t id root g₁ x = some i) :
    x ∉ t.interior ∧ ∃ j, g₁.plan x = some j ∧ i = j.subst id root := by
  unfold plan at hx
  split at hx
  · cases hx
  · rename_i hxi
    obtain ⟨j, hj, rfl⟩ := Option.map_eq_some_iff.1 hx
    exact ⟨hxi, j, hj, rfl⟩

theorem plan_of {x : NodeId} {j : Item} (hxi : x ∉ t.interior) (hj : g₁.plan x = some j) :
    plan t id root g₁ x = some (j.subst id root) := by
  rw [plan, if_neg hxi, hj]
  rfl

theorem plan_new (h : Prepared I g id t M root g₁) {x : Int} (hx : (g.size : Int) ≤ x) :
    plan t id root g₁ x = g₁.plan x := by
  rw [plan, if_neg fun hxi => absurd (h.old_of_mem hxi) (not_lt.2 hx)]
  by_cases hlt : x < (g₁.size : Int)
  · obtain ⟨k, hk, hf⟩ := h.stage.fresh x hx hlt
    rw [hk, Option.map_some, Item.subst_of_not_mem (h.not_mem_fresh hf)]
  · rw [plan_eq_none_of_size_le (not_lt.1 hlt), Option.map_none]

theorem plan_kept (h : Prepared I g id t M root g₁) {x : Int} (hx : x < (g.size : Int))
    (hxi : ¬ g.plan.Inside id x) :
    plan t id root g₁ x = (g.plan x).map (Item.subst id root) := by
  rw [plan, if_neg fun hmem => hxi ((h.collected.interior x).1 hmem), h.stage.old x hx]

theorem plan_gone (h : Prepared I g id t M root g₁) {x : NodeId} (hx : g.plan.Inside id x) :
    plan t id root g₁ x = none := by
  rw [plan, if_pos ((h.collected.interior x).2 hx)]

theorem plan_built (h : Prepared I g id t M root g₁) {x : NodeId} {m : Multiset NodeId}
    (hb : g₁.plan.Built g.size M x m) (hm : m ≤ M) : (plan t id root g₁).Built g.size M x m := by
  refine hb.transfer (fun y hy => h.plan_new hy) fun y hy => ?_
  have hyM := Multiset.mem_of_le hm hy
  obtain ⟨k, hk, -⟩ := h.collected.factors.mem hyM
  exact ⟨_, plan_of (h.not_mem_interior hyM) (h.stage.extends hk)⟩

theorem root_item (h : Prepared I g id t M root g₁) :
    ∃ i, g₁.plan root = some i ∧ Fresh g.size M root i := by
  obtain ⟨i, hi⟩ := h.built.item
  obtain ⟨j, hj, hf⟩ := h.stage.fresh root h.new (range_of_plan hi).2
  exact ⟨j, hj, hf⟩

theorem acyclic (h : Prepared I g id t M root g₁) : (plan t id root g₁).Acyclic := by
  obtain ⟨rank, hrank⟩ := h.ordered.acyclic
  have hbound : ∀ {x : Int} {i}, g₁.plan x = some i → x < (g.size : Int) + g₁.size := by
    intro x i hx
    have hlt := (range_of_plan hx).2
    omega
  have hM : ∀ y ∈ M, ∃ i, g.plan y = some i ∧ rank y < rank id := fun y hy => by
    obtain ⟨j, hj, -⟩ := h.collected.factors.mem hy
    exact ⟨j, hj, h.collected.factors.rank_lt hrank h.inside hy⟩
  have hold : ∀ {x : Int} {i}, plan t id root g₁ x = some i → x < (g.size : Int) →
      ∃ j, g.plan x = some j ∧ i = j.subst id root := by
    intro x i hx hxs
    obtain ⟨-, j, hj, rfl⟩ := plan_eq_some hx
    rw [h.stage.old x hxs] at hj
    exact ⟨j, hj, rfl⟩
  have hnew : ∀ {x : Int} {i}, plan t id root g₁ x = some i → (g.size : Int) ≤ x →
      x < (g.size : Int) + g₁.size ∧ Fresh g.size M x i := by
    intro x i hx hxs
    rw [h.plan_new hxs] at hx
    obtain ⟨j, hj, hf⟩ := h.stage.fresh x hxs (range_of_plan hx).2
    rw [hx] at hj
    cases hj
    exact ⟨hbound hx, hf⟩
  obtain ⟨i, hi, -⟩ := h.root_item
  exact ⟨_, ranked_replace hrank h.ordered.closed (fun hx => (range_of_plan hx).2) hM hold hnew
    ⟨h.new, hbound hi⟩⟩

theorem products_lt (h : Prepared I g id t M root g₁) {g₄ : Graph}
    (hcount : products g₁ + 1 = products g + t.leaves.keys.length)
    (hops : ∀ x i, g₄.plan x = some i → ∃ j, plan t id root g₁ x = some j ∧ j.op = i.op) :
    products g₄ < products g := by
  have hkeys := h.collected.length_keys_le h.ordered h.repeated
  have hlost : products g₄ + t.interior.length ≤ products g₁ := by
    refine Plan.tally_add_le h.collected.nodup (fun x hx => ?_) fun x hx => ?_
    · obtain ⟨k, hk, hkm⟩ := ((h.collected.interior x).1 hx).product
      have hk₁ := h.stage.extends hk
      exact Plan.mem_having.2 ⟨range_of_plan hk₁, k, hk₁, hkm⟩
    · obtain ⟨-, k, hk, hkm⟩ := Plan.mem_having.1 hx
      obtain ⟨j, hj, hop⟩ := hops x k hk
      obtain ⟨hxi, j₁, hj₁, rfl⟩ := plan_eq_some hj
      exact ⟨hxi, Plan.mem_having.2 ⟨range_of_plan hj₁, j₁, hj₁, hop ▸ hkm⟩⟩
  omega

theorem retire_ok (h : Prepared I g id t M root g₁) :
    ∃ edges g₂ g₃, Edit.redirectParents id root g₁ = .ok edges g₂ ∧
      Edit.retireAll t.interior g₂ = .ok () g₃ ∧ g₃.size = g₁.size ∧
      Edit.Rewires g₁ (plan t id root g₁) g₃ ∧
      ∀ e ∈ edges, ∃ k, plan t id root g₁ e.parent = some k ∧ root ∈ k.inputs := by
  obtain ⟨i, hi, hm⟩ := h.inside.product
  obtain ⟨j, hj, hfresh⟩ := h.root_item
  obtain ⟨edges, g₂, hrun₂, hsize₂, hl₂, hedges⟩ := Edit.redirectParents_rewires h.linked
    (h.stage.extends hi) hj (h.not_mem_fresh hfresh)
  have hplan₂ : ∀ x, g₂.plan x = (g₁.plan x).map (Item.subst id root) := congrFun hl₂.plan_eq
  have hlive : ∀ x ∈ t.interior, ∃ k, g₂.plan x = some k := by
    intro x hx
    obtain ⟨k, hk, -⟩ := ((h.collected.interior x).1 hx).product
    exact ⟨_, (hplan₂ x).trans (congrArg _ (h.stage.extends hk))⟩
  have hclosed : ∀ x ∈ t.interior, ∀ p k, g₂.plan p = some k → x ∈ k.inputs →
      p ∈ t.interior := by
    intro x hx p k hp hxk
    rw [hplan₂] at hp
    obtain ⟨k₁, hk₁, rfl⟩ := Option.map_eq_some_iff.1 hp
    by_contra hpi
    rcases Item.mem_subst.1 hxk with ⟨hxk, hne⟩ | ⟨rfl, -⟩
    · exact h.operand_kept hk₁ hpi hxk hne hx
    · exact h.root_not_mem hx
  obtain ⟨g₃, hrun₃, hsize₃, hl₃⟩ := Edit.retireAll_rewires hl₂.linked hlive hclosed
  obtain ⟨rank, hrank⟩ := h.ordered.acyclic
  refine ⟨edges, g₂, g₃, hrun₂, hrun₃, by omega, ⟨hl₃.linked, ?_, hl₂.ops.trans hl₃.ops,
    fun ht => hl₃.typed (hl₂.typed ht)⟩, fun e he => ?_⟩
  · rw [hl₃.plan_eq, hl₂.plan_eq]
    rfl
  · obtain ⟨k, hk, hidk⟩ := hedges e he
    refine ⟨_, plan_of (fun hpi => ?_) hk, Item.mem_subst.2 (.inr ⟨rfl, hidk⟩)⟩
    rw [h.stage.old _ (h.old_of_mem hpi)] at hk
    have hle := ((h.collected.interior _).1 hpi).rank_le hrank
    have hlt := hrank hk hidk
    omega

theorem unused (h : Prepared I g id t M root g₁) {x : Int} {i : Item} (hx : (g.size : Int) ≤ x)
    (hi : g₁.plan x = some i) : root ∉ i.inputs := by
  obtain ⟨j, hj, hf⟩ := h.stage.fresh x hx (range_of_plan hi).2
  rw [hi] at hj
  cases hj
  have hbinary : ∀ {op}, i.op = .binary op → root ∉ i.inputs := fun hop => by
    obtain ⟨m, hm⟩ := h.stage.terms hx hi hop
    exact h.built.root_unused h.new hm hx hi
  rcases hf.op with ⟨v, hop⟩ | hop | hop
  · have harity := h.linked.arity_of_plan hi
    rw [hop] at harity
    rw [List.length_eq_zero_iff.1 (Option.some.inj harity).symm]
    exact List.not_mem_nil
  · exact hbinary hop
  · exact hbinary hop

theorem refactored (h : Prepared I g id t M root g₁) {g₃ : Graph} (hsize : g₃.size = g₁.size)
    (hr : Edit.Rewires g₁ (plan t id root g₁) g₃)
    (hcount : products g₁ + 1 = products g + t.leaves.keys.length) :
    Refactored g id M root g₃ := by
  have hplan : g₃.plan = plan t id root g₁ := hr.plan_eq
  refine ⟨⟨hr.linked, hplan ▸ h.acyclic⟩, h.stage.ops.trans hr.ops, h.collected.factors, h.inside,
    ?_, h.new, hsize ▸ h.stage.size_le, ?_, ?_, ?_, ?_, ?_, ?_⟩
  · exact hplan ▸ h.plan_built h.built le_rfl
  · exact fun x hx => hplan ▸ h.plan_gone hx
  · exact fun x hx hxi => hplan ▸ h.plan_kept hx hxi
  · intro x hx hlt
    rw [hplan, h.plan_new hx]
    exact h.stage.fresh x hx (by omega)
  · intro x i op hx hxi hop
    rw [hplan] at hxi ⊢
    rw [h.plan_new hx] at hxi
    obtain ⟨m, hm⟩ := h.stage.terms hx hxi hop
    exact ⟨m, h.plan_built hm (hm.le_of_new hx)⟩
  · intro x i hx hxi
    rw [hplan, h.plan_new hx] at hxi
    exact h.unused hx hxi
  · exact h.products_lt hcount fun x i hx => ⟨i, hplan ▸ hx, rfl⟩

theorem alike (h : Prepared Sound g id t M root g₁) (hs : g.Sound) :
    ∃ i j, g₁.plan id = some i ∧ g₁.plan root = some j ∧ i.Alike j := by
  obtain ⟨i, hi, hm⟩ := h.inside.product
  obtain ⟨i', hi', hp⟩ := h.collected.factors.profile (Plan.Sized.joined hs.sized)
  rw [hi] at hi'
  cases hi'
  obtain ⟨j, hj, hpj⟩ := h.built.profile (Plan.Sized.joined h.stage.inv.sized)
  refine ⟨i, j, h.stage.extends hi, hj, ?_, ?_⟩
  · rw [hp, hpj, h.stage.extends.profileAll_eq fun y hy => ?_]
    obtain ⟨k, hk, -⟩ := h.collected.factors.mem hy
    exact ⟨k, hk⟩
  · obtain ⟨j', op, hj', hop⟩ := h.built.isBinary h.new
    rw [hj] at hj'
    cases hj'
    rw [isMult_iff.1 hm, hop]
    rfl

theorem sized (h : Prepared Sound g id t M root g₁) (hs : g.Sound) :
    (plan t id root g₁).Sized := by
  intro x i hx
  obtain ⟨hxi, j, hj, rfl⟩ := plan_eq_some hx
  rw [Item.subst_op, Item.subst_profile, Plan.sizeFrom_subst, h.stage.inv.sized hj]
  intro y hy
  by_cases hyid : y = id
  · obtain ⟨k, k', hk, hk', ha⟩ := h.alike hs
    rw [if_pos hyid, hyid]
    exact ⟨k, _, hk, plan_of h.root_not_mem hk', ha.profile, ha.literal⟩
  · obtain ⟨k, hk⟩ := h.stage.inv.closed hj y hy
    rw [if_neg hyid]
    exact ⟨k, _, hk, plan_of (h.operand_kept hj hxi hy hyid) hk, .subst k⟩

theorem replace_ok (h : Prepared Sound g id t M root g₁) (hs : g.Sound)
    (hcount : products g₁ + 1 = products g + t.leaves.keys.length) :
    ∃ edges g₂ g₃ g₄, Edit.redirectParents id root g₁ = .ok edges g₂ ∧
      Edit.retireAll t.interior g₂ = .ok () g₃ ∧
      (edges.forM fun e => Edit.refresh e.parent) g₃ = .ok () g₄ ∧ g₄.size = g₁.size ∧
      Factored g id M root g₄ := by
  obtain ⟨edges, g₂, g₃, hrun₂, hrun₃, hsize₃, hl₃, hedges⟩ := h.retire_ok
  have ht₃ := hl₃.typed h.stage.inv.toTyped
  obtain ⟨g₄, hrun₄, hsize₄, hl₄⟩ := Edit.forM_refresh_plan (f := Edge.parent) (l := edges)
    ht₃ fun e he => by
      obtain ⟨k, hk, -⟩ := hedges e he
      rw [hl₃.plan_eq]
      exact ⟨k, hk, h.sized hs hk⟩
  have hr : Edit.Rewires g₁ (plan t id root g₁) g₄ :=
    ⟨hl₄.typed.toLinked, hl₄.plan_eq.trans hl₃.plan_eq, hl₃.ops.trans hl₄.ops, fun _ => hl₄.typed⟩
  have hsize : g₄.size = g₁.size := by omega
  have hre := h.refactored hsize hr hcount
  refine ⟨edges, g₂, g₃, g₄, hrun₂, hrun₃, hrun₄, hsize, hre, hl₄.typed, ?_, hre.ordered.acyclic⟩
  exact hr.plan_eq ▸ h.sized hs

end Prepared

structure Applied (p : Pass) (id : NodeId) (M : Multiset NodeId) (root : NodeId) (p' : Pass) :
    Prop where
  step : Factored p.graph id M root p'.graph
  repeated : ∃ y, 1 < M.count y
  visited : ∀ y : Int, y ∈ p'.visited ↔
    y ∈ p.visited ∨ (p.graph.size : Int) ≤ y ∧ y < (p'.graph.size : Int)
  pending : ∃ leaves, p'.pending = p.pending ++ leaves ∧ (∀ y, y ∈ leaves ↔ y ∈ M) ∧
    leaves.length ≤ products p.graph
  replaced : p'.replaced = p.replaced

theorem isFactorable_iff {t : Tree} : t.isFactorable g = true ↔
    2 ≤ t.interior.length ∧ t.leaves.hasRepeated = true ∧ t.hasForeignParent g = false := by
  simp [Tree.isFactorable, and_assoc]

namespace Collected
variable {t : Tree}

theorem item (h : Collected g id t M) {y : NodeId} (hy : y ∈ M) : ∃ i, g.plan y = some i := by
  obtain ⟨i, hi, -⟩ := h.factors.mem hy
  exact ⟨i, hi⟩

theorem sorted (h : Collected g id t M) : ∃ leaves, sortLeaves g t.leaves.keys = .ok leaves ∧
    leaves.Nodup ∧ leaves.length = t.leaves.keys.length ∧ ∀ y, y ∈ leaves ↔ y ∈ M := by
  obtain ⟨leaves, hleaves, hperm⟩ := sortLeaves_ok fun y hy => h.item (h.mem_keys.1 hy)
  exact ⟨leaves, hleaves, hperm.nodup_iff.2 h.wellFormed.nodup, hperm.length_eq,
    fun y => by rw [hperm.mem_iff, h.mem_keys]⟩

theorem length_keys_le_products (h : Collected g id t M) (ho : g.Ordered)
    (hrep : ∃ y, 1 < M.count y) : t.leaves.keys.length ≤ products g := by
  refine (h.length_keys_le ho hrep).trans (Plan.length_le_tally h.nodup fun x hx => ?_)
  obtain ⟨i, hi, hm⟩ := ((h.interior x).1 hx).product
  exact Plan.mem_having.2 ⟨range_of_plan hi, i, hi, hm⟩

theorem repeated (h : Collected g id t M) (hf : t.isFactorable g = true) :
    ∃ y, 1 < M.count y := by
  obtain ⟨-, hrep, -⟩ := isFactorable_iff.1 hf
  obtain ⟨y, hy⟩ := h.wellFormed.hasRepeated_iff.1 hrep
  exact ⟨y, h.count y ▸ hy⟩

theorem factorable (h : Collected g id t M) (hs : g.Sound) : Factorable g M := by
  obtain ⟨i, hi, hp⟩ := h.factors.profile (Plan.Sized.joined hs.sized)
  obtain ⟨n, -, -, rfl⟩ := get?_of_plan hi
  exact ⟨fun z hz => h.item hz, hp ▸ Shape.profile_proper _⟩

end Collected

theorem factor_ok {p : Pass} {t : Tree} (h : p.graph.Sound) (hc : Collected p.graph id t M)
    (hf : t.isFactorable p.graph = true) :
    ∃ root p', factor id t p = .ok (some root) p' ∧ Applied p id M root p' := by
  have hinner := (isFactorable_iff.1 hf).2.2
  have hrep := hc.repeated hf
  obtain ⟨leaves, hleaves, hnodup, hlen, hmem⟩ := hc.sorted
  obtain ⟨⟨r, created, powers⟩, g₁, hrun₁, root, rfl, hmul, hcount⟩ := (buildProduct_ends
    (builds_sound (hc.factorable h)) h hc.factors.ne_zero hnodup hmem hc.count).exists_ok
  have hprep : Prepared Sound p.graph id t M root g₁ :=
    ⟨h.ordered, hmul.stage.inv.toLinked, hc, hrep, hinner, hmul.stage, hmul.built⟩
  obtain ⟨edges, g₂, g₃, g₄, hrun₂, hrun₃, hrun₄, hsize, hfact⟩ :=
    hprep.replace_ok h (by rw [hcount, hlen])
  obtain ⟨records, hrun⟩ : ∃ records, factor id t p = .ok (some root) { p with
      graph := g₄, visited := created ++ p.visited, pending := p.pending ++ leaves,
      records := records } := by
    unfold factor
    rw [RuleM.bind_ok (RuleM.read_ok hleaves), RuleM.bind_ok (RuleM.edit_ok hrun₁),
      RuleM.bind_ok (RuleM.markVisited_apply created),
      RuleM.bind_ok (RuleM.edit_ok hrun₂), RuleM.bind_ok (RuleM.edit_ok hrun₃), RuleM.forM_edit,
      RuleM.bind_ok (RuleM.edit_ok hrun₄)]
    exact ⟨_, rfl⟩
  refine ⟨root, _, hrun, hfact, hrep, fun z => ?_, ⟨leaves, rfl, hmem, ?_⟩, rfl⟩
  · rw [List.mem_append, hmul.mem_created, hsize, or_comm]
  · exact hlen.trans_le (hc.length_keys_le_products h.ordered hrep)

theorem Collected.isFactorable_iff_collapsible {t : Tree} (h : Collected g id t M) (hl : g.Linked) :
    t.isFactorable g = true ↔ g.plan.Collapsible id := by
  obtain ⟨rest, hrest⟩ := h.head
  have hnodup := h.nodup
  rw [hrest, List.nodup_cons] at hnodup
  have hinner : ∀ {y}, y ∈ rest ↔ g.plan.Inside id y ∧ y ≠ id := fun {y} => by
    rw [← h.interior, hrest, List.mem_cons]
    refine ⟨fun hy => ⟨.inr hy, fun he => hnodup.1 (he ▸ hy)⟩, fun hy => hy.1.resolve_left hy.2⟩
  constructor
  · intro hf
    obtain ⟨hlen, -, hforeign⟩ := isFactorable_iff.1 hf
    rw [hrest, List.length_cons] at hlen
    obtain ⟨y, hy⟩ := List.exists_mem_of_length_pos (l := rest) (by omega)
    obtain ⟨z, hz⟩ := h.repeated hf
    refine ⟨⟨y, hinner.1 hy⟩, ⟨M, z, h.factors, hz⟩, fun hy hne hp hk => ?_⟩
    exact (h.interior _).1 (h.users hl hforeign ((h.interior _).2 hy) hne hp hk)
  · rintro ⟨⟨y, hy⟩, ⟨m, z, hm, hz⟩, hclosed⟩
    refine isFactorable_iff.2 ⟨?_, h.wellFormed.hasRepeated_iff.2 ⟨z, ?_⟩, ?_⟩
    · have hpos := List.length_pos_of_mem (hinner.2 hy)
      rw [hrest, List.length_cons]
      omega
    · rw [h.count, h.factors.unique hm]
      exact hz
    · unfold Tree.hasForeignParent
      rw [hrest, List.drop_one, List.tail_cons, List.any_eq_false]
      intro c hc
      rw [Bool.not_eq_true, List.any_eq_false]
      intro q hq
      obtain ⟨hin, hne⟩ := hinner.1 hc
      obtain ⟨n, hn, hr⟩ := hl.user_live (hl.matched.mem_iff.1 hq)
      have hmem : c ∈ n.inputs := inputsOf_eq hn ▸ hl.matched.mem_iff.1 hq
      have hqi := hclosed hin hne (plan_eq_some hn hr) hmem
      simpa [h.members] using (h.interior q).2 hqi

theorem collect_retired (h : g.Linked) {n : Node} (hn : g.get? id = some n)
    (hr : n.retired = true) : collect g id = .ok (Tree.empty.enter id) := by
  have hnil : n.core.inputs = [] := h.inputs_nil (core?_eq_some hn) hr
  unfold collect expand
  rw [node_ok hn]
  show n.core.inputs.foldlM (m := Except Fault) _ _ = _
  rw [hnil]
  rfl

theorem apply_run {p : Pass} {n : Node} (h : p.graph.Ordered) (hn : p.graph.get? id = some n) :
    apply id p = .ok none p ∧ ¬ p.graph.plan.Collapsible id ∨
      ∃ t M, Collected p.graph id t M ∧ t.isFactorable p.graph = true ∧
        apply id p = factor id t p := by
  unfold apply
  rw [RuleM.bind_ok (RuleM.read_ok (node_ok hn))]
  have hitem : p.graph.plan.Collapsible id → n.retired = false ∧ n.op.isMult = true := fun hc => by
    obtain ⟨i, hi, hm⟩ := hc.product
    obtain ⟨k, hk, hr, rfl⟩ := get?_of_plan hi
    rw [hn] at hk
    cases hk
    exact ⟨hr, hm⟩
  cases hm : n.op.isMult with
  | false => exact .inl ⟨rfl, fun hc => absurd (hitem hc).2 (by simp [hm])⟩
  | true =>
    have hread : ∀ {t}, collect p.graph id = .ok t →
        (do let tree ← RuleM.read (collect · id)
            let p ← get
            if tree.isFactorable p.graph then factor id tree else return none) p =
          (if t.isFactorable p.graph then factor id t else pure none) p := fun ht =>
      RuleM.bind_ok (RuleM.read_ok ht)
    rw [if_pos rfl]
    cases hr : n.retired with
    | true =>
      rw [hread (collect_retired h.toLinked hn hr)]
      exact .inl ⟨rfl, fun hc => absurd (hitem hc).1 (by simp [hr])⟩
    | false =>
      obtain ⟨t, M, ht, hc⟩ := collect_ok h (plan_eq_some hn hr) hm
      rw [hread ht]
      cases hf : t.isFactorable p.graph with
      | false =>
        refine .inl ⟨rfl, fun hcol => ?_⟩
        rw [(hc.isFactorable_iff_collapsible h.toLinked).2 hcol] at hf
        cases hf
      | true => exact .inr ⟨t, M, hc, hf, rfl⟩

theorem apply_cases {p : Pass} {n : Node} (h : p.graph.Sound) (hn : p.graph.get? id = some n) :
    apply id p = .ok none p ∨
      ∃ M root p', apply id p = .ok (some root) p' ∧ Applied p id M root p' := by
  rcases apply_run h.ordered hn with ⟨hnone, -⟩ | ⟨t, M, hc, hf, hrun⟩
  · exact .inl hnone
  · obtain ⟨root, p', hok, happ⟩ := factor_ok h hc hf
    exact .inr ⟨M, root, p', hrun.trans hok, happ⟩

def Stands (P : Plan) (s : Int) (y z : Int) : Prop :=
  (y < s ∧ z = y) ∨ s ≤ y ∧ ∃ i e, P y = some i ∧ i.inputs = [z, e]

theorem Stands.unique {P : Plan} {s y z z' : Int} (h : Stands P s y z) (h' : Stands P s y z') :
    z = z' := by
  rcases h with ⟨hs, rfl⟩ | ⟨hs, i, e, hi, hz⟩
  · rcases h' with ⟨-, rfl⟩ | ⟨hs', -⟩
    · rfl
    · omega
  · rcases h' with ⟨hs', rfl⟩ | ⟨-, i', e', hi', hz'⟩
    · omega
    · rw [hi] at hi'
      cases hi'
      rw [hz] at hz'
      cases hz'
      rfl

theorem factors_distinct {P : Plan} {s : Int} {x : NodeId} {m N : Multiset NodeId}
    (hleaf : ∀ y ∈ M, ∀ i, P y = some i → i.op.isMult = false) (h : P.Built s M x m)
    (hm : m ≤ M) (hN : P.Factors x N) :
    (∀ y, N.count y ≤ 1) ∧ ∀ y ∈ N, ∃ z ∈ m, Stands P s y z := by
  induction h generalizing N with
  | @leaf x i hx hs =>
    have hfac : P.Factors x {x} :=
      .leaf hx (hleaf x (Multiset.mem_of_le hm (Multiset.mem_singleton_self x)) i hx)
    rw [hN.unique hfac]
    refine ⟨Multiset.nodup_iff_count_le_one.1 (Multiset.nodup_singleton x), fun y hy => ?_⟩
    rw [Multiset.mem_singleton.1 hy]
    exact ⟨x, Multiset.mem_singleton_self x, .inl ⟨hs, rfl⟩⟩
  | @power x e leaf i j k hx hs hop hi _ _ _ _ _ hn =>
    have hfac : P.Factors x {x} := .leaf hx (by rw [hop]; rfl)
    rw [hN.unique hfac]
    refine ⟨Multiset.nodup_iff_count_le_one.1 (Multiset.nodup_singleton x), fun y hy => ?_⟩
    rw [Multiset.mem_singleton.1 hy]
    exact ⟨leaf, Multiset.mem_replicate.2 ⟨by omega, rfl⟩, .inr ⟨hs, i, e, hx, hi⟩⟩
  | @product x a b i m m' hx hs hop hi ha hb hle iha ihb =>
    cases hN with
    | leaf hx' hm' =>
      rw [hx] at hx'
      cases hx'
      rw [hop] at hm'
      cases hm'
    | @product _ a' b' i' N₁ N₂ hx' hm' hi' ha' hb' =>
      rw [hx] at hx'
      cases hx'
      rw [hi] at hi'
      cases hi'
      obtain ⟨hca, hsa⟩ := iha ((Multiset.le_add_right m m').trans hm) ha'
      obtain ⟨hcb, hsb⟩ := ihb ((Multiset.le_add_left m' m).trans hm) hb'
      refine ⟨fun y => ?_, fun y hy => ?_⟩
      · rw [Multiset.count_add]
        have h₁ := hca y
        have h₂ := hcb y
        by_contra hgt
        -- A factor on both sides would stand for a factor that is on both sides in full.
        obtain ⟨z, hz, hsz⟩ := hsa y (Multiset.count_pos.1 (by omega))
        obtain ⟨z', hz', hsz'⟩ := hsb y (Multiset.count_pos.1 (by omega))
        have hzz := hsz.unique hsz'
        subst hzz
        have hcount := Multiset.count_le_of_le z hle
        rw [Multiset.count_add, ha.count_eq hz, hb.count_eq hz'] at hcount
        have hpos := Multiset.count_pos.2 (Multiset.mem_of_le hle (Multiset.mem_add.2 (.inl hz)))
        omega
      · rcases Multiset.mem_add.1 hy with hy | hy
        · obtain ⟨z, hz, hsz⟩ := hsa y hy
          exact ⟨z, Multiset.mem_add.2 (.inl hz), hsz⟩
        · obtain ⟨z, hz, hsz⟩ := hsb y hy
          exact ⟨z, Multiset.mem_add.2 (.inr hz), hsz⟩

theorem Refactored.leaf_kept (h : Refactored g id M root g') {y : Int} (hy : y ∈ M) :
    ∃ i, g.plan y = some i ∧ i.op.isMult = false ∧ g'.plan y = some (i.subst id root) := by
  obtain ⟨i, hi, hm, -⟩ := h.factors.mem hy
  refine ⟨i, hi, hm, ?_⟩
  rw [h.kept y (range_of_plan hi).2, hi, Option.map_some]
  intro hyi
  obtain ⟨j, hj, hjm⟩ := hyi.product
  rw [hi] at hj
  cases hj
  rw [hm] at hjm
  cases hjm

theorem Refactored.leaf_op (h : Refactored g id M root g') :
    ∀ y ∈ M, ∀ i, g'.plan y = some i → i.op.isMult = false := by
  intro y hy i hi
  obtain ⟨j, -, hm, hj⟩ := h.leaf_kept hy
  rw [hi] at hj
  cases hj
  exact hm

theorem Refactored.distinct (h : Refactored g id M root g') {N : Multiset NodeId}
    (hN : g'.plan.Factors root N) : ∀ y, N.count y ≤ 1 :=
  (factors_distinct h.leaf_op h.built le_rfl hN).1

end Optimizer.Factoring
end LinearPlan
