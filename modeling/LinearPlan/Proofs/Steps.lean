import LinearPlan.Proofs.MergeStep

/-!
# Steps of a pass

A pass changes a graph in steps. A step puts a new node in the place of one node, and changes some
nodes that only it uses: factoring retires the products that a product consists of, and merging
makes the writes of a chain writes to one row. All other nodes keep their items, up to the new
operand. What later proofs need to know of both kinds of steps is collected here.
-/
namespace LinearPlan

open Optimizer.Slicing (Axis)

namespace Plan
variable {P : Plan} {axis : Axis} {x : NodeId}

structure OwnBound (P : Plan) (axis : Axis) (x bound : NodeId) (i : Item) : Prop where
  item : P x = some i
  lower : i.inputs[axis.lowerPos]? = some bound
  aside : i.inputs[0]? ≠ some bound
  literal : ∃ j v, P bound = some j ∧ j.op = .literal v
  own : ∀ p k, P p = some k → bound ∈ k.inputs → p = x

structure NarrowAt (P : Plan) (axis : Axis) (x t bound : NodeId) (i : Item) : Prop
    extends OwnBound P axis x bound i where
  op : ∃ flags, i.op = .leftIndexing flags
  target : i.inputs[0]? = some t
  along : ∃ k, P t = some k ∧ axis.along k.profile = .one

/-- A write of a chain that has been merged along an axis. -/
inductive Spent (P : Plan) (axis : Axis) : NodeId → Prop
  | first {x t lower : NodeId} {i k : Item} {flags : SliceFlags}
      (h : P.NarrowAt axis x t lower i) (hk : P t = some k) (hop : k.op = .indexing flags) :
      Spent P axis x
  | next {x t lower : NodeId} {i : Item} (h : P.NarrowAt axis x t lower i) (ht : Spent P axis t) :
      Spent P axis x

theorem Spent.narrowAt (h : P.Spent axis x) : ∃ t lower i, P.NarrowAt axis x t lower i := by
  cases h with
  | first h => exact ⟨_, _, _, h⟩
  | next h => exact ⟨_, _, _, h⟩

theorem Spent.target (h : P.Spent axis x) {t : NodeId} {i : Item} (hx : P x = some i)
    (ht : i.inputs[0]? = some t) :
    (∃ k flags, P t = some k ∧ k.op = .indexing flags) ∨ P.Spent axis t := by
  have heq : ∀ {t' lower i'}, P.NarrowAt axis x t' lower i' → t' = t := by
    intro t' lower i' h
    have hi := h.item
    rw [hx] at hi
    cases hi
    exact Option.some.inj (h.target.symm.trans ht)
  cases h with
  | first h hk hop => exact .inl ⟨_, _, heq h ▸ hk, hop⟩
  | next h ht => exact .inr (heq h ▸ ht)

end Plan

theorem Merge.Chained.not_ownBound {m : Merge} {P : Plan} (h : m.Chained P) (hP : P.Acyclic)
    {x bound : NodeId} {i : Item} (hx : x ∈ m.chain) : ¬ P.OwnBound m.axis x bound i := by
  intro hb
  obtain ⟨y, j, hj, hy, hyc, hyt⟩ := h.chain.second hP h.long
  have honly : ∀ c ∈ m.chain, c = x := by
    intro c hc
    obtain ⟨_, _, hxw⟩ := h.chain.writeAt hx
    obtain ⟨_, _, hcw⟩ := h.chain.writeAt hc
    have hitem := hxw.item
    rw [hb.item] at hitem
    cases hitem
    have hbound : bound = m.index := Option.some.inj (hb.lower.symm.trans hxw.lower)
    exact hb.own c _ hcw.item (hbound ▸ hcw.lower_mem)
  exact hyt ((honly y hyc).trans (honly m.top h.top_mem).symm)

theorem Merge.Result.ownBound {m : Merge} {P P' : Plan} (h : m.Result P P') (ha : m.Chained P)
    (hP : P.Acyclic) {c t : NodeId} {i : Item} (hc : c ∈ m.chain)
    (hw : P.WriteAt m.axis m.index c t i) :
    ∃ lower upper, P'.OwnBound m.axis c lower (m.rewrite c lower upper i) := by
  obtain ⟨lower, upper, hlower, -, hitem, hown⟩ := h.done c hc i hw.item
  have hinner : (if c = m.bottom then i.retarget m.slice else i).inputs[m.axis.lowerPos]? =
      some m.index := by
    split
    · exact Item.retarget_lower hw.lower
    · exact hw.lower
  refine ⟨lower, upper, hitem, Item.narrow_lower hinner, ?_,
    ⟨_, _, h.bound lower hlower.1 hlower.2, rfl⟩, hown⟩
  rw [rewrite, Item.narrow_target]
  intro h0
  rcases ha.chain.target_cases hP ha.last hc hw.item with ⟨hb, ht⟩ | ⟨hb, y, hy, ht⟩
  · have hslice : m.slice = m.start + 2 := rfl
    rw [if_pos hb, Item.retarget_target ht] at h0
    have he : m.slice = lower := Option.some.inj h0
    omega
  · rw [if_neg hb, ht] at h0
    have hold := ha.old_of_mem hy
    rw [Option.some.inj h0] at hold
    omega

namespace Merge.Applies
variable {m : Merge} {P : Plan}

theorem not_spent (h : m.Applies P) (hP : P.Acyclic) {axis : Axis} {x : NodeId}
    (hx : x ∈ m.chain) : ¬ P.Spent axis x := by
  intro hspent
  obtain ⟨y, i, hi, hy, hyc, hyt⟩ := h.chain.second hP h.long
  by_cases haxis : m.axis = axis
  · obtain ⟨t, lower, k, hn⟩ := hspent.narrowAt
    rw [← haxis] at hn
    exact h.not_ownBound hP hx hn.toOwnBound
  · -- Across the axis the target has one entry, so the chain goes on at the first write only.
    have hbelow : ∀ c ∈ m.chain, c ≠ m.top → ¬ P.Spent axis c := by
      intro c hc hne hs
      obtain ⟨t, j, k, hw, hk, hwide⟩ := h.targets c hc hne
      obtain ⟨t', lower, j', hn⟩ := hs.narrowAt
      have hitem := hw.item
      rw [hn.item] at hitem
      cases hitem
      obtain ⟨k', hk', halong⟩ := hn.along
      have ht : t = t' := Option.some.inj (hw.target.symm.trans hn.target)
      rw [← ht, hk] at hk'
      cases hk'
      exact hwide ((Axis.across_eq_along haxis k.profile).trans halong)
    by_cases hxt : x = m.top
    · rcases hspent.target (hxt ▸ hi) hy with ⟨k, flags, hk, hop⟩ | hs
      · obtain ⟨_, _, hw⟩ := h.chain.writeAt hyc
        obtain ⟨flags', hop', -⟩ := hw.op
        have hitem := hw.item
        rw [hk] at hitem
        cases hitem
        rw [hop] at hop'
        cases hop'
      · exact hbelow y hyc hyt hs
    · exact hbelow x hx hxt hspent

end Merge.Applies

namespace Optimizer
open LinearPlan.Graph Factoring Slicing

/-- What a rule does to the nodes and edges of a graph: it replaces a node `id` by a new node `root`,
and changes the nodes `C`. -/
inductive Rework (g : Graph) : NodeId → NodeId → (NodeId → Prop) → Graph → Prop
  | factor {id root : NodeId} {M : Multiset NodeId} {g' : Graph} (h : Refactored g id M root g') :
      Rework g id root (g.plan.Inside id) g'
  | merge {m : Merge} {g' : Graph} (h : Rechained g m g') :
      Rework g m.top m.written (· ∈ m.chain) g'

namespace Rework
variable {g g' : Graph} {id root : NodeId} {C : NodeId → Prop}

theorem ordered (h : Rework g id root C g') (ho : g.Ordered) : g'.Ordered := by
  cases h with
  | factor h => exact h.ordered
  | merge h => exact h.ordered ho

theorem ops (h : Rework g id root C g') : g.KeepsOps g' := by
  cases h with
  | factor h => exact h.ops
  | merge h => exact h.ops

theorem size_le (h : Rework g id root C g') : g.size ≤ g'.size := by
  cases h with
  | factor h => exact h.size_le
  | @merge m _ h =>
    have hs := h.size
    have hstart := h.start
    have hw : m.written = m.start + 3 + 2 * m.chain.length + 2 := rfl
    omega

theorem root_new (h : Rework g id root C g') : (g.size : Int) ≤ root := by
  cases h with
  | factor h => exact h.new
  | @merge m _ h =>
    have hstart := h.start
    have hw : m.written = m.start + 3 + 2 * m.chain.length + 2 := rfl
    omega

theorem root_live (h : Rework g id root C g') : ∃ i, g'.plan root = some i := by
  cases h with
  | factor h => exact h.built.item
  | merge h => exact ⟨_, h.result.written⟩

theorem root_literal (h : Rework g id root C g') :
    ∃ i, g'.plan root = some i ∧ i.op.literalInt? = none := by
  cases h with
  | factor h =>
    obtain ⟨i, op, hi, hop⟩ := h.built.isBinary h.new
    exact ⟨i, hi, by rw [hop]; rfl⟩
  | merge h => exact ⟨_, h.result.written, rfl⟩

theorem id_changed (h : Rework g id root C g') : C id := by
  cases h with
  | factor h => exact h.inside
  | merge h => exact h.chained.top_mem

theorem op_of_changed (h : Rework g id root C g') {x : NodeId} (hx : C x) :
    ∃ i, g.plan x = some i ∧ (i.op.isMult = true ∨ ∃ flags, i.op = .leftIndexing flags) := by
  cases h with
  | factor h =>
    obtain ⟨i, hi, hm⟩ := hx.product
    exact ⟨i, hi, .inl hm⟩
  | merge h =>
    obtain ⟨t, i, hi⟩ := h.chained.chain.writeAt hx
    obtain ⟨flags, hop, -⟩ := hi.op
    exact ⟨i, hi.item, .inr ⟨flags, hop⟩⟩

theorem root_ne (h : Rework g id root C g') : root ≠ id := by
  obtain ⟨i, hi, -⟩ := h.op_of_changed h.id_changed
  have hold := (range_of_plan hi).2
  have hnew := h.root_new
  rintro rfl
  omega

theorem kept (h : Rework g id root C g') {x : Int} (hx : x < (g.size : Int)) (hC : ¬ C x) :
    g'.plan x = (g.plan x).map (Item.subst id root) := by
  cases h with
  | factor h => exact h.kept x hx hC
  | merge h => exact h.result.kept x (by rw [h.start]; exact hx) hC

theorem kept_item (h : Rework g id root C g') {x : Int} {i : Item} (hx : g.plan x = some i)
    (hC : ¬ C x) : g'.plan x = some (i.subst id root) := by
  rw [h.kept (range_of_plan hx).2 hC, hx]
  rfl

theorem users (h : Rework g id root C g') {x p : NodeId} {j : Item} (hx : C x) (hne : x ≠ id)
    (hp : g.plan p = some j) (hmem : x ∈ j.inputs) : C p := by
  cases h with
  | factor h =>
    by_contra hpC
    have hp' := h.kept p (range_of_plan hp).2 hpC
    rw [hp] at hp'
    obtain ⟨k, hk⟩ := h.ordered.closed hp' x (Item.mem_subst.2 (.inl ⟨hmem, hne⟩))
    rw [h.gone x hx] at hk
    cases hk
  | merge h =>
    obtain ⟨pos, hpos⟩ := List.mem_iff_getElem?.1 hmem
    exact (h.chained.chain.users hx hne hp hpos).1

theorem rank_le (h : Rework g id root C g') {rank : NodeId → Nat} (hrank : g.plan.Ranked rank)
    {x : NodeId} (hx : C x) : rank x ≤ rank id := by
  cases h with
  | factor h => exact hx.rank_le hrank
  | merge h => exact h.chained.chain.rank_le hrank hx

/-- A set of nodes that contains the operands of its members contains all changed nodes if it
contains the one that is replaced. -/
theorem mem_of_closed (h : Rework g id root C g') {S : NodeId → Prop}
    (hS : ∀ x i, S x → g.plan x = some i → ∀ y ∈ i.inputs, S y) (hid : S id) {x : NodeId}
    (hx : C x) : S x := by
  cases h with
  | factor h => exact hx.mem_of_closed hS hid
  | merge h => exact h.chained.chain.mem_of_closed hS hid hx

theorem user_not_changed (h : Rework g id root C g') (ho : g.Ordered) {p : NodeId} {j : Item}
    (hp : g.plan p = some j) (hmem : id ∈ j.inputs) : ¬ C p := by
  obtain ⟨rank, hrank⟩ := ho.acyclic
  intro hC
  have hle := h.rank_le hrank hC
  have hlt := hrank hp hmem
  omega

theorem user_kept (h : Rework g id root C g') (ho : g.Ordered) {p : NodeId} {j : Item}
    (hp : g.plan p = some j) (hmem : id ∈ j.inputs) : g'.plan p = some (j.subst id root) :=
  h.kept_item hp (h.user_not_changed ho hp hmem)

theorem operand_of_new (h : Rework g id root C g') {x y : Int} {j : Item} (hx : g'.plan x = some j)
    (hnew : (g.size : Int) ≤ x) (hy : y ∈ j.inputs) :
    (g.size : Int) ≤ y ∨ y = id ∨ ∃ c i, C c ∧ g.plan c = some i ∧ y ∈ i.inputs := by
  cases h with
  | factor h =>
    obtain ⟨k, hk, hf⟩ := h.fresh x hnew (range_of_plan hx).2
    rw [hx] at hk
    cases hk
    rcases hf.operand y hy with hy | ⟨hys, -⟩
    · obtain ⟨k, hk, hm, rfl | ⟨z, i, hz, hi, hyi⟩⟩ := h.factors.mem hy
      · exact .inr (.inl rfl)
      · exact .inr (.inr ⟨z, i, hz, hi, hyi⟩)
    · exact .inl hys
  | @merge m _ h =>
    have ha := h.chained
    have hstart := h.start
    have hresume : m.resume = m.start + 3 + 2 * m.chain.length := rfl
    obtain ⟨i, hi⟩ := ha.bottomAt
    have hbase : ∃ c i, c ∈ m.chain ∧ g.plan c = some i ∧ m.base ∈ i.inputs :=
      ⟨m.bottom, i, ha.bottom_mem, hi.item, hi.target_mem⟩
    have hindex : ∃ c i, c ∈ m.chain ∧ g.plan c = some i ∧ m.index ∈ i.inputs :=
      ⟨m.bottom, i, ha.bottom_mem, hi.item, hi.lower_mem⟩
    rcases h.result.new_cases hx (by omega) with ⟨-, -, n, rfl⟩ | ⟨-, rfl⟩ | ⟨-, rfl⟩
    · cases hy
    · rcases Item.mem_readWhole.1 hy with rfl | rfl | rfl | rfl
      · exact .inr (.inr hbase)
      · exact .inr (.inr hindex)
      · exact .inl (by omega)
      · exact .inl (by omega)
    · rcases Item.mem_writeWhole.1 hy with rfl | rfl | rfl | rfl | rfl
      · exact .inr (.inr hbase)
      · exact .inr (.inl rfl)
      · exact .inr (.inr hindex)
      · exact .inl (by omega)
      · exact .inl (by omega)

theorem operand_of_changed (h : Rework g id root C g') {x y : Int} {j : Item}
    (hx : g'.plan x = some j) (hC : C x) (hy : y ∈ j.inputs) :
    (g.size : Int) ≤ y ∨ ∃ i, g.plan x = some i ∧ y ∈ i.inputs := by
  cases h with
  | factor h =>
    rw [h.gone x hC] at hx
    cases hx
  | @merge m _ h =>
    have hstart := h.start
    have hslice : m.slice = m.start + 2 := rfl
    obtain ⟨i, hi, hy | ⟨-, rfl⟩ | hy⟩ := h.result.operand_of_mem h.chained hC hx hy
    · exact .inr ⟨i, hi, hy⟩
    · exact .inl (by omega)
    · exact .inl (by omega)

theorem exists_user (h : Rework g id root C g') {x : NodeId} (hx : C x) (hne : x ≠ id) :
    ∃ p i, g.plan p = some i ∧ x ∈ i.inputs := by
  cases h with
  | factor h =>
    cases hx with
    | root => exact absurd rfl hne
    | step _ hp hy => exact ⟨_, _, hp, hy⟩
  | merge h => exact h.chained.chain.exists_user hx hne

theorem root_unused (h : Rework g id root C g') (ho : g.Ordered) {p : NodeId} {j : Item}
    (hp : g'.plan p = some j) (hnew : C p ∨ @LE.le Int _ g.size p) : root ∉ j.inputs := by
  have hroot := h.root_new
  intro hmem
  cases h with
  | factor h =>
    rcases hnew with hC | hps
    · rw [h.gone p hC] at hp
      cases hp
    · exact h.unused p j hps hp hmem
  | @merge m _ h =>
    have hstart := h.start
    have hslice : m.slice = m.start + 2 := rfl
    have hresume : m.resume = m.start + 3 + 2 * m.chain.length := rfl
    have hwritten : m.written = m.resume + 2 := rfl
    rcases hnew with hC | hps
    · obtain ⟨i, hi, hy | ⟨-, hy⟩ | hy⟩ := h.result.operand_of_mem h.chained hC hp hmem
      · have hlt := ho.operand_lt hi hy
        omega
      · omega
      · omega
    · have hbase := h.chained.base_old ho.closed
      have hindex := h.chained.index_old ho.closed
      have htop := h.chained.old_of_mem h.chained.top_mem
      rcases h.result.new_cases hp (hstart ▸ hps) with ⟨-, -, n, rfl⟩ | ⟨-, rfl⟩ | ⟨-, rfl⟩
      · cases hmem
      · rcases Item.mem_readWhole.1 hmem with he | he | he | he <;> omega
      · rcases Item.mem_writeWhole.1 hmem with he | he | he | he | he <;> omega

theorem user_of_root (h : Rework g id root C g') (ho : g.Ordered) {p : NodeId} {j : Item}
    (hp : g'.plan p = some j) (hmem : root ∈ j.inputs) :
    ∃ i, g.plan p = some i ∧ id ∈ i.inputs := by
  by_cases hnew : C p ∨ @LE.le Int _ g.size p
  · exact absurd hmem (h.root_unused ho hp hnew)
  · rw [not_or, not_le] at hnew
    rw [h.kept hnew.2 hnew.1] at hp
    obtain ⟨i, hi, rfl⟩ := Option.map_eq_some_iff.1 hp
    rcases Item.mem_subst.1 hmem with ⟨hmem, -⟩ | ⟨-, hid⟩
    · exact absurd (ho.operand_lt hi hmem) (not_lt.2 h.root_new)
    · exact ⟨i, hi, hid⟩

theorem not_changed (h : Rework g id root C g') {x : NodeId} {i : Item} (hx : g.plan x = some i)
    (hm : i.op.isMult = false) (hw : ∀ flags, i.op ≠ .leftIndexing flags) : ¬ C x := by
  intro hC
  obtain ⟨j, hj, hop⟩ := h.op_of_changed hC
  rw [hx] at hj
  cases hj
  rcases hop with hop | ⟨flags, hop⟩
  · rw [hm] at hop
    cases hop
  · exact hw flags hop

theorem isMult_of_retired (h : Rework g id root C g') {x : NodeId} {i : Item} (hx : g.plan x = some i)
    (hx' : g'.plan x = none) : i.op.isMult = true := by
  by_cases hC : C x
  · cases h with
    | factor h => exact hC.isMult hx
    | merge h =>
      obtain ⟨_, _, -, -, hitem, -⟩ := h.result.done x hC i hx
      rw [hx'] at hitem
      cases hitem
  · rw [h.kept_item hx hC] at hx'
    cases hx'

theorem slot_kept (h : Rework g id root C g') {i : Item} {pos : Nat} {y : NodeId}
    (hy : i.inputs[pos]? = some y) (hC : ¬ C y) : (i.subst id root).inputs[pos]? = some y := by
  have hne : y ≠ id := fun he => hC (he ▸ h.id_changed)
  simp [Item.subst, hy, hne]

theorem user_cases (h : Rework g id root C g') {p y : Int} {k : Item}
    (hy : y < (g.size : Int)) (hne : y ≠ id) (hp : g'.plan p = some k) (hmem : y ∈ k.inputs) :
    (∃ j, g.plan p = some j ∧ y ∈ j.inputs) ∨
      (g.size : Int) ≤ p ∧ ∃ c j, C c ∧ g.plan c = some j ∧ y ∈ j.inputs := by
  have hroot := h.root_new
  by_cases hps : p < (g.size : Int)
  · by_cases hC : C p
    · rcases h.operand_of_changed hp hC hmem with hnew | hold
      · omega
      · exact .inl hold
    · rw [h.kept hps hC] at hp
      obtain ⟨j, hj, rfl⟩ := Option.map_eq_some_iff.1 hp
      rcases Item.mem_subst.1 hmem with ⟨hmem, -⟩ | ⟨he, -⟩
      · exact .inl ⟨j, hj, hmem⟩
      · omega
  · rcases h.operand_of_new hp (not_lt.1 hps) hmem with hnew | he | hold
    · omega
    · exact absurd he hne
    · exact .inr ⟨not_lt.1 hps, hold⟩

theorem ownBound (h : Rework g id root C g') {axis : Axis} {x bound : NodeId} {i : Item}
    (hb : g.plan.OwnBound axis x bound i) (hx : ¬ C x) :
    g'.plan.OwnBound axis x bound (i.subst id root) := by
  obtain ⟨j, v, hj, hop⟩ := hb.literal
  have hbound : ¬ C bound := h.not_changed hj (by rw [hop]; rfl) (by rw [hop]; nofun)
  have hlt := (range_of_plan hj).2
  have hroot := h.root_new
  refine ⟨h.kept_item hb.item hx, h.slot_kept hb.lower hbound, fun h0 => ?_,
    ⟨_, v, h.kept_item hj hbound, hop⟩, fun p k hp hmem => ?_⟩
  · rw [Item.subst, List.getElem?_map, Option.map_eq_some_iff] at h0
    obtain ⟨y, hy, he⟩ := h0
    split at he
    · rw [he] at hroot
      omega
    · exact hb.aside (he ▸ hy)
  · rcases h.user_cases hlt (fun he => hbound (he ▸ h.id_changed)) hp hmem with
      ⟨k, hk, hmem⟩ | ⟨-, c, k, hC, hk, hmem⟩
    · exact hb.own p k hk hmem
    · exact absurd (hb.own c k hk hmem ▸ hC) hx

end Rework

inductive Step (g : Graph) : NodeId → NodeId → (NodeId → Prop) → Graph → Prop
  | factor {id root : NodeId} {M : Multiset NodeId} {g' : Graph} (h : Factored g id M root g')
      (hrep : ∃ y, 1 < M.count y) : Step g id root (g.plan.Inside id) g'
  | merge {m : Merge} {g' : Graph} (h : Merged g m g') : Step g m.top m.written (· ∈ m.chain) g'

namespace Step
variable {g g' : Graph} {id root : NodeId} {C : NodeId → Prop}

theorem rework (h : Step g id root C g') : Rework g id root C g' := by
  cases h with
  | factor h => exact .factor h.toRefactored
  | merge h => exact .merge h.toRechained

theorem sound (h : Step g id root C g') : g'.Sound := by
  cases h with
  | factor h => exact h.sound
  | merge h => exact h.sound

theorem not_spent (h : Step g id root C g') (hs : g.Sound) {axis : Axis} {x : NodeId}
    (hx : g.plan.Spent axis x) : ¬ C x := by
  intro hC
  cases h with
  | factor h =>
    obtain ⟨t, lower, i, hn⟩ := hx.narrowAt
    obtain ⟨flags, hop⟩ := hn.op
    have hm := hC.isMult hn.item
    rw [hop] at hm
    cases hm
  | merge h => exact h.applies.not_spent hs.acyclic hC hx

theorem narrowAt (h : Step g id root C g') {axis : Axis} {x t lower : NodeId} {i : Item}
    (hn : g.plan.NarrowAt axis x t lower i) (hx : ¬ C x) (ht : ¬ C t) :
    g'.plan.NarrowAt axis x t lower (i.subst id root) := by
  obtain ⟨k, hk, halong⟩ := hn.along
  exact ⟨h.rework.ownBound hn.toOwnBound hx, hn.op, h.rework.slot_kept hn.target ht,
    ⟨_, h.rework.kept_item hk ht, halong⟩⟩

theorem spent (h : Step g id root C g') (hs : g.Sound) {axis : Axis} {x : NodeId}
    (hx : g.plan.Spent axis x) : g'.plan.Spent axis x := by
  induction hx with
  | @first x t lower i k flags hn hk hop =>
    have hx := h.not_spent hs (.first hn hk hop)
    have ht : ¬ C t := h.rework.not_changed hk (by rw [hop]; rfl) (by rw [hop]; nofun)
    exact .first (h.narrowAt hn hx ht) (h.rework.kept_item hk ht) hop
  | next hn ht ih =>
    exact .next (h.narrowAt hn (h.not_spent hs (.next hn ht)) (h.not_spent hs ht)) ih

end Step

theorem spent_of_merged {g g' : Graph} {m : Merge} (h : Merged g m g') (hs : g.Sound) {c : NodeId}
    (hc : c ∈ m.chain) : g'.plan.Spent m.axis c := by
  obtain ⟨rank, hrank⟩ := hs.acyclic
  have ha := h.applies
  -- By induction on the rank, as the target of a write of the chain is below it.
  induction hk : rank c using Nat.strong_induction_on generalizing c with
  | _ k ih =>
    obtain ⟨_, i, hw⟩ := ha.chain.writeAt hc
    obtain ⟨flags, hop, -⟩ := hw.op
    obtain ⟨lower, upper, hown⟩ := h.result.ownBound ha.toChained hs.acyclic hc hw
    obtain ⟨t, j, ht, hj, hp⟩ := h.result.target_profile ha.toChained hs.acyclic hc hw.item
    have hn : g'.plan.NarrowAt m.axis c t lower (m.rewrite c lower upper i) :=
      ⟨hown, ⟨flags, (m.rewrite_op ..).trans hop⟩, (Item.narrow_target ..).trans ht,
        ⟨j, hj, by rw [hp]; exact m.axis.along_sliceProfile m.width⟩⟩
    rcases ha.chain.target_cases hs.acyclic ha.last hc hw.item with ⟨hb, htgt⟩ | ⟨hb, y, hy, htgt⟩
    · rw [if_pos hb, Item.retarget_target htgt] at ht
      cases ht
      exact .first hn h.result.slice rfl
    · rw [if_neg hb, htgt] at ht
      cases ht
      have hlt := hrank hw.item (List.mem_of_getElem? htgt)
      exact .next hn (ih _ (hk ▸ hlt) hy rfl)

namespace Step
variable {g g' : Graph} {id root x : NodeId} {C : NodeId → Prop}

theorem lost_of_changed (h : Step g id root C g') (hs : g.Sound) (hx : C x) :
    g'.plan x = none ∨ ∃ axis, g'.plan.Spent axis x := by
  cases h with
  | factor h => exact .inl (h.gone x hx)
  | merge h => exact .inr ⟨_, spent_of_merged h hs hx⟩

theorem lost (h : Step g id root C g') (hs : g.Sound) (hold : @LT.lt Int _ x g.size)
    (hx : g.plan x = none ∨ ∃ axis, g.plan.Spent axis x) :
    g'.plan x = none ∨ ∃ axis, g'.plan.Spent axis x := by
  rcases hx with hx | ⟨axis, hx⟩
  · refine .inl ?_
    rw [h.rework.kept hold, hx, Option.map_none]
    intro hC
    obtain ⟨i, hi, -⟩ := h.rework.op_of_changed hC
    rw [hx] at hi
    cases hi
  · exact .inr ⟨axis, h.spent hs hx⟩

end Step

variable {g g' : Graph} {q q' : Int → Prop}

theorem Factoring.Refactored.tally_writes_le {id root : NodeId} {M : Multiset NodeId}
    (h : Refactored g id M root g')
    (hq : ∀ {x : Int}, ¬ g.plan.Inside id x → q' x → q x) :
    g'.plan.tally g'.size (fun x i => (∃ flags, i.op = .leftIndexing flags) ∧ q' x) ≤
      g.plan.tally g.size fun x i => (∃ flags, i.op = .leftIndexing flags) ∧ q x := by
  refine Plan.tally_mono fun x hx => ?_
  obtain ⟨hrange, j, hj, ⟨flags, hop⟩, hqx⟩ := Plan.mem_having.1 hx
  by_cases hlt : x < (g.size : Int)
  · have hC : ¬ g.plan.Inside id x := fun hC => by
      rw [h.gone x hC] at hj
      cases hj
    rw [h.kept x hlt hC] at hj
    obtain ⟨k, hk, rfl⟩ := Option.map_eq_some_iff.1 hj
    exact Plan.mem_having.2 ⟨range_of_plan hk, k, hk, ⟨flags, hop⟩, hq hC hqx⟩
  · obtain ⟨k, hk, hf⟩ := h.fresh x (not_lt.1 hlt) hrange.2
    rw [hj] at hk
    cases hk
    rcases hf.op with ⟨v, hv⟩ | hv | hv <;> rw [hop] at hv <;> cases hv

theorem Slicing.Rechained.tally_writes_le {m : Merge} (h : Rechained g m g') (ho : g.Ordered)
    (hchain : ∀ c ∈ m.chain, q c ∧ ¬ q' c) (hq : ∀ {x : Int}, x ∉ m.chain → q' x → q x) :
    g'.plan.tally g'.size (fun x i => (∃ flags, i.op = .leftIndexing flags) ∧ q' x) +
        m.chain.length ≤
      g.plan.tally g.size (fun x i => (∃ flags, i.op = .leftIndexing flags) ∧ q x) + 1 := by
  refine Plan.tally_add_le_add (w := [m.written]) (h.chained.chain.nodup ho.acyclic)
    (fun c hc => ?_) fun x hx => ?_
  · obtain ⟨_, k, hk⟩ := h.chained.chain.writeAt hc
    obtain ⟨flags, hop, -⟩ := hk.op
    exact Plan.mem_having.2 ⟨range_of_plan hk.item, k, hk.item, ⟨flags, hop⟩, (hchain c hc).1⟩
  · obtain ⟨hrange, j, hj, ⟨flags, hop⟩, hqx⟩ := Plan.mem_having.1 hx
    by_cases hlt : x < (g.size : Int)
    · have hC : x ∉ m.chain := fun hC => (hchain x hC).2 hqx
      rw [(Rework.merge h).kept hlt hC] at hj
      obtain ⟨k, hk, rfl⟩ := Option.map_eq_some_iff.1 hj
      exact .inr ⟨hC, Plan.mem_having.2 ⟨range_of_plan hk, k, hk, ⟨flags, hop⟩, hq hC hqx⟩⟩
    · rcases h.result.new_cases hj (by rw [h.start]; exact not_lt.1 hlt) with
        ⟨-, -, n, rfl⟩ | ⟨-, rfl⟩ | ⟨hw, -⟩
      · cases hop
      · cases hop
      · exact .inl (List.mem_singleton.2 hw)

end Optimizer
end LinearPlan
