import LinearPlan.Proofs.MergeValues
import LinearPlan.Proofs.Roots

/-!
# Nodes that a pass keeps

Apart from the node that it replaces, a step changes only nodes that changed nodes of their own kind
use, and nobody else: products inside a product, and writes of a chain. So a node is safe as long as
nothing of its own kind uses it, or something else does. Both last. A new node stands in for the
changed ones, so that a node that is kept has users of the kinds it had. The one use that a step may
drop is that as an upper bound of a write, which becomes a literal when the write is merged.
-/
namespace LinearPlan

open Optimizer.Slicing (Axis)

/-- Operations of nodes that a step may change together: products, or writes. -/
def Op.Kin (a b : Op) : Prop :=
  (a.isMult = true ∧ b.isMult = true) ∨
    ∃ flags flags', a = .leftIndexing flags ∧ b = .leftIndexing flags'

/-- A use of `x` that no step drops: any but that as an upper bound of a write. -/
def Item.Retains (i : Item) (x : NodeId) : Prop :=
  ∃ pos, i.inputs[pos]? = some x ∧
    ∀ flags, i.op = .leftIndexing flags → ∀ axis : Axis, pos ≠ axis.upperPos

namespace Item.Retains
variable {i : Item} {x : NodeId}

theorem mem (h : i.Retains x) : x ∈ i.inputs := by
  obtain ⟨pos, hpos, -⟩ := h
  exact List.mem_of_getElem? hpos

theorem of_mem (hx : x ∈ i.inputs) (hop : ∀ flags, i.op ≠ .leftIndexing flags) : i.Retains x := by
  obtain ⟨pos, hpos⟩ := List.mem_iff_getElem?.1 hx
  exact ⟨pos, hpos, fun flags h => absurd h (hop flags)⟩

theorem subst (h : i.Retains x) (id root : NodeId) :
    (i.subst id root).Retains (if x = id then root else x) := by
  obtain ⟨pos, hpos, hop⟩ := h
  refine ⟨pos, ?_, hop⟩
  rw [Item.subst, List.getElem?_map, hpos, Option.map_some]

end Item.Retains

theorem Optimizer.Slicing.Axis.retained_cases {axis : Axis} {t u a b c d x : NodeId} {pos : Nat}
    (h : (axis.arrange t u a b c d)[pos]? = some x) (hpos : ∀ axis : Axis, pos ≠ axis.upperPos) :
    x = t ∨ x = u ∨ x = a ∨ x = c := by
  have hrow : pos ≠ 3 := hpos .row
  have hcol : pos ≠ 5 := hpos .col
  match pos with
  | 0 => cases axis <;> exact .inl (Option.some.inj h).symm
  | 1 => cases axis <;> exact .inr (.inl (Option.some.inj h).symm)
  | 2 =>
    cases axis with
    | row => exact .inr (.inr (.inl (Option.some.inj h).symm))
    | col => exact .inr (.inr (.inr (Option.some.inj h).symm))
  | 3 => exact absurd rfl hrow
  | 4 =>
    cases axis with
    | row => exact .inr (.inr (.inr (Option.some.inj h).symm))
    | col => exact .inr (.inr (.inl (Option.some.inj h).symm))
  | 5 => exact absurd rfl hcol
  | _ + 6 => cases axis <;> cases h

/-- A node that no step can change without replacing it. -/
def Plan.Exposed (P : Plan) (x : NodeId) : Prop :=
  (∀ p i j, P x = some i → P p = some j → x ∈ j.inputs → ¬ j.op.Kin i.op) ∨
    ∃ p i j, P x = some i ∧ P p = some j ∧ ¬ j.op.Kin i.op ∧ j.Retains x

namespace Optimizer
open LinearPlan.Graph Factoring Slicing

theorem Slicing.Merged.exists_retains {g g' : Graph} {m : Merge} (h : Merged g m g') (hs : g.Sound)
    {c x : NodeId} {i : Item} (hc : c ∈ m.chain) (hi : g.plan c = some i) (hx : i.Retains x)
    (hxc : x ∉ m.chain) : ∃ q k, g'.plan q = some k ∧ k.Retains x ∧ k.op.isMult = false := by
  obtain ⟨cw⟩ := h.chainWrite hs hc
  obtain rfl : cw.item = i := Option.some.inj (cw.before.symm.trans hi)
  obtain ⟨pos, hpos, hbound⟩ := hx
  rw [cw.inputs] at hpos
  have hslice : ∀ {y}, y = m.base ∨ y = m.index →
      ∃ q k, g'.plan q = some k ∧ k.Retains y ∧ k.op.isMult = false := fun hy =>
    ⟨m.slice, _, h.result.slice, .of_mem (Item.mem_readWhole.2 (by tauto)) nofun, rfl⟩
  have hwrite : ∀ {y : NodeId} (pos : Nat), (∀ axis : Axis, pos ≠ axis.upperPos) →
      (m.axis.arrange cw.newTarget cw.source cw.lo cw.hi cw.lower' cw.upper')[pos]? = some y →
      ∃ q k, g'.plan q = some k ∧ k.Retains y ∧ k.op.isMult = false := by
    intro y pos hpos hy
    refine ⟨c, _, cw.after, ⟨pos, cw.newInputs ▸ hy, fun _ _ => hpos⟩, ?_⟩
    rw [m.rewrite_op, cw.op]
    rfl
  rcases Axis.retained_cases hpos (hbound cw.flags cw.op) with rfl | rfl | rfl | rfl
  · rcases cw.targets with ⟨hbase, -⟩ | ⟨-, hmem⟩
    · exact hslice (.inl hbase)
    · exact absurd hmem hxc
  · exact hwrite 1 (fun axis => by cases axis <;> decide) (by cases m.axis <;> rfl)
  · exact hslice (.inr rfl)
  · exact hwrite m.axis.other.lowerPos
      (fun axis => by cases m.axis <;> cases axis <;> decide) (by cases m.axis <;> rfl)

namespace Step
variable {g g' : Graph} {id root x p q : NodeId} {C : NodeId → Prop} {i j k : Item}

theorem kin (h : Step g id root C g') (hx : C x) (hp : C p) (hi : g.plan x = some i)
    (hj : g.plan p = some j) : j.op.Kin i.op := by
  cases h with
  | factor h => exact .inl ⟨hp.isMult hj, hx.isMult hi⟩
  | merge h =>
    obtain ⟨flags, hop⟩ := h.applies.chain.op_of_mem hx hi
    obtain ⟨flags', hop'⟩ := h.applies.chain.op_of_mem hp hj
    exact .inr ⟨flags', flags, hop', hop⟩

theorem not_changed_of_exposed (h : Step g id root C g') (hx : g.plan.Exposed x) (hne : x ≠ id) :
    ¬ C x := by
  intro hC
  obtain ⟨i, hi, -⟩ := h.rework.op_of_changed hC
  rcases hx with hnone | ⟨p, _, j, hi, hj, hkin, hret⟩
  · obtain ⟨p, j, hj, hmem⟩ := h.rework.exists_user hC hne
    exact hnone p i j hi hj hmem (h.kin hC (h.rework.users hC hne hj hmem) hi hj)
  · exact hkin (h.kin hC (h.rework.users hC hne hj hret.mem) hi hj)

theorem op_eq (h : Step g id root C g') (hj : g.plan p = some j) (hk : g'.plan p = some k) :
    k.op = j.op := by
  have hop := h.rework.ops p j.op (opOf_of_plan hj)
  rw [opOf_of_plan hk] at hop
  exact Option.some.inj hop

theorem kin_of_new (h : Step g id root C g') (hC : C p) (hj : g.plan p = some j)
    (hnew : @LE.le Int _ g.size q) (hk : g'.plan q = some k) {op : Op} (hkin : k.op.Kin op) :
    j.op.Kin op := by
  cases h with
  | factor h =>
    obtain ⟨_, hk', hf⟩ := h.fresh q hnew (range_of_plan hk).2
    cases hk.symm.trans hk'
    rcases hkin with ⟨-, hb⟩ | ⟨flags, -, ha, -⟩
    · exact .inl ⟨hC.isMult hj, hb⟩
    · rcases hf.op with ⟨v, hop⟩ | hop | hop <;> rw [hop] at ha <;> cases ha
  | merge h =>
    obtain ⟨flags, hop⟩ := h.applies.chain.op_of_mem hC hj
    rcases hkin with ⟨ha, -⟩ | ⟨-, flags', -, hb⟩
    · rcases h.result.new_cases hk (h.start ▸ hnew) with ⟨-, -, n, rfl⟩ | ⟨-, rfl⟩ | ⟨-, rfl⟩ <;>
        cases ha
    · exact .inr ⟨flags, flags', hop, hb⟩

theorem kin_of_root (h : Step g id root C g') (hi : g.plan id = some i)
    (hk : g'.plan root = some k) {op : Op} (hkin : op.Kin k.op) : op.Kin i.op := by
  cases h with
  | factor h =>
    obtain ⟨_, op, hk', hop⟩ := h.built.isBinary h.new
    cases hk.symm.trans hk'
    rcases hkin with ⟨ha, -⟩ | ⟨-, flags, -, hb⟩
    · exact .inl ⟨ha, h.inside.isMult hi⟩
    · rw [hop] at hb
      cases hb
  | merge h =>
    obtain ⟨flags, hop⟩ := h.applies.chain.op_of_mem h.applies.top_mem hi
    cases hk.symm.trans h.result.written
    rcases hkin with ⟨-, hb⟩ | ⟨flags', -, ha, -⟩
    · cases hb
    · exact .inr ⟨flags', flags, ha, hop⟩

theorem exists_retains (h : Step g id root C g') (hs : g.Sound) (hC : ¬ C x) (hne : x ≠ id)
    (hi : g.plan x = some i) (hj : g.plan p = some j) (hkin : ¬ j.op.Kin i.op)
    (hret : j.Retains x) : ∃ q k, g'.plan q = some k ∧ ¬ k.op.Kin i.op ∧ k.Retains x := by
  by_cases hCp : C p
  · cases h with
    | factor h =>
      have hleaf : i.op.isMult = false :=
        Bool.eq_false_iff.2 fun hmult => hkin (.inl ⟨hCp.isMult hj, hmult⟩)
      obtain rfl | ⟨q, k, op, -, hq, hop, hmem⟩ :=
        h.built.user (h.factors.mem_of_inside hCp hj hret.mem hi hleaf)
      · exact absurd h.new (not_le.2 (range_of_plan hi).2)
      refine ⟨q, k, hq, ?_, .of_mem hmem (by rw [hop]; nofun)⟩
      rintro (⟨-, hb⟩ | ⟨flags, -, ha, -⟩)
      · rw [hleaf] at hb
        cases hb
      · rw [hop] at ha
        cases ha
    | merge h =>
      obtain ⟨flags, hop⟩ := h.applies.chain.op_of_mem hCp hj
      obtain ⟨q, k, hq, hret', hm⟩ := h.exists_retains hs hCp hj hret hC
      refine ⟨q, k, hq, ?_, hret'⟩
      rintro (⟨ha, -⟩ | ⟨-, flags', -, hb⟩)
      · rw [hm] at ha
        cases ha
      · exact hkin (.inr ⟨flags, flags', hop, hb⟩)
  · refine ⟨p, _, h.rework.kept_item hj hCp, hkin, ?_⟩
    have hret' := hret.subst id root
    rwa [if_neg hne] at hret'

theorem exposed (h : Step g id root C g') (hs : g.Sound) (hx : g.plan.Exposed x)
    (hi : g.plan x = some i) (hne : x ≠ id) : g'.plan.Exposed x := by
  have hC := h.not_changed_of_exposed hx hne
  have hkept := h.rework.kept_item hi hC
  rcases hx with hnone | ⟨p, _, j, hi', hj, hkin, hret⟩
  · refine .inl fun p i' k hi' hk hmem => ?_
    cases hkept.symm.trans hi'
    rcases h.rework.user_cases (range_of_plan hi).2 hne hk hmem with
      ⟨j, hj, hmem⟩ | ⟨hnew, c, j, hCc, hj, hmem⟩
    · rw [h.op_eq hj hk]
      exact hnone p i j hi hj hmem
    · exact fun hkin => hnone c i j hi hj hmem (h.kin_of_new hCc hj hnew hk hkin)
  · cases hi.symm.trans hi'
    obtain ⟨q, k, hq, hkin', hret'⟩ := h.exists_retains hs hC hne hi hj hkin hret
    exact .inr ⟨q, _, k, hkept, hq, hkin', hret'⟩

theorem exposed_root (h : Step g id root C g') (hs : g.Sound) (hx : g.plan.Exposed id) :
    g'.plan.Exposed root := by
  obtain ⟨i, hi, -⟩ := h.rework.op_of_changed h.rework.id_changed
  obtain ⟨k, hk⟩ := h.rework.root_live
  rcases hx with hnone | ⟨p, _, j, hi', hj, hkin, hret⟩
  · refine .inl fun p k' l hk' hl hmem hkin => ?_
    cases hk.symm.trans hk'
    obtain ⟨j, hj, hid⟩ := h.rework.user_of_root hs.ordered hl hmem
    rw [h.op_eq hj hl] at hkin
    exact hnone p i j hi hj hid (h.kin_of_root hi hk hkin)
  · cases hi.symm.trans hi'
    have hret' := hret.subst id root
    rw [if_pos rfl] at hret'
    exact .inr ⟨p, k, _, hk, h.rework.user_kept hs.ordered hj hret.mem,
      fun hkin' => hkin (h.kin_of_root hi hk hkin'), hret'⟩

end Step

structure Tracked (p : Pass) (r : NodeId) : Prop where
  live : ∃ i, p.graph.plan (p.latest r) = some i
  exposed : p.graph.plan.Exposed (p.latest r)

variable {S : NodeId → Prop} {p p' : Pass} {r : NodeId}

theorem Tracked.latest_cases (h : Tracked p r) (ht : Trail p) (hs : p.graph.Sound)
    {id root : NodeId} {C : NodeId → Prop} (hstep : Step p.graph id root C p'.graph)
    (hr : p'.replaced = (id, root) :: p.replaced) :
    (p.latest r = id ∧ p'.latest r = root) ∨
      (p'.latest r = p.latest r ∧ p.latest r ≠ id ∧ ¬ C (p.latest r)) := by
  rw [ht.latest_step hs hstep hr]
  by_cases he : p.latest r = id
  · exact .inl ⟨he, if_pos he⟩
  · exact .inr ⟨if_neg he, he, hstep.not_changed_of_exposed h.exposed he⟩

theorem Tracked.move (h : Tracked p r) (ht : Trail p) (hs : p.graph.Sound) (hm : Move S p p') :
    Tracked p' r := by
  cases hm with
  | visit hg hv hr =>
    have he : p'.latest r = p.latest r := by
      unfold Pass.latest
      rw [hr]
    refine ⟨?_, ?_⟩ <;> rw [he, hg]
    · exact h.live
    · exact h.exposed
  | step hstep hid hun hv hnew hr =>
    rcases h.latest_cases ht hs hstep hr with ⟨he, he'⟩ | ⟨he, hne, hC⟩
    · refine ⟨?_, ?_⟩ <;> rw [he']
      · exact hstep.rework.root_live
      · exact hstep.exposed_root hs (he ▸ h.exposed)
    · obtain ⟨i, hi⟩ := h.live
      refine ⟨?_, ?_⟩ <;> rw [he]
      · exact ⟨_, hstep.rework.kept_item hi hC⟩
      · exact hstep.exposed hs h.exposed hi hne

theorem Tracked.moves (h : Tracked p r) (hst : Steady S p) (hm : Moves S p p') : Tracked p' r := by
  induction hm with
  | refl => exact h
  | tail hms hm ih => exact ih.move (hst.moves hms).trail (hst.moves hms).sound hm

end Optimizer

theorem Graph.exposed_of_parents {g : Graph} (hl : g.Linked) {x : NodeId} {n : Node}
    (hn : g.get? x = some n) (hr : n.retired = false)
    (hx : (∀ p ∈ n.parents, ∀ m, g.get? p = some m → ¬ m.op.Kin n.op) ∨
      ∃ p ∈ n.parents, ∃ m, g.get? p = some m ∧ ¬ m.op.Kin n.op ∧ m.item.Retains x) :
    g.plan.Exposed x := by
  have hmem : ∀ {p}, p ∈ n.parents ↔ x ∈ g.inputsOf p := fun {p} => by
    rw [← parentsOf_eq hn]
    exact hl.matched.mem_iff
  have hitem : g.plan x = some n.item := plan_eq_some hn hr
  rcases hx with hx | ⟨p, hp, m, hm, hkin, hret⟩
  · refine .inl fun p i j hi hj hxj => ?_
    cases hitem.symm.trans hi
    rw [← inputsOf_of_plan hj, ← hmem] at hxj
    obtain ⟨m, hm, -, rfl⟩ := get?_of_plan hj
    exact hx p hxj m hm
  · obtain ⟨m', hm', hlive⟩ := hl.user_live (hmem.1 hp)
    cases hm.symm.trans hm'
    exact .inr ⟨p, _, _, hitem, plan_eq_some hm hlive, hkin, hret⟩

end LinearPlan
