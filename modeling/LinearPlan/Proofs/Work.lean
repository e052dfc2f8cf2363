import LinearPlan.Proofs.Steps

/-!
# The work that is left to a pass

Rules add nodes, and a pass visits and offers these like all others. It comes to an end nevertheless,
as no rule adds to the work that is left. Factoring marks its new nodes as visited and leaves fewer
products; the factors it asks for are paid for by the product that is lost. A merge of `n` writes adds
`2 * n + 6` nodes, but gives each of the writes a bound of its own. All writes of a chain share their
bound, so none of them is merged again along the same axis, whatever is known about sizes.
-/
namespace LinearPlan

open Optimizer.Slicing (Axis)

namespace Plan
variable {P P' : Plan} {x : NodeId} {i : Item}

theorem Acyclic.of_wires (h : P.wires = P'.wires) (hP : P.Acyclic) : P'.Acyclic := by
  obtain ⟨rank, hrank⟩ := hP
  refine ⟨rank, fun {x i y} hx hy => ?_⟩
  obtain ⟨j, hj, -, hin⟩ := exists_of_wires h.symm hx
  exact hrank hj (hin ▸ hy)

theorem OwnBound.of_wires {axis : Axis} {bound : NodeId} (h : P.wires = P'.wires)
    (hb : P.OwnBound axis x bound i) : ∃ j, P'.OwnBound axis x bound j := by
  obtain ⟨j, hj, -, hin⟩ := exists_of_wires h hb.item
  obtain ⟨k, v, hk, hv⟩ := hb.literal
  obtain ⟨l, hl, hop, -⟩ := exists_of_wires h hk
  refine ⟨j, hj, hin ▸ hb.lower, hin ▸ hb.aside, ⟨l, v, hl, hop.trans hv⟩, fun p k' hp hmem => ?_⟩
  obtain ⟨l', hl', -, hin'⟩ := exists_of_wires h.symm hp
  exact hb.own p l' hl' (hin' ▸ hmem)

theorem tally_le_of_wires {n : Nat} {p p' : Int → Item → Prop} (h : P.wires = P'.wires)
    (hp : ∀ {x : Int} {i j}, P x = some i → P' x = some j → j.op = i.op → p x i → p' x j) :
    P.tally n p ≤ P'.tally n p' :=
  tally_le le_rfl fun {_ _} hx hi => by
    obtain ⟨j, hj, hop, -⟩ := exists_of_wires h hx
    exact ⟨j, hj, hp hx hj hop hi⟩

end Plan

namespace Optimizer
open LinearPlan.Graph Factoring

namespace Slicing.Rechained
variable {g g' : Graph} {m : Merge} {axis : Axis} {x bound : NodeId} {i : Item}

theorem not_mem_new (h : Rechained g m g') (ho : g.Ordered) (hb : g.plan.OwnBound axis x bound i)
    {p : Int} {k : Item} (hp : g'.plan p = some k) (hnew : (g.size : Int) ≤ p) :
    bound ∉ k.inputs := by
  intro hmem
  have hstart := h.start
  have hresume : m.resume = m.start + 3 + 2 * m.chain.length := rfl
  obtain ⟨j, v, hj, hop⟩ := hb.literal
  have hlt := (range_of_plan hj).2
  obtain ⟨b, hbottom⟩ := h.chained.bottomAt
  have hbase : bound ≠ m.base := by
    rintro rfl
    have hx := hb.own _ _ hbottom.item hbottom.target_mem
    have hitem := hb.item
    rw [← hx, hbottom.item] at hitem
    cases hitem
    exact hb.aside hbottom.target
  have hindex : bound ≠ m.index := by
    rintro rfl
    obtain ⟨y, -, -, -, hyc, hyt⟩ := h.chained.chain.second ho.acyclic h.chained.long
    have hall : ∀ c ∈ m.chain, c = x := fun c hc => by
      obtain ⟨_, _, hc⟩ := h.chained.chain.writeAt hc
      exact hb.own c _ hc.item hc.lower_mem
    exact hyt ((hall y hyc).trans (hall _ h.chained.top_mem).symm)
  have htop : bound ≠ m.top := by
    rintro rfl
    obtain ⟨_, t, ht⟩ := h.chained.topAt
    obtain ⟨flags, hflags, -⟩ := ht.op
    have hitem := ht.item
    rw [hj] at hitem
    cases hitem
    rw [hop] at hflags
    cases hflags
  rcases h.result.new_cases hp (by omega) with ⟨-, -, n, rfl⟩ | ⟨-, rfl⟩ | ⟨-, rfl⟩
  · cases hmem
  · rcases Item.mem_readWhole.1 hmem with he | he | he | he
    · exact hbase he
    · exact hindex he
    · omega
    · omega
  · rcases Item.mem_writeWhole.1 hmem with he | he | he | he | he
    · exact hbase he
    · exact htop he
    · exact hindex he
    · omega
    · omega

theorem ownBound_other (h : Rechained g m g') (ho : g.Ordered) (haxis : axis ≠ m.axis)
    (hx : x ∈ m.chain) (hb : g.plan.OwnBound axis x bound i) :
    ∃ j, g'.plan.OwnBound axis x bound j := by
  have hrework : Rework g m.top m.written (· ∈ m.chain) g' := .merge h
  obtain ⟨j, v, hj, hop⟩ := hb.literal
  have hbound : bound ∉ m.chain := hrework.not_changed hj (by rw [hop]; rfl) (by rw [hop]; nofun)
  have hlt := (range_of_plan hj).2
  obtain ⟨lower, upper, -, -, hitem, -⟩ := h.result.done x hx i hb.item
  refine ⟨_, hitem, ?_, ?_, ⟨_, v, hrework.kept_item hj hbound, hop⟩, fun p k hp hmem => ?_⟩
  · rw [Merge.rewrite, Item.narrow_other haxis]
    split
    · exact Item.retarget_lower hb.lower
    · exact hb.lower
  · rw [Merge.rewrite, Item.narrow_target]
    rcases h.chained.chain.target_cases ho.acyclic h.chained.last hx hb.item with
      ⟨hbot, ht⟩ | ⟨hbot, -⟩
    · rw [if_pos hbot, Item.retarget_target ht]
      intro he
      have hslice : m.slice = m.start + 2 := rfl
      have hstart := h.start
      have hle : m.slice = bound := Option.some.inj he
      rw [← hle] at hlt
      omega
    · rw [if_neg hbot]
      exact hb.aside
  · have hne : bound ≠ m.top := fun he => hbound (he ▸ h.chained.top_mem)
    rcases hrework.user_cases hlt hne hp hmem with ⟨k, hk, hmem⟩ | ⟨hnew, -⟩
    · exact hb.own p k hk hmem
    · exact absurd hmem (h.not_mem_new ho hb hp hnew)

theorem ownBound_written (h : Rechained g m g') (ho : g.Ordered) (haxis : axis ≠ m.axis) :
    ∃ j, g'.plan.OwnBound axis m.written m.resume j := by
  have hrework : Rework g m.top m.written (· ∈ m.chain) g' := .merge h
  have hstart := h.start
  have hresume : m.resume = m.start + 3 + 2 * m.chain.length := rfl
  have hwritten : m.written = m.resume + 2 := rfl
  have hslice : m.slice = m.start + 2 := rfl
  have hbase := h.chained.base_old ho.closed
  have hindex := h.chained.index_old ho.closed
  have htop := h.chained.old_of_mem h.chained.top_mem
  refine ⟨_, h.result.written, Item.writeWhole_other haxis .., fun he => ?_,
    ⟨_, _, h.result.one', rfl⟩, fun p k hp hmem => ?_⟩
  · have hb : m.base = m.resume := Option.some.inj he
    rw [hb] at hbase
    omega
  · by_cases hps : (p : Int) < (g.size : Int)
    · by_cases hC : p ∈ m.chain
      · obtain ⟨i, hi, hy | ⟨-, hy⟩ | hy⟩ := h.result.operand_of_mem h.chained hC hp hmem
        · have hlt := ho.operand_lt hi hy
          omega
        · omega
        · omega
      · rw [hrework.kept hps hC] at hp
        obtain ⟨j, hj, rfl⟩ := Option.map_eq_some_iff.1 hp
        rcases Item.mem_subst.1 hmem with ⟨hy, -⟩ | ⟨he, -⟩
        · have hlt := ho.operand_lt hj hy
          omega
        · omega
    · rcases h.result.new_cases hp (by rw [hstart]; exact not_lt.1 hps) with
        ⟨-, -, n, rfl⟩ | ⟨-, rfl⟩ | ⟨hw, -⟩
      · cases hmem
      · rcases Item.mem_readWhole.1 hmem with he | he | he | he
        · rw [← he] at hbase
          omega
        · rw [← he] at hindex
          omega
        · omega
        · omega
      · exact hw

end Slicing.Rechained

noncomputable def sharing (g : Graph) (axis : Axis) : Nat :=
  g.plan.tally g.size fun x i =>
    (∃ flags, i.op = .leftIndexing flags) ∧ ∀ bound j, ¬ g.plan.OwnBound axis x bound j

variable {g g' : Graph} {id root : NodeId} {axis : Axis} {m : Merge}

theorem sharing_of_wires (hw : g'.plan.wires = g.plan.wires) (hs : g'.size = g.size) :
    sharing g' axis ≤ sharing g axis := by
  unfold sharing
  rw [hs]
  refine Plan.tally_le_of_wires hw fun {x i j} hx hy hop hi => ⟨hop ▸ hi.1, fun bound k hb => ?_⟩
  obtain ⟨k', hb'⟩ := hb.of_wires hw.symm
  exact hi.2 bound k' hb'

theorem products_of_wires (hw : g'.plan.wires = g.plan.wires) (hs : g'.size = g.size) :
    products g' ≤ products g := by
  unfold products
  rw [hs]
  exact Plan.tally_le_of_wires hw fun {_ _ _} _ _ hop hi => by rw [hop]; exact hi

theorem sharing_refactored {M : Multiset NodeId} (h : Refactored g id M root g') (axis : Axis) :
    sharing g' axis ≤ sharing g axis :=
  h.tally_writes_le fun hC hnone bound _ hb => hnone bound _ ((Rework.factor h).ownBound hb hC)

theorem sharing_merged (h : Slicing.Rechained g m g') (ho : g.Ordered) :
    sharing g' m.axis + m.chain.length ≤ sharing g m.axis + 1 := by
  refine h.tally_writes_le ho (fun c hc => ⟨fun _ _ => h.chained.not_ownBound ho.acyclic hc, ?_⟩)
    fun hC hnone bound _ hb => hnone bound _ ((Rework.merge h).ownBound hb hC)
  intro hnone
  obtain ⟨_, i, hw⟩ := h.chained.chain.writeAt hc
  obtain ⟨lower, upper, hown⟩ := h.result.ownBound h.chained ho.acyclic hc hw
  exact hnone _ _ hown

theorem sharing_merged_other (h : Slicing.Rechained g m g') (ho : g.Ordered)
    (haxis : axis ≠ m.axis) : sharing g' axis ≤ sharing g axis := by
  have hrework : Rework g m.top m.written (· ∈ m.chain) g' := .merge h
  refine Plan.tally_mono fun x hx => ?_
  obtain ⟨hrange, j, hj, ⟨flags, hop⟩, hnone⟩ := Plan.mem_having.1 hx
  by_cases hlt : x < (g.size : Int)
  · by_cases hC : x ∈ m.chain
    · obtain ⟨_, k, hk⟩ := h.chained.chain.writeAt hC
      obtain ⟨flags', hop', -⟩ := hk.op
      refine Plan.mem_having.2 ⟨range_of_plan hk.item, k, hk.item, ⟨flags', hop'⟩, fun bound l hb => ?_⟩
      obtain ⟨_, hb'⟩ := h.ownBound_other ho haxis hC hb
      exact hnone _ _ hb'
    · rw [hrework.kept hlt hC] at hj
      obtain ⟨k, hk, rfl⟩ := Option.map_eq_some_iff.1 hj
      exact Plan.mem_having.2 ⟨range_of_plan hk, k, hk, ⟨flags, hop⟩,
        fun bound l hb => hnone bound _ (hrework.ownBound hb hC)⟩
  · rcases h.result.new_cases hj (by rw [h.start]; exact not_lt.1 hlt) with
      ⟨-, -, n, rfl⟩ | ⟨-, rfl⟩ | ⟨hw, -⟩
    · cases hop
    · cases hop
    · obtain ⟨_, hb⟩ := h.ownBound_written ho haxis
      exact absurd (hw ▸ hb) (hnone _ _)

end Optimizer
end LinearPlan
