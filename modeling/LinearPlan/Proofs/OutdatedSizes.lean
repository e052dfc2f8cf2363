import LinearPlan.Proofs.ProductShapes
import LinearPlan.Proofs.QuietPasses

/-!
# Sizes that are out of date after a pass

A product that is multiplied anew may have another bound on its non-zero entries. Its users are
refreshed, but nothing above them, so the nodes that are sized through a user of a new product may
be out of date. These are the only ones, and in a graph with declared data it is nothing but the
bound on the non-zero entries that they miss.
-/
namespace LinearPlan

namespace Graph
variable {g g' : Graph} {replaced replaced' : List (NodeId × NodeId)} {x y : NodeId}

structure NewProduct (replaced : List (NodeId × NodeId)) (g : Graph) (x : NodeId) : Prop where
  replaces : ∃ old, (old, x) ∈ replaced
  op : ∃ op, g.opOf x = some (.binary op)

/-- A node that is sized by a new product, directly or by way of others. -/
inductive Above (replaced : List (NodeId × NodeId)) (g : Graph) : NodeId → Prop
  | user {x y : NodeId} (hy : y ∈ g.sizedBy x) (h : NewProduct replaced g y) : Above replaced g x
  | step {x y : NodeId} (hy : y ∈ g.sizedBy x) (h : Above replaced g y) : Above replaced g x

/-- A node that is sized by a node above a new product. -/
def Outdated (replaced : List (NodeId × NodeId)) (g : Graph) (x : NodeId) : Prop :=
  ∃ y ∈ g.sizedBy x, Above replaced g y

theorem NewProduct.mono (h : NewProduct replaced g x) (hops : g.KeepsOps g')
    (hsub : replaced ⊆ replaced') : NewProduct replaced' g' x := by
  obtain ⟨⟨old, hold⟩, op, hop⟩ := h
  exact ⟨⟨old, hsub hold⟩, op, hops x _ hop⟩

theorem Outdated.above (h : Outdated replaced g x) : Above replaced g x := by
  obtain ⟨y, hy, habove⟩ := h
  exact .step hy habove

theorem Linked.live_of_sizedBy (h : g.Linked) (hy : y ∈ g.sizedBy x) : ∃ i, g.plan x = some i := by
  obtain ⟨n, hn, hr⟩ := h.user_live (mem_inputsOf_of_sizedBy hy)
  exact ⟨_, plan_eq_some hn hr⟩

theorem Linked.spreads_outdated (h : g.Linked) : g.Spreads (Outdated replaced g) where
  live := fun ⟨_, hy, _⟩ => h.live_of_sizedBy hy
  users hy hout := ⟨_, hy, hout.above⟩

theorem Resized.sizedBy (h : g.Resized g') (hl : g.Linked) (hy : y ∈ g.sizedBy x) :
    y ∈ g'.sizedBy x := by
  obtain ⟨i, hi⟩ := hl.live_of_sizedBy hy
  obtain ⟨j, hj, hop, hin⟩ := h.item hi
  rw [sizedBy_of_plan hi] at hy
  rw [sizedBy_of_plan hj, hop, hin]
  exact hy

theorem Resized.above (h : g.Resized g') (hl : g.Linked) (hx : Above replaced g x) :
    Above replaced g' x := by
  induction hx with
  | user hy hnew => exact .user (h.sizedBy hl hy) (hnew.mono h.ops (List.Subset.refl _))
  | step hy _ ih => exact .step (h.sizedBy hl hy) ih

theorem Resized.outdated (h : g.Resized g') (hl : g.Linked) (hx : Outdated replaced g x) :
    Outdated replaced g' x := by
  obtain ⟨y, hy, habove⟩ := hx
  exact ⟨y, h.sizedBy hl hy, h.above hl habove⟩

theorem not_above_of_closed {l : List NodeId}
    (h : ∀ x ∈ l, ∀ y ∈ g.sizedBy x, y ∈ l ∧ y ∉ replaced.map Prod.snd) (hx : x ∈ l) :
    ¬ Above replaced g x := by
  intro habove
  induction habove with
  | user hy hnew =>
    obtain ⟨old, hold⟩ := hnew.replaces
    exact (h _ hx _ hy).2 (List.mem_map.2 ⟨_, hold, rfl⟩)
  | step hy _ ih => exact ih (h _ hx _ hy).1

end Graph

namespace Optimizer
open LinearPlan.Graph Edit
variable {g g' : Graph} {old root x y : NodeId} {C : NodeId → Prop}
  {replaced : List (NodeId × NodeId)}

theorem Rework.sizedBy_kept (h : Rework g old root C g') (ho : g.Ordered) (hy : y ∈ g.sizedBy x)
    (hC : ¬ C x) : y = old ∧ root ∈ g'.sizedBy x ∨ ¬ C y ∧ y ∈ g'.sizedBy x := by
  obtain ⟨i, hi⟩ := ho.live_of_sizedBy hy
  rw [sizedBy_of_plan hi] at hy
  have hmem : (if y = old then root else y) ∈ g'.sizedBy x := by
    rw [sizedBy_of_plan (h.kept_item hi hC), Item.subst_op]
    show _ ∈ i.op.sizing (i.inputs.map _)
    rw [Op.sizing_map]
    exact List.mem_map.2 ⟨y, hy, rfl⟩
  by_cases hyid : y = old
  · rw [if_pos hyid] at hmem
    exact .inl ⟨hyid, hmem⟩
  · rw [if_neg hyid] at hmem
    exact .inr ⟨fun hyC => hC (h.users hyC hyid hi (Op.mem_of_mem_sizing hy)), hmem⟩

namespace Factoring
variable {M : Multiset NodeId}

theorem Refactored.newProduct (h : Refactored g old M root g') :
    NewProduct ((old, root) :: replaced) g' root := by
  obtain ⟨i, op, hi, hop⟩ := h.built.isBinary h.new
  exact ⟨⟨old, List.mem_cons_self⟩, op, by rw [opOf_of_plan hi, hop]⟩

theorem Refactored.above (h : Refactored g old M root g') (ho : g.Ordered) (hx : Above replaced g x)
    (hC : ¬ g.plan.Inside old x) : Above ((old, root) :: replaced) g' x := by
  induction hx with
  | user hy hnew =>
    rcases Rework.sizedBy_kept (.factor h) ho hy hC with ⟨-, hroot⟩ | ⟨-, hy'⟩
    · exact .user hroot h.newProduct
    · exact .user hy' (hnew.mono h.ops (List.subset_cons_self _ _))
  | step hy _ ih =>
    rcases Rework.sizedBy_kept (.factor h) ho hy hC with ⟨-, hroot⟩ | ⟨hyC, hy'⟩
    · exact .user hroot h.newProduct
    · exact .step hy' (ih hyC)

theorem Refactored.outdated (h : Refactored g old M root g') (ho : g.Ordered)
    (hx : Outdated replaced g x) (hC : ¬ g.plan.Inside old x) :
    Outdated ((old, root) :: replaced) g' x ∨ old ∈ g.sizedBy x := by
  obtain ⟨y, hy, habove⟩ := hx
  rcases Rework.sizedBy_kept (.factor h) ho hy hC with ⟨rfl, -⟩ | ⟨hyC, hy'⟩
  · exact .inr hy
  · exact .inl ⟨y, hy', h.above ho habove hyC⟩

end Factoring

namespace Slicing
variable {m : Merge} {n : Node}

theorem Rechained.sizedBy_chain (h : Rechained g m g') (ho : g.Ordered) (hx : x ∈ m.chain)
    (hy : y ∈ g.sizedBy x) :
    y ∈ m.chain ∧ y ∈ g'.sizedBy x ∨ y = m.base ∧ m.slice ∈ g'.sizedBy x := by
  obtain ⟨t, i, hi⟩ := h.chained.chain.writeAt hx
  obtain ⟨flags, hop, -⟩ := hi.op
  obtain ⟨lower, upper, -, -, hitem, -⟩ := h.result.done x hx i hi.item
  have hop' : (m.rewrite x lower upper i).op = .leftIndexing flags := (m.rewrite_op ..).trans hop
  have htarget := fun {t : NodeId} {k : Item} (ht : k.inputs[0]? = some t) =>
    (Item.narrow_target m.axis lower upper m.profile k).trans ht
  rcases h.chained.chain.target_cases ho.acyclic h.chained.last hx hi.item with
    ⟨hb, ht⟩ | ⟨hb, z, hz, ht⟩
  · have hslice : (m.rewrite x lower upper i).inputs[0]? = some m.slice := by
      rw [Merge.rewrite, if_pos hb]
      exact htarget (Item.retarget_target ht)
    rw [sizedBy_write hi.item hop ht] at hy
    rw [sizedBy_write hitem hop' hslice]
    exact .inr ⟨List.mem_singleton.1 hy, List.mem_cons_self⟩
  · have hnext : (m.rewrite x lower upper i).inputs[0]? = some z := by
      rw [Merge.rewrite, if_neg hb]
      exact htarget ht
    rw [sizedBy_write hi.item hop ht] at hy
    rw [sizedBy_write hitem hop' hnext]
    exact .inl ⟨List.mem_singleton.1 hy ▸ hz, hy⟩

theorem Rechained.base_sizes_slice (h : Rechained g m g') : m.base ∈ g'.sizedBy m.slice := by
  rw [sizedBy_of_plan h.result.slice]
  exact List.mem_cons_self

theorem Rechained.base_sizes_written (h : Rechained g m g') : m.base ∈ g'.sizedBy m.written := by
  rw [sizedBy_of_plan h.result.written]
  exact List.mem_cons_self

theorem Rechained.not_newProduct (h : Rechained g m g') (hx : x ∈ m.chain) :
    ¬ NewProduct replaced g x := by
  rintro ⟨-, op, hop⟩
  obtain ⟨t, i, hi⟩ := h.chained.chain.writeAt hx
  obtain ⟨flags, hwrite, -⟩ := hi.op
  rw [opOf_of_plan hi.item, hwrite] at hop
  cases hop

theorem Rechained.above (h : Rechained g m g') (ho : g.Ordered) (hx : Above replaced g x) :
    Above ((m.top, m.written) :: replaced) g' x ∧
      (x ∈ m.chain → Above ((m.top, m.written) :: replaced) g' m.written) := by
  -- No write of the chain is a new product, so a path that enters the chain leaves it through the
  -- base, and from there on it is a path below the new write as well.
  induction hx with
  | @user x y hy hnew =>
    have hnew' := hnew.mono h.ops (List.subset_cons_self (m.top, m.written) replaced)
    by_cases hx : x ∈ m.chain
    · rcases h.sizedBy_chain ho hx hy with ⟨hyc, -⟩ | ⟨rfl, hslice⟩
      · exact absurd hnew (h.not_newProduct hyc)
      · exact ⟨.step hslice (.user h.base_sizes_slice hnew'),
          fun _ => .user h.base_sizes_written hnew'⟩
    · rcases Rework.sizedBy_kept (.merge h) ho hy hx with ⟨rfl, -⟩ | ⟨-, hy'⟩
      · exact absurd hnew (h.not_newProduct h.chained.top_mem)
      · exact ⟨.user hy' hnew', fun hxc => absurd hxc hx⟩
  | @step x y hy _ ih =>
    by_cases hx : x ∈ m.chain
    · rcases h.sizedBy_chain ho hx hy with ⟨hyc, hy'⟩ | ⟨rfl, hslice⟩
      · exact ⟨.step hy' ih.1, fun _ => ih.2 hyc⟩
      · exact ⟨.step hslice (.step h.base_sizes_slice ih.1),
          fun _ => .step h.base_sizes_written ih.1⟩
    · rcases Rework.sizedBy_kept (.merge h) ho hy hx with ⟨rfl, hroot⟩ | ⟨-, hy'⟩
      · exact ⟨.step hroot (ih.2 h.chained.top_mem), fun hxc => absurd hxc hx⟩
      · exact ⟨.step hy' ih.1, fun hxc => absurd hxc hx⟩

theorem Rechained.outdated (h : Rechained g m g') (ho : g.Ordered) (hx : Outdated replaced g x) :
    Outdated ((m.top, m.written) :: replaced) g' x := by
  obtain ⟨y, hy, habove⟩ := hx
  obtain ⟨hy₁, hwritten⟩ := h.above ho habove
  by_cases hx : x ∈ m.chain
  · rcases h.sizedBy_chain ho hx hy with ⟨-, hy'⟩ | ⟨rfl, hslice⟩
    · exact ⟨y, hy', hy₁⟩
    · exact ⟨m.slice, hslice, .step h.base_sizes_slice hy₁⟩
  · rcases Rework.sizedBy_kept (.merge h) ho hy hx with ⟨rfl, hroot⟩ | ⟨-, hy'⟩
    · exact ⟨m.written, hroot, hwritten h.chained.top_mem⟩
    · exact ⟨y, hy', hy₁⟩

end Slicing

/-- Refreshing settles all that is not outdated, if what has to be refreshed is above a new
product. -/
theorem refreshAll_outdated {S : NodeId → Prop} {edges : List Edge}
    (h : g.SettledBut id fun x => Outdated replaced g x ∨ S x ∧ ∃ e ∈ edges, e.parent = x)
    (hS : ∀ x, S x → Above replaced g x)
    (hedges : ∀ e ∈ edges, ∃ i, g.plan e.parent = some i ∧ root ∈ i.inputs) :
    Ends (edges.forM fun e => refresh e.parent) g anyFault fun _ g' =>
      g'.SettledBut id (Outdated replaced g') := by
  have hsettles := refreshAll_settles Shape.respects_id h fun x y hy hor =>
    ⟨y, hy, hor.elim Outdated.above (hS y)⟩
  refine ((refreshAll_ends h.linked hedges).and_any hsettles).imp (fun _ _ _ => trivial) ?_
  rintro - g' ⟨hres, hset⟩
  exact hset.mono fun x hx => hres.outdated h.linked hx

namespace Factoring
variable {I : Graph → Prop} {M : Multiset NodeId} {t : Tree} {edges : List Edge} {g₁ g₂ g₃ : Graph}
  {p : Pass}

theorem Replacing.refreshes (h : Replacing (Settling I id (Outdated replaced g) g) g old t M root
    edges g₁ g₂ g₃) (ho : g.Ordered) (hx : old ∈ g.sizedBy x) :
    root ∈ g₃.sizedBy x ∧ ∃ e ∈ edges, e.parent = x := by
  obtain ⟨-, -, hedges⟩ := h.settled Shape.respects_id
  obtain ⟨i, hi⟩ := ho.live_of_sizedBy hx
  have hmem := mem_inputsOf_of_sizedBy hx
  rw [inputsOf_of_plan hi] at hmem
  have hC := Rework.user_not_changed (.factor h.refactored) ho hi hmem
  constructor
  · rcases Rework.sizedBy_kept (.factor h.refactored) ho hx hC with ⟨-, hroot⟩ | ⟨hno, -⟩
    · exact hroot
    · exact absurd h.refactored.inside hno
  · obtain ⟨pos, hpos⟩ := List.mem_iff_getElem?.1 hmem
    refine ⟨⟨x, pos⟩, (hedges _).2 ⟨pos, rfl, ?_⟩, rfl⟩
    rw [inputsOf_of_plan (h.prepared.stage.extends hi)]
    exact hpos

theorem Replacing.settledBut (h : Replacing (Settling I id (Outdated replaced g) g) g old t M root
    edges g₁ g₂ g₃) (ho : g.Ordered) : g₃.SettledBut id fun x =>
      Outdated ((old, root) :: replaced) g₃ x ∨
        root ∈ g₃.sizedBy x ∧ ∃ e ∈ edges, e.parent = x := by
  have hre := h.refactored
  obtain ⟨hbut, -, -⟩ := h.settled Shape.respects_id
  refine ⟨hbut.linked, fun x => ?_⟩
  rcases hbut.settled x with (hx | hx) | hx
  · by_cases hC : g.plan.Inside old x
    -- A retired product has nothing to be settled.
    · refine .inr fun n hn hr => ?_
      have hlive := plan_eq_some hn hr
      rw [hre.gone x hC] at hlive
      cases hlive
    · exact .inl ((hre.outdated ho hx hC).imp_right (h.refreshes ho))
  · exact .inl (.inr (h.refreshes ho hx))
  · exact .inr hx

theorem factor_outdated (h : p.graph.Ordered)
    (hset : p.graph.SettledBut id (Outdated replaced p.graph)) (hc : Collected p.graph old t M)
    (hf : t.isFactorable p.graph = true) :
    Ends (factor old t) p (fun _ _ => True) fun result p' => ∀ root, result = some root →
      p'.graph.SettledBut id (Outdated ((old, root) :: replaced) p'.graph) := by
  have hB := (builds_linked h.toLinked fun y hy => hc.item hy).settled
    (D := Outdated replaced p.graph) Shape.respects_id
  refine factor_steps h (fun hI => hI.inv.2) hB ⟨⟨.refl, h.toLinked⟩, hset, fun _ _ hx => hx⟩ hc hf
    (fun _ _ _ => trivial) fun {root _ _ edges _ _ g₃} hstep _ _ _ => ?_
  refine (refreshAll_outdated (hstep.settledBut h)
    (fun x hx => .user hx hstep.refactored.newProduct) hstep.users).mono ?_
  rintro - g₄ hset₄ records root' hroot
  cases hroot
  exact hset₄

end Factoring

theorem Slicing.mergeChain_outdated {m : Merge} {n : Node} (h : g.Ordered)
    (hset : g.SettledBut id (Outdated replaced g)) (hm : m.Chained g.plan) (hs : m.start = g.size)
    (hb : Measured g m.axis m.base m.width n)
    (hwhole : m.whole = .matrix (.ofInt n.shape.rows) (.ofInt n.shape.cols)) :
    Ends (mergeChain m.axis m.top m.bottom m.base m.index m.chain) g anyFault fun written g' =>
      g'.SettledBut id (Outdated ((m.top, written) :: replaced) g') := by
  obtain ⟨edges, g₅, hrun, hre, hlive, hset₅⟩ := mergeChain_settledBut Shape.respects_id hset
    h.spreads_outdated h hm hs hb hwhole
  have hbut : g₅.SettledBut id fun x => Outdated ((m.top, m.written) :: replaced) g₅ x ∨
      False ∧ ∃ e ∈ edges, e.parent = x := hset₅.mono fun x hx => .inl (hre.outdated h hx)
  unfold Ends
  rw [hrun]
  exact (refreshAll_outdated hbut (fun _ => False.elim) hlive).bind fun _ _ hset₆ => hset₆

theorem Standard.apply_outdated {r : Rule} (hr : Standard r) {p : Pass} (h : p.graph.Ordered)
    (hset : p.graph.SettledBut id (Outdated replaced p.graph)) (old : NodeId) :
    Ends (r.apply old) p (fun _ _ => True) fun result p' => ∀ root, result = some root →
      p'.graph.SettledBut id (Outdated ((old, root) :: replaced) p'.graph) := by
  rcases hr with rfl | ⟨axes, rfl⟩
  · exact Factoring.apply_steps h old (fun _ => nofun) (fun _ _ => trivial)
      fun hc hf => Factoring.factor_outdated h hset hc hf
  · refine Slicing.apply_steps h axes old (fun _ => nofun) (fun _ _ => trivial) fun {m n} hm => ?_
    refine (Slicing.mergeChain_outdated h hset hm.chained hm.start hm.measured hm.whole).mono ?_
    rintro written g' hset' records root hroot
    cases hroot
    exact hm.top ▸ hset'

theorem Standard.apply_maintains {r : Rule} (hr : Standard r) {p : Pass} (h : p.graph.Ordered)
    (hset : p.graph.SettledBut id (Outdated replaced p.graph)) (old : NodeId) :
    Ends (r.apply old) p (fun _ _ => True) fun result p' => ∀ root, result = some root →
      p'.graph.Ordered ∧ p'.graph.SettledBut id (Outdated ((old, root) :: replaced) p'.graph) := by
  have hends := (hr.apply_ends h old).and_any (hr.apply_outdated h hset old)
  refine hends.imp (fun _ _ _ => trivial) ?_
  rintro result p' ⟨hans, hset'⟩ root rfl
  rcases hans.cases with ⟨hnone, -⟩ | ⟨_, -, hrew⟩
  · cases hnone
  · exact ⟨hrew.ordered h, hset' root rfl⟩

namespace PassM
variable {I : Graph → List (NodeId × NodeId) → Prop} (hord : ∀ {g l}, I g l → g.Ordered)
  (happly : ∀ {r : Rule} {p : Pass} (old : NodeId), Standard r → I p.graph p.replaced →
    Ends (r.apply old) p (fun _ _ => True) fun result p' =>
      ∀ root, result = some root → I p'.graph ((old, root) :: p.replaced))

include hord happly

theorem offer_maintains {rules : List (Rule × Nat)} {p : Pass} (hrules : ∀ r ∈ rules, Standard r.1)
    (hp : I p.graph p.replaced) (old : NodeId) :
    Ends (offer rules old) p (fun _ _ => True) fun _ p' => I p'.graph p'.replaced := by
  induction rules generalizing p old with
  | nil => exact hp
  | cons r rest ih =>
    have hr := hrules r List.mem_cons_self
    have hrest : ∀ r ∈ rest, Standard r.1 := fun r hr => hrules r (List.mem_cons_of_mem _ hr)
    cases hrun : r.1.apply old p with
    | error cause p₁ => exact (ends_error (offer_cons_error rest hrun)).2 trivial
    | ok result p₁ =>
      have hends := (hr.apply_ends (hord hp) old).and_any (happly old hr hp)
      obtain ⟨hans, hI⟩ := (ends_ok hrun).1 hends
      obtain ⟨p₂, hrun₂, hsame₂, -⟩ := applyRule_ok r.2 hrun
      unfold Ends
      rcases hans.cases with ⟨rfl, rfl⟩ | ⟨root, rfl, hrew⟩
      · rw [offer_cons_none hrun₂]
        refine ih hrest ?_ old
        rw [hsame₂.graph, hsame₂.replaced]
        exact hp
      · obtain ⟨i, hi⟩ := hrew.root_live
        obtain ⟨p₃, hrun₃, hsame₃, -⟩ :=
          offer_cons_some rest hrun₂ hrew.root_ne (hsame₂.graph.symm ▸ hi)
        rw [hrun₃]
        -- The replacement is noted after the rule is done, and before the next rule is tried.
        refine ih hrest ?_ root
        rw [hsame₃.graph, hsame₃.replaced]
        show I p₂.graph ((old, root) :: p₂.replaced)
        rw [hsame₂.graph, hsame₂.replaced, hans.replaced]
        exact hI root rfl

theorem invariant_of_apply {rules : List Rule} (hrules : ∀ r ∈ rules, Standard r) :
    Invariant rules.zipIdx fun p => I p.graph p.replaced where
  enter hp _ hent := by
    rw [hent.graph, hent.replaced]
    exact hp
  take hp _ := hp
  offer hp _ := offer_maintains (I := I) hord happly
    (fun r hr => hrules r.1 (List.fst_mem_of_mem_zipIdx hr)) hp _

end PassM

section Runs
variable {rules : List Rule} {roots newRoots : List NodeId} {validate : Bool}

theorem optimize_outdated (hrules : ∀ r ∈ rules, Standard r) (hc : g.check = .ok ())
    (hs : g.Refreshed) (hok : (optimize rules validate g roots).result = .ok newRoots) :
    (optimize rules validate g roots).pass.graph.SettledBut id
      (Outdated (optimize rules validate g roots).pass.replaced
        (optimize rules validate g roots).pass.graph) := by
  have ho : g.Ordered := check_eq_ok_iff_ordered.1 hc
  have hinv := PassM.invariant_of_apply (I := fun g l => g.Ordered ∧ g.SettledBut id (Outdated l g))
    And.left (fun old hr hp => hr.apply_maintains hp.1 hp.2 old) hrules
  have hstart : g.SettledBut id (Outdated [] g) := ⟨ho.toLinked, fun x => .inr (hs.settledAt x)⟩
  exact ((ends_ok (run_of_optimize hok)).1 (hinv.run ⟨ho, hstart⟩ roots)).2

theorem optimize_outline (hrules : ∀ r ∈ rules, Standard r) (hc : g.check = .ok ())
    (hs : g.Refreshed) (hd : g.Declared)
    (hok : (optimize rules validate g roots).result = .ok newRoots) :
    (optimize rules validate g roots).pass.graph.AllSettled Shape.outline := by
  have hsound := sound_of_check hc hs hd
  have hinv := PassM.invariant_of_apply (I := fun g _ => g.Sound ∧ g.AllSettled Shape.outline)
    (fun hI => hI.1.ordered)
    (fun old hr hp => (hr.apply_outline hp.1 hp.2 old).mono fun _ _ hI _ _ => hI) hrules
  have hstart : g.AllSettled Shape.outline :=
    ⟨hsound.toLinked, fun x => .inr (hs.settledAt x).outline⟩
  exact ((ends_ok (run_of_optimize hok)).1 (hinv.run ⟨hsound, hstart⟩ roots)).2

end Runs

/-- After a pass, refreshing a node in use changes nothing, unless the node is sized through a user
of a new product. If all data is declared, then it never fails and changes no more than the bound on
the non-zero entries. -/
theorem optimize_keeps_sizes {rules : List Rule} {g : Graph} {roots newRoots : List NodeId}
    {validate : Bool} {o : Outcome} (hrules : ∀ r ∈ rules, Standard r) (hc : g.check = .ok ())
    (hs : g.Refreshed) (ho : optimize rules validate g roots = o) (hok : o.result = .ok newRoots)
    {x : NodeId} {n : Node} (hn : o.pass.graph.get? x = some n) (hlive : n.retired = false) :
    (¬ Outdated o.pass.replaced o.pass.graph x →
      Edit.refresh x o.pass.graph = .ok () o.pass.graph) ∧
    (g.Declared → ∃ s : Shape, s.outline = n.shape.outline ∧ Edit.refresh x o.pass.graph =
      .ok () (o.pass.graph.modify x fun m => { m with shape := s })) := by
  subst ho
  constructor
  · intro hx
    exact (((optimize_outdated hrules hc hs hok).settled x).resolve_left hx).refresh_id hn hlive
  · intro hd
    exact ((optimize_outline hrules hc hs hd hok).all x).refresh_eq hn hlive

/-- A product of a column, a row and twice a sparse matrix, transposed twice. -/
def transposedTwice : Graph :=
  (Graph.empty "g").afterCalls [.matrix "c" 3 1 (-1), .matrix "r" 1 3 (-1), .matrix "A" 3 3 5,
    .mult 0 1, .mult 3 2, .mult 4 2, .transpose 5, .transpose 6]

/-- The product turns out to be sparse. Its transpose is told, but not the transpose of that. -/
theorem optimize_outdates_transpose : transposedTwice.check = .ok () ∧ transposedTwice.Refreshed ∧
    (∃ n, transposedTwice.get? 7 = some n ∧ n.retired = false) ∧
    (optimize [Factoring.rule] true transposedTwice [7]).result = .ok [7] ∧
    (∃ n, (optimize [Factoring.rule] true transposedTwice [7]).pass.graph.get? 7 = some n ∧
      n.retired = false) ∧
    Edit.refresh 7 (optimize [Factoring.rule] true transposedTwice [7]).pass.graph ≠
      .ok () (optimize [Factoring.rule] true transposedTwice [7]).pass.graph := by
  have hlive : (transposedTwice.get? 7).map Node.retired = some false := by decide +kernel
  have hlive' : ((optimize [Factoring.rule] true transposedTwice [7]).pass.graph.get? 7).map
      Node.retired = some false := by decide +kernel
  refine ⟨by decide +kernel, refreshed_of_settled (by decide +kernel),
    Option.map_eq_some_iff.1 hlive, by decide +kernel, Option.map_eq_some_iff.1 hlive', ?_⟩
  have hchange : (Edit.refresh 7).finish (optimize [Factoring.rule] true transposedTwice [7]).pass.graph
      ≠ (optimize [Factoring.rule] true transposedTwice [7]).pass.graph := by decide +kernel
  exact fun hrun => hchange (Edit.finish_ok hrun)

theorem optimize_keeps_sizes_transposedTwice : transposedTwice.check = .ok () ∧
    transposedTwice.Refreshed ∧ transposedTwice.Declared ∧
    (optimize [Factoring.rule] true transposedTwice [7]).result = .ok [7] ∧
    Edit.refresh 6 (optimize [Factoring.rule] true transposedTwice [7]).pass.graph =
      .ok () (optimize [Factoring.rule] true transposedTwice [7]).pass.graph ∧
    ∃ n, (optimize [Factoring.rule] true transposedTwice [7]).pass.graph.get? 7 = some n ∧
      ∃ s : Shape, s.outline = n.shape.outline ∧
        Edit.refresh 7 (optimize [Factoring.rule] true transposedTwice [7]).pass.graph =
          .ok () ((optimize [Factoring.rule] true transposedTwice [7]).pass.graph.modify 7
            fun m => { m with shape := s }) := by
  have hrules : ∀ r ∈ [Factoring.rule], Standard r := fun r hr => .inl (List.mem_singleton.1 hr)
  have hc : transposedTwice.check = .ok () := by decide +kernel
  have hs : transposedTwice.Refreshed := refreshed_of_settled (by decide +kernel)
  have hd : transposedTwice.Declared := declared_of_ids (by decide +kernel)
  have hok : (optimize [Factoring.rule] true transposedTwice [7]).result = .ok [7] := by
    decide +kernel
  have hlive : ∀ x ∈ [6, 7], ((optimize [Factoring.rule] true transposedTwice [7]).pass.graph.get?
      x).map Node.retired = some false := by decide +kernel
  obtain ⟨n, hn, hr⟩ := Option.map_eq_some_iff.1 (hlive 6 List.mem_cons_self)
  obtain ⟨k, hk, hkr⟩ := Option.map_eq_some_iff.1 (hlive 7 (by decide))
  refine ⟨hc, hs, hd, hok, (optimize_keeps_sizes hrules hc hs rfl hok hn hr).1 ?_, k, hk,
    (optimize_keeps_sizes hrules hc hs rfl hok hk hkr).2 hd⟩
  have hbelow : ∀ y ∈ (optimize [Factoring.rule] true transposedTwice [7]).pass.graph.sizedBy 6,
      y ∈ [11, 10, 9, 8, 2, 1, 0] := by decide +kernel
  rintro ⟨y, hy, habove⟩
  exact not_above_of_closed (by decide +kernel) (hbelow y hy) habove

end Optimizer
end LinearPlan
