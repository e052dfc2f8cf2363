import LinearPlan.Proofs.Offers

/-!
# The descent of a pass

A pass below a root comes to an end without a fault. The nodes it is at are guarded and stay in use,
a replaced operand is found in its place, and fuel that is proportional to the work is enough: every
task either enters a node, takes a pending one, or goes on to the next operand.
-/
namespace LinearPlan.Optimizer
open LinearPlan.Graph

structure Good (S : NodeId → Prop) (t : NodeId) (p : Pass) : Prop where
  scope : Scope S t p.graph
  pending : ∀ y ∈ p.pending, S y ∧ Kept p.graph.plan y

variable {S : NodeId → Prop} {t id root : NodeId} {p p' : Pass}

theorem Alike.move (h : Alike p p') : Move S p p' :=
  .visit h.graph (fun x hx => by rw [h.visited]; exact hx) h.replaced

theorem Good.alike (hg : Good S t p) (h : Alike p p') : Good S t p' := by
  refine ⟨h.graph.symm ▸ hg.scope, fun y hy => ?_⟩
  rw [h.graph]
  exact hg.pending y (h.pending ▸ hy)

theorem Replaces.move (h : Replaces p id root p') (hid : S id) (hun : id ∉ p.visited) :
    Move S p p' := by
  cases h with
  | factor h hrep hv hp hleaves hlen hr =>
    refine .step (.factor h hrep) hid hun (fun x hx => (hv x).2 (.inl hx)) (fun _ x hs hlt => ?_) hr
    exact (hv x).2 (.inr ⟨hs, hlt⟩)
  | merge h hid' hroot hv hp hr =>
    subst hid'
    subst hroot
    refine .step (.merge h) hid hun (fun x hx => hv ▸ hx) ?_ hr
    -- The first write of a chain is no product.
    rintro ⟨i, hi, hm⟩
    obtain ⟨_, k, hk⟩ := h.applies.topAt
    obtain ⟨flags, hop, -⟩ := hk.op
    have hitem := hk.item
    rw [hi] at hitem
    cases hitem
    rw [hop] at hm
    cases hm

theorem Replaces.replaced (h : Replaces p id root p') :
    p'.replaced = (id, root) :: p.replaced := by
  cases h with
  | factor _ _ _ _ _ _ hr => exact hr
  | merge _ _ _ _ _ hr => exact hr

theorem Replaces.pending_le (h : Replaces p id root p') (hp : p.pending = []) :
    p'.pending.length ≤ p'.graph.size + 1 := by
  cases h with
  | factor h _ _ hp' _ hlen =>
    have hproducts : Factoring.products p.graph ≤ p.graph.size := Plan.tally_le_size ..
    have hsize := h.size_le
    rw [hp', hp, List.nil_append]
    omega
  | merge _ _ _ _ hp' =>
    rw [hp', hp]
    exact Nat.zero_le _

theorem Replaces.kept (h : Replaces p id root p') (hs : p.graph.Sound)
    (hk : Kept p.graph.plan id) : Kept p'.graph.plan root := by
  cases h with
  | factor h =>
    obtain ⟨i, hi, hm, -⟩ := hk
    exact absurd h.inside (Plan.not_inside_of_leaf hi hm)
  | merge h hid hroot =>
    subst hid
    subst hroot
    exact kept_of_merged h hs hk

theorem Replaces.pending (h : Replaces p id root p') {y : NodeId} (hy : y ∈ p'.pending) :
    y ∈ p.pending ∨ Kept p'.graph.plan y ∧
      ∃ M, Factoring.Factored p.graph id M root p'.graph ∧ y ∈ M := by
  cases h with
  | factor h hrep hv hp hleaves hlen hr =>
    rw [hp, List.mem_append, hleaves] at hy
    rcases hy with hy | hy
    · exact .inl hy
    · exact .inr ⟨kept_of_factored h hy, _, h, hy⟩
  | merge h hid hroot hv hp hr => exact .inl (hp ▸ hy)

theorem Good.replace (hg : Good S t p) (h : Replaces p id root p') (hid : S id) : Good S t p' := by
  obtain ⟨C, hstep⟩ := h.step
  refine ⟨hg.scope.step hstep hid, fun y hy => ?_⟩
  rcases h.pending hy with hy | ⟨hk, M, hf, hy⟩
  · exact ⟨(hg.pending y hy).1, (hg.pending y hy).2.step hg.scope.sound hstep⟩
  · exact ⟨hf.factors.mem_of_closed hg.scope.closed hid hy, hk⟩

theorem Good.offer {rules : List (Rule × Nat)} (hrules : ∀ r ∈ rules, Standard r.1)
    (hg : Good S t p) (hid : S id) (hun : id ∉ p.visited) {i : Item}
    (hi : p.graph.plan id = some i) :
    ∃ r p', PassM.offer rules id p = .ok r p' ∧ (r = id ∧ Alike p p' ∨ Replaces p id r p') ∧
      Good S t p' ∧ Move S p p' ∧ work p' ≤ work p := by
  obtain ⟨n, hn, hr, -⟩ := get?_of_plan hi
  rcases PassM.offer_cases hrules hg.scope.sound hn (fun _ => hr) with
    ⟨p', hrun, hsame⟩ | ⟨root, p', hrun, hrep⟩
  · exact ⟨id, p', hrun, .inl ⟨rfl, hsame⟩, hg.alike hsame, hsame.move, hsame.work_eq.le⟩
  · exact ⟨root, p', hrun, .inr hrep, hg.replace hrep hid, hrep.move hid hun,
      hrep.work_le hg.scope.sound hun⟩

theorem arity_le {op : Op} {n : Nat} (h : op.arity? = some n) : n ≤ 6 := by
  cases op with
  | chain kind threads =>
    rw [← Option.some.inj h, Chain.Kind.numOperands]
    split <;> decide
  | unknown code => cases h
  | _ =>
    have hn := Option.some.inj h
    omega

namespace PassM

def Ready (S : NodeId → Prop) (t : NodeId) (p : Pass) : Task → Prop
  | .node id => (S id ∨ id = t) ∧ Guarded p.graph.plan p.visited t id ∧
      ∃ i, p.graph.plan id = some i
  | .operands id _ => id ∈ p.visited ∧ (S id ∨ id = t) ∧
      Guarded p.graph.plan p.visited t id ∧ ∃ i, p.graph.plan id = some i
  | .pending => True

noncomputable def need (p : Pass) : Task → Nat
  | .node _ => 8 * work p + 2
  | .operands _ pos => 8 * work p + 3 + (6 - pos)
  | .pending => 8 * work p + 1

def Ended (p : Pass) : Task → Prop
  | .node id => id ∈ p.visited
  | .operands _ _ => True
  | .pending => p.pending = []

structure Leads (S : NodeId → Prop) (t : NodeId) (p p' : Pass) : Prop where
  good : Good S t p'
  moves : Moves S p p'
  work_le : work p' ≤ work p

theorem Leads.refl (hg : Good S t p) : Leads S t p p := ⟨hg, .refl, le_rfl⟩

theorem Leads.trans {p₁ : Pass} (h : Leads S t p p₁) (h' : Leads S t p₁ p') : Leads S t p p' :=
  ⟨h'.good, h.moves.trans h'.moves, h'.work_le.trans h.work_le⟩

theorem Ready.moves {pos : Nat} (hg : Good S t p) (h : Ready S t p (.operands id pos))
    (hm : Leads S t p p') (pos' : Nat) : Ready S t p' (.operands id pos') := by
  obtain ⟨hv, hS, hguard, i, hi⟩ := h
  obtain ⟨-, hvis, hkeep⟩ := hm.moves.guarded hg.scope
  obtain ⟨hguard', hlive⟩ := hkeep id hv hguard
  obtain ⟨j, hj, -⟩ := hlive i hi
  exact ⟨hvis id hv, hS, hguard', j, hj⟩

theorem Ready.operand {pos : Nat} {i : Item} {child : NodeId} (hg : Good S t p)
    (h : Ready S t p (.operands id pos)) (hm : Leads S t p p') (hi : p.graph.plan id = some i)
    (hpos : i.inputs[pos]? = some child) :
    ∃ j next, p'.graph.plan id = some j ∧ j.inputs[pos]? = some next := by
  obtain ⟨hv, -, hguard, -⟩ := h
  obtain ⟨-, -, hkeep⟩ := hm.moves.guarded hg.scope
  obtain ⟨j, hj, hop⟩ := (hkeep id hv hguard).2 i hi
  have hlen : j.inputs.length = i.inputs.length := by
    have hi' := hg.scope.sound.arity_of_plan hi
    rw [← hop, hm.good.scope.sound.arity_of_plan hj] at hi'
    exact Option.some.inj hi'
  obtain ⟨hlt, -⟩ := List.getElem?_eq_some_iff.1 hpos
  exact ⟨j, _, hj, List.getElem?_eq_getElem (by omega)⟩

def Completes (rules : List (Rule × Nat)) (S : NodeId → Prop) (t : NodeId) (fuel : Nat) : Prop :=
  ∀ p task, Good S t p → Ready S t p task → need p task ≤ fuel →
    ∃ p', descend rules fuel task p = .ok () p' ∧ Leads S t p p' ∧ Ended p' task

variable {rules : List (Rule × Nat)} {fuel : Nat}

theorem descend_node_of_visited (hv : id ∈ p.visited) :
    descend rules (fuel + 1) (.node id) p = .ok () p := by
  unfold descend
  rw [bind_ok (isVisited_apply id), if_pos (decide_eq_true hv)]
  rfl

theorem descend_node_of_unvisited {n : Node} (hv : id ∉ p.visited) (hn : p.graph.get? id = some n)
    (henter : enter id p = .ok () p') :
    descend rules (fuel + 1) (.node id) p = descend rules fuel (.operands id 0) p' := by
  have hgraph : p'.graph = p.graph := by
    cases henter
    rfl
  have hread : (discard <| read (·.node id) : PassM Unit) p' = .ok () p' :=
    bind_ok (read_ok (hgraph.symm ▸ node_ok hn))
  conv_lhs => unfold descend
  rw [bind_ok (isVisited_apply id), if_neg (by simpa using hv), bind_ok henter, bind_ok hread]

theorem descend_operands_of_none {n : Node} {pos : Nat} (hn : p.graph.get? id = some n)
    (hpos : n.inputs[pos]? = none) : descend rules (fuel + 1) (.operands id pos) p = .ok () p := by
  unfold descend
  rw [bind_ok (read_ok (node_ok hn)), hpos]
  rfl

theorem read_operand {n : Node} {child : NodeId} {pos : Nat} (hn : p.graph.get? id = some n)
    (hpos : n.inputs[pos]? = some child) :
    (read fun g => do (← g.node id).input id pos : PassM NodeId) p = .ok child p := by
  refine read_ok ?_
  rw [node_ok hn]
  exact Slicing.input_ok hpos

theorem descend_operands_visited {n : Node} {child : NodeId} {pos : Nat}
    (hn : p.graph.get? id = some n) (hpos : n.inputs[pos]? = some child)
    (hv : child ∈ p.visited) :
    descend rules (fuel + 1) (.operands id pos) p = (do
      let next ← read fun g => do (← g.node id).input id pos
      descend rules fuel (.node next)
      descend rules fuel (.operands id (pos + 1))) p := by
  conv_lhs => unfold descend
  rw [bind_ok (read_ok (node_ok hn)), hpos]
  simp only
  rw [bind_ok (isVisited_apply child), if_pos (decide_eq_true hv)]

theorem descend_operands_offered {n : Node} {child r : NodeId} {pos : Nat} {p₁ p₂ : Pass}
    (hn : p.graph.get? id = some n) (hpos : n.inputs[pos]? = some child)
    (hv : child ∉ p.visited) (hoffer : offer rules child p = .ok r p₁)
    (hreq : requireRedirected id pos child r p₁ = .ok () p₁)
    (hpend : descend rules fuel .pending p₁ = .ok () p₂) :
    descend rules (fuel + 1) (.operands id pos) p = (do
      let next ← read fun g => do (← g.node id).input id pos
      descend rules fuel (.node next)
      descend rules fuel (.operands id (pos + 1))) p₂ := by
  conv_lhs => unfold descend
  rw [bind_ok (read_ok (node_ok hn)), hpos]
  simp only
  rw [bind_ok (isVisited_apply child), if_neg (by simpa using hv), bind_ok hoffer, bind_ok hreq,
    bind_ok hpend]

theorem descend_pending_of_nil (hp : p.pending = []) :
    descend rules (fuel + 1) .pending p = .ok () p := by
  have htake : takePending p = .ok none p := by rw [takePending, hp]
  unfold descend
  rw [bind_ok htake]
  rfl

theorem unvisited_enter {i : Item} (hi : p.graph.plan id = some i) (hun : id ∉ p.visited)
    (hg : p'.graph = p.graph) (hv : p'.visited = id :: p.visited) :
    unvisited p' + 1 ≤ unvisited p := by
  unfold unvisited
  rw [hg]
  refine Plan.tally_add_le (l := [id]) (List.nodup_singleton id) (fun x hx => ?_) fun x hx => ?_
  · rw [List.mem_singleton.1 hx]
    exact Plan.mem_having.2 ⟨range_of_plan hi, i, hi, hun⟩
  · obtain ⟨hrange, j, hj, hxv⟩ := Plan.mem_having.1 hx
    rw [hv, List.mem_cons, not_or] at hxv
    exact ⟨fun he => hxv.1 (List.mem_singleton.1 he),
      Plan.mem_having.2 ⟨hrange, j, hj, hxv.2⟩⟩

theorem work_enter {i : Item} (hi : p.graph.plan id = some i) (hun : id ∉ p.visited)
    (hg : p'.graph = p.graph) (hv : p'.visited = id :: p.visited) (hp : p'.pending = p.pending) :
    work p' + 2 ≤ work p := by
  have hless := unvisited_enter hi hun hg hv
  unfold work
  rw [hg, hp, Nat.add_assoc]
  exact spend_le (by omega) le_rfl (by omega)

theorem node_completes (ih : Completes rules S t fuel) (hg : Good S t p)
    (hr : Ready S t p (.node id)) (hfuel : need p (.node id) ≤ fuel + 1) :
    ∃ p', descend rules (fuel + 1) (.node id) p = .ok () p' ∧ Leads S t p p' ∧
      Ended p' (.node id) := by
  obtain ⟨hS, hguard, i, hi⟩ := hr
  obtain ⟨n, hn, -⟩ := get?_of_plan hi
  by_cases hv : id ∈ p.visited
  · exact ⟨p, descend_node_of_visited hv, .refl hg, hv⟩
  · obtain ⟨p₁, henter, hgraph, hvis, hpend, hrepl⟩ : ∃ p₁, enter id p = .ok () p₁ ∧
        p₁.graph = p.graph ∧ p₁.visited = id :: p.visited ∧ p₁.pending = p.pending ∧
        p₁.replaced = p.replaced := ⟨_, rfl, rfl, rfl, rfl, rfl⟩
    have hsub : ∀ x ∈ p.visited, x ∈ p₁.visited := fun x hx => by
      rw [hvis]
      exact List.mem_cons_of_mem id hx
    have hg₁ : Good S t p₁ := by
      refine ⟨hgraph.symm ▸ hg.scope, fun y hy => ?_⟩
      rw [hgraph]
      exact hg.pending y (hpend ▸ hy)
    have hlead : Leads S t p p₁ := ⟨hg₁, .single (.visit hgraph hsub hrepl), by
      have hwork := work_enter hi hv hgraph hvis hpend
      omega⟩
    have hready : Ready S t p₁ (.operands id 0) := by
      refine ⟨by rw [hvis]; exact List.mem_cons_self, hS, ?_, i, hgraph.symm ▸ hi⟩
      rw [hgraph]
      exact hguard.mono hsub
    have hneed : need p₁ (.operands id 0) ≤ fuel := by
      have hwork := work_enter hi hv hgraph hvis hpend
      simp only [need] at hfuel ⊢
      omega
    obtain ⟨p₂, hrun, hlead₂, -⟩ := ih p₁ _ hg₁ hready hneed
    refine ⟨p₂, (descend_node_of_unvisited hv hn henter).trans hrun, hlead.trans hlead₂, ?_⟩
    exact (hlead₂.moves.guarded hg₁.scope).2.1 id (hvis ▸ List.mem_cons_self)

theorem requireRedirected_ok {i : Item} {child r : NodeId} {pos : Nat} (hs : p.graph.Sound)
    (hi : p.graph.plan id = some i) (hpos : i.inputs[pos]? = some child)
    (h : r = child ∧ Alike p p' ∨ Replaces p child r p') :
    requireRedirected id pos child r p' = .ok () p' := by
  rcases h with ⟨rfl, -⟩ | h
  · unfold requireRedirected
    rw [if_pos rfl]
    rfl
  · obtain ⟨C, hstep⟩ := h.step
    have hi' := hstep.rework.user_kept hs.ordered hi (List.mem_of_getElem? hpos)
    obtain ⟨n, hn, -, hitem⟩ := get?_of_plan hi'
    have hin : n.input id pos = .ok r := by
      refine Slicing.input_ok ?_
      rw [show n.inputs = (i.subst child r).inputs from congrArg Item.inputs hitem]
      simp [Item.subst, hpos]
    unfold requireRedirected
    split
    · rfl
    · have hread : (read fun _ => n.input id pos : PassM NodeId) p' = .ok r p' := read_ok hin
      rw [bind_ok (read_ok (node_ok hn)), bind_ok hread, if_pos rfl]
      rfl

theorem operands_completes (hrules : ∀ r ∈ rules, Standard r.1) (ih : Completes rules S t fuel)
    {pos : Nat} (hg : Good S t p) (hr : Ready S t p (.operands id pos))
    (hfuel : need p (.operands id pos) ≤ fuel + 1) :
    ∃ p', descend rules (fuel + 1) (.operands id pos) p = .ok () p' ∧ Leads S t p p' := by
  have ⟨hv, hS, hguard, i, hi⟩ := hr
  obtain ⟨n, hn, -, rfl⟩ := get?_of_plan hi
  simp only [need] at hfuel
  cases hpos : n.inputs[pos]? with
  | none => exact ⟨p, descend_operands_of_none hn hpos, .refl hg⟩
  | some child =>
    have hlt : pos < 6 := by
      obtain ⟨hlt, -⟩ := List.getElem?_eq_some_iff.1 hpos
      exact hlt.trans_le (arity_le (hg.scope.sound.arity_of_plan hi))
    have hmem : child ∈ n.item.inputs := List.mem_of_getElem? hpos
    have hbelow : ∀ {q : Pass} {j : Item} {y : NodeId}, Good S t q → q.graph.plan id = some j →
        y ∈ j.inputs → S y := by
      intro q j y hq hj hy
      rcases hS with hS | rfl
      · exact hq.scope.closed id j hS hj y hy
      · exact hq.scope.operands j hj y hy
    -- The operand is offered if it has not been visited, and what is pending is visited.
    obtain ⟨p₂, hrun₂, hlead₂⟩ : ∃ p₂, descend rules (fuel + 1) (.operands id pos) p = (do
        let next ← read fun g => do (← g.node id).input id pos
        descend rules fuel (.node next)
        descend rules fuel (.operands id (pos + 1))) p₂ ∧ Leads S t p p₂ := by
      by_cases hcv : child ∈ p.visited
      · exact ⟨p, descend_operands_visited hn hpos hcv, .refl hg⟩
      · obtain ⟨j, hj⟩ := hg.scope.sound.closed hi child hmem
        obtain ⟨r, p₁, hoffer, hout, hg₁, hmove, hwork⟩ :=
          hg.offer hrules (hbelow hg hi hmem) hcv hj
        have hreq := requireRedirected_ok hg.scope.sound hi hpos hout
        obtain ⟨p₂, hpend, hlead, -⟩ := ih p₁ .pending hg₁ trivial (by simp only [need]; omega)
        exact ⟨p₂, descend_operands_offered hn hpos hcv hoffer hreq hpend,
          Leads.trans ⟨hg₁, .single hmove, hwork⟩ hlead⟩
    -- The node is in use still and has as many operands as before.
    obtain ⟨hv₂, -, hguard₂, -⟩ := hr.moves hg hlead₂ pos
    obtain ⟨j, next, hj, hnext⟩ := hr.operand hg hlead₂ hi hpos
    obtain ⟨n₂, hn₂, -, rfl⟩ := get?_of_plan hj
    have hnmem : next ∈ n₂.item.inputs := List.mem_of_getElem? hnext
    obtain ⟨k, hk⟩ := hlead₂.good.scope.sound.closed hj next hnmem
    have hwork₂ := hlead₂.work_le
    obtain ⟨p₃, hrun₃, hlead₃, -⟩ := ih p₂ (.node next) hlead₂.good
      ⟨.inl (hbelow hlead₂.good hj hnmem), .operand hguard₂ hv₂ hj hnmem, k, hk⟩
      (by simp only [need]; omega)
    have hlead := hlead₂.trans hlead₃
    have hwork₃ := hlead.work_le
    obtain ⟨p₄, hrun₄, hlead₄, -⟩ := ih p₃ (.operands id (pos + 1)) hlead.good
      (hr.moves hg hlead (pos + 1)) (by simp only [need]; omega)
    refine ⟨p₄, ?_, hlead.trans hlead₄⟩
    rw [hrun₂, bind_ok (read_operand hn₂ hnext), bind_ok hrun₃]
    exact hrun₄

theorem pending_completes (hrules : ∀ r ∈ rules, Standard r.1) (ih : Completes rules S t fuel)
    (hg : Good S t p) (hfuel : need p .pending ≤ fuel + 1) :
    ∃ p', descend rules (fuel + 1) .pending p = .ok () p' ∧ Leads S t p p' ∧
      Ended p' .pending := by
  simp only [need] at hfuel
  cases hpend : p.pending with
  | nil => exact ⟨p, descend_pending_of_nil hpend, .refl hg, hpend⟩
  | cons id rest =>
    unfold descend
    have htake : takePending p = .ok (some id) { p with pending := rest } := by
      rw [takePending, hpend]
    have hwork : work { p with pending := rest } + 1 = work p := by
      simp only [work, unvisited, hpend, List.length_cons]
      omega
    have hg₁ : Good S t { p with pending := rest } :=
      ⟨hg.scope, fun y hy => hg.pending y (hpend ▸ List.mem_cons_of_mem id hy)⟩
    obtain ⟨hS, hkept⟩ := hg.pending id (hpend ▸ List.mem_cons_self)
    have hlead₁ : Leads S t p { p with pending := rest } :=
      ⟨hg₁, .single (.visit rfl (fun _ hx => hx) rfl), by omega⟩
    have hrest : ∀ {p₂ : Pass}, Leads S t { p with pending := rest } p₂ →
        ∃ p', descend rules fuel .pending p₂ = .ok () p' ∧ Leads S t p p' ∧ Ended p' .pending := by
      intro p₂ hlead₂
      have hwork₂ := hlead₂.work_le
      obtain ⟨p₃, hrun, hlead₃, hend⟩ := ih p₂ .pending hlead₂.good trivial
        (by simp only [need]; omega)
      exact ⟨p₃, hrun, (hlead₁.trans hlead₂).trans hlead₃, hend⟩
    rw [bind_ok htake]
    simp only
    rw [bind_ok (isVisited_apply id)]
    by_cases hv : id ∈ p.visited
    · rw [if_pos (decide_eq_true hv)]
      exact hrest (.refl hg₁)
    · have hlive := hkept
      obtain ⟨i, hi, -⟩ := hlive
      obtain ⟨n, hn, hr, -⟩ := get?_of_plan hi
      have hread : (read (·.node id) : PassM Node) { p with pending := rest } = .ok n _ :=
        read_ok (node_ok hn)
      obtain ⟨r, p₂, hoffer, hout, hg₂, hmove, hwork₂⟩ := hg₁.offer hrules hS hv hi
      have hready : Ready S t p₂ (.node r) := by
        rcases hout with ⟨rfl, hsame⟩ | hrep
        · rw [Ready, hsame.graph]
          exact ⟨.inl hS, .kept hkept, i, hi⟩
        · obtain ⟨C, hstep⟩ := hrep.step
          have hkept' := hrep.kept hg.scope.sound hkept
          exact ⟨.inl (hg.scope.new r hstep.rework.root_new), .kept hkept', hstep.rework.root_live⟩
      obtain ⟨p₃, hrun₃, hlead₃, -⟩ := ih p₂ (.node r) hg₂ hready (by simp only [need]; omega)
      obtain ⟨p', hrun, hlead, hend⟩ := hrest (Leads.trans ⟨hg₂, .single hmove, hwork₂⟩ hlead₃)
      refine ⟨p', ?_, hlead, hend⟩
      rw [if_neg (by simpa using hv), bind_ok hread, hr]
      simp only [Bool.false_eq_true, if_false]
      rw [bind_ok hoffer, bind_ok hrun₃]
      exact hrun

theorem completes (hrules : ∀ r ∈ rules, Standard r.1) (fuel : Nat) :
    Completes rules S t fuel := by
  induction fuel with
  | zero =>
    intro p task _ _ hneed
    cases task <;> simp [need] at hneed
  | succ fuel ih =>
    intro p task hg hr hneed
    cases task with
    | node id => exact node_completes ih hg hr hneed
    | operands id pos =>
      obtain ⟨p', hrun, hlead⟩ := operands_completes hrules ih hg hr hneed
      exact ⟨p', hrun, hlead, trivial⟩
    | pending => exact pending_completes hrules ih hg hneed

end PassM
end LinearPlan.Optimizer
