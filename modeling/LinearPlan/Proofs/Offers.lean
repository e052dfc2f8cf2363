import LinearPlan.Proofs.Guards

/-!
# Offering a node to the rules

An offer changes nothing, or one rule makes a step and the rules after it leave the replacement
alone: a new product has no factor twice, and the write of a row has not all of its bounds equal.
Offers do not add to the work that is left to a pass.
-/
namespace LinearPlan.Optimizer
open LinearPlan.Graph

/-- A rule of this library. -/
def Standard (r : Rule) : Prop := r = Factoring.rule ∨ ∃ axes, r = Slicing.rule axes

structure Alike (p p' : Pass) : Prop where
  graph : p'.graph = p.graph
  visited : p'.visited = p.visited
  pending : p'.pending = p.pending
  replaced : p'.replaced = p.replaced

theorem Alike.refl (p : Pass) : Alike p p := ⟨rfl, rfl, rfl, rfl⟩

theorem Alike.trans {p p₁ p₂ : Pass} (h : Alike p p₁) (h' : Alike p₁ p₂) : Alike p p₂ :=
  ⟨h'.graph.trans h.graph, h'.visited.trans h.visited, h'.pending.trans h.pending,
    h'.replaced.trans h.replaced⟩

inductive Replaces (p : Pass) (id root : NodeId) (p' : Pass) : Prop
  | factor {M : Multiset NodeId} {leaves : List NodeId}
      (h : Factoring.Factored p.graph id M root p'.graph) (hrep : ∃ y, 1 < M.count y)
      (hv : ∀ y : Int, y ∈ p'.visited ↔
        y ∈ p.visited ∨ (p.graph.size : Int) ≤ y ∧ y < (p'.graph.size : Int))
      (hp : p'.pending = p.pending ++ leaves) (hleaves : ∀ y, y ∈ leaves ↔ y ∈ M)
      (hlen : leaves.length ≤ Factoring.products p.graph)
      (hr : p'.replaced = (id, root) :: p.replaced)
  | merge {m : Merge} (h : Slicing.Merged p.graph m p'.graph) (hid : m.top = id)
      (hroot : m.written = root) (hv : p'.visited = p.visited) (hp : p'.pending = p.pending)
      (hr : p'.replaced = (id, root) :: p.replaced)

theorem Replaces.step {p p' : Pass} {id root : NodeId} (h : Replaces p id root p') :
    ∃ C, Step p.graph id root C p'.graph := by
  cases h with
  | factor h hrep => exact ⟨_, .factor h hrep⟩
  | merge h hid hroot =>
    subst hid
    subst hroot
    exact ⟨_, .merge h⟩

theorem Replaces.congr {p₀ p q q' : Pass} {id root : NodeId} (h : Replaces p id root q)
    (h₀ : Alike p₀ p) (h' : Alike q q') : Replaces p₀ id root q' := by
  cases h with
  | factor h hrep hv hp hleaves hlen hr =>
    rw [h₀.graph] at h hv hlen
    refine .factor (h'.graph.symm ▸ h) hrep (fun y => ?_) ?_ hleaves hlen ?_
    · rw [h'.visited, hv y, h₀.visited, h'.graph]
    · rw [h'.pending, hp, h₀.pending]
    · rw [h'.replaced, hr, h₀.replaced]
  | merge h hid hroot hv hp hr =>
    rw [h₀.graph] at h
    refine .merge (h'.graph.symm ▸ h) hid hroot ?_ ?_ ?_
    · rw [h'.visited, hv, h₀.visited]
    · rw [h'.pending, hp, h₀.pending]
    · rw [h'.replaced, hr, h₀.replaced]

namespace PassM
variable {α β : Type} {p p' : Pass}

theorem bind_ok {x : PassM α} {f : α → PassM β} {a : α} (h : x p = .ok a p') :
    (x >>= f) p = f a p' := by
  show EStateM.bind x f p = _
  rw [EStateM.bind, h]

theorem bind_error {x : PassM α} {f : α → PassM β} {fault : PassFault} (h : x p = .error fault p') :
    (x >>= f) p = .error fault p' := by
  show EStateM.bind x f p = _
  rw [EStateM.bind, h]

theorem read_ok {f : Graph → Except Fault α} {a : α} (h : f p.graph = .ok a) :
    read f p = .ok a p := by
  rw [read, h]

theorem isVisited_apply (id : NodeId) : isVisited id p = .ok (decide (id ∈ p.visited)) p := rfl

theorem applyRule_ok {rule : Rule} {id : NodeId} {result : Option NodeId} (position : Nat)
    (h : rule.apply id p = .ok result p') :
    ∃ p₁, applyRule position rule id p = .ok result p₁ ∧ Alike p' p₁ ∧
      p₁.offers = p'.offers ++ [⟨position, id⟩] := by
  refine ⟨_, by rw [applyRule, h], ?_, rfl⟩
  exact ⟨rfl, rfl, rfl, rfl⟩

variable {id root : NodeId} {rules : List (Rule × Nat)}

theorem offer_cons_none {r : Rule × Nat} (h : applyRule r.2 r.1 id p = .ok none p') :
    offer (r :: rules) id p = offer rules id p' := by
  have hone : (do accept r.1 id (← applyRule r.2 r.1 id)) p = .ok id p' := bind_ok h
  exact bind_ok hone

theorem offer_cons_error {r : Rule × Nat} {cause : Interruption} (rules : List (Rule × Nat))
    (h : r.1.apply id p = .error cause p') :
    offer (r :: rules) id p = .error (.inRule r.1.name id cause) p' := by
  have happly : applyRule r.2 r.1 id p = .error (.inRule r.1.name id cause) p' := by
    rw [applyRule, h]
  have hone : (do accept r.1 id (← applyRule r.2 r.1 id)) p =
      .error (.inRule r.1.name id cause) p' := bind_error happly
  exact bind_error hone

theorem offer_cons_some {r : Rule × Nat} {i : Item} (rules : List (Rule × Nat))
    (h : applyRule r.2 r.1 id p = .ok (some root) p') (hne : root ≠ id)
    (hroot : p'.graph.plan root = some i) :
    ∃ p₁, offer (r :: rules) id p = offer rules root p₁ ∧ Alike { p' with
      replaced := (id, root) :: p'.replaced } p₁ ∧ p₁.offers = p'.offers := by
  obtain ⟨n, hn, hr, -⟩ := get?_of_plan hroot
  have hnote : noteReplaced r.1.name id root p' = .ok () { p' with
      stats := p'.stats.countApplied r.1.name
      replaced := (id, root) :: p'.replaced } := rfl
  have haccept : accept r.1 id (some root) p' = .ok root { p' with
      stats := p'.stats.countApplied r.1.name
      replaced := (id, root) :: p'.replaced } := by
    simp only [accept, if_neg hne]
    rw [bind_ok (read_ok (node_ok hn)), hr]
    exact bind_ok hnote
  have hone : (do accept r.1 id (← applyRule r.2 r.1 id)) p = .ok root _ := (bind_ok h).trans haccept
  exact ⟨_, bind_ok hone, ⟨rfl, rfl, rfl, rfl⟩, rfl⟩

/-- A rule leaves a node alone, whatever else the pass has seen. -/
def Quiet (r : Rule) (g : Graph) (id : NodeId) : Prop :=
  ∀ p : Pass, p.graph = g → r.apply id p = .ok none p

theorem offer_eq_of_quiet (h : ∀ r ∈ rules, Quiet r.1 p.graph id) :
    offer rules id p =
      .ok id { p with offers := p.offers ++ rules.map fun r => ⟨r.2, id⟩ } := by
  induction rules generalizing p with
  | nil =>
    rw [List.map_nil, List.append_nil]
    rfl
  | cons r rest ih =>
    have hone : applyRule r.2 r.1 id p =
        .ok none { p with offers := p.offers ++ [⟨r.2, id⟩] } := by
      rw [applyRule, h r List.mem_cons_self p rfl]
    have hrest := ih (p := { p with offers := p.offers ++ [⟨r.2, id⟩] })
      fun r hr => h r (List.mem_cons_of_mem _ hr)
    rw [List.append_assoc, List.singleton_append] at hrest
    exact (offer_cons_none hone).trans hrest

theorem offer_of_quiet (h : ∀ r ∈ rules, Quiet r.1 p.graph id) :
    ∃ offers, offer rules id p = .ok id { p with offers := offers } ∧ p.offers ⊆ offers :=
  ⟨_, offer_eq_of_quiet h, List.subset_append_left _ _⟩

def Idle (g : Graph) (id : NodeId) : Prop := ∀ r, Standard r → Quiet r g id

theorem offer_of_idle (hrules : ∀ r ∈ rules, Standard r.1) (h : Idle p.graph id) :
    ∃ p', offer rules id p = .ok id p' ∧ Alike p p' ∧ p.offers ⊆ p'.offers := by
  obtain ⟨offers, hrun, hsub⟩ := offer_of_quiet fun r hr => h r.1 (hrules r hr)
  exact ⟨_, hrun, ⟨rfl, rfl, rfl, rfl⟩, hsub⟩

theorem idle_of_distinct {g : Graph} (ho : g.Ordered) {i : Item} {op : BinaryOp}
    (hi : g.plan id = some i) (hop : i.op = .binary op)
    (hdist : ∀ {N}, g.plan.Factors id N → ∀ y, N.count y ≤ 1) : Idle g id := by
  obtain ⟨n, hn, -, rfl⟩ := get?_of_plan hi
  have hnop : n.op = .binary op := hop
  rintro r (rfl | ⟨axes, rfl⟩) p rfl
  · rcases Factoring.apply_run ho hn with ⟨hnone, -⟩ | ⟨t, M, hc, hf, -⟩
    · exact hnone
    · obtain ⟨y, hy⟩ := hc.repeated hf
      exact absurd (hdist hc.factors y) (by omega)
  · show Slicing.apply axes id p = _
    unfold Slicing.apply
    rw [RuleM.bind_ok (RuleM.read_ok (node_ok hn)), hnop]
    rfl

theorem idle_of_write {g : Graph} {i : Item} {flags : SliceFlags} (hi : g.plan id = some i)
    (hop : i.op = .leftIndexing flags) (hflags : flags ≠ ⟨true, true⟩) : Idle g id := by
  obtain ⟨n, hn, -, rfl⟩ := get?_of_plan hi
  have hnop : n.op = .leftIndexing flags := hop
  rintro r (rfl | ⟨axes, rfl⟩) p rfl
  · show Factoring.apply id p = _
    unfold Factoring.apply
    rw [RuleM.bind_ok (RuleM.read_ok (node_ok hn)), hnop]
    rfl
  · show Slicing.apply axes id p = _
    unfold Slicing.apply
    rw [RuleM.bind_ok (RuleM.read_ok (node_ok hn)), hnop]
    obtain ⟨row, col⟩ := flags
    cases row <;> cases col
    · rfl
    · rfl
    · rfl
    · exact absurd rfl hflags

theorem flags_ne (axis : Slicing.Axis) : axis.flags ≠ ⟨true, true⟩ := by
  cases axis <;> decide

theorem idle_of_factored {g g' : Graph} {M : Multiset NodeId}
    (h : Factoring.Factored g id M root g') : Idle g' root := by
  obtain ⟨i, op, hi, hop⟩ := h.built.isBinary h.new
  exact idle_of_distinct h.ordered hi hop h.distinct

theorem idle_of_merged {g g' : Graph} {m : Merge} (h : Slicing.Merged g m g') :
    Idle g' m.written :=
  idle_of_write h.result.written rfl (flags_ne m.axis)

theorem apply_cases {r : Rule} (hr : Standard r) (h : p.graph.Sound) {n : Node}
    (hn : p.graph.get? id = some n)
    (hlive : n.op = .leftIndexing ⟨true, true⟩ → n.retired = false) :
    r.apply id p = .ok none p ∨ ∃ root p', r.apply id p = .ok (some root) p' ∧
      Idle p'.graph root ∧ ∀ p₁, Alike { p' with replaced := (id, root) :: p'.replaced } p₁ →
        Replaces p id root p₁ := by
  rcases hr with rfl | ⟨axes, rfl⟩
  · rcases Factoring.apply_cases h hn with hnone | ⟨M, root, p', hrun, happ⟩
    · exact .inl hnone
    · obtain ⟨leaves, hp, hleaves, hlen⟩ := happ.pending
      refine .inr ⟨root, p', hrun, idle_of_factored happ.step, fun p₁ h₁ => ?_⟩
      refine Replaces.congr (q := { p' with replaced := (id, root) :: p'.replaced })
        (.factor happ.step happ.repeated happ.visited hp hleaves hlen ?_) (.refl p) h₁
      exact congrArg _ happ.replaced
  · rcases Slicing.apply_cases h hn hlive axes with hnone | ⟨-, m, p', htop, hrun, happ⟩
    · exact .inl hnone
    · refine .inr ⟨m.written, p', hrun, idle_of_merged happ.step, fun p₁ h₁ => ?_⟩
      refine Replaces.congr (q := { p' with replaced := (id, m.written) :: p'.replaced })
        (.merge happ.step htop rfl happ.visited happ.pending ?_) (.refl p) h₁
      exact congrArg _ happ.replaced

theorem offer_cases (hrules : ∀ r ∈ rules, Standard r.1) (h : p.graph.Sound) {n : Node}
    (hn : p.graph.get? id = some n)
    (hlive : n.op = .leftIndexing ⟨true, true⟩ → n.retired = false) :
    (∃ p', offer rules id p = .ok id p' ∧ Alike p p') ∨
      ∃ root p', offer rules id p = .ok root p' ∧ Replaces p id root p' := by
  induction rules generalizing p with
  | nil => exact .inl ⟨p, rfl, .refl p⟩
  | cons r rest ih =>
    have hrest : ∀ r ∈ rest, Standard r.1 := fun r hr => hrules r (List.mem_cons_of_mem _ hr)
    rcases apply_cases (hrules r List.mem_cons_self) h hn hlive with
      hnone | ⟨root, p₁, hrun, hidle, hrep⟩
    · obtain ⟨p₁, hrun, hsame, -⟩ := applyRule_ok r.2 hnone
      rw [offer_cons_none hrun]
      rcases ih (p := p₁) hrest (hsame.graph.symm ▸ h) (hsame.graph.symm ▸ hn) with
        ⟨p', hrun', hsame'⟩ | ⟨root, p', hrun', hrep⟩
      · exact .inl ⟨p', hrun', hsame.trans hsame'⟩
      · exact .inr ⟨root, p', hrun', hrep.congr hsame (.refl p')⟩
    · obtain ⟨p₂, hrun₂, hsame₂, -⟩ := applyRule_ok r.2 hrun
      obtain ⟨C, hstep⟩ := (hrep _ (.refl _)).step
      obtain ⟨i, hi⟩ := hstep.rework.root_live
      obtain ⟨p₃, hrun₃, hsame₃, -⟩ := offer_cons_some rest hrun₂ hstep.rework.root_ne
        (hsame₂.graph.symm ▸ hi)
      have hidle₃ : Idle p₃.graph root := by
        rw [hsame₃.graph]
        exact hsame₂.graph.symm ▸ hidle
      obtain ⟨p', hrun', hsame', -⟩ := offer_of_idle hrest hidle₃
      refine .inr ⟨root, p', hrun₃.trans hrun', hrep p' (Alike.trans ?_ (hsame₃.trans hsame'))⟩
      exact ⟨hsame₂.graph, hsame₂.visited, hsame₂.pending,
        congrArg ((id, root) :: ·) hsame₂.replaced⟩

end PassM
noncomputable def unvisited (p : Pass) : Nat :=
  p.graph.plan.tally p.graph.size fun x _ => x ∉ p.visited

noncomputable def writes (g : Graph) : Nat :=
  g.plan.tally g.size fun x i => (∃ flags, i.op = .leftIndexing flags) ∧ ∀ axis, ¬ g.plan.Spent axis x

/-- A bound for the work that is left to a pass. A step at a product asks for at most one node more
than there are products, and a merge of `n` writes adds `2 * n + 6` nodes. -/
noncomputable def work (p : Pass) : Nat :=
  (unvisited p + 11 * writes p.graph) * (Factoring.products p.graph + 2) + p.pending.length

variable {p p' : Pass} {id root : NodeId}

theorem Alike.work_eq (h : Alike p p') : work p' = work p := by
  simp only [work, unvisited, h.graph, h.visited, h.pending]

theorem unvisited_factored {M : Multiset NodeId}
    (h : Factoring.Refactored p.graph id M root p'.graph) (hun : id ∉ p.visited)
    (hv : ∀ y : Int, y ∈ p'.visited ↔
      y ∈ p.visited ∨ (p.graph.size : Int) ≤ y ∧ y < (p'.graph.size : Int)) :
    unvisited p' + 1 ≤ unvisited p := by
  obtain ⟨i, hi, -⟩ := h.inside.product
  refine Plan.tally_add_le (l := [id]) (List.nodup_singleton id) (fun x hx => ?_) fun x hx => ?_
  · rw [List.mem_singleton.1 hx]
    exact Plan.mem_having.2 ⟨range_of_plan hi, i, hi, hun⟩
  · obtain ⟨hrange, j, hj, hxv⟩ := Plan.mem_having.1 hx
    rw [hv, not_or] at hxv
    have hlt : x < (p.graph.size : Int) := by omega
    have hC : ¬ p.graph.plan.Inside id x := fun hC => by
      rw [h.gone x hC] at hj
      cases hj
    rw [h.kept x hlt hC] at hj
    obtain ⟨k, hk, -⟩ := Option.map_eq_some_iff.1 hj
    refine ⟨fun he => hC (List.mem_singleton.1 he ▸ h.inside), ?_⟩
    exact Plan.mem_having.2 ⟨range_of_plan hk, k, hk, hxv.1⟩

theorem writes_factored {g g' : Graph} {M : Multiset NodeId} (hs : g.Sound)
    (h : Factoring.Factored g id M root g') (hrep : ∃ y, 1 < M.count y) :
    writes g' ≤ writes g :=
  h.tally_writes_le fun _ hspent axis hx => hspent axis ((Step.factor h hrep).spent hs hx)

theorem unvisited_merged {m : Merge} (h : Slicing.Rechained p.graph m p'.graph)
    (hv : p'.visited = p.visited) : unvisited p' ≤ unvisited p + (2 * m.chain.length + 6) := by
  have hsize := h.size
  have hstart := h.start
  have hw : m.written = m.start + 3 + 2 * m.chain.length + 2 := rfl
  refine Plan.tally_le_add (by omega) fun x hx hlt => ?_
  obtain ⟨-, j, hj, hxv⟩ := Plan.mem_having.1 hx
  rw [hv] at hxv
  by_cases hC : x ∈ m.chain
  · obtain ⟨_, k, hk⟩ := h.chained.chain.writeAt hC
    exact Plan.mem_having.2 ⟨range_of_plan hk.item, k, hk.item, hxv⟩
  · rw [(Rework.merge h).kept hlt hC] at hj
    obtain ⟨k, hk, -⟩ := Option.map_eq_some_iff.1 hj
    exact Plan.mem_having.2 ⟨range_of_plan hk, k, hk, hxv⟩

theorem writes_merged {g g' : Graph} {m : Merge} (hs : g.Sound) (h : Slicing.Merged g m g') :
    writes g' + m.chain.length ≤ writes g + 1 :=
  h.tally_writes_le hs.ordered
    (fun _ hc => ⟨fun _ => h.applies.not_spent hs.acyclic hc, fun hspent =>
      hspent _ (spent_of_merged h hs hc)⟩)
    fun _ hspent axis hx => hspent axis ((Step.merge h).spent hs hx)

theorem products_merged {g g' : Graph} {m : Merge} (h : Slicing.Rechained g m g') :
    Factoring.products g' ≤ Factoring.products g := by
  refine Plan.tally_mono fun x hx => ?_
  obtain ⟨hrange, j, hj, hm⟩ := Plan.mem_having.1 hx
  by_cases hlt : x < (g.size : Int)
  · by_cases hC : x ∈ m.chain
    · obtain ⟨_, k, hk⟩ := h.chained.chain.writeAt hC
      obtain ⟨lower, upper, -, -, hitem, -⟩ := h.result.done x hC k hk.item
      obtain ⟨flags, hop, -⟩ := hk.op
      rw [hj] at hitem
      cases hitem
      rw [Merge.rewrite_op, hop] at hm
      cases hm
    · rw [(Rework.merge h).kept hlt hC] at hj
      obtain ⟨k, hk, rfl⟩ := Option.map_eq_some_iff.1 hj
      exact Plan.mem_having.2 ⟨range_of_plan hk, k, hk, hm⟩
  · rcases h.result.new_cases hj (by rw [h.start]; exact not_lt.1 hlt) with
      ⟨-, -, n, rfl⟩ | ⟨-, rfl⟩ | ⟨-, rfl⟩ <;> cases hm

theorem spend_le {a a' m m' n k : Nat} (ha : a' + 1 ≤ a) (hm : m' ≤ m) (hk : k ≤ m + 2) :
    a' * (m' + 2) + (n + k) ≤ a * (m + 2) + n := by
  have hlost := Nat.mul_le_mul_right (m + 2) ha
  have hmono := Nat.mul_le_mul_left a' (Nat.add_le_add_right hm 2)
  rw [Nat.add_mul, Nat.one_mul] at hlost
  omega

theorem Replaces.work_le (hs : p.graph.Sound) (hun : id ∉ p.visited)
    (h : Replaces p id root p') : work p' ≤ work p := by
  unfold work
  cases h with
  | factor h hrep hv hp hleaves hlen hr =>
    have hu := unvisited_factored h.toRefactored hun hv
    have hw := writes_factored hs h hrep
    rw [hp, List.length_append]
    exact spend_le (by omega) h.products_lt.le (by omega)
  | merge h hid hroot hv hp hr =>
    have hu := unvisited_merged h.toRechained hv
    have hw := writes_merged hs h
    have hlong := h.applies.long
    have hless : unvisited p' + 11 * writes p'.graph ≤ unvisited p + 11 * writes p.graph := by
      omega
    rw [hp]
    exact Nat.add_le_add_right
      (Nat.mul_le_mul hless (Nat.add_le_add_right (products_merged h.toRechained) 2)) _

end LinearPlan.Optimizer
