import LinearPlan.Proofs.Steps

/-!
# Nodes that a pass is at

While a pass is below a root, it changes only nodes below that root that it has not visited. The
nodes it is at are guarded: the root, the nodes that rules asked to visit, and from these on the
operands of visited ones. A guarded node that has been visited is neither retired nor changed by
later steps, so that the pass can go on at its operands.
-/
namespace LinearPlan.Optimizer
open LinearPlan.Graph Factoring Slicing

/-- A move of a pass: nodes are visited, or a step is made at a node in `S` that is not visited. All
new nodes of a product are visited at once. -/
inductive Move (S : NodeId → Prop) (p p' : Pass) : Prop
  | visit (hg : p'.graph = p.graph) (hv : ∀ x ∈ p.visited, x ∈ p'.visited)
      (hr : p'.replaced = p.replaced)
  | step {id root : NodeId} {C : NodeId → Prop} (h : Step p.graph id root C p'.graph) (hid : S id)
      (hun : id ∉ p.visited) (hv : ∀ x ∈ p.visited, x ∈ p'.visited)
      (hnew : (∃ i, p.graph.plan id = some i ∧ i.op.isMult = true) →
        ∀ x : Int, (p.graph.size : Int) ≤ x → x < (p'.graph.size : Int) → x ∈ p'.visited)
      (hr : p'.replaced = (id, root) :: p.replaced)

abbrev Moves (S : NodeId → Prop) : Pass → Pass → Prop := Relation.ReflTransGen (Move S)

theorem Move.mono {S T : NodeId → Prop} {p p' : Pass} (hS : ∀ x, S x → T x) (h : Move S p p') :
    Move T p p' := by
  cases h with
  | visit hg hv hr => exact .visit hg hv hr
  | step h hid hun hv hnew hr => exact .step h (hS _ hid) hun hv hnew hr

theorem Moves.mono {S T : NodeId → Prop} {p p' : Pass} (hS : ∀ x, S x → T x) (h : Moves S p p') :
    Moves T p p' :=
  Relation.ReflTransGen.mono (fun _ _ => Move.mono hS) _ _ h

/-- What lies below a root: the set contains the operands of the root and of its members, all new
nodes, and not the root. -/
structure Scope (S : NodeId → Prop) (t : NodeId) (g : Graph) : Prop where
  sound : g.Sound
  new : ∀ x : Int, (g.size : Int) ≤ x → S x
  closed : ∀ x i, S x → g.plan x = some i → ∀ y ∈ i.inputs, S y
  root : ¬ S t
  operands : ∀ i, g.plan t = some i → ∀ y ∈ i.inputs, S y

theorem Rework.closed {S C : NodeId → Prop} {g g' : Graph} {id root : NodeId}
    (h : Rework g id root C g') (hnew : ∀ x : Int, (g.size : Int) ≤ x → S x)
    (hS : ∀ x i, S x → g.plan x = some i → ∀ y ∈ i.inputs, S y) (hid : S id) :
    ∀ x i, S x → g'.plan x = some i → ∀ y ∈ i.inputs, S y := by
  intro x j hx hj y hy
  by_cases hxs : (x : Int) < (g.size : Int)
  · by_cases hC : C x
    · rcases h.operand_of_changed hj hC hy with hy | ⟨i, hi, hy⟩
      · exact hnew y hy
      · exact hS x i hx hi y hy
    · rw [h.kept hxs hC] at hj
      obtain ⟨i, hi, rfl⟩ := Option.map_eq_some_iff.1 hj
      rcases Item.mem_subst.1 hy with ⟨hy, -⟩ | ⟨rfl, -⟩
      · exact hS x i hx hi y hy
      · exact hnew _ h.root_new
  · rcases h.operand_of_new hj (not_lt.1 hxs) hy with hy | rfl | ⟨c, i, hC, hi, hy⟩
    · exact hnew y hy
    · exact hid
    · exact hS c i (h.mem_of_closed hS hid hC) hi y hy

variable {S C : NodeId → Prop} {t id root x : NodeId} {g g' : Graph}

theorem Scope.step (hs : Scope S t g) (h : Step g id root C g') (hid : S id) : Scope S t g' := by
  have hle := h.rework.size_le
  refine ⟨h.sound, fun x hx => hs.new x (by omega), h.rework.closed hs.new hs.closed hid, hs.root, ?_⟩
  intro j hj y hy
  have hlt : (t : Int) < (g.size : Int) := not_le.1 fun hle => hs.root (hs.new t hle)
  have hC : ¬ C t := fun hC => hs.root (h.rework.mem_of_closed hs.closed hid hC)
  rw [h.rework.kept hlt hC] at hj
  obtain ⟨i, hi, rfl⟩ := Option.map_eq_some_iff.1 hj
  rcases Item.mem_subst.1 hy with ⟨hy, -⟩ | ⟨rfl, -⟩
  · exact hs.operands i hi y hy
  · exact hs.new _ h.rework.root_new

/-- A node that rules may ask to visit: a factor of a power or product, or a spent write. -/
def Kept (P : Plan) (x : NodeId) : Prop :=
  ∃ i, P x = some i ∧ i.op.isMult = false ∧
    ((∃ p j op, P p = some j ∧ j.op = .binary op ∧ x ∈ j.inputs) ∨ ∃ axis, P.Spent axis x)

theorem kept_of_factored {M : Multiset NodeId} (h : Factored g id M root g') {y : Int}
    (hy : y ∈ M) : Kept g'.plan y := by
  obtain ⟨i, hi, hm, hi'⟩ := h.leaf_kept hy
  refine ⟨_, hi', hm, .inl ?_⟩
  rcases h.built.user hy with rfl | ⟨p, j, op, -, hp, hop, hmem⟩
  · have hlt := (range_of_plan hi).2
    have hnew := h.new
    exact absurd hnew (by omega)
  · exact ⟨p, j, op, hp, hop, hmem⟩

theorem kept_of_merged {m : Merge} (h : Merged g m g') (hs : g.Sound) (hk : Kept g.plan m.top) :
    Kept g'.plan m.written := by
  obtain ⟨-, -, -, ⟨p, j, op, hp, hop, hmem⟩ | ⟨axis, hspent⟩⟩ := hk
  · have hp' := (Rework.merge h.toRechained).user_kept hs.ordered hp hmem
    exact ⟨_, h.result.written, rfl, .inl ⟨p, _, op, hp', hop, Item.mem_subst.2 (.inr ⟨rfl, hmem⟩)⟩⟩
  · exact absurd hspent (h.applies.not_spent hs.acyclic h.applies.top_mem)

theorem Kept.step (hk : Kept g.plan x) (hs : g.Sound) (h : Step g id root C g') :
    Kept g'.plan x := by
  obtain ⟨i, hi, hm, huse⟩ := hk
  cases h with
  | @factor _ _ M _ h hrep =>
    have hC : ¬ g.plan.Inside id x := fun hC => by
      obtain ⟨j, hj, hjm⟩ := hC.product
      rw [hi] at hj
      cases hj
      rw [hm] at hjm
      cases hjm
    have hi' := (Rework.factor h.toRefactored).kept_item hi hC
    rcases huse with ⟨p, j, op, hp, hop, hmem⟩ | ⟨axis, hspent⟩
    · by_cases hpC : g.plan.Inside id p
      · exact kept_of_factored h (h.factors.mem_of_inside hpC hp hmem hi hm)
      · have hne : x ≠ id := fun he => hC (he ▸ h.inside)
        exact ⟨_, hi', hm, .inl ⟨p, _, op, (Rework.factor h.toRefactored).kept_item hp hpC, hop,
          Item.mem_subst.2 (.inl ⟨hmem, hne⟩)⟩⟩
    · exact ⟨_, hi', hm, .inr ⟨axis, (Step.factor h hrep).spent hs hspent⟩⟩
  | @merge m _ h =>
    by_cases hC : x ∈ m.chain
    · have hspent := spent_of_merged h hs hC
      obtain ⟨_, _, j, hn⟩ := hspent.narrowAt
      obtain ⟨flags, hop⟩ := hn.op
      exact ⟨j, hn.item, by rw [hop]; rfl, .inr ⟨_, hspent⟩⟩
    · have hi' := (Rework.merge h.toRechained).kept_item hi hC
      rcases huse with ⟨p, j, op, hp, hop, hmem⟩ | ⟨axis, hspent⟩
      · have hpC : p ∉ m.chain := fun hpC => by
          obtain ⟨_, k, hw⟩ := h.applies.chain.writeAt hpC
          obtain ⟨flags, hop', -⟩ := hw.op
          have hk := hw.item
          rw [hp] at hk
          cases hk
          rw [hop] at hop'
          cases hop'
        have hne : x ≠ m.top := fun he => hC (he ▸ h.applies.top_mem)
        exact ⟨_, hi', hm, .inl ⟨p, _, op, (Rework.merge h.toRechained).kept_item hp hpC, hop,
          Item.mem_subst.2 (.inl ⟨hmem, hne⟩)⟩⟩
      · exact ⟨_, hi', hm, .inr ⟨axis, (Step.merge h).spent hs hspent⟩⟩

inductive Guarded (P : Plan) (V : List NodeId) (t : NodeId) : NodeId → Prop
  | root : Guarded P V t t
  | kept {x : NodeId} (h : Kept P x) : Guarded P V t x
  | operand {q x : NodeId} {i : Item} (hq : Guarded P V t q) (hv : q ∈ V) (hi : P q = some i)
      (hx : x ∈ i.inputs) : Guarded P V t x

namespace Guarded
variable {V V' : List NodeId}

theorem mono {P : Plan} (hV : ∀ x ∈ V, x ∈ V') (h : Guarded P V t x) : Guarded P V' t x := by
  induction h with
  | root => exact .root
  | kept h => exact .kept h
  | operand _ hv hi hx ih => exact .operand ih (hV _ hv) hi hx

theorem not_changed_of_kept (hs : g.Sound) (h : Step g id root C g') (hk : Kept g.plan x)
    (hne : x ≠ id) : ¬ C x := by
  intro hC
  obtain ⟨i, hi, hm, huse⟩ := hk
  cases h with
  | factor h =>
    obtain ⟨j, hj, hjm⟩ := hC.product
    rw [hi] at hj
    cases hj
    rw [hm] at hjm
    cases hjm
  | @merge m _ h =>
    rcases huse with ⟨p, j, op, hp, hop, hmem⟩ | ⟨axis, hspent⟩
    · obtain ⟨_, k, hw⟩ :=
        h.applies.chain.writeAt ((Rework.merge h.toRechained).users hC hne hp hmem)
      obtain ⟨flags, hop', -⟩ := hw.op
      have hk := hw.item
      rw [hp] at hk
      cases hk
      rw [hop] at hop'
      cases hop'
    · exact h.applies.not_spent hs.acyclic hC hspent

theorem not_changed (hs : Scope S t g) (h : Step g id root C g') (hid : S id) (hun : id ∉ V)
    (hg : Guarded g.plan V t x) (hx : x ∈ V) : ¬ C x := by
  have hne : ∀ {y}, y ∈ V → y ≠ id := fun hy he => hun (he ▸ hy)
  induction hg with
  | root => exact fun hC => hs.root (h.rework.mem_of_closed hs.closed hid hC)
  | kept hk => exact not_changed_of_kept hs.sound h hk (hne hx)
  | operand _ hv hi hmem ih => exact fun hC => ih hv (h.rework.users hC (hne hx) hi hmem)

theorem step (hs : Scope S t g) (h : Step g id root C g') (hid : S id) (hun : id ∉ V)
    (hg : Guarded g.plan V t x) (hx : x ∈ V) : Guarded g'.plan V t x := by
  have hne : ∀ {y}, y ∈ V → y ≠ id := fun hy he => hun (he ▸ hy)
  induction hg with
  | root => exact .root
  | kept hk => exact .kept (hk.step hs.sound h)
  | operand hq hv hi hmem ih =>
    have hi' := h.rework.kept_item hi (hq.not_changed hs h hid hun hv)
    exact .operand (ih hv) hv hi' (Item.mem_subst.2 (.inl ⟨hmem, hne hx⟩))

end Guarded

theorem Moves.guarded {p p' : Pass} (h : Moves S p p') (hs : Scope S t p.graph) :
    Scope S t p'.graph ∧ (∀ x ∈ p.visited, x ∈ p'.visited) ∧
      ∀ x ∈ p.visited, Guarded p.graph.plan p.visited t x →
        Guarded p'.graph.plan p'.visited t x ∧ ∀ i, p.graph.plan x = some i →
          ∃ j, p'.graph.plan x = some j ∧ j.op = i.op := by
  induction h with
  | refl => exact ⟨hs, fun _ hx => hx, fun x _ hg => ⟨hg, fun i hi => ⟨i, hi, rfl⟩⟩⟩
  | @tail p₁ p₂ _ hmove ih =>
    obtain ⟨hs₁, hv₁, hg₁⟩ := ih
    cases hmove with
    | visit hg hv hr =>
      refine ⟨hg ▸ hs₁, fun x hx => hv x (hv₁ x hx), fun x hx hgx => ?_⟩
      obtain ⟨hgx, hlive⟩ := hg₁ x hx hgx
      rw [hg]
      exact ⟨hgx.mono hv, hlive⟩
    | step h hid hun hv =>
      refine ⟨hs₁.step h hid, fun x hx => hv x (hv₁ x hx), fun x hx hgx => ?_⟩
      obtain ⟨hgx, hlive⟩ := hg₁ x hx hgx
      refine ⟨(hgx.step hs₁ h hid hun (hv₁ x hx)).mono hv, fun i hi => ?_⟩
      obtain ⟨j, hj, hop⟩ := hlive i hi
      exact ⟨_, h.rework.kept_item hj (hgx.not_changed hs₁ h hid hun (hv₁ x hx)), hop⟩

end LinearPlan.Optimizer
