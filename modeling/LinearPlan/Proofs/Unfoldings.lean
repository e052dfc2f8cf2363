import LinearPlan.Optimizer.Factoring
import LinearPlan.Proofs.Edits
import LinearPlan.Proofs.Tallies

/-!
# Unfolding products

Collecting the tree of a product goes down through all products below it, and comes by a shared node
once for every way that leads there. What it meets are two lists: the products, and the nodes that
are none. The tree has the products without their repetitions, and a tally of the other nodes.

A tree that has been collected is always made of such lists, and if operands have lower ranks then
one is collected, as soon as the recursion may go deeper than the rank of the product.
-/
namespace LinearPlan.Optimizer.Factoring
open LinearPlan.Graph

/-- The products and the other nodes that are met below a list of nodes, each as often as a way leads
to it. -/
inductive Unfolds (g : Graph) : List NodeId → List NodeId → List NodeId → Prop
  | nil : Unfolds g [] [] []
  | leaf {x : NodeId} {n : Node} {rest products leaves : List NodeId} (hn : g.get? x = some n)
      (hm : n.op.isMult = false) (h : Unfolds g rest products leaves) :
      Unfolds g (x :: rest) products (x :: leaves)
  | product {x : NodeId} {n : Node} {rest inner leaves products leaves' : List NodeId}
      (hn : g.get? x = some n) (hm : n.op.isMult = true) (hbelow : Unfolds g n.inputs inner leaves)
      (hafter : Unfolds g rest products leaves') :
      Unfolds g (x :: rest) (x :: (inner ++ products)) (leaves ++ leaves')

variable {g : Graph} {t t' : Tree} {x : NodeId} {n : Node} {todo products leaves : List NodeId}

theorem Unfolds.mem_leaves (h : Unfolds g todo products leaves) :
    ∀ y ∈ leaves, ∃ n, g.get? y = some n ∧ n.op.isMult = false := by
  induction h with
  | nil => simp
  | leaf hn hm _ ih => exact List.forall_mem_cons.2 ⟨⟨_, hn, hm⟩, ih⟩
  | product _ _ _ _ ihb iha => exact List.forall_mem_append.2 ⟨ihb, iha⟩

def Tree.gather (t : Tree) (products leaves : List NodeId) : Tree :=
  { products.foldl Tree.enter t with leaves := t.leaves.insertAll leaves }

theorem leaves_enter (t : Tree) (x : NodeId) : (t.enter x).leaves = t.leaves := by
  unfold Tree.enter
  split <;> rfl

theorem foldl_enter_leaves (t : Tree) (l : Tally NodeId) (products : List NodeId) :
    products.foldl Tree.enter { t with leaves := l } =
      { products.foldl Tree.enter t with leaves := l } := by
  induction products generalizing t with
  | nil => rfl
  | cons x products ih =>
    have hstep : ({ t with leaves := l } : Tree).enter x = { t.enter x with leaves := l } := by
      unfold Tree.enter
      split <;> rfl
    rw [List.foldl_cons, hstep, ih, List.foldl_cons]

theorem gather_addLeaf (t : Tree) (x : NodeId) (products leaves : List NodeId) :
    (t.addLeaf x).gather products leaves = t.gather products (x :: leaves) := by
  simp only [Tree.gather, Tree.addLeaf, foldl_enter_leaves]
  rfl

theorem gather_enter (t : Tree) (x : NodeId) (inner products leaves leaves' : List NodeId) :
    ((t.enter x).gather inner leaves).gather products leaves' =
      t.gather (x :: (inner ++ products)) (leaves ++ leaves') := by
  simp only [Tree.gather, foldl_enter_leaves, leaves_enter, Tally.insertAll, List.foldl_append,
    List.foldl_cons]

theorem foldl_enter_empty (products : List NodeId) :
    products.foldl Tree.enter .empty =
      ⟨products.eraseDups, products.eraseDups.reverse, .empty⟩ := by
  induction products using List.reverseRecOn with
  | nil => rfl
  | append_singleton products x ih =>
    rw [List.foldl_concat, ih, eraseDups_concat]
    by_cases hx : x ∈ products <;> simp [Tree.enter, hx]

theorem gather_empty (products leaves : List NodeId) : Tree.empty.gather products leaves =
    ⟨products.eraseDups, products.eraseDups.reverse, Tally.ofList leaves⟩ := by
  rw [Tree.gather, foldl_enter_empty]
  rfl

def visit (g : Graph) (fuel : Nat) (t : Tree) (x : NodeId) : Except Fault Tree := do
  let c ← g.node x
  if c.op.isMult then expand g fuel t x else return t.addLeaf x

theorem expand_succ (hn : g.get? x = some n) (fuel : Nat) (t : Tree) :
    expand g (fuel + 1) t x = n.inputs.foldlM (visit g fuel) (t.enter x) := by
  rw [expand, node_ok hn]
  rfl

theorem visit_leaf (hn : g.get? x = some n) (hm : n.op.isMult = false) (fuel : Nat) (t : Tree) :
    visit g fuel t x = .ok (t.addLeaf x) := by
  rw [visit, node_ok hn]
  simp [bind, Except.bind, hm]
  rfl

theorem visit_product (hn : g.get? x = some n) (hm : n.op.isMult = true) (fuel : Nat) (t : Tree) :
    visit g fuel t x = expand g fuel t x := by
  rw [visit, node_ok hn]
  simp [bind, Except.bind, hm]

theorem unfolds_of_foldlM {fuel : Nat}
    (hexpand : ∀ {t t' x n}, g.get? x = some n → expand g fuel t x = .ok t' →
      ∃ products leaves, Unfolds g n.inputs products leaves ∧
        t' = (t.enter x).gather products leaves)
    (h : todo.foldlM (visit g fuel) t = .ok t') :
    ∃ products leaves, Unfolds g todo products leaves ∧ t' = t.gather products leaves := by
  induction todo generalizing t with
  | nil => exact ⟨[], [], .nil, (Except.ok.inj h).symm⟩
  | cons y rest ih =>
    rw [List.foldlM_cons, Outcome.bind_eq_ok_iff] at h
    obtain ⟨t₁, hy, hrest⟩ := h
    obtain ⟨products, leaves, hafter, rfl⟩ := ih hrest
    obtain ⟨c, hc, -⟩ := Outcome.bind_eq_ok_iff.1 hy
    rw [node_eq_ok_iff] at hc
    cases hm : c.op.isMult with
    | false =>
      rw [visit_leaf hc hm] at hy
      cases hy
      exact ⟨products, y :: leaves, .leaf hc hm hafter, gather_addLeaf ..⟩
    | true =>
      rw [visit_product hc hm] at hy
      obtain ⟨inner, leaves₀, hbelow, rfl⟩ := hexpand hc hy
      exact ⟨_, _, .product hc hm hbelow hafter, gather_enter ..⟩

theorem unfolds_of_expand {fuel : Nat} (hn : g.get? x = some n) (h : expand g fuel t x = .ok t') :
    ∃ products leaves, Unfolds g n.inputs products leaves ∧
      t' = (t.enter x).gather products leaves := by
  induction fuel generalizing t t' x n with
  | zero => cases h
  | succ fuel ih =>
    rw [expand_succ hn] at h
    exact unfolds_of_foldlM ih h

theorem expand_total {rank : NodeId → Nat} (hrank : ∀ x, ∀ y ∈ g.inputsOf x, rank y < rank x)
    (hops : ∀ x, ∀ y ∈ g.inputsOf x, ∃ n, g.get? y = some n) {fuel : Nat} (t : Tree)
    (hn : g.get? x = some n) (hfuel : rank x < fuel) : ∃ t', expand g fuel t x = .ok t' := by
  induction fuel generalizing t x n with
  | zero => omega
  | succ fuel ih =>
    rw [expand_succ hn]
    apply Outcome.foldlM_ok
    intro t y hy
    rw [← inputsOf_eq hn] at hy
    obtain ⟨c, hc⟩ := hops x y hy
    cases hm : c.op.isMult with
    | false => exact ⟨_, visit_leaf hc hm fuel t⟩
    | true =>
      have hlt := hrank x y hy
      rw [visit_product hc hm]
      exact ih t hc (by omega)

theorem unfolds_of_collect (h : collect g x = .ok t) :
    ∃ n products leaves, g.get? x = some n ∧ Unfolds g n.inputs products leaves ∧
      t = Tree.empty.gather (x :: products) leaves := by
  obtain ⟨n, hn, -⟩ := Outcome.bind_eq_ok_iff.1 h
  rw [node_eq_ok_iff] at hn
  obtain ⟨products, leaves, hu, rfl⟩ := unfolds_of_expand hn h
  refine ⟨n, products, leaves, hn, hu, ?_⟩
  simp only [Tree.gather, leaves_enter, List.foldl_cons]

theorem collect_total {rank : NodeId → Nat} (hrank : ∀ x, ∀ y ∈ g.inputsOf x, rank y < rank x)
    (hops : ∀ x, ∀ y ∈ g.inputsOf x, ∃ n, g.get? y = some n) (hn : g.get? x = some n)
    (hsize : rank x ≤ g.size) : ∃ t, collect g x = .ok t :=
  expand_total hrank hops .empty hn (Nat.lt_succ_of_le hsize)

end LinearPlan.Optimizer.Factoring
