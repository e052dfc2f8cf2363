import LinearPlan.Proofs.Rollback
import LinearPlan.Proofs.SettledShapes

/-!
# Refreshing a node

Refreshing gives a node the shape that follows from its operands. It touches no other node, and a
second time it changes nothing, as long as the node is not its own operand.

Sizing fails before it settles anything, with one exception. An element-wise operation on two matrices
settles its types first, then its rows, then its columns; if the rows or the columns of its operands do
not go together then the node is left with what had been settled (`Shape.begun`).
-/
namespace LinearPlan

namespace Shape
variable {node : NodeRef} {own lhs rhs : Shape}

def Clash (lhs rhs : Shape) : Prop :=
  lhs.isMatrix = true ∧ rhs.isMatrix = true ∧
    (broadcast? lhs.rows rhs.rows = none ∨ broadcast? lhs.cols rhs.cols = none)

instance (lhs rhs : Shape) : Decidable (lhs.Clash rhs) := inferInstanceAs (Decidable (_ ∧ _ ∧ _))

/-- What is settled of an element-wise operation on matrices that clash: its types, and its rows if
these go together. -/
def begun (op : BinaryOp) (own lhs rhs : Shape) : Shape :=
  { own with
    dataType := .matrix
    valueType := binaryValueType op lhs rhs
    rows := (broadcast? lhs.rows rhs.rows).getD own.rows }

theorem ofBinary_of_clash (node : NodeRef) (op : BinaryOp) (own : Shape) (e : Option Int)
    (h : lhs.Clash rhs) :
    ∃ cause, ofBinary node op own lhs rhs e = .error ⟨begun op own lhs rhs, cause⟩ := by
  obtain ⟨hl, hr, hdims⟩ := h
  simp only [ofBinary, hl, hr, if_true, begun]
  cases hrows : broadcast? lhs.rows rhs.rows with
  | none => exact ⟨_, rfl⟩
  | some rows =>
    rw [hdims.resolve_left (by simp [hrows])]
    exact ⟨_, rfl⟩

theorem ofBinary_of_not_clash (node : NodeRef) (op : BinaryOp) (own : Shape) (e : Option Int)
    (h : ¬ lhs.Clash rhs) :
    ∃ s, ofBinary node op own lhs rhs e = .ok s := by
  unfold ofBinary
  cases hl : lhs.isMatrix <;> cases hr : rhs.isMatrix <;>
    simp only [if_true, if_false, Bool.false_eq_true]
  case true.true =>
    cases hrows : broadcast? lhs.rows rhs.rows with
    | none => exact absurd ⟨hl, hr, .inl hrows⟩ h
    | some rows =>
      cases hcols : broadcast? lhs.cols rhs.cols with
      | none => exact absurd ⟨hl, hr, .inr hcols⟩ h
      | some cols => exact ⟨_, rfl⟩
  case false.false => split <;> exact ⟨_, rfl⟩
  all_goals exact ⟨_, rfl⟩

theorem reached_of_sizeFrom_error {op : Op} {ms : List Node} {fault : SizingFault}
    (h : sizeFrom node own op ms = .error fault) : fault.reached = own ∨
      ∃ op' lhs rhs, op = .binary op' ∧ ms = [lhs, rhs] ∧ lhs.shape.Clash rhs.shape ∧
        fault.reached = begun op' own lhs.shape rhs.shape := by
  unfold sizeFrom at h
  split at h
  case h_5 op lhs rhs =>
    by_cases hc : lhs.shape.Clash rhs.shape
    · obtain ⟨cause, hf⟩ := ofBinary_of_clash node op own rhs.op.literalInt? hc
      rw [hf] at h
      cases h
      exact .inr ⟨op, lhs, rhs, rfl, rfl, hc, rfl⟩
    · obtain ⟨s, hs⟩ := ofBinary_of_not_clash node op own rhs.op.literalInt? hc
      rw [hs] at h
      cases h
  case h_6 lhs rhs =>
    cases hm : ofMatMul node lhs.shape rhs.shape with
    | ok s =>
      rw [hm] at h
      cases h
    | error cause =>
      rw [hm] at h
      cases h
      exact .inl rfl
  case h_11 =>
    cases h
    exact .inl rfl
  all_goals cases h

end Shape

namespace Graph
variable {g : Graph} {x : NodeId} {n : Node} {s : Shape}

def InRange (g : Graph) : Prop := ∀ x, ∀ y ∈ g.inputsOf x, 0 ≤ y ∧ y < g.size

theorem InRange.resolves (h : g.InRange) (hn : g.get? x = some n) : g.Resolves n := by
  intro y hy
  obtain ⟨h0, hlt⟩ := h x y (inputsOf_eq hn ▸ hy)
  obtain ⟨m, hm⟩ := get?_of_lt h0 hlt
  exact ⟨m.core, core?_eq_some hm⟩

theorem inRange_of_ids (h : ∀ x ∈ g.ids, ∀ n ∈ g.get? x, ∀ y ∈ n.inputs, 0 ≤ y ∧ y < g.size) :
    g.InRange := by
  intro x y hy
  obtain ⟨n, hn, hy⟩ := exists_of_mem_inputsOf hy
  exact h x (mem_ids.2 (range_of_get? hn)) n hn y hy

/-- A node is an element-wise operation on two matrices that clash. -/
structure Clashes (g : Graph) (n : Node) (op : BinaryOp) (lhs rhs : Node) : Prop where
  op_eq : n.op = .binary op
  operands : n.inputs.map g.get? = [some lhs, some rhs]
  clash : lhs.shape.Clash rhs.shape

theorem Resolves.map_get?_pair (h : g.Resolves n) {a b : Node} (hms : g.operands n = [a, b]) :
    ∃ lhs rhs, n.inputs.map g.get? = [some lhs, some rhs] ∧ lhs.core = a ∧ rhs.core = b := by
  have hmap := h.map_core?
  rw [hms] at hmap
  obtain ⟨l, r, hin⟩ : ∃ l r, n.inputs = [l, r] := by
    refine List.length_eq_two.1 ?_
    simpa using congrArg List.length hmap
  simp only [hin, List.map_cons, List.map_nil, List.cons.injEq, and_true] at hmap ⊢
  obtain ⟨lhs, hl, hlc⟩ := get?_of_core? hmap.1
  obtain ⟨rhs, hr, hrc⟩ := get?_of_core? hmap.2
  exact ⟨lhs, rhs, ⟨hl, hr⟩, hlc, hrc⟩

theorem reached_of_sizeNode_error {fault : SizingFault} (hres : g.Resolves n)
    (h : g.sizeNode x n = .error fault) : fault.reached = n.shape ∨
      ∃ op lhs rhs, g.Clashes n op lhs rhs ∧
        fault.reached = .begun op n.shape lhs.shape rhs.shape := by
  cases hop : needsArity n.op with
  | true =>
    cases hreq : requireArity x n with
    | error cause =>
      unfold sizeNode at h
      rw [if_pos hop, hreq] at h
      cases h
      exact .inl rfl
    | ok u =>
      rw [sizeNode_eq hres (arity_of_requireArity hreq)] at h
      refine (Shape.reached_of_sizeFrom_error h).imp_right ?_
      rintro ⟨op, a, b, hbinary, hms, hc, hreached⟩
      obtain ⟨lhs, rhs, hin, rfl, rfl⟩ := hres.map_get?_pair hms
      exact ⟨op, lhs, rhs, ⟨hbinary, hin, hc⟩, hreached⟩
  | false =>
    -- Variables and literals are always sized.
    unfold sizeNode sizeOperands at h
    simp only [hop, Bool.false_eq_true, if_false] at h
    cases hn : n.op <;> simp only [hn, needsArity, reduceCtorEq] at hop h

theorem sizeNode_again (hres : g.Resolves n) (hx : x ∉ n.inputs) (hs : g.sizeNode x n = .ok s) :
    (g.modify x fun m => { m with shape := s }).sizeNode x { n with shape := s } = .ok s := by
  have hsame : ∀ y ∈ n.inputs, (g.modify x fun m => { m with shape := s }).core? y = g.core? y :=
    fun y hy => by
      have hyx : y ≠ x := fun he => hx (he ▸ hy)
      rw [core?, core?, get?_modify_of_ne _ _ hyx]
  cases hop : needsArity n.op with
  | true =>
    have ha := arity_of_sizeNode hs hop
    have hres' : (g.modify x fun m => { m with shape := s }).Resolves { n with shape := s } :=
      fun y hy => hsame y hy ▸ hres y hy
    rw [sizeNode_eq hres ha] at hs
    rw [sizeNode_eq hres' ha, operands, List.filterMap_congr hsame]
    exact Shape.sizeFrom_again hs
  | false =>
    unfold sizeNode at hs ⊢
    simp only [hop, Bool.false_eq_true, if_false] at hs ⊢
    unfold sizeOperands at hs ⊢
    cases hn : n.op <;> simp only [hn, needsArity, reduceCtorEq] at hop hs ⊢
    exact hs

end Graph

open Edit LinearPlan.Graph

/-- Refreshing fails with the graph unchanged, unless the node is an element-wise operation on matrices
that clash: then its types, and perhaps its rows, are those that were settled. If it succeeds then only
the shape of the node has changed, and refreshing it again changes nothing; here the node must not be
its own operand, which no node is in a graph that calls lead to. -/
theorem refresh_effect {g : Graph} (hin : g.InRange) (x : NodeId) :
    (∀ fault g', refresh x g = .error fault g' → g' = g ∨
      ∃ n op lhs rhs, g.get? x = some n ∧ g.Clashes n op lhs rhs ∧
        g' = g.modify x fun n => { n with shape := .begun op n.shape lhs.shape rhs.shape }) ∧
    ∀ g', refresh x g = .ok () g' →
      (∃ s, g' = g.modify x fun n => { n with shape := s }) ∧
      (x ∉ g.inputsOf x ∨ g.Reached → refresh x g' = .ok () g') := by
  rcases live_cases x g with ⟨fault, hf⟩ | ⟨n, hn, hr, -⟩
  · have hrun : refresh x g = .error fault g := bind_error hf
    rw [hrun]
    refine ⟨fun _ _ h => ?_, fun _ h => ?_⟩ <;> cases h
    exact .inl rfl
  have hres := hin.resolves hn
  cases hs : g.sizeNode x n with
  | error fault =>
    rw [refresh_error hn hr hs]
    refine ⟨fun _ _ h => ?_, fun _ h => ?_⟩ <;> cases h
    refine (reached_of_sizeNode_error hres hs).imp (fun hreached => ?_) ?_
    · exact modify_eq_self hn (by rw [hreached])
    · rintro ⟨op, lhs, rhs, hc, hreached⟩
      refine ⟨n, op, lhs, rhs, hn, hc, ext_get? (by simp) fun y => ?_⟩
      rw [get?_modify, get?_modify]
      by_cases hy : y = x
      · simp [hy, hn, hreached]
      · simp [hy]
  | ok s =>
    rw [refresh_ok hn hr hs]
    refine ⟨fun _ _ h => ?_, fun _ h => ?_⟩ <;> cases h
    refine ⟨⟨s, rfl⟩, fun hself => ?_⟩
    have hx : x ∉ n.inputs := by
      rw [← inputsOf_eq hn]
      rcases hself with hx | ⟨name, calls, rfl⟩
      · exact hx
      · exact ((linked_empty name).afterCalls calls).irreflexive x
    have hn' : (g.modify x fun m => { m with shape := s }).get? x = some { n with shape := s } := by
      rw [get?_modify_self, hn]
      rfl
    rw [refresh_ok hn' hr (sizeNode_again hres hx hs), modify_eq_self hn' rfl]

/-- A product of scalars that was made to multiply matrices of different sizes, and a transposed
matrix that was made to transpose another one. -/
def clashingProduct : Graph :=
  (Graph.empty "g").afterCalls [.scalar "s", .mult 0 0, .matrix "A" 2 2 (-1), .matrix "B" 2 3 (-1),
    .transpose 2, .replaceInput 1 0 2, .replaceInput 1 1 3, .replaceInput 4 0 3]

theorem inRange_clashingProduct : clashingProduct.InRange := inRange_of_ids (by decide +kernel)

theorem refresh_effect_clashingProduct :
    (failure? (refresh 1) clashingProduct).isSome = true ∧
    (∀ fault g', refresh 1 clashingProduct = .error fault g' → g' = clashingProduct ∨
      ∃ n op lhs rhs, clashingProduct.get? 1 = some n ∧ clashingProduct.Clashes n op lhs rhs ∧
        g' = clashingProduct.modify 1 fun n =>
          { n with shape := .begun op n.shape lhs.shape rhs.shape }) ∧
    (success? (refresh 4) clashingProduct).isSome = true ∧
    ∀ g', refresh 4 clashingProduct = .ok () g' → refresh 4 g' = .ok () g' := by
  refine ⟨by decide +kernel, (refresh_effect inRange_clashingProduct 1).1, by decide +kernel,
    fun g' h => ?_⟩
  exact ((refresh_effect inRange_clashingProduct 4).2 g' h).2 (.inr ⟨_, _, rfl⟩)

/-- The product is a scalar, and becomes a matrix with two rows and no columns. -/
theorem refresh_fails_halfway : clashingProduct.Reached ∧ clashingProduct.InRange ∧
    (clashingProduct.get? 1).map Node.shape = some (.ofScalar .float64) ∧
    failure? (refresh 1) clashingProduct =
      some (clashingProduct.modify 1 fun n => { n with shape := ⟨.matrix, .float64, 2, 0, -1⟩ }) :=
  ⟨⟨_, _, rfl⟩, inRange_clashingProduct, by decide +kernel, by decide +kernel⟩

end LinearPlan
