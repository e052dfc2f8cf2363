import LinearPlan.Proofs.Edits

/-!
# The shape of a node from its operands

Sizing reads nothing of a graph but the operations and shapes of the operands of one node.
`sizeFrom` is the same computation on the list of operands; for a node with the right number of
operands, all of them there, `sizeNode_eq` says that both agree. Hence a node has the same shape in
any two graphs that agree on its operands.
-/
namespace LinearPlan

def Shape.sizeFrom (node : NodeRef) (own : Shape) : Op → List Node → Except SizingFault Shape
  | .data _, _ => .ok own
  | .literal value, _ => .ok (.ofLiteral value)
  | .write _, x :: _ => .ok x.shape
  | .unary _, _ => .ok (.ofScalar .int64)
  | .binary op, [lhs, rhs] =>
    Shape.ofBinary node op own lhs.shape rhs.shape rhs.op.literalInt?
  | .matMul, [lhs, rhs] => (Shape.ofMatMul node lhs.shape rhs.shape).mapError fun c => ⟨own, c⟩
  | .transpose, [x] => .ok { x.shape with rows := x.shape.cols, cols := x.shape.rows }
  | .indexing flags, [x, rl, ru, cl, cu] =>
    .ok ⟨.matrix, x.shape.valueType, extent flags.row rl.op.literalInt? ru.op.literalInt?,
      extent flags.col cl.op.literalInt? cu.op.literalInt?, -1⟩
  | .leftIndexing _, x :: _ => .ok ⟨.matrix, x.shape.valueType, x.shape.rows, x.shape.cols, -1⟩
  | .chain _ _, x :: _ => .ok ⟨.matrix, .float64, x.shape.cols, 1, -1⟩
  | _, _ => .error ⟨own, .unsizable node⟩

namespace Graph
variable {g g' : Graph} {x : NodeId} {n : Node}

def operands (g : Graph) (n : Node) : List Node := n.inputs.filterMap g.core?

def Resolves (g : Graph) (n : Node) : Prop := ∀ y ∈ n.inputs, ∃ m, g.core? y = some m

theorem Resolves.map_core? (h : g.Resolves n) :
    n.inputs.map g.core? = (g.operands n).map some := by
  unfold operands Resolves at *
  generalize n.inputs = inputs at h
  induction inputs with
  | nil => rfl
  | cons y ys ih =>
    obtain ⟨m, hm⟩ := h y List.mem_cons_self
    rw [List.map_cons, ih fun z hz => h z (List.mem_cons_of_mem y hz), hm,
      List.filterMap_cons_some hm, List.map_cons]

theorem Resolves.length_operands (h : g.Resolves n) : (g.operands n).length = n.inputs.length := by
  have hmap := congrArg List.length h.map_core?
  simpa using hmap.symm

theorem eq_of_length_five {α : Type} {l : List α} (h : l.length = 5) :
    ∃ a b c d e, l = [a, b, c, d, e] :=
  match l, h with
  | [a, b, c, d, e], _ => ⟨a, b, c, d, e, rfl⟩

theorem operand_eq {pos : Nat} {m : Node} (h : g.Resolves n) (hm : (g.operands n)[pos]? = some m) :
    ∃ m', g.operand x n pos = .ok m' ∧ m'.core = m := by
  have hget := congrArg (·[pos]?) h.map_core?
  simp only [List.getElem?_map, hm] at hget
  obtain ⟨y, hy, hcore⟩ := Option.map_eq_some_iff.1 hget
  obtain ⟨m', hm', rfl⟩ := get?_of_core? hcore
  refine ⟨m', ?_, rfl⟩
  simp [operand, Node.input, Node.input?, hy, follow_ok hm']

theorem extentAt_eq {equal : Bool} {lower upper : Nat} {lo hi : Node}
    (h : g.Resolves n) (hlo : (g.operands n)[lower]? = some lo)
    (hhi : (g.operands n)[upper]? = some hi) :
    g.extentAt x n equal lower upper =
      .ok (Shape.extent equal lo.op.literalInt? hi.op.literalInt?) := by
  unfold extentAt
  cases equal with
  | true => rfl
  | false =>
    obtain ⟨lo', hlo', rfl⟩ := operand_eq (x := x) h hlo
    obtain ⟨hi', hhi', rfl⟩ := operand_eq (x := x) h hhi
    simp only [Bool.false_eq_true, if_false, hlo', hhi']
    rfl

theorem sizeNode_eq (h : g.Resolves n) (ha : n.op.arity? = some n.inputs.length) :
    g.sizeNode x n = Shape.sizeFrom ⟨x, n.op⟩ n.shape n.op (g.operands n) := by
  have hsize : g.sizeNode x n = g.sizeOperands x n := by
    unfold sizeNode
    have hreq : requireArity x n = .ok () := by
      unfold requireArity
      rw [ha]
      exact if_pos rfl
    rw [hreq, ite_self]
  rw [hsize]
  rw [← h.length_operands] at ha
  have hop : ∀ (pos : Nat) {m : Node}, (g.operands n)[pos]? = some m →
      ∃ m', g.operand x n pos = .ok m' ∧ m'.core = m := fun _ _ hm => operand_eq h hm
  have hext : ∀ (equal : Bool) (lower upper : Nat) {lo hi : Node},
      (g.operands n)[lower]? = some lo → (g.operands n)[upper]? = some hi →
      g.extentAt x n equal lower upper =
        .ok (Shape.extent equal lo.op.literalInt? hi.op.literalInt?) :=
    fun _ _ _ _ _ hlo hhi => extentAt_eq h hlo hhi
  -- From here on only the operands count; each operation reads the first ones it needs.
  generalize g.operands n = ms at *
  have hlen : ∀ {k : Nat}, n.op.arity? = some k → ms.length = k := fun hk => by
    rw [hk] at ha
    exact (Option.some.inj ha).symm
  have hfirst : ms ≠ [] → ∃ a rest, ms = Node.core a :: rest ∧ g.operand x n 0 = .ok a := by
    intro hne
    obtain ⟨a, rest, rfl⟩ := List.exists_cons_of_ne_nil hne
    obtain ⟨a', ha', rfl⟩ := hop 0 rfl
    exact ⟨a', rest, rfl, ha'⟩
  have hboth : ms.length = 2 → ∃ a b, ms = [Node.core a, Node.core b] ∧
      g.operand x n 0 = .ok a ∧ g.operand x n 1 = .ok b := by
    intro h2
    obtain ⟨a, b, rfl⟩ := List.length_eq_two.1 h2
    obtain ⟨a', ha', rfl⟩ := hop 0 rfl
    obtain ⟨b', hb', rfl⟩ := hop 1 rfl
    exact ⟨a', b', rfl, ha', hb'⟩
  unfold sizeOperands
  cases hn : n.op with
  | data _ => rfl
  | literal _ => rfl
  | unary _ => rfl
  | write _ =>
    have h1 := hlen (k := 1) (by rw [hn]; rfl)
    obtain ⟨a, rest, rfl, h0⟩ := hfirst (fun he => by simp [he] at h1)
    simp only [h0]
    rfl
  | transpose =>
    have h1 := hlen (k := 1) (by rw [hn]; rfl)
    obtain ⟨a, rest, rfl, h0⟩ := hfirst (fun he => by simp [he] at h1)
    obtain rfl : rest = [] := by simpa using h1
    simp only [h0]
    rfl
  | leftIndexing _ =>
    have h6 := hlen (k := 6) (by rw [hn]; rfl)
    obtain ⟨a, rest, rfl, h0⟩ := hfirst (fun he => by simp [he] at h6)
    simp only [h0]
    rfl
  | chain kind _ =>
    have hk := hlen (k := kind.numOperands) (by rw [hn]; rfl)
    obtain ⟨a, rest, rfl, h0⟩ := hfirst (fun he => by
      rw [he, Chain.Kind.numOperands] at hk
      split at hk <;> cases hk)
    simp only [h0]
    rfl
  | binary _ =>
    obtain ⟨a, b, rfl, h0, h1⟩ := hboth (hlen (by rw [hn]; rfl))
    simp only [h0, h1]
    rfl
  | matMul =>
    obtain ⟨a, b, rfl, h0, h1⟩ := hboth (hlen (by rw [hn]; rfl))
    simp only [h0, h1]
    rfl
  | indexing flags =>
    have h5 := hlen (k := 5) (by rw [hn]; rfl)
    obtain ⟨a, rl, ru, cl, cu, rfl⟩ := eq_of_length_five h5
    obtain ⟨a', h0, rfl⟩ := hop 0 rfl
    have hrows := hext flags.row 1 2 rfl rfl
    have hcols := hext flags.col 3 4 rfl rfl
    simp only [h0, hrows, hcols]
    rfl
  | unknown _ =>
    rw [hn] at ha
    cases ha

theorem operands_congr (h : ∀ y ∈ n.inputs, g.core? y = g'.core? y) :
    g.operands n = g'.operands n :=
  List.filterMap_congr h

theorem sizeNode_congr (hr : g.Resolves n) (ha : n.op.arity? = some n.inputs.length)
    (h : ∀ y ∈ n.inputs, g.core? y = g'.core? y) : g.sizeNode x n = g'.sizeNode x n := by
  have hr' : g'.Resolves n := fun y hy => by
    obtain ⟨m, hm⟩ := hr y hy
    exact ⟨m, h y hy ▸ hm⟩
  rw [sizeNode_eq hr ha, sizeNode_eq hr' ha, operands_congr h]

theorem arity_of_requireArity {u : Unit} (h : requireArity x n = .ok u) :
    n.op.arity? = some n.inputs.length := by
  unfold requireArity at h
  cases ha : n.op.arity? with
  | none =>
    rw [ha] at h
    cases h
  | some want =>
    rw [ha] at h
    by_cases hw : n.inputs.length = want
    · rw [hw]
    · simp only [if_neg hw, reduceCtorEq] at h

theorem arity_of_sizeNode {s : Shape} (h : g.sizeNode x n = .ok s) (hop : needsArity n.op = true) :
    n.op.arity? = some n.inputs.length := by
  unfold sizeNode at h
  rw [if_pos hop] at h
  cases hreq : requireArity x n with
  | error cause =>
    rw [hreq] at h
    cases h
  | ok u => exact arity_of_requireArity hreq

end Graph

namespace Edit
variable {g : Graph} {x : NodeId} {n : Node} {s : Shape}

theorem refresh_ok (hn : g.get? x = some n) (hr : n.retired = false)
    (hs : g.sizeNode x n = .ok s) :
    refresh x g = .ok () (g.modify x fun m => { m with shape := s }) := by
  unfold refresh
  rw [bind_ok (live_run hn hr), bind_ok get_apply, hs]
  rfl

theorem refresh_error {fault : SizingFault} (hn : g.get? x = some n) (hr : n.retired = false)
    (hs : g.sizeNode x n = .error fault) :
    refresh x g = .error fault.cause (g.modify x fun m => { m with shape := fault.reached }) := by
  unfold refresh
  rw [bind_ok (live_run hn hr), bind_ok get_apply, hs]
  rfl

end Edit
end LinearPlan
