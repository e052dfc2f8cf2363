import LinearPlan.Proofs.Lifecycle

/-!
# Sequences of calls

A graph is built and changed by calls. A call that fails may have changed the graph, and the next
call goes on from there. Whatever the calls and their arguments, both directions of every edge agree
after each of them, and every node in use has the operands that its operation asks for.
-/
namespace LinearPlan

inductive Call where
  | data (name : String) (dataType : DataType) (rows cols nnz : Int)
  | matrix (name : String) (rows cols nnz : Int)
  | scalar (name : String)
  | literal (value : Number)
  | write (name : String) (x : NodeId)
  | unary (op : UnaryOp) (x : NodeId)
  | binary (op : BinaryOp) (lhs rhs : NodeId)
  | mult (lhs rhs : NodeId)
  | pow (base : NodeId) (exponent : Int)
  | matMul (lhs rhs : NodeId)
  | transpose (x : NodeId)
  | indexing (flags : SliceFlags) (target rowLower rowUpper colLower colUpper : NodeId)
  | leftIndexing (flags : SliceFlags)
      (target value rowLower rowUpper colLower colUpper : NodeId)
  | chain (kind : Chain.Kind) (threads : Int) (operands : List NodeId)
  | countNode (x : NodeId) (columns : Bool)
  | replaceInput (parent : NodeId) (pos : Int) (child : NodeId)
  | redirect (edges : List Edge) (old replacement : NodeId)
  | redirectParents (old replacement : NodeId)
  | retire (id : NodeId)
  | retireAll (ids : List NodeId)
  | refresh (id : NodeId)
  | setRowFlag (id : NodeId) (value : Bool)
  | setColFlag (id : NodeId) (value : Bool)
  | setBlocks (id : NodeId) (blocks : BlockSizes)
deriving DecidableEq, Repr

def Call.edit : Call → Edit Unit
  | .data name dataType rows cols nnz => discard <| Edit.data name dataType rows cols nnz
  | .matrix name rows cols nnz => discard <| Edit.matrix name rows cols nnz
  | .scalar name => discard <| Edit.scalar name
  | .literal value => discard <| Edit.literal value
  | .write name x => discard <| Edit.write name x
  | .unary op x => discard <| Edit.unary op x
  | .binary op lhs rhs => discard <| Edit.binary op lhs rhs
  | .mult lhs rhs => discard <| Edit.mult lhs rhs
  | .pow base exponent => discard <| Edit.pow base exponent
  | .matMul lhs rhs => discard <| Edit.matMul lhs rhs
  | .transpose x => discard <| Edit.transpose x
  | .indexing flags target rl ru cl cu => discard <| Edit.indexing flags target rl ru cl cu
  | .leftIndexing flags target value rl ru cl cu =>
    discard <| Edit.leftIndexing flags target value rl ru cl cu
  | .chain kind threads operands => discard <| Edit.chain kind threads operands
  | .countNode x columns => discard <| Edit.countNode x columns
  | .replaceInput parent pos child => discard <| Edit.replaceInput parent pos child
  | .redirect edges old replacement => Edit.redirect edges old replacement
  | .redirectParents old replacement => discard <| Edit.redirectParents old replacement
  | .retire id => Edit.retire id
  | .retireAll ids => Edit.retireAll ids
  | .refresh id => Edit.refresh id
  | .setRowFlag id value => Edit.setRowFlag id value
  | .setColFlag id value => Edit.setColFlag id value
  | .setBlocks id blocks => Edit.setBlocks id blocks

/-- The graph after some calls, each made on what the previous one left. -/
def Graph.afterCalls (g : Graph) (calls : List Call) : Graph :=
  calls.foldl (fun g call => call.edit.finish g) g

namespace Edit
open LinearPlan.Graph
variable {α : Type}

theorem keeps_of_cases {P : Graph → Prop} {e : Edit α}
    (h : ∀ {g}, P g → (∃ fault, e g = .error fault g) ∨ ∃ a g', e g = .ok a g' ∧ P g') :
    Keeps P e := by
  intro g hg
  rcases h hg with ⟨fault, hf⟩ | ⟨a, g', hok, hg'⟩
  · rw [finish_error hf]
    exact hg
  · rw [finish_ok hok]
    exact hg'

theorem keeps_addNode (op : Op) (inputs : List NodeId)
    (ha : needsArity op = false → op.arity? = some inputs.length) :
    Keeps Linked (addNode op inputs) :=
  keeps_of_cases fun hl => (addNode_cases hl op inputs ha).imp_right fun ⟨_, g', hok, hl', _⟩ =>
    ⟨_, g', hok, hl'⟩

theorem keeps_setShape (x : NodeId) (s : Shape) : Keeps Linked (setShape x s) :=
  fun _ hl => hl.setShape x s

theorem keeps_data (name : String) (dataType : DataType) (rows cols nnz : Int) :
    Keeps Linked (data name dataType rows cols nnz) :=
  keeps_bind (keeps_addNode (.data name) [] fun _ => rfl) fun _ =>
    keeps_bind (keeps_setShape _ _) fun _ => keeps_pure _

theorem keeps_literal (value : Number) : Keeps Linked (literal value) :=
  keeps_addNode (.literal value) [] fun _ => rfl

theorem keeps_unary (op : UnaryOp) (x : NodeId) : Keeps Linked (unary op x) := by
  unfold unary
  split
  · exact keeps_fail _
  · exact keeps_addNode (.unary op) [x] fun h => nomatch h

theorem keeps_binary (op : BinaryOp) (lhs rhs : NodeId) : Keeps Linked (binary op lhs rhs) := by
  unfold binary
  split
  · exact keeps_fail _
  · exact keeps_addNode (.binary op) [lhs, rhs] fun h => nomatch h

theorem keeps_chain (kind : Chain.Kind) (threads : Int) (operands : List NodeId) :
    Keeps Linked (chain kind threads operands) := by
  unfold chain
  split
  · exact keeps_fail _
  · split
    · exact keeps_fail _
    · exact keeps_addNode (.chain kind threads) operands fun h => nomatch h

theorem keeps_countNode (x : NodeId) (columns : Bool) : Keeps Linked (countNode x columns) := by
  refine keeps_bind (keeps_read _) fun n => ?_
  dsimp only
  generalize (if columns then n.shape.cols else n.shape.rows) = count
  split
  · exact keeps_literal _
  · exact keeps_unary _ x

theorem refresh_trichotomy (x : NodeId) (g : Graph) :
    (∃ fault, refresh x g = .error fault g) ∨
    (∃ n s, g.get? x = some n ∧ g.sizeNode x n = .ok s ∧
      refresh x g = .ok () (g.modify x fun m => { m with shape := s })) ∨
    ∃ n fault, g.get? x = some n ∧ g.sizeNode x n = .error fault ∧
      refresh x g = .error fault.cause (g.modify x fun m => { m with shape := fault.reached }) := by
  rcases live_cases x g with ⟨fault, hf⟩ | ⟨n, hn, hr, -⟩
  · exact .inl ⟨fault, bind_error hf⟩
  · cases hs : g.sizeNode x n with
    | ok s => exact .inr (.inl ⟨n, s, hn, hs, refresh_ok hn hr hs⟩)
    | error fault => exact .inr (.inr ⟨n, fault, hn, hs, refresh_error hn hr hs⟩)

theorem keeps_refresh (x : NodeId) : Keeps Linked (refresh x) := by
  intro g hl
  rcases refresh_trichotomy x g with ⟨fault, hrun⟩ | ⟨n, s, -, -, hrun⟩ | ⟨n, fault, -, -, hrun⟩
  · rw [finish_error hrun]
    exact hl
  · rw [finish_ok hrun]
    exact hl.setShape x s
  · rw [finish_error hrun]
    exact hl.setShape x fault.reached

theorem keeps_setFlags (x : NodeId) (f : SliceFlags → SliceFlags) :
    Keeps Linked (setFlags x f) := by
  intro g hl
  rcases live_cases x g with ⟨fault, hf⟩ | ⟨n, hn, hr, hrun⟩
  · have hrun : setFlags x f g = .error fault g := bind_error hf
    rw [finish_error hrun]
    exact hl
  · -- The number of operands is that of the old operation, as only its flags change.
    have hset : ∀ op, op.arity? = n.op.arity? →
        (g.modify x fun m => { m with op := op }).Linked := fun op hop =>
      hl.modify (fun _ => rfl) (fun _ => rfl) (fun _ => rfl) (fun _ => rfl) fun m hm => by
        rw [hn] at hm
        cases hm
        exact hop
    unfold finish setFlags
    rw [bind_ok hrun]
    cases hop : n.op with
    | indexing flags => exact hset (.indexing (f flags)) (by rw [hop]; rfl)
    | leftIndexing flags => exact hset (.leftIndexing (f flags)) (by rw [hop]; rfl)
    | _ => exact hl

theorem keeps_setBlocks (x : NodeId) (blocks : BlockSizes) : Keeps Linked (setBlocks x blocks) :=
  keeps_bind (keeps_discard (keeps_read _)) fun _ _ hl =>
    hl.modify (fun _ => rfl) (fun _ => rfl) (fun _ => rfl) (fun _ => rfl) fun _ _ => rfl

end Edit

open Edit LinearPlan.Graph in
theorem Call.keeps_linked (call : Call) : Keeps Linked call.edit := by
  cases call with
  | data name dataType rows cols nnz => exact keeps_discard (keeps_data name dataType rows cols nnz)
  | matrix name rows cols nnz => exact keeps_discard (keeps_data name .matrix rows cols nnz)
  | scalar name => exact keeps_discard (keeps_data name .scalar 0 0 (-1))
  | literal value => exact keeps_discard (keeps_literal value)
  | write name x => exact keeps_discard (keeps_addNode (.write name) [x] fun h => nomatch h)
  | unary op x => exact keeps_discard (keeps_unary op x)
  | binary op lhs rhs => exact keeps_discard (keeps_binary op lhs rhs)
  | mult lhs rhs => exact keeps_discard (keeps_binary .mult lhs rhs)
  | pow base exponent =>
    exact keeps_discard (keeps_bind (keeps_literal _) fun e => keeps_binary .pow base e)
  | matMul lhs rhs => exact keeps_discard (keeps_addNode .matMul [lhs, rhs] fun h => nomatch h)
  | transpose x => exact keeps_discard (keeps_addNode .transpose [x] fun h => nomatch h)
  | indexing flags target rl ru cl cu =>
    exact keeps_discard (keeps_addNode (.indexing flags) [target, rl, ru, cl, cu] fun h => nomatch h)
  | leftIndexing flags target value rl ru cl cu =>
    exact keeps_discard
      (keeps_addNode (.leftIndexing flags) [target, value, rl, ru, cl, cu] fun h => nomatch h)
  | chain kind threads operands => exact keeps_discard (keeps_chain kind threads operands)
  | countNode x columns => exact keeps_discard (keeps_countNode x columns)
  | replaceInput parent pos child =>
    exact keeps_discard (keeps_of_cases fun hl => (replaceInput_cases hl parent pos child).imp_right
      fun ⟨y, g', hok, hl', _⟩ => ⟨y, g', hok, hl'⟩)
  | redirect edges old replacement =>
    exact keeps_of_cases fun hl =>
      (redirect_cases hl edges old replacement).imp_right fun ⟨g', hok, hl', _⟩ =>
        ⟨(), g', hok, hl'⟩
  | redirectParents old replacement =>
    exact keeps_discard (keeps_of_cases fun hl => (redirectParents_cases hl old replacement).imp_right
      fun ⟨edges, g', hok, hl', _⟩ => ⟨edges, g', hok, hl'⟩)
  | retire id =>
    exact keeps_of_cases fun hl => (retire_cases hl id).imp_right fun ⟨g', h⟩ => ⟨(), g', h⟩
  | retireAll ids =>
    exact keeps_of_cases fun hl => (retireAll_cases hl ids).imp_right fun ⟨g', hok, hl', _⟩ =>
      ⟨(), g', hok, hl'⟩
  | refresh id => exact keeps_refresh id
  | setRowFlag id value => exact keeps_setFlags id _
  | setColFlag id value => exact keeps_setFlags id _
  | setBlocks id blocks => exact keeps_setBlocks id blocks

namespace Graph

theorem linked_empty (name : String) : (empty name).Linked := by
  have hget : ∀ x, (empty name).get? x = none := fun x => by simp [empty, get?]
  have hcore : ∀ x, (empty name).core? x = none := fun x => by rw [core?, hget]; rfl
  have hin : ∀ x, (empty name).inputsOf x = [] := fun x => (edges_of_get?_none (hget x)).1
  refine ⟨⟨?_, ?_, ?_, ?_⟩, ?_⟩
  · intro p
    rw [hin]
    exact List.not_mem_nil
  · intro p c hc
    rw [hin] at hc
    cases hc
  · intro x n hn
    rw [hcore] at hn
    cases hn
  · intro x n hn
    rw [hcore] at hn
    cases hn
  · intro p c
    rw [hin, (edges_of_get?_none (hget c)).2]
    rfl

theorem Linked.afterCalls {g : Graph} (h : g.Linked) (calls : List Call) :
    (g.afterCalls calls).Linked := by
  induction calls generalizing g with
  | nil => exact h
  | cons call calls ih => exact ih (call.keeps_linked g h)

/-- Operands and parents say the same, of nodes that are there, and fit the operations. -/
structure EdgesConsistent (g : Graph) : Prop where
  counts : ∀ p c, (g.parentsOf c).count p = (g.inputsOf p).count c
  range : ∀ x y, y ∈ g.inputsOf x ∨ y ∈ g.parentsOf x → 0 ≤ y ∧ y < g.size
  retired : ∀ x n, g.get? x = some n → n.retired = true → n.inputs = [] ∧ n.parents = []
  irreflexive : ∀ x, x ∉ g.inputsOf x
  arity : ∀ x n, g.get? x = some n → n.retired = false → n.op.arity? = some n.inputs.length

theorem Linked.edgesConsistent {g : Graph} (h : g.Linked) : g.EdgesConsistent where
  counts := h.matched
  range := by
    rintro x y (hy | hy)
    · obtain ⟨n, hn, -⟩ := h.operand_live hy
      exact range_of_get? hn
    · obtain ⟨n, hn, -⟩ := h.user_live (h.matched.mem_iff.1 hy)
      exact range_of_get? hn
  retired := by
    intro x n hn hr
    have hin : n.core.inputs = [] := h.inputs_nil (core?_eq_some hn) hr
    exact ⟨hin, h.parents_nil hn hr⟩
  irreflexive := h.irreflexive
  arity := fun _ _ hn hr => h.arity_eq hn hr

theorem EdgesConsistent.linked {g : Graph} (h : g.EdgesConsistent) : g.Linked := by
  refine ⟨⟨h.irreflexive, fun {p c} hc => ?_, fun {x n} hx hr => ?_, fun {x n} hx hr => ?_⟩, h.counts⟩
  · obtain ⟨h0, hlt⟩ := h.range p c (.inl hc)
    obtain ⟨n, hn⟩ := get?_of_lt h0 hlt
    refine ⟨n.core, core?_eq_some hn, ?_⟩
    by_contra hr
    have hnil := (h.retired c n hn (by simpa using hr)).2
    have hmem : p ∈ g.parentsOf c := Matched.mem_iff h.counts |>.2 hc
    rw [parentsOf_eq_getD, hn, Option.map_some, Option.getD_some, hnil] at hmem
    cases hmem
  · obtain ⟨m, hm, rfl⟩ := get?_of_core? hx
    exact (h.retired x m hm hr).1
  · obtain ⟨m, hm, rfl⟩ := get?_of_core? hx
    exact h.arity x m hm hr

/-- Edges are consistent after any calls on a new graph, whether they succeed or fail. -/
theorem edgesConsistent_afterCalls (name : String) (calls : List Call) :
    ((empty name).afterCalls calls).EdgesConsistent :=
  ((linked_empty name).afterCalls calls).edgesConsistent

end Graph
end LinearPlan
