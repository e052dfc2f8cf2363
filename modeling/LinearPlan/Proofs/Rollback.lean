import LinearPlan.Optimizer.Factoring
import LinearPlan.Proofs.CallSequences
import LinearPlan.Proofs.Postconditions

/-!
# Taking back what was added

Creating a node either fails and leaves no trace, or adds to the graph; a power adds its exponent
first, which stays if the power fails. What was added, by any number of calls, is taken back by
cutting the graph at its old size, to the order of the parents of every node. Building a product
relies on that: whatever it had built when it failed is gone afterwards.

Cutting a graph anywhere is another matter. After operands have been replaced a node may have an
operand that comes after it. If both are to be discarded then the operand is gone when the node is
discarded, and cutting stops halfway.
-/
namespace LinearPlan

namespace Edit
open LinearPlan.Graph
variable {α β : Type} {g g₀ g' : Graph}

theorem Grown.trans (h : Grown g₀ g) (h' : Grown g g') : Grown g₀ g' := by
  induction h' with
  | refl => exact h
  | add _ hin s ih => exact ih.add hin s

def Creates (e : Edit α) : Prop :=
  ∀ g : Graph, g.Matched → (∃ fault, e g = .error fault g) ∨ ∃ a g', e g = .ok a g' ∧ Grown g g'

theorem creates_addNode (op : Op) (inputs : List NodeId) : Creates (addNode op inputs) :=
  fun _ hm => (addNode_outcome hm op inputs).imp_right fun ⟨s, hin, _, hrun⟩ =>
    ⟨_, _, hrun, .add .refl hin s⟩

theorem creates_fail (fault : Fault) : Creates (fail fault : Edit α) := fun _ _ => .inl ⟨fault, rfl⟩

theorem creates_read_bind {f : Graph → Except Fault α} {k : α → Edit β} (h : ∀ a, Creates (k a)) :
    Creates (read f >>= k) := by
  intro g hm
  rcases read_cases f g with ⟨fault, hf⟩ | ⟨a, -, hrun⟩
  · exact .inl ⟨fault, bind_error hf⟩
  · rw [bind_ok hrun]
    exact h a g hm

theorem Creates.discard {e : Edit α} (h : Creates e) : Creates (discard e) := by
  intro g hm
  rcases h g hm with ⟨fault, hf⟩ | ⟨a, g', hok, hgrown⟩
  · exact .inl ⟨fault, discard_error hf⟩
  · exact .inr ⟨(), g', discard_ok hok, hgrown⟩

theorem data_run (g : Graph) (name : String) (dataType : DataType) (rows cols nnz : Int) :
    data name dataType rows cols nnz g =
      .ok (g.size : Int) (extended g (.data name) [] (.declared dataType rows cols nnz)) := by
  have hrun : addNode (.data name) [] g = .ok (g.size : Int) (extended g (.data name) [] .initial) :=
    addNode_eq (fun _ hy => absurd hy List.not_mem_nil) rfl rfl
  have hshape : (extended g (.data name) [] .initial).modify g.size (fun n =>
      { n with shape := .declared dataType rows cols nnz }) =
        extended g (.data name) [] (.declared dataType rows cols nnz) := by
    refine ext_get? (by simp [extended]) fun x => ?_
    simp only [extended, get?_modify, Option.map_map]
    congr 1
    funext n
    by_cases hx : x = (g.size : Int) <;> simp [hx]
  unfold data
  rw [bind_ok hrun, ← hshape]
  rfl

theorem creates_data (name : String) (dataType : DataType) (rows cols nnz : Int) :
    Creates (data name dataType rows cols nnz) := fun g _ =>
  .inr ⟨_, _, data_run g name dataType rows cols nnz,
    .add .refl (fun _ hy => absurd hy List.not_mem_nil) _⟩

theorem creates_unary (op : UnaryOp) (x : NodeId) : Creates (unary op x) := by
  unfold unary
  split
  · exact creates_fail _
  · exact creates_addNode _ _

theorem creates_binary (op : BinaryOp) (lhs rhs : NodeId) : Creates (binary op lhs rhs) := by
  unfold binary
  split
  · exact creates_fail _
  · exact creates_addNode _ _

theorem creates_chain (kind : Chain.Kind) (threads : Int) (operands : List NodeId) :
    Creates (chain kind threads operands) := by
  unfold chain
  split
  · exact creates_fail _
  · split
    · exact creates_fail _
    · exact creates_addNode _ _

theorem creates_countNode (x : NodeId) (columns : Bool) : Creates (countNode x columns) := by
  refine creates_read_bind fun n => ?_
  dsimp only
  generalize (if columns then n.shape.cols else n.shape.rows) = count
  split
  · exact creates_addNode _ _
  · exact creates_unary _ x

theorem literal_run (g : Graph) (value : Number) :
    literal value g = .ok (g.size : Int) (extended g (.literal value) [] (.ofLiteral value)) :=
  addNode_eq (fun _ hy => absurd hy List.not_mem_nil) rfl rfl

theorem extended_nil (g : Graph) (op : Op) (s : Shape) :
    extended g op [] s =
      { g with nodes := g.nodes.push ⟨op, [], [], s, g.inheritedBlocks [], false⟩ } := by
  refine ext_get? (appends_extended g op [] s).name fun (x : Int) => ?_
  rw [extended, get?_modify, get?_attach, get?_push]
  by_cases hx : x = (g.size : Int)
  · simp [hx, start, Node.fresh]
  · simp [hx, start, Node.fresh]

theorem Creates.unchanged {e : Edit α} (h : Creates e) (hm : g.Matched) {fault : Fault}
    (hf : e g = .error fault g') : g' = g := by
  rcases h g hm with ⟨cause, hc⟩ | ⟨a, g₁, hok, -⟩
  · rw [hf] at hc
    cases hc
    rfl
  · rw [hf] at hok
    cases hok

theorem pow_error (hm : g.Matched) {base : NodeId} {exponent : Int} {fault : Fault}
    (hf : pow base exponent g = .error fault g') :
    g' = { g with nodes := g.nodes.push ⟨.literal (.ofInt exponent), [], [],
      .ofLiteral (.ofInt exponent), .standard, false⟩ } := by
  have hgrown : Grown g
      (extended g (.literal (.ofInt exponent)) [] (.ofLiteral (.ofInt exponent))) :=
    .add .refl (fun _ hy => absurd hy List.not_mem_nil) _
  unfold pow at hf
  rw [bind_ok (literal_run g _)] at hf
  rw [(creates_binary .pow base _).unchanged (hgrown.matched hm) hf, extended_nil]
  rfl

section Keeps
variable (h₀ : g₀.Matched)
include h₀

theorem Creates.keeps_grown {e : Edit α} (h : Creates e) : Keeps (Grown g₀) e := by
  intro g hg
  rcases h g (hg.matched h₀) with ⟨fault, hf⟩ | ⟨a, g', hok, hgrown⟩
  · rw [finish_error hf]
    exact hg
  · rw [finish_ok hok]
    exact hg.trans hgrown

theorem keeps_grown_pow (base : NodeId) (exponent : Int) : Keeps (Grown g₀) (pow base exponent) :=
  keeps_bind ((creates_addNode _ _).keeps_grown h₀) fun e =>
    (creates_binary .pow base e).keeps_grown h₀

end Keeps

end Edit

def Call.creates : Call → Bool
  | .data .. | .matrix .. | .scalar .. | .literal .. | .write .. | .unary .. | .binary .. | .mult ..
  | .pow .. | .matMul .. | .transpose .. | .indexing .. | .leftIndexing .. | .chain ..
  | .countNode .. => true
  | .replaceInput .. | .redirect .. | .redirectParents .. | .retire .. | .retireAll .. | .refresh ..
  | .setRowFlag .. | .setColFlag .. | .setBlocks .. => false

namespace Call
open Edit

theorem creates_edit {call : Call} (h : call.creates = true)
    (hpow : ∀ base exponent, call ≠ .pow base exponent) : Creates call.edit := by
  cases call with
  | data name dataType rows cols nnz => exact (creates_data name dataType rows cols nnz).discard
  | matrix name rows cols nnz => exact (creates_data name .matrix rows cols nnz).discard
  | scalar name => exact (creates_data name .scalar 0 0 (-1)).discard
  | literal value => exact (creates_addNode (.literal value) []).discard
  | write name x => exact (creates_addNode (.write name) [x]).discard
  | unary op x => exact (creates_unary op x).discard
  | binary op lhs rhs => exact (creates_binary op lhs rhs).discard
  | mult lhs rhs => exact (creates_binary .mult lhs rhs).discard
  | pow base exponent => exact absurd rfl (hpow base exponent)
  | matMul lhs rhs => exact (creates_addNode .matMul [lhs, rhs]).discard
  | transpose x => exact (creates_addNode .transpose [x]).discard
  | indexing flags target rl ru cl cu =>
    exact (creates_addNode (.indexing flags) [target, rl, ru, cl, cu]).discard
  | leftIndexing flags target value rl ru cl cu =>
    exact (creates_addNode (.leftIndexing flags) [target, value, rl, ru, cl, cu]).discard
  | chain kind threads operands => exact (creates_chain kind threads operands).discard
  | countNode x columns => exact (creates_countNode x columns).discard
  | _ => cases h

theorem keeps_grown {g₀ : Graph} (h₀ : g₀.Matched) {call : Call} (h : call.creates = true) :
    Keeps (Grown g₀) call.edit := by
  by_cases hpow : ∃ base exponent, call = .pow base exponent
  · obtain ⟨base, exponent, rfl⟩ := hpow
    exact keeps_discard (keeps_grown_pow h₀ base exponent)
  · exact (creates_edit h fun base exponent he => hpow ⟨base, exponent, he⟩).keeps_grown h₀

end Call

theorem Graph.grown_afterCalls {g₀ g : Graph} (h₀ : g₀.Matched) {calls : List Call}
    (hc : ∀ call ∈ calls, call.creates = true) (h : Edit.Grown g₀ g) :
    Edit.Grown g₀ (g.afterCalls calls) := by
  induction calls generalizing g with
  | nil => exact h
  | cons call calls ih =>
    exact ih (fun c hmem => hc c (List.mem_cons_of_mem call hmem))
      (Call.keeps_grown h₀ (hc call List.mem_cons_self) g h)

namespace Optimizer.Factoring
open Edit
variable {g₀ : Graph} (h₀ : g₀.Matched)
include h₀

theorem keeps_grown_times (lhs rhs : Option NodeId) : Keeps (Grown g₀) (times lhs rhs) := by
  cases lhs with
  | none => exact keeps_pure rhs
  | some x =>
    cases rhs with
    | none => exact keeps_pure (some x)
    | some y => exact keeps_map ((creates_binary .mult x y).keeps_grown h₀)

theorem keeps_grown_insert (s : Groups) (cls : TermClass) (term : NodeId) :
    Keeps (Grown g₀) (s.insert cls term) := by
  cases cls <;> exact keeps_bind (keeps_grown_times h₀ _ _) fun _ => keeps_pure _

theorem keeps_grown_addLeaf (count : NodeId → Nat) (s : Groups) (leaf : NodeId) :
    Keeps (Grown g₀) (s.addLeaf count leaf) := by
  have hinsert : ∀ s term, Keeps (Grown g₀) (do
      let n ← Edit.node leaf
      Groups.insert s (classify n.shape) term) := fun s term =>
    keeps_bind (keeps_read _) fun n => keeps_grown_insert h₀ s _ term
  unfold Groups.addLeaf
  by_cases hn : 1 < count leaf
  · simp only [hn, decide_true, if_true]
    exact keeps_bind (keeps_grown_pow h₀ leaf _) (hinsert _)
  · simp only [hn, decide_false, Bool.false_eq_true, if_false]
    exact keeps_bind (keeps_pure leaf) (hinsert s)

theorem keeps_grown_product (s : Groups) : Keeps (Grown g₀) s.product :=
  keeps_bind (keeps_grown_times h₀ _ _) fun _ => keeps_bind (keeps_grown_times h₀ _ _) fun _ =>
    keeps_grown_times h₀ _ _

theorem buildProduct_error {leaves : List NodeId} {count : NodeId → Nat} {fault : Fault} {g : Graph}
    (h : buildProduct leaves count g₀ = .error fault g) : g = g₀ := by
  have hkeeps : Keeps (Grown g₀) (do
      let groups ← leaves.foldlM (Groups.addLeaf count) .empty
      return (← groups.product, groups.powers)) :=
    keeps_bind (keeps_foldlM (keeps_grown_addLeaf h₀ count) leaves .empty) fun groups =>
      keeps_bind (keeps_grown_product h₀ groups) fun _ => keeps_pure _
  have hgrown := hkeeps g₀ .refl
  unfold buildProduct at h
  rw [bind_ok get_apply] at h
  generalize (do
    let groups ← leaves.foldlM (Groups.addLeaf count) .empty
    return (← groups.product, groups.powers) : Edit (Option NodeId × Nat)) = build at h hgrown
  cases hb : build g₀ with
  | ok r g₁ =>
    rw [bind_ok (undoing_ok hb)] at h
    cases h
  | error cause g₁ =>
    rw [finish_error hb] at hgrown
    rw [bind_error (undoing_error hb (hgrown.truncate h₀))] at h
    cases h
    rfl

end Optimizer.Factoring

open Optimizer.Factoring in
/-- Creating a node, or building a product, that fails leaves the graph as it was; after a power that
fails its exponent is left. -/
theorem failed_creation_undone {g : Graph} (h : g.Matched) :
    (∀ call : Call, call.creates = true → (∀ base exponent, call ≠ .pow base exponent) →
      ∀ fault g', call.edit g = .error fault g' → g' = g) ∧
    (∀ base exponent fault g', Edit.pow base exponent g = .error fault g' →
      g' = { g with nodes := g.nodes.push ⟨.literal (.ofInt exponent), [], [],
        .ofLiteral (.ofInt exponent), .standard, false⟩ }) ∧
    ∀ leaves count fault g', buildProduct leaves count g = .error fault g' → g' = g := by
  refine ⟨fun call hc hpow fault g' hf => ?_, fun base exponent fault g' hf => ?_,
    fun leaves count fault g' hf => buildProduct_error h hf⟩
  · exact (Call.creates_edit hc hpow).unchanged h hf
  · exact Edit.pow_error h hf

def mixedSizes : Graph :=
  (Graph.empty "g").afterCalls [.matrix "A" 2 2 (-1), .matrix "B" 3 3 (-1), .pow 0 2]

theorem matched_mixedSizes : mixedSizes.Matched := ((Graph.linked_empty "g").afterCalls _).matched

open Optimizer.Factoring in
theorem failed_creation_undone_mixedSizes :
    (failure? (Call.edit (.mult 3 1)) mixedSizes).isSome = true ∧
    (failure? (Edit.pow 9 2) mixedSizes).isSome = true ∧
    (failure? (buildProduct [0, 1] fun _ => 2) mixedSizes).isSome = true ∧
    (∀ fault g', Call.edit (.mult 3 1) mixedSizes = .error fault g' → g' = mixedSizes) ∧
    (∀ fault g', Edit.pow 9 2 mixedSizes = .error fault g' → g'.size = 5) ∧
    ∀ fault g', buildProduct [0, 1] (fun _ => 2) mixedSizes = .error fault g' → g' = mixedSizes := by
  obtain ⟨hcall, hpow, hproduct⟩ := failed_creation_undone matched_mixedSizes
  refine ⟨by decide +kernel, by decide +kernel, by decide +kernel,
    hcall (.mult 3 1) rfl (by simp), fun fault g' hf => ?_, hproduct [0, 1] fun _ => 2⟩
  rw [hpow 9 2 fault g' hf]
  decide +kernel

/-- Cutting a graph back to the size it had takes back all nodes that calls have created since then,
whether the calls succeeded or failed. -/
theorem truncate_undoes_creation {g : Graph} (h : g.Matched) {calls : List Call}
    (hc : ∀ call ∈ calls, call.creates = true) :
    Edit.truncate g.size (g.afterCalls calls) = .ok () g :=
  (Graph.grown_afterCalls h hc .refl).truncate h

/-- Old and new nodes are used, some of them twice; some calls fail. -/
def furtherCalls : List Call :=
  [.mult 0 0, .mult 4 0, .mult 3 1, .pow 5 3, .transpose 12, .matMul 7 7, .pow 12 2,
    .countNode 1 true]

theorem truncate_undoes_creation_furtherCalls :
    (∀ call ∈ furtherCalls, call.creates = true) ∧
    (mixedSizes.afterCalls furtherCalls).size = 11 ∧
    Edit.truncate mixedSizes.size (mixedSizes.afterCalls furtherCalls) = .ok () mixedSizes :=
  have hc : ∀ call ∈ furtherCalls, call.creates = true := by decide
  ⟨hc, by decide +kernel, truncate_undoes_creation matched_mixedSizes hc⟩

def Graph.Reached (g : Graph) : Prop := ∃ name calls, g = (empty name).afterCalls calls

/-- The slots that an edit leaves: those of the nodes, and the empty ones behind them. -/
def Edit.slots {α : Type} : EStateM.Result Fault Graph α → List (Option Node)
  | .ok _ g => g.nodes.toList.map some
  | .error fault g => g.nodes.toList.map some ++ List.replicate fault.emptied none

/-- Cutting is refused, with the graph unchanged, where a node that is kept has an operand that is
not; else it leaves the nodes before the cut, unless one of the discarded nodes has a discarded
operand that comes after it. Then it stops at the last such node, which has lost its entries among the
parents of some operands. No slot is cut off, and those after the node are empty. -/
theorem truncate_exact {g : Graph} (h : g.Reached) (size : Int) :
    (¬ g.Severable size → ∃ fault, Edit.truncate size g = .error fault g) ∧
    (g.Severable size → g.Descending size →
      Edit.truncate size g = .ok () (g.upTo size.toNat) ∧ (g.upTo size.toNat).EdgesConsistent) ∧
    (g.Severable size → ¬ g.Descending size →
      ∃ (x : Nat) (done : List NodeId) (c : NodeId), size ≤ x ∧ g.StopsAt x done c ∧
        Edit.truncate size g =
          .error (.halted (g.size - (x + 1)) (.dangling c)) ((g.upTo (x + 1)).dropParents x done) ∧
        (Edit.slots (Edit.truncate size g)).length = g.size ∧
        none ∈ Edit.slots (Edit.truncate size g)) := by
  obtain ⟨name, calls, rfl⟩ := h
  have hl := (Graph.linked_empty name).afterCalls calls
  refine ⟨Edit.truncate_refused hl.matched, fun hs hd => ?_, fun hs hd => ?_⟩
  · lift size to Nat using hs.1
    exact ⟨Edit.truncate_ok hl.matched hs hd, (hl.upTo hs).edgesConsistent⟩
  · lift size to Nat using hs.1
    obtain ⟨x, done, c, hle, hstop, hrun⟩ := Edit.truncate_halts hl.matched hs hd
    have hlt := hstop.lt_size hl.matched
    have hsize : (((Graph.empty name).afterCalls calls).upTo (x + 1)).size = x + 1 :=
      Graph.size_upTo (by omega)
    refine ⟨x, done, c, Int.ofNat_le.2 hle, hstop, hrun, ?_, ?_⟩
    · rw [hrun, Edit.slots, List.length_append, List.length_map, List.length_replicate,
        Array.length_toList, ← Graph.size, Graph.size_dropParents, hsize, Fault.emptied]
      omega
    · rw [hrun, Edit.slots, List.mem_append, Fault.emptied, List.mem_replicate]
      exact .inr ⟨by omega, rfl⟩

def interleavedSquare : Graph :=
  (Graph.empty "g").afterCalls [.matrix "A" 2 2 (-1), .matrix "B" 2 2 (-1), .mult 0 0, .mult 0 2,
    .transpose 0, .replaceInput 2 1 1, .replaceInput 2 1 0]

theorem truncate_exact_interleavedSquare :
    interleavedSquare.parentsOf 0 = [2, 3, 4, 2] ∧
    (interleavedSquare.upTo 3).parentsOf 0 = [2, 2] ∧
    Edit.truncate 3 interleavedSquare = .ok () (interleavedSquare.upTo 3) := by
  have hcut := truncate_exact (g := interleavedSquare) ⟨_, _, rfl⟩ 3
  exact ⟨by decide +kernel, by decide +kernel,
    (hcut.2.1 (by decide +kernel) (by decide +kernel)).1⟩

def readsLater : Graph :=
  (Graph.empty "g").afterCalls
    [.matrix "A" 2 2 (-1), .transpose 0, .transpose 0, .replaceInput 1 0 2]

def slotEdges (slot : Option Node) : Option (List NodeId × List NodeId) :=
  slot.map fun n => (n.inputs, n.parents)

/-- Only the matrix would be kept, and it uses nothing. The second transposed matrix is discarded, which
empties the parents of the matrix and leaves a slot. The first one cannot be discarded any more. -/
theorem truncate_stops_halfway : readsLater.Reached ∧ readsLater.Severable 1 ∧
    (failure? (Edit.truncate 1) readsLater).isSome = true ∧
    readsLater.nodes.toList.map (fun n => (n.inputs, n.parents)) =
      [([], [2]), ([2], []), ([0], [1])] ∧
    (Edit.slots (Edit.truncate 1 readsLater)).map slotEdges =
      [some ([], []), some ([2], []), none] :=
  ⟨⟨_, _, rfl⟩, by decide +kernel, by decide +kernel, by decide +kernel, by decide +kernel⟩

end LinearPlan
