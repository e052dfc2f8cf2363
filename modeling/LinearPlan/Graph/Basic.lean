import LinearPlan.Op
import LinearPlan.Shape

/-!
# Operator graphs

A plan is a graph of operations. Nodes are addressed by their index in order of creation, and keep
both directions of every edge: the ordered operands, and one entry per use among the parents. A
node that is no longer needed is retired: it stays in place without edges, so ids never change.
Ids are 32-bit integers in a running system. Here they are not bounded, and graphs are taken to have
fewer than `2 ^ 31` nodes.

Edits are programs over a graph that may fail. A failed edit keeps the graph as far as it had been
changed, and says what was wrong as a `Fault`.
-/
namespace LinearPlan

abbrev NodeId := Int

/-- The tile sizes of a node. They are handed on to new nodes and not interpreted. -/
structure BlockSizes where
  rows : Int
  cols : Int
deriving DecidableEq, Repr, Inhabited

def BlockSizes.standard : BlockSizes := ⟨1000, 1000⟩

structure Node where
  op : Op
  inputs : List NodeId
  /-- One entry for each operand position, of any node, that holds this node. -/
  parents : List NodeId
  shape : Shape
  blocks : BlockSizes
  retired : Bool
deriving DecidableEq, Repr, Inhabited

structure Graph where
  name : String
  nodes : Array Node
deriving DecidableEq, Repr, Inhabited

structure NodeRef where
  id : NodeId
  op : Op
deriving DecidableEq, Repr, Inhabited

def NodeRef.text (n : NodeRef) : String := s!"#{n.id}:{n.op.text}"

structure Edge where
  parent : NodeId
  pos : Int
deriving DecidableEq, Repr, Inhabited

inductive Fault where
  | invalidId (graph : String) (id : NodeId) (size : Nat)
  | retired (graph : String) (node : NodeRef)
  | dangling (id : NodeId)
  | cyclic (graph : String) (id : NodeId)
  | noInput (node : NodeRef) (count : Nat) (pos : Int)
  | notLiteral (node : NodeRef)
  | notIndexing (node : NodeRef)
  | notChain (node : NodeRef)
  | missingOperand (graph : String) (kind : OpKind) (pos : Nat)
  | invalidUnary (op : UnaryOp)
  | invalidBinary (op : BinaryOp)
  | invalidChain (kind : Chain.Kind)
  | chainOperands (kind : Chain.Kind) (given : Nat)
  | arity (node : NodeRef) (want found : Nat)
  | matMulTypes (node : NodeRef) (lhs rhs : DataType)
  | matMulDims (node : NodeRef) (lhsRows lhsCols rhsRows rhsCols : Int)
  | broadcast (node : NodeRef) (lhs rhs : Int)
  | unsizable (node : NodeRef)
  | truncateRange (graph : String) (size : Int) (found : Nat)
  | truncateUsed (graph : String) (size : Int) (node user : NodeRef)
  | notParent (graph : String) (parent child : NodeRef)
  | selfLoop (parent : NodeRef) (pos : Int) (child : NodeRef)
  | edgeCount (graph : String) (node : NodeRef) (entries slots : Nat)
  | fromReplacement (old replacement : NodeRef)
  | staleEdge (old replacement : NodeRef) (pos : Int) (parent found : NodeRef)
  | stillUsed (node : NodeRef) (parents : Nat)
  | foreignParent (node parent : NodeRef)
  | parentsLeft (node : NodeRef) (parents : List NodeId)
  /-- Nodes were being discarded, and some had left empty slots behind the nodes of the graph. -/
  | halted (emptied : Nat) (cause : Fault)
deriving DecidableEq, Repr

def Fault.emptied : Fault → Nat
  | .halted emptied _ => emptied
  | _ => 0

def idList (ids : List NodeId) : String := "[" ++ " ".intercalate (ids.map toString) ++ "]"

def Fault.message : Fault → String
  | .invalidId graph id size =>
    s!"graph {Text.quoted graph}: invalid node id #{id} (graph has {size} nodes)"
  | .retired graph node => s!"graph {Text.quoted graph}: node {node.text} has been retired"
  | .dangling id => s!"no node #{id}"
  | .cyclic graph id => s!"graph {Text.quoted graph}: node #{id} depends on itself"
  | .noInput node count pos => s!"node {node.text} has {count} inputs, input #{pos} requested"
  | .notLiteral node => s!"LiteralValue() called on non-literal node {node.text}"
  | .notIndexing node => s!"node {node.text} is not an indexing node"
  | .notChain node => s!"node {node.text} is not a MMChain node"
  | .missingOperand graph kind pos =>
    s!"graph {Text.quoted graph}: creating {kind.name} node with invalid input #{pos}"
  | .invalidUnary op => s!"Unary: invalid operation {op.name}"
  | .invalidBinary op => s!"Binary: invalid operation {op.name}"
  | .invalidChain kind => s!"MMChain: invalid chain type {kind.name}"
  | .chainOperands kind given =>
    s!"MMChain: chain type {kind.name} takes {kind.numOperands} operands, {given} given"
  | .arity node want found => s!"node {node.text} must have {want} inputs, it has {found}"
  | .matMulTypes node lhs rhs =>
    s!"MatMul {node.text} requires matrix operands, got {lhs.name} and {rhs.name}"
  | .matMulDims node lhsRows lhsCols rhsRows rhsCols =>
    s!"MatMul {node.text}: incompatible dimensions {lhsRows}x{lhsCols} and {rhsRows}x{rhsCols}"
  | .broadcast node lhs rhs =>
    s!"element-wise {node.text}: incompatible dimensions {lhs} and {rhs}"
  | .unsizable node => s!"Refresh({node.text}): unknown op type {node.op.kind.name}"
  | .truncateRange graph size found =>
    s!"graph {Text.quoted graph}: Truncate({size}) out of range, graph has {found} nodes"
  | .truncateUsed graph size node user =>
    s!"graph {Text.quoted graph}: Truncate({size}): node {node.text} is used by {user.text}"
  | .notParent graph parent child =>
    s!"graph {Text.quoted graph}: node {parent.text} is not listed as parent of {child.text}"
  | .selfLoop parent pos child =>
    s!"ReplaceInput({parent.text}, {pos}, {child.text}): would create a self-loop"
  | .edgeCount graph node entries slots =>
    s!"graph {Text.quoted graph}: node {node.text} has {entries} parent entries " ++
      s!"but {slots} operand slots point to it"
  | .fromReplacement old replacement =>
    s!"Redirect({old.text} -> {replacement.text}): edge from the replacement itself"
  | .staleEdge old replacement pos parent found =>
    s!"Redirect({old.text} -> {replacement.text}): " ++
      s!"input #{pos} of {parent.text} is {found.text}"
  | .stillUsed node parents => s!"Retire({node.text}): node still has {parents} parents"
  | .foreignParent node parent =>
    s!"RetireAll: node {node.text} has parent {parent.text} outside of the retired set"
  | .parentsLeft node parents =>
    s!"RetireAll: node {node.text} still has parents {idList parents} after detaching"
  | .halted _ cause => cause.message

namespace Graph

def empty (name : String) : Graph := ⟨name, #[]⟩

def size (g : Graph) : Nat := g.nodes.size

def get? (g : Graph) (id : NodeId) : Option Node := if 0 ≤ id then g.nodes[id.toNat]? else none

/-- The operands of a node; none for an id that is not in use. -/
def inputsOf (g : Graph) (id : NodeId) : List NodeId :=
  match g.get? id with
  | some n => n.inputs
  | none => []

def parentsOf (g : Graph) (id : NodeId) : List NodeId :=
  match g.get? id with
  | some n => n.parents
  | none => []

def ids (g : Graph) : List NodeId := (List.range g.size).map Int.ofNat

def liveNodes (g : Graph) : List NodeId :=
  g.ids.filter fun id => (g.get? id).any fun n => !n.retired

def node (g : Graph) (id : NodeId) : Except Fault Node :=
  match g.get? id with
  | some n => .ok n
  | none => .error (.invalidId g.name id g.size)

def follow (g : Graph) (id : NodeId) : Except Fault Node :=
  match g.get? id with
  | some n => .ok n
  | none => .error (.dangling id)

def live (g : Graph) (id : NodeId) : Except Fault Node :=
  match g.node id with
  | .error fault => .error fault
  | .ok n => if n.retired then .error (.retired g.name ⟨id, n.op⟩) else .ok n

def refOf (g : Graph) (id : NodeId) : Except Fault NodeRef := (g.follow id).map fun n => ⟨id, n.op⟩

def label (g : Graph) (id : NodeId) : NodeRef := ⟨id, ((g.get? id).map Node.op).getD (.unknown 0)⟩

def modify (g : Graph) (id : NodeId) (f : Node → Node) : Graph :=
  if 0 ≤ id then { g with nodes := g.nodes.modify id.toNat f } else g

theorem get?_eq_some_lt {g : Graph} {id : NodeId} {n : Node} (h : g.get? id = some n) :
    0 ≤ id ∧ id < g.size := by
  unfold get? at h
  split at h
  · rename_i h0
    obtain ⟨hlt, -⟩ := Array.getElem?_eq_some_iff.1 h
    exact ⟨h0, (Int.toNat_lt h0).1 hlt⟩
  · cases h

theorem get?_isSome_iff {g : Graph} {id : NodeId} :
    (g.get? id).isSome ↔ 0 ≤ id ∧ id < g.size := by
  constructor
  · intro h
    obtain ⟨n, hn⟩ := Option.isSome_iff_exists.1 h
    exact get?_eq_some_lt hn
  · rintro ⟨h0, hlt⟩
    have hlt : id.toNat < g.nodes.size := (Int.toNat_lt h0).2 hlt
    rw [get?, if_pos h0, Array.getElem?_eq_getElem hlt]
    rfl

@[simp] theorem name_modify (g : Graph) (id : NodeId) (f : Node → Node) :
    (g.modify id f).name = g.name := by
  unfold modify
  split <;> rfl

@[simp] theorem size_modify (g : Graph) (id : NodeId) (f : Node → Node) :
    (g.modify id f).size = g.size := by
  unfold modify
  split
  · exact Array.size_modify
  · rfl

theorem get?_modify_self (g : Graph) (id : NodeId) (f : Node → Node) :
    (g.modify id f).get? id = (g.get? id).map f := by
  unfold modify get?
  by_cases h : 0 ≤ id
  · rw [if_pos h, if_pos h, if_pos h]
    exact Array.getElem?_modify.trans (if_pos rfl)
  · rw [if_neg h, if_neg h]
    rfl

theorem get?_modify_of_ne (g : Graph) {id x : NodeId} (f : Node → Node) (hx : x ≠ id) :
    (g.modify id f).get? x = g.get? x := by
  unfold modify get?
  by_cases h : 0 ≤ id
  · rw [if_pos h]
    by_cases h' : 0 ≤ x
    · rw [if_pos h', if_pos h']
      have hne : id.toNat ≠ x.toNat := fun he =>
        hx ((Int.toNat_of_nonneg h').symm.trans
          ((congrArg Int.ofNat he.symm).trans (Int.toNat_of_nonneg h)))
      exact Array.getElem?_modify.trans (if_neg hne)
    · rw [if_neg h', if_neg h']
  · rw [if_neg h]

end Graph

namespace Node

def isScalar (n : Node) : Bool := n.shape.isScalar

def isMatrix (n : Node) : Bool := n.shape.isMatrix

def input? (n : Node) (pos : Int) : Option NodeId :=
  if 0 ≤ pos then n.inputs[pos.toNat]? else none

def input (n : Node) (id : NodeId) (pos : Int) : Except Fault NodeId :=
  match n.input? pos with
  | some x => .ok x
  | none => .error (.noInput ⟨id, n.op⟩ n.inputs.length pos)

def literalValue (n : Node) (id : NodeId) : Except Fault Number :=
  match n.op with
  | .literal value => .ok value
  | _ => .error (.notLiteral ⟨id, n.op⟩)

def sliceFlags (n : Node) (id : NodeId) : Except Fault SliceFlags :=
  match n.op.sliceFlags? with
  | some flags => .ok flags
  | none => .error (.notIndexing ⟨id, n.op⟩)

def chain (n : Node) (id : NodeId) : Except Fault (Chain.Kind × Int) :=
  match n.op with
  | .chain kind threads => .ok (kind, threads)
  | _ => .error (.notChain ⟨id, n.op⟩)

end Node

/-- A program that changes a graph and may fail. After a failure the graph is as it was left. -/
abbrev Edit := EStateM Fault Graph

namespace Edit
variable {α : Type}

def read (f : Graph → Except Fault α) : Edit α := fun g =>
  match f g with
  | .ok a => .ok a g
  | .error fault => .error fault g

def fail (fault : Fault) : Edit α := fun g => .error fault g

def live (id : NodeId) : Edit Node := read (·.live id)

def node (id : NodeId) : Edit Node := read (·.node id)

def follow (id : NodeId) : Edit Node := read (·.follow id)

def modifyNode (id : NodeId) (f : Node → Node) : Edit Unit := fun g => .ok () (g.modify id f)

def undoing (edit : Edit α) (undo : Edit Unit) : Edit α := fun g =>
  match edit g with
  | .ok a g => .ok a g
  | .error fault g => match undo g with
    | .ok _ g => .error fault g
    | .error fault g => .error fault g

end Edit
end LinearPlan
