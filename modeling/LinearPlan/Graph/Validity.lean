import LinearPlan.Graph.Basic

/-!
# Structural validity

A graph is well formed when retired nodes have no edges, every other node has the number of
operands of its operation, operands and parents name each other equally often, and no node depends
on itself. The check reports the first defect it meets, node by node and then along the edges. The
depth-first search for cycles keeps the nodes on the current path and the nodes that are done; an
operand on the path closes a cycle.
-/
namespace LinearPlan

inductive Defect where
  | retiredEdges (graph : String) (node : NodeRef) (inputs parents : Nat)
  | unknownKind (graph : String) (id : NodeId) (kind : OpKind)
  | arity (graph : String) (node : NodeRef) (found want : Nat)
  | invalidInput (graph : String) (node : NodeRef) (pos : Nat) (input : NodeId)
  | retiredInput (graph : String) (node : NodeRef) (pos : Nat) (input : NodeRef)
  | useCount (graph : String) (node input : NodeRef) (uses entries : Nat)
  | invalidParent (graph : String) (node : NodeRef) (parent : NodeId)
  | notInput (graph : String) (node parent : NodeRef)
  | cycle (graph : String) (node input : NodeRef)
deriving DecidableEq, Repr

def Defect.message : Defect → String
  | .retiredEdges graph node inputs parents =>
    s!"graph {Text.quoted graph}: retired node {node.text} still has {inputs} inputs " ++
      s!"and {parents} parents"
  | .unknownKind graph id kind =>
    s!"graph {Text.quoted graph}: node #{id} has invalid op type {kind.name}"
  | .arity graph node found want =>
    s!"graph {Text.quoted graph}: node {node.text} has {found} inputs, it requires {want}"
  | .invalidInput graph node pos input =>
    s!"graph {Text.quoted graph}: node {node.text} input #{pos} is invalid ({input})"
  | .retiredInput graph node pos input =>
    s!"graph {Text.quoted graph}: node {node.text} input #{pos} is retired node {input.text}"
  | .useCount graph node input uses entries =>
    s!"graph {Text.quoted graph}: node {node.text} uses {input.text} {uses} times, " ++
      s!"but it is listed {entries} times as its parent"
  | .invalidParent graph node parent =>
    s!"graph {Text.quoted graph}: node {node.text} has invalid parent {parent}"
  | .notInput graph node parent =>
    s!"graph {Text.quoted graph}: node {node.text} lists {parent.text} as parent, " ++
      "but it is not one of its inputs"
  | .cycle graph node input =>
    s!"graph {Text.quoted graph}: cycle through nodes {node.text} and {input.text}"

namespace Graph

def checkArity (g : Graph) (id : NodeId) (n : Node) : Except Defect Unit :=
  match n.op.arity? with
  | none => .error (.unknownKind g.name id n.op.kind)
  | some want =>
    if n.inputs.length = want then .ok ()
    else .error (.arity g.name ⟨id, n.op⟩ n.inputs.length want)

def checkInput (g : Graph) (id : NodeId) (n : Node) (x : NodeId × Nat) : Except Defect Unit :=
  match g.get? x.1 with
  | none => .error (.invalidInput g.name ⟨id, n.op⟩ x.2 x.1)
  | some c =>
    if c.retired then .error (.retiredInput g.name ⟨id, n.op⟩ x.2 ⟨x.1, c.op⟩)
    else if c.parents.count id = n.inputs.count x.1 then .ok ()
    else .error (.useCount g.name ⟨id, n.op⟩ ⟨x.1, c.op⟩ (n.inputs.count x.1) (c.parents.count id))

def checkParent (g : Graph) (id : NodeId) (n : Node) (p : NodeId) : Except Defect Unit :=
  match g.get? p with
  | none => .error (.invalidParent g.name ⟨id, n.op⟩ p)
  | some parent =>
    if id ∈ parent.inputs then .ok () else .error (.notInput g.name ⟨id, n.op⟩ ⟨p, parent.op⟩)

def checkNode (g : Graph) (id : NodeId) (n : Node) : Except Defect Unit :=
  if n.retired then
    if n.inputs = [] ∧ n.parents = [] then .ok ()
    else .error (.retiredEdges g.name ⟨id, n.op⟩ n.inputs.length n.parents.length)
  else do
    g.checkArity id n
    n.inputs.zipIdx.forM (g.checkInput id n)
    n.parents.forM (g.checkParent id n)

def checkNodes (g : Graph) : Except Defect Unit :=
  g.ids.forM fun id => match g.get? id with
    | some n => g.checkNode id n
    | none => .ok ()

/-- Explores a node below a path, and returns the nodes that are done. The nodes on the path differ,
so as many levels as there are nodes are enough. -/
def explore (g : Graph) : Nat → List NodeId → List NodeId → NodeId → Except Defect (List NodeId)
  | 0, _, done, _ => .ok done
  | fuel + 1, path, done, id => do
    let done ← (g.inputsOf id).foldlM (fun done x =>
      if x ∈ id :: path then .error (.cycle g.name (g.label id) (g.label x))
      else if x ∈ done then .ok done
      else g.explore fuel (id :: path) done x) done
    return id :: done

def checkAcyclic (g : Graph) : Except Defect Unit := do
  discard <| g.ids.foldlM (fun done id =>
    if id ∈ done then .ok done else g.explore g.size [] done id) []

/-- The first defect of a graph, if it has one. -/
def check (g : Graph) : Except Defect Unit := do
  g.checkNodes
  g.checkAcyclic

end Graph
end LinearPlan
