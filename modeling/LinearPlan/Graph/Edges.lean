import LinearPlan.Graph.Basic

/-!
# Editing edges

Operands are replaced, consumers are moved from one node to another, and nodes are retired or
discarded. Every edit changes both directions of an edge together. The operand lists and parent
lists therefore stay consistent as long as they were so before.
-/
namespace LinearPlan

namespace Graph

def positionsOf (child : NodeId) (inputs : List NodeId) : List Int :=
  (inputs.zipIdx.filter fun e => e.1 == child).map fun e => (e.2 : Int)

def insertSorted (x : NodeId) : List NodeId → List NodeId
  | [] => [x]
  | y :: ys => if x < y then x :: y :: ys else if x = y then y :: ys else y :: insertSorted x ys

def sortedParents (parents : List NodeId) : List NodeId := parents.foldr insertSorted []

def slotsOf (g : Graph) (child : NodeId) (parents : List NodeId) : Except Fault (List Edge) := do
  let slots ← parents.mapM fun p => do
    let n ← g.follow p
    return (positionsOf child n.inputs).map fun pos => Edge.mk p pos
  return slots.flatten

/-- All operand positions that hold a node, by increasing parent and position. -/
def parentEdges (g : Graph) (child : NodeId) : Except Fault (List Edge) := do
  let n ← g.live child
  let edges ← g.slotsOf child (sortedParents n.parents)
  if edges.length = n.parents.length then return edges
  else throw (.edgeCount g.name ⟨child, n.op⟩ n.parents.length edges.length)

def checkEdge (g : Graph) (old replacement : NodeId) (e : Edge) : Except Fault Unit := do
  if e.parent = replacement then
    throw (.fromReplacement (← g.refOf old) (← g.refOf replacement))
  else
    let p ← g.live e.parent
    let found ← p.input e.parent e.pos
    if found = old then return ()
    else throw (.staleEdge (← g.refOf old) (← g.refOf replacement) e.pos ⟨e.parent, p.op⟩
      (← g.refOf found))

end Graph

namespace Edit

def parentEdges (child : NodeId) : Edit (List Edge) := read (·.parentEdges child)

def dropParent (child parent : NodeId) : Edit Unit := do
  let c ← follow child
  if parent ∈ c.parents then modifyNode child fun n => { n with parents := n.parents.erase parent }
  else do
    let g ← get
    let p ← read (·.refOf parent)
    fail (.notParent g.name p ⟨child, c.op⟩)

def addParent (child parent : NodeId) : Edit Unit :=
  modifyNode child fun n => { n with parents := n.parents ++ [parent] }

def setInput (parent : NodeId) (pos : Int) (child : NodeId) : Edit Unit :=
  modifyNode parent fun n => { n with inputs := n.inputs.set pos.toNat child }

def replaceInput (parent : NodeId) (pos : Int) (child : NodeId) : Edit NodeId := do
  let p ← live parent
  let c ← live child
  let old ← read fun _ => p.input parent pos
  if parent = child then fail (.selfLoop ⟨parent, p.op⟩ pos ⟨child, c.op⟩)
  else if old = child then return old
  else do
    dropParent old parent
    setInput parent pos child
    addParent child parent
    return old

/-- Moves edges from a node to its replacement. All of them are checked before the first one is
moved. -/
def redirect (edges : List Edge) (old replacement : NodeId) : Edit Unit := do
  discard <| live replacement
  read fun g => edges.forM (g.checkEdge old replacement)
  edges.forM fun e => discard <| replaceInput e.parent e.pos replacement

/-- Moves all consumers of a node to its replacement, and returns the edges that were moved. -/
def redirectParents (old replacement : NodeId) : Edit (List Edge) := do
  let edges ← parentEdges old
  redirect edges old replacement
  return edges

def detach (id : NodeId) (inputs : List NodeId) : Edit Unit :=
  inputs.forM fun x => dropParent x id

def retire (id : NodeId) : Edit Unit := do
  let n ← live id
  if n.parents = [] then do
    detach id n.inputs
    modifyNode id fun n => { n with inputs := [], retired := true }
  else fail (.stillUsed ⟨id, n.op⟩ n.parents.length)

def requireInner (ids : List NodeId) (id : NodeId) : Edit Unit := do
  let n ← live id
  match n.parents.find? fun p => !ids.contains p with
  | none => return ()
  | some p => fail (.foreignParent ⟨id, n.op⟩ (← read (·.refOf p)))

def clearInputs (id : NodeId) : Edit Unit := do
  let n ← follow id
  detach id n.inputs
  modifyNode id fun n => { n with inputs := [] }

def markRetired (id : NodeId) : Edit Unit := do
  let n ← follow id
  if n.parents = [] then modifyNode id fun n => { n with retired := true }
  else fail (.parentsLeft ⟨id, n.op⟩ n.parents)

def retireAll (ids : List NodeId) : Edit Unit := do
  ids.forM (requireInner ids)
  ids.forM clearInputs
  ids.forM markRetired

def requireUnused (size : Nat) (id : NodeId) : Edit Unit := do
  let n ← follow id
  match n.parents.find? fun p : NodeId => decide (p < (size : Int)) with
  | none => return ()
  | some p => do
    let g ← get
    fail (.truncateUsed g.name size ⟨id, n.op⟩ (← read (·.refOf p)))

/-- Detaches the last node and empties its slot. The graph has the nodes before the empty slots. -/
def emptyLast : Edit Unit := do
  let g ← get
  let id : NodeId := (g.size : Int) - 1
  let n ← follow id
  detach id n.inputs
  set { (← get) with nodes := (← get).nodes.pop }

/-- Discards the last node. A fault counts the slots behind it, which are empty by then. -/
def discardLast (emptied : Nat) : Edit Unit := EStateM.adaptExcept (.halted emptied) emptyLast

/-- Discards the nodes from `size` on, last one first. The slots are cut off when all of them are
empty, so an edit that fails on the way leaves those it has emptied. -/
def truncate (size : Int) : Edit Unit := do
  let g ← get
  if size < 0 ∨ (g.size : Int) < size then fail (.truncateRange g.name size g.size)
  else do
    (g.ids.drop size.toNat).forM (requireUnused size.toNat)
    (List.range (g.size - size.toNat)).forM discardLast

end Edit
end LinearPlan
