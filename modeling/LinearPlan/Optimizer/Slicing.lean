import LinearPlan.Graph.Build
import LinearPlan.Optimizer.Pass

/-!
# Merging slice writes

A chain of writes to single cells of one row copies the whole matrix once for every cell. Instead
the row is read once, the cells are written into that row, and the row is written back. The same is
done for columns. A chain goes down from a write through the targets that are such writes
themselves, as long as these have no other use and name the same row.
-/
namespace LinearPlan.Optimizer.Slicing

inductive Axis where
  | row
  | col
deriving DecidableEq, Repr

namespace Axis

def name : Axis → String
  | .row => "row"
  | .col => "column"

def lowerPos : Axis → Nat
  | .row => 2
  | .col => 4

def upperPos : Axis → Nat
  | .row => 3
  | .col => 5

def flag : Axis → SliceFlags → Bool
  | .row, flags => flags.row
  | .col, flags => flags.col

def flags : Axis → SliceFlags
  | .row => ⟨true, false⟩
  | .col => ⟨false, true⟩

def setFlag : Axis → NodeId → Edit Unit
  | .row, id => Edit.setRowFlag id true
  | .col, id => Edit.setColFlag id true

def width : Axis → Shape → Int
  | .row, s => s.cols
  | .col, s => s.rows

def height : Axis → Shape → Int
  | .row, s => s.rows
  | .col, s => s.cols

def countsColumns : Axis → Bool
  | .row => true
  | .col => false

end Axis

def continues (g : Graph) (axis : Axis) (index id : NodeId) (n : Node) : Except Fault Bool :=
  match n.op with
  | .leftIndexing flags =>
    if 1 < n.parents.length ∨ axis.flag flags = false then .ok false
    else do
      let lower ← n.input id axis.lowerPos
      if lower = index then do
        let target ← g.node (← n.input id 0)
        return decide (1 < axis.width target.shape)
      else return false
  | _ => .ok false

def chainBelow (g : Graph) (axis : Axis) (index : NodeId) :
    Nat → NodeId → Except Fault (List NodeId)
  | 0, current => .error (.cyclic g.name current)
  | fuel + 1, current => do
    let n ← g.node current
    let next ← n.input current 0
    let m ← g.node next
    if ← continues g axis index next m then
      return next :: (← chainBelow g axis index fuel next)
    else return []

def indexOf (g : Graph) (axis : Axis) (top : NodeId) : Except Fault NodeId := do
  (← g.node top).input top axis.lowerPos

/-- A chain of writes from its last write down. -/
def collectChain (g : Graph) (axis : Axis) (top : NodeId) : Except Fault (List NodeId) := do
  let index ← indexOf g axis top
  return top :: (← chainBelow g axis index g.size top)

def bounds (axis : Axis) (base index : NodeId) : Edit (NodeId × NodeId × NodeId × NodeId) := do
  let one ← Edit.literal (.ofInt 1)
  let last ← Edit.countNode base axis.countsColumns
  match axis with
  | .row => return (index, index, one, last)
  | .col => return (one, last, index, index)

def readSlice (axis : Axis) (base index : NodeId) : Edit NodeId := do
  let (rl, ru, cl, cu) ← bounds axis base index
  Edit.indexing axis.flags base rl ru cl cu

def writeSlice (axis : Axis) (base value index : NodeId) : Edit NodeId := do
  let (rl, ru, cl, cu) ← bounds axis base index
  Edit.leftIndexing axis.flags base value rl ru cl cu

def narrow (axis : Axis) (id : NodeId) : Edit Unit := do
  discard <| Edit.replaceInput id axis.lowerPos (← Edit.literal (.ofInt 1))
  discard <| Edit.replaceInput id axis.upperPos (← Edit.literal (.ofInt 1))
  axis.setFlag id
  Edit.refresh id

def mergeChain (axis : Axis) (top bottom base index : NodeId) (chain : List NodeId) :
    Edit NodeId := do
  let slice ← readSlice axis base index
  discard <| Edit.replaceInput bottom 0 slice
  chain.reverse.forM (narrow axis)
  let edges ← Edit.parentEdges top
  let written ← writeSlice axis base top index
  Edit.redirect edges top written
  edges.forM fun e => Edit.refresh e.parent
  return written

def baseOf (g : Graph) (bottom : NodeId) : Except Fault (NodeId × Node) := do
  let base ← (← g.node bottom).input bottom 0
  return (base, ← g.node base)

def ruleName : String := "indexing"

/-- Merges the chain of a write, if it has at least two writes and the base more than one row of
more than one entry. -/
def mergeAt (axis : Axis) (top : NodeId) : RuleM (Option NodeId) := do
  let chain ← RuleM.read (collectChain · axis top)
  if chain.length < 2 then return none
  else do
    let bottom := chain.getLast?.getD top
    let (base, n) ← RuleM.read (baseOf · bottom)
    if axis.width n.shape ≤ 1 ∨ axis.height n.shape = 1 then return none
    else do
      let index ← RuleM.read (indexOf · axis top)
      let written ← RuleM.edit (mergeChain axis top bottom base index chain)
      RuleM.record ruleName top written
        s!"vectorized {chain.length} left-indexing ops on {axis.name} #{index}"
      return some written

def tryAxes (id : NodeId) : List Axis → RuleM (Option NodeId)
  | [] => return none
  | axis :: rest => do
    match ← mergeAt axis id with
    | some replacement => return some replacement
    | none => tryAxes id rest

def apply (axes : List Axis) (id : NodeId) : RuleM (Option NodeId) := do
  let n ← RuleM.read (·.node id)
  match n.op with
  | .leftIndexing ⟨true, true⟩ => tryAxes id axes
  | _ => return none

def rule (axes : List Axis) : Rule := ⟨ruleName, apply axes⟩

end LinearPlan.Optimizer.Slicing
