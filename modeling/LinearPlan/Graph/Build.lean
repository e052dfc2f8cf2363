import LinearPlan.Graph.Sizing
import LinearPlan.Graph.Edges

/-!
# Building graphs

One function for each operation adds a node, connects it with its operands and sizes it. If sizing
fails the node is discarded again.
-/
namespace LinearPlan

def Graph.inheritedBlocks (g : Graph) (inputs : List NodeId) : BlockSizes :=
  match (inputs.filterMap g.get?).find? fun n => n.isMatrix && decide (0 < n.blocks.rows) with
  | some n => n.blocks
  | none => .standard

def Node.fresh (op : Op) (inputs : List NodeId) (blocks : BlockSizes) : Node :=
  ⟨op, inputs, [], .initial, blocks, false⟩

namespace Edit

/-- An operand of a new node has to be there. The id `-1` stands for no node at all. -/
def requireOperand (kind : OpKind) (operand : NodeId × Nat) : Edit Unit := do
  if operand.1 = -1 then fail (.missingOperand (← get).name kind operand.2)
  else discard <| live operand.1

def push (op : Op) (inputs : List NodeId) : Edit NodeId := do
  let g ← get
  let id : NodeId := g.size
  set { g with nodes := g.nodes.push (.fresh op inputs (g.inheritedBlocks inputs)) }
  inputs.forM fun x => addParent x id
  return id

def addNode (op : Op) (inputs : List NodeId) : Edit NodeId := do
  inputs.zipIdx.forM (requireOperand op.kind)
  let id ← push op inputs
  undoing (refresh id) (truncate id)
  return id

def data (name : String) (dataType : DataType) (rows cols nnz : Int) : Edit NodeId := do
  let id ← addNode (.data name) []
  setShape id (.declared dataType rows cols nnz)
  return id

def matrix (name : String) (rows cols nnz : Int) : Edit NodeId := data name .matrix rows cols nnz

def scalar (name : String) : Edit NodeId := data name .scalar 0 0 (-1)

def literal (value : Number) : Edit NodeId := addNode (.literal value) []

def write (name : String) (x : NodeId) : Edit NodeId := addNode (.write name) [x]

def unary (op : UnaryOp) (x : NodeId) : Edit NodeId :=
  if op = .absent then fail (.invalidUnary op) else addNode (.unary op) [x]

def binary (op : BinaryOp) (lhs rhs : NodeId) : Edit NodeId :=
  if op = .absent then fail (.invalidBinary op) else addNode (.binary op) [lhs, rhs]

def mult (lhs rhs : NodeId) : Edit NodeId := binary .mult lhs rhs

def pow (base : NodeId) (exponent : Int) : Edit NodeId := do
  let e ← literal (.ofInt exponent)
  binary .pow base e

def matMul (lhs rhs : NodeId) : Edit NodeId := addNode .matMul [lhs, rhs]

def transpose (x : NodeId) : Edit NodeId := addNode .transpose [x]

def indexing (flags : SliceFlags) (target rowLower rowUpper colLower colUpper : NodeId) :
    Edit NodeId :=
  addNode (.indexing flags) [target, rowLower, rowUpper, colLower, colUpper]

def leftIndexing (flags : SliceFlags)
    (target value rowLower rowUpper colLower colUpper : NodeId) : Edit NodeId :=
  addNode (.leftIndexing flags) [target, value, rowLower, rowUpper, colLower, colUpper]

def chain (kind : Chain.Kind) (threads : Int) (operands : List NodeId) : Edit NodeId :=
  if !kind.isValid then fail (.invalidChain kind)
  else if operands.length ≠ kind.numOperands then fail (.chainOperands kind operands.length)
  else addNode (.chain kind threads) operands

def countNode (x : NodeId) (columns : Bool) : Edit NodeId := do
  let n ← live x
  let count := if columns then n.shape.cols else n.shape.rows
  if 0 ≤ count then literal (.ofInt count)
  else unary (if columns then .ncol else .nrow) x

def setFlags (id : NodeId) (f : SliceFlags → SliceFlags) : Edit Unit := do
  let n ← live id
  match n.op with
  | .indexing flags => modifyNode id fun n => { n with op := .indexing (f flags) }
  | .leftIndexing flags => modifyNode id fun n => { n with op := .leftIndexing (f flags) }
  | op => fail (.notIndexing ⟨id, op⟩)

def setRowFlag (id : NodeId) (value : Bool) : Edit Unit :=
  setFlags id fun flags => { flags with row := value }

def setColFlag (id : NodeId) (value : Bool) : Edit Unit :=
  setFlags id fun flags => { flags with col := value }

def setBlocks (id : NodeId) (blocks : BlockSizes) : Edit Unit := do
  discard <| live id
  modifyNode id fun n => { n with blocks := blocks }

end Edit
end LinearPlan
