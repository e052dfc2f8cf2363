import LinearPlan.Graph.Basic

/-!
# Sizing

The shape of a node follows from its operation and the shapes of its operands. An element-wise
operation repeats dimensions of one and combines unknown dimensions with known ones as far as that
is safe. When sizing fails it says how far the shape had been settled, and refreshing a node keeps
that much.
-/
namespace LinearPlan

/-- What sizing settled before it failed, and why it failed. -/
structure SizingFault where
  reached : Shape
  cause : Fault
deriving DecidableEq, Repr

namespace Shape

/-- A common dimension of two operands of an element-wise operation. An unknown dimension beside a
dimension of one may be anything, beside another dimension it has to agree with it or be one. -/
def broadcast? (a b : Int) : Option Int :=
  if a = b then some a
  else if (a = 1 ∧ b < 0) ∨ (b = 1 ∧ a < 0) then some (-1)
  else if a = 1 then some b
  else if b = 1 then some a
  else if a < 0 then some b
  else if b < 0 then some a
  else none

def isFull (rows cols : Int) (s : Shape) : Bool :=
  s.isMatrix && s.rows == rows && s.cols == cols

/-- The non-zero bound of an element-wise product: the zeros of every operand that is not repeated
stay, and an unknown bound among these leaves the result unknown. -/
def multNnz (rows cols : Int) (lhs rhs : Shape) : Int :=
  match [lhs, rhs].filter (isFull rows cols) with
  | [] => -1
  | [a] => if a.nnz < 0 then -1 else a.nnz
  | a :: b :: _ => if a.nnz < 0 ∨ b.nnz < 0 then -1 else min a.nnz b.nnz

def powNnz (lhs : Shape) (exponent : Option Int) : Int :=
  match exponent with
  | some n => if 0 < n ∧ lhs.isMatrix then lhs.nnz else -1
  | none => -1

def binaryNnz (op : BinaryOp) (rows cols : Int) (lhs rhs : Shape) (exponent : Option Int) : Int :=
  match op with
  | .mult => multNnz rows cols lhs rhs
  | .pow => powNnz lhs exponent
  | _ => -1

def binaryValueType (op : BinaryOp) (lhs rhs : Shape) : ValueType :=
  if lhs.valueType = .int64 ∧ rhs.valueType = .int64 ∧ op ≠ .div then .int64 else .float64

/-- The shape of an element-wise operation. `own` is the shape the node had, `exponent` the value
of the right operand if it is an integral literal. -/
def ofBinary (node : NodeRef) (op : BinaryOp) (own lhs rhs : Shape) (exponent : Option Int) :
    Except SizingFault Shape :=
  let valueType := binaryValueType op lhs rhs
  let result (rows cols : Int) : Shape :=
    ⟨.matrix, valueType, rows, cols, binaryNnz op rows cols lhs rhs exponent⟩
  if lhs.isMatrix then
    if rhs.isMatrix then
      match broadcast? lhs.rows rhs.rows with
      | none => .error
          ⟨{ own with dataType := .matrix, valueType := valueType },
            .broadcast node lhs.rows rhs.rows⟩
      | some rows => match broadcast? lhs.cols rhs.cols with
        | none => .error
            ⟨{ own with dataType := .matrix, valueType := valueType, rows := rows },
              .broadcast node lhs.cols rhs.cols⟩
        | some cols => .ok (result rows cols)
    else .ok (result lhs.rows lhs.cols)
  else if rhs.isMatrix then .ok (result rhs.rows rhs.cols)
  else if lhs.isScalar && rhs.isScalar then .ok (.ofScalar valueType)
  else .ok ⟨lhs.dataType.higher rhs.dataType, valueType, -1, -1, -1⟩

def extent (equal : Bool) (lower upper : Option Int) : Int :=
  if equal then 1
  else match lower, upper with
    | some lo, some hi => if hi < lo then -1 else (hi - lo + 1).bmod (Nat.pow 2 64)
    | _, _ => -1

def ofMatMul (node : NodeRef) (lhs rhs : Shape) : Except Fault Shape :=
  if !lhs.isMatrix || !rhs.isMatrix then .error (.matMulTypes node lhs.dataType rhs.dataType)
  else if 0 ≤ lhs.cols ∧ 0 ≤ rhs.rows ∧ lhs.cols ≠ rhs.rows then
    .error (.matMulDims node lhs.rows lhs.cols rhs.rows rhs.cols)
  else .ok ⟨.matrix, .float64, lhs.rows, rhs.cols, -1⟩

def ofLiteral (value : Number) : Shape :=
  .ofScalar (if value.toInt?.isSome then .int64 else .float64)

end Shape

def Node.keeping {α : Type} (n : Node) (x : Except Fault α) : Except SizingFault α :=
  x.mapError fun cause => ⟨n.shape, cause⟩

namespace Graph

def operand (g : Graph) (id : NodeId) (n : Node) (pos : Nat) : Except Fault Node :=
  match n.input id pos with
  | .error fault => .error fault
  | .ok x => g.follow x

/-- The extent of a slice between the bounds at two positions. Equal bounds are not looked at. -/
def extentAt (g : Graph) (id : NodeId) (n : Node) (equal : Bool) (lower upper : Nat) :
    Except Fault Int :=
  if equal then .ok (Shape.extent true none none)
  else do
    let lo ← g.operand id n lower
    let hi ← g.operand id n upper
    .ok (Shape.extent false lo.op.literalInt? hi.op.literalInt?)

def requireArity (id : NodeId) (n : Node) : Except Fault Unit :=
  match n.op.arity? with
  | none => .error (.unsizable ⟨id, n.op⟩)
  | some want =>
    if n.inputs.length = want then .ok () else .error (.arity ⟨id, n.op⟩ want n.inputs.length)

def sizeOperands (g : Graph) (id : NodeId) (n : Node) : Except SizingFault Shape :=
  match n.op with
  | .data _ => .ok n.shape
  | .literal value => .ok (.ofLiteral value)
  | .write _ => do
    let x ← n.keeping (g.operand id n 0)
    .ok x.shape
  | .unary _ => .ok (.ofScalar .int64)
  | .binary op => do
    let lhs ← n.keeping (g.operand id n 0)
    let rhs ← n.keeping (g.operand id n 1)
    Shape.ofBinary ⟨id, n.op⟩ op n.shape lhs.shape rhs.shape rhs.op.literalInt?
  | .matMul => do
    let lhs ← n.keeping (g.operand id n 0)
    let rhs ← n.keeping (g.operand id n 1)
    n.keeping (Shape.ofMatMul ⟨id, n.op⟩ lhs.shape rhs.shape)
  | .transpose => do
    let x ← n.keeping (g.operand id n 0)
    .ok { x.shape with rows := x.shape.cols, cols := x.shape.rows }
  | .indexing flags => do
    let x ← n.keeping (g.operand id n 0)
    let rows ← n.keeping (g.extentAt id n flags.row 1 2)
    let cols ← n.keeping (g.extentAt id n flags.col 3 4)
    .ok ⟨.matrix, x.shape.valueType, rows, cols, -1⟩
  | .leftIndexing _ => do
    let x ← n.keeping (g.operand id n 0)
    .ok ⟨.matrix, x.shape.valueType, x.shape.rows, x.shape.cols, -1⟩
  | .chain _ _ => do
    let x ← n.keeping (g.operand id n 0)
    .ok ⟨.matrix, .float64, x.shape.cols, 1, -1⟩
  | .unknown _ => .error ⟨n.shape, .unsizable ⟨id, n.op⟩⟩

def needsArity : Op → Bool
  | .data _ | .literal _ => false
  | _ => true

def sizeNode (g : Graph) (id : NodeId) (n : Node) : Except SizingFault Shape :=
  if needsArity n.op then
    match requireArity id n with
    | .error cause => .error ⟨n.shape, cause⟩
    | .ok _ => g.sizeOperands id n
  else g.sizeOperands id n

end Graph

namespace Edit

def setShape (id : NodeId) (shape : Shape) : Edit Unit :=
  modifyNode id fun n => { n with shape := shape }

/-- Sizes a node anew. After a failure the node has the shape that was reached. -/
def refresh (id : NodeId) : Edit Unit := do
  let n ← live id
  let g ← get
  match g.sizeNode id n with
  | .ok shape => setShape id shape
  | .error fault => do
    setShape id fault.reached
    fail fault.cause

end Edit
end LinearPlan
