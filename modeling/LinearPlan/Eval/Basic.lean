import LinearPlan.Graph.Basic
import LinearPlan.Chain.Kernel
import LinearPlan.Value

/-!
# The operations on values

What each operation does with the values of its operands. Element-wise operations repeat scalars
and dimensions of one. Bounds of slices are counted from one and include both ends.
-/
namespace LinearPlan

inductive EvalFault (α : Type) where
  | invalid (cause : Fault)
  | retired (node : NodeRef)
  | cyclic (id : NodeId)
  | missingOperand (node : NodeRef)
  | noValue (node : NodeRef)
  | notScalar (node : NodeRef)
  | notMatrix (node : NodeRef)
  | wrongSize (node : NodeRef) (rows cols : Int) (givenRows givenCols : Nat)
  | scalarOperand (node : NodeRef) (value : α)
  | unknownUnary (node : NodeRef)
  | unknownBinary (node : NodeRef)
  | incompatible (node : NodeRef) (lhs rhs : Nat)
  | zeroLength
  | innerDimensions
  | chain (node : NodeRef) (cause : Chain.Fault)
  | boundNotScalar (node : NodeRef)
  | boundNotInteger (node : NodeRef) (value : α)
  | outOfBounds (node : NodeRef) (rowLower rowUpper colLower colUpper : Int) (rows cols : Nat)
  | writeSize (node : NodeRef) (rows cols height width : Nat)
  | unknownKind (node : NodeRef)
deriving DecidableEq, Repr

def EvalFault.message {α : Type} [Element α] : EvalFault α → String
  | .invalid cause => cause.message
  | .retired node => s!"node {node.text} is retired"
  | .cyclic id => s!"node #{id} depends on itself"
  | .missingOperand node => s!"node {node.text}: operand missing"
  | .noValue node => s!"no value given for {node.text}"
  | .notScalar node => s!"{node.text} is a scalar, given a matrix"
  | .notMatrix node => s!"{node.text} is a matrix, given a scalar"
  | .wrongSize node rows cols givenRows givenCols =>
    s!"{node.text} is {rows}x{cols}, given a {givenRows}x{givenCols} matrix"
  | .scalarOperand node value =>
    s!"node {node.text}: expected matrix operand, got scalar {Element.text value}"
  | .unknownUnary node => s!"node {node.text}: unknown unary operation"
  | .unknownBinary node => s!"node {node.text}: unknown binary operation"
  | .incompatible node lhs rhs => s!"node {node.text}: incompatible dimensions {lhs} and {rhs}"
  | .zeroLength => "mat: zero length in matrix dimension"
  | .innerDimensions => "mat: dimension mismatch"
  | .chain node cause => s!"node {node.text}: {cause.message}"
  | .boundNotScalar node => s!"node {node.text}: indexing bound must be a scalar"
  | .boundNotInteger node value =>
    s!"node {node.text}: indexing bound {Element.text value} is not an integer"
  | .outOfBounds node rowLower rowUpper colLower colUpper rows cols =>
    s!"node {node.text}: range [{rowLower}:{rowUpper}, {colLower}:{colUpper}] " ++
      s!"out of bounds for a {rows}x{cols} matrix"
  | .writeSize node rows cols height width =>
    s!"node {node.text}: writing a {rows}x{cols} value into a {height}x{width} range"
  | .unknownKind node => s!"node {node.text}: cannot evaluate op type {node.op.kind.name}"

/-- What an evaluation is given: the values of the variables, and the number of processors. -/
structure Inputs (α : Type) where
  lookup : String → Option (Value α)
  processors : Nat

instance {α : Type} : CoeFun (Inputs α) fun _ => String → Option (Value α) := ⟨Inputs.lookup⟩

namespace Eval
variable {α : Type} [Element α]

def data (node : NodeRef) (shape : Shape) : Option (Value α) → Except (EvalFault α) (Value α)
  | none => .error (.noValue node)
  | some v => match shape.dataType, v with
    | .scalar, .matrix _ => .error (.notScalar node)
    | .matrix, .scalar _ => .error (.notMatrix node)
    | .matrix, .matrix m =>
      if (0 ≤ shape.rows ∧ shape.rows ≠ m.rows) ∨ (0 ≤ shape.cols ∧ shape.cols ≠ m.cols) then
        .error (.wrongSize node shape.rows shape.cols m.rows m.cols)
      else .ok v
    | _, _ => .ok v

def asMatrix (node : NodeRef) : Value α → Except (EvalFault α) (Matrix α)
  | .scalar a => .error (.scalarOperand node a)
  | .matrix m => .ok m

def unary (node : NodeRef) (op : UnaryOp) (x : Value α) : Except (EvalFault α) (Value α) :=
  match op with
  | .nrow => .ok (.scalar (Element.ofInt x.rows))
  | .ncol => .ok (.scalar (Element.ofInt x.cols))
  | .unknown _ => .error (.unknownUnary node)

def elementFn? : BinaryOp → Option (α → α → α)
  | .mult => some Element.mul
  | .pow => some Element.pow
  | .plus => some Element.add
  | .minus => some Element.sub
  | .div => some Element.div
  | .unknown _ => none

def nonempty (m : Matrix α) : Except (EvalFault α) (Value α) :=
  if m.rows = 0 ∨ m.cols = 0 then .error .zeroLength else .ok (.matrix m)

def zip (node : NodeRef) (f : α → α → α) (a b : Matrix α) : Except (EvalFault α) (Value α) :=
  match hr : Matrix.commonDim? a.rows b.rows with
  | none => .error (.incompatible node a.rows b.rows)
  | some rows => match hc : Matrix.commonDim? a.cols b.cols with
    | none => .error (.incompatible node a.cols b.cols)
    | some cols =>
      nonempty (a.zipWith f b rows cols (Matrix.commonDim?_pos hr) (Matrix.commonDim?_pos hc))

def elementwise (node : NodeRef) (f : α → α → α) :
    Value α → Value α → Except (EvalFault α) (Value α)
  | .scalar a, .scalar b => .ok (.scalar (f a b))
  | .scalar a, .matrix n => nonempty (n.map (f a))
  | .matrix m, .scalar b => nonempty (m.map (f · b))
  | .matrix m, .matrix n => zip node f m n

def binary (node : NodeRef) (op : BinaryOp) (lhs rhs : Value α) :
    Except (EvalFault α) (Value α) :=
  match elementFn? op with
  | none => .error (.unknownBinary node)
  | some f => elementwise node f lhs rhs

def matMul (node : NodeRef) (lhs rhs : Value α) : Except (EvalFault α) (Value α) := do
  let a ← asMatrix node lhs
  let b ← asMatrix node rhs
  if h : a.cols = b.rows then nonempty (a.mul b h) else .error .innerDimensions

def transpose : Value α → Value α
  | .scalar a => .scalar a
  | .matrix m => .matrix m.transpose

def bound (node : NodeRef) : Value α → Except (EvalFault α) Int
  | .matrix _ => .error (.boundNotScalar node)
  | .scalar a => match Element.toInt? a with
    | some n => .ok n
    | none => .error (.boundNotInteger node a)

def block (node : NodeRef) (rows cols : Nat) (rowLower rowUpper colLower colUpper : Int) :
    Except (EvalFault α) (Matrix.Block rows cols) :=
  if h : (1 ≤ rowLower ∧ rowLower ≤ rowUpper ∧ rowUpper ≤ rows) ∧
      1 ≤ colLower ∧ colLower ≤ colUpper ∧ colUpper ≤ cols then
    .ok { top := (rowLower - 1).toNat
          left := (colLower - 1).toNat
          height := (rowUpper - rowLower + 1).toNat
          width := (colUpper - colLower + 1).toNat
          top_add_height_le := by omega
          left_add_width_le := by omega }
  else .error (.outOfBounds node rowLower rowUpper colLower colUpper rows cols)

def blockOf (node : NodeRef) (rows cols : Nat) (rowLower rowUpper colLower colUpper : Value α) :
    Except (EvalFault α) (Matrix.Block rows cols) := do
  let rl ← bound node rowLower
  let ru ← bound node rowUpper
  let cl ← bound node colLower
  let cu ← bound node colUpper
  block node rows cols rl ru cl cu

def indexing (node : NodeRef) (target rowLower rowUpper colLower colUpper : Value α) :
    Except (EvalFault α) (Value α) := do
  let m ← asMatrix node target
  let b ← blockOf node m.rows m.cols rowLower rowUpper colLower colUpper
  return .matrix (m.read b)

def writeBlock (node : NodeRef) (m : Matrix α) (b : Matrix.Block m.rows m.cols) :
    Value α → Except (EvalFault α) (Value α)
  | .scalar a => .ok (.matrix (m.write b fun _ _ => a))
  | .matrix v =>
    if h : v.rows = b.height ∧ v.cols = b.width then
      .ok (.matrix (m.write b fun i j => v.get (i.cast h.1.symm) (j.cast h.2.symm)))
    else .error (.writeSize node v.rows v.cols b.height b.width)

def leftIndexing (node : NodeRef) (target value rowLower rowUpper colLower colUpper : Value α) :
    Except (EvalFault α) (Value α) := do
  let m ← asMatrix node target
  let b ← blockOf node m.rows m.cols rowLower rowUpper colLower colUpper
  writeBlock node m b value

/-- A product chain. The third operand is taken only if there are exactly three. -/
def chain (processors : Nat) (node : NodeRef) (kind : Chain.Kind) (threads : Int)
    (operands : List (Value α)) : Except (EvalFault α) (Value α) := do
  let third ← match operands with
    | [_, _, w] => (asMatrix node w).map some
    | _ => .ok none
  match operands with
  | x :: v :: _ => do
    let x ← asMatrix node x
    let v ← asMatrix node v
    match Chain.execute processors kind threads (some x) (some v) third with
    | .ok m => .ok (.matrix m)
    | .error cause => .error (.chain node cause)
  | _ => .error (.missingOperand node)

/-- The value of an operation for given values of its operands. Variables are looked up among the
inputs, and have to fit their shape. -/
def apply (inputs : Inputs α) (node : NodeRef) (shape : Shape)
    (operands : List (Value α)) : Except (EvalFault α) (Value α) :=
  match node.op, operands with
  | .data name, _ => data node shape (inputs name)
  | .literal value, _ => .ok (.scalar (Element.ofNumber value))
  | .write _, x :: _ => .ok x
  | .unary op, x :: _ => unary node op x
  | .binary op, lhs :: rhs :: _ => binary node op lhs rhs
  | .matMul, lhs :: rhs :: _ => matMul node lhs rhs
  | .transpose, x :: _ => .ok (transpose x)
  | .indexing _, x :: rl :: ru :: cl :: cu :: _ => indexing node x rl ru cl cu
  | .leftIndexing _, x :: v :: rl :: ru :: cl :: cu :: _ => leftIndexing node x v rl ru cl cu
  | .chain kind threads, _ => chain inputs.processors node kind threads operands
  | .unknown _, _ => .error (.unknownKind node)
  | _, _ => .error (.missingOperand node)

end Eval
end LinearPlan
