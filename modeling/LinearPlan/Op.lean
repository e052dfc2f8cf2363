import LinearPlan.Chain.Kind
import LinearPlan.Number.Text

/-!
# Operations

The operations of a plan, with what each of them carries: the name of a variable, the value of a
literal, the flags of a slice. Every enumeration has codes, and codes without a meaning are kept as
`unknown`. For element-wise and unary operations code zero stands for no operation.
-/
namespace LinearPlan

inductive UnaryOp where
  | nrow
  | ncol
  | unknown (code : Int)
deriving DecidableEq, Repr, Inhabited

namespace UnaryOp

def ofCode : Int → UnaryOp
  | 1 => .nrow
  | 2 => .ncol
  | code => .unknown code

def code : UnaryOp → Int
  | .nrow => 1
  | .ncol => 2
  | .unknown code => code

def absent : UnaryOp := .unknown 0

def name : UnaryOp → String
  | .nrow => "nrow"
  | .ncol => "ncol"
  | .unknown code => if code = 0 then "?" else s!"UnaryOp({code})"

end UnaryOp

inductive BinaryOp where
  | mult
  | pow
  | plus
  | minus
  | div
  | unknown (code : Int)
deriving DecidableEq, Repr, Inhabited

namespace BinaryOp

def ofCode : Int → BinaryOp
  | 1 => .mult
  | 2 => .pow
  | 3 => .plus
  | 4 => .minus
  | 5 => .div
  | code => .unknown code

def code : BinaryOp → Int
  | .mult => 1
  | .pow => 2
  | .plus => 3
  | .minus => 4
  | .div => 5
  | .unknown code => code

def absent : BinaryOp := .unknown 0

def name : BinaryOp → String
  | .mult => "*"
  | .pow => "^"
  | .plus => "+"
  | .minus => "-"
  | .div => "/"
  | .unknown code => if code = 0 then "?" else s!"BinaryOp({code})"

end BinaryOp

inductive OpKind where
  | data
  | literal
  | write
  | unary
  | binary
  | matMul
  | transpose
  | indexing
  | leftIndexing
  | chain
  | unknown (code : Int)
deriving DecidableEq, Repr, Inhabited

namespace OpKind

def ofCode : Int → OpKind
  | 1 => .data
  | 2 => .literal
  | 3 => .write
  | 4 => .unary
  | 5 => .binary
  | 6 => .matMul
  | 7 => .transpose
  | 8 => .indexing
  | 9 => .leftIndexing
  | 10 => .chain
  | code => .unknown code

def code : OpKind → Int
  | .data => 1
  | .literal => 2
  | .write => 3
  | .unary => 4
  | .binary => 5
  | .matMul => 6
  | .transpose => 7
  | .indexing => 8
  | .leftIndexing => 9
  | .chain => 10
  | .unknown code => code

def name : OpKind → String
  | .data => "Data"
  | .literal => "Literal"
  | .write => "Write"
  | .unary => "Unary"
  | .binary => "Binary"
  | .matMul => "MatMul"
  | .transpose => "Transpose"
  | .indexing => "Indexing"
  | .leftIndexing => "LeftIndexing"
  | .chain => "MMChain"
  | .unknown code => if code = 0 then "Invalid" else s!"OpType({code})"

end OpKind

/-- Which bounds of a slice are known to be equal, so that it has one row or one column. -/
structure SliceFlags where
  row : Bool
  col : Bool
deriving DecidableEq, Repr, Inhabited

inductive Op where
  | data (name : String)
  | literal (value : Number)
  | write (name : String)
  | unary (op : UnaryOp)
  | binary (op : BinaryOp)
  | matMul
  | transpose
  /-- Reads a slice: target, first and last row, first and last column. -/
  | indexing (flags : SliceFlags)
  /-- Writes a slice: target, value, first and last row, first and last column. -/
  | leftIndexing (flags : SliceFlags)
  | chain (kind : Chain.Kind) (threads : Int)
  | unknown (code : Int)
deriving DecidableEq, Repr, Inhabited

namespace Op

def kind : Op → OpKind
  | .data _ => .data
  | .literal _ => .literal
  | .write _ => .write
  | .unary _ => .unary
  | .binary _ => .binary
  | .matMul => .matMul
  | .transpose => .transpose
  | .indexing _ => .indexing
  | .leftIndexing _ => .leftIndexing
  | .chain _ _ => .chain
  | .unknown code => .unknown code

/-- The number of operands. An unknown operation has none that could be told. -/
def arity? : Op → Option Nat
  | .data _ | .literal _ => some 0
  | .write _ | .unary _ | .transpose => some 1
  | .binary _ | .matMul => some 2
  | .indexing _ => some 5
  | .leftIndexing _ => some 6
  | .chain kind _ => some kind.numOperands
  | .unknown _ => none

def name : Op → String
  | .data name | .write name => name
  | _ => ""

def binaryOp : Op → BinaryOp
  | .binary op => op
  | _ => .absent

def unaryOp : Op → UnaryOp
  | .unary op => op
  | _ => .absent

def literalInt? : Op → Option Int
  | .literal value => value.toInt?
  | _ => none

def sliceFlags? : Op → Option SliceFlags
  | .indexing flags | .leftIndexing flags => some flags
  | _ => none

def isMult (op : Op) : Bool := op.binaryOp == .mult

def sliceSuffix (flags : SliceFlags) : String :=
  match flags with
  | ⟨false, false⟩ => ""
  | ⟨true, false⟩ => "[r]"
  | ⟨false, true⟩ => "[c]"
  | ⟨true, true⟩ => "[rc]"

def text (op : Op) : String :=
  op.kind.name ++ match op with
    | .data name | .write name => s!"({name})"
    | .literal value => s!"({value.text})"
    | .unary op => s!"({op.name})"
    | .binary op => s!"({op.name})"
    | .indexing flags | .leftIndexing flags => sliceSuffix flags
    | .chain kind threads => s!"({kind.name},k={threads})"
    | .matMul | .transpose | .unknown _ => ""

end Op
end LinearPlan
