/-!
# Shapes

What is known of the value of a node before it is computed: its type, its dimensions, and a bound
on its non-zero entries. A negative dimension or count is not known. Scalars have dimensions zero.
-/
namespace LinearPlan

inductive DataType where
  | scalar
  | matrix
  | frame
  | object
  | unknown
  | other (code : Int)
deriving DecidableEq, Repr, Inhabited

namespace DataType

def ofCode : Int → DataType
  | 0 => .scalar
  | 1 => .matrix
  | 2 => .frame
  | 3 => .object
  | 4 => .unknown
  | code => .other code

def rank : DataType → Int
  | .scalar => 0
  | .matrix => 1
  | .frame => 2
  | .object => 3
  | .unknown => 4
  | .other code => code

def name : DataType → String
  | .scalar => "scalar"
  | .matrix => "matrix"
  | .frame => "frame"
  | .object => "object"
  | .unknown => "unknown"
  | .other code => s!"DataType({code})"

def higher (a b : DataType) : DataType := if a.rank < b.rank then b else a

end DataType

inductive ValueType where
  | float64
  | int64
deriving DecidableEq, Repr, Inhabited

def ValueType.name : ValueType → String
  | .float64 => "Float64"
  | .int64 => "Int64"

structure Shape where
  dataType : DataType
  valueType : ValueType
  rows : Int
  cols : Int
  nnz : Int
deriving DecidableEq, Repr, Inhabited

namespace Shape

def ofScalar (valueType : ValueType) : Shape := ⟨.scalar, valueType, 0, 0, -1⟩

def initial : Shape := ⟨.scalar, .float64, -1, -1, -1⟩

/-- The shape of a variable. Only matrices have dimensions to be declared. -/
def declared (dataType : DataType) (rows cols nnz : Int) : Shape :=
  match dataType with
  | .scalar => .ofScalar .float64
  | .matrix => ⟨.matrix, .float64, rows, cols, nnz⟩
  | other => ⟨other, .float64, -1, -1, -1⟩

def isScalar (s : Shape) : Bool := s.dataType == .scalar

def isMatrix (s : Shape) : Bool := s.dataType == .matrix

def isColVector (s : Shape) : Bool := s.isMatrix && s.cols == 1

def isRowVector (s : Shape) : Bool := s.isMatrix && s.rows == 1

def countText (n : Int) : String := if n < 0 then "?" else toString n

def text (s : Shape) : String :=
  if s.isMatrix then s!"matrix {countText s.rows}x{countText s.cols} nnz={countText s.nnz}"
  else s.dataType.name

end Shape
end LinearPlan
