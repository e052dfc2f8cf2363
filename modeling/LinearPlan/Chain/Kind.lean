import LinearPlan.Text.Quoted

/-!
# Kinds of product chains

A chain is a product with a matrix and its transpose that is computed in one go. `XtXv` is
`t(X) (X v)`, `XtwXv` scales the inner product by a column of weights, and `XtXvy` subtracts a
column from it.
-/
namespace LinearPlan.Chain

inductive Kind where
  | none
  | XtXv
  | XtwXv
  | XtXvy
  | unknown (code : Int)
deriving DecidableEq, Repr, Inhabited

namespace Kind

def ofCode : Int → Kind
  | 0 => .none
  | 1 => .XtXv
  | 2 => .XtwXv
  | 3 => .XtXvy
  | code => .unknown code

def code : Kind → Int
  | .none => 0
  | .XtXv => 1
  | .XtwXv => 2
  | .XtXvy => 3
  | .unknown code => code

def name : Kind → String
  | .none => "NONE"
  | .XtXv => "XtXv"
  | .XtwXv => "XtwXv"
  | .XtXvy => "XtXvy"
  | .unknown _ => "ChainType(invalid)"

def isValid : Kind → Bool
  | .XtXv | .XtwXv | .XtXvy => true
  | .none | .unknown _ => false

def hasThird : Kind → Bool
  | .XtwXv | .XtXvy => true
  | .none | .XtXv | .unknown _ => false

def numOperands (k : Kind) : Nat := if k.hasThird then 3 else 2

def ofName? (name : String) : Option Kind :=
  [Kind.XtXv, .XtwXv, .XtXvy].find? fun k => k.name == name

def unknownName (name : String) : String :=
  s!"unknown matrix multiplication chain type {Text.quoted name}"

end Kind
end LinearPlan.Chain
