import LinearPlan.Graph.Build
import LinearPlan.Optimizer.Pass
import LinearPlan.Tally

/-!
# Factoring products

A tree of element-wise products is multiplied out: its leaves are counted, a leaf that occurs
several times becomes a power, and the terms are multiplied in a canonical order. Scalars and
column vectors come first and are multiplied from the left, then row vectors, then other matrices
with the densest first, then everything else. The rule applies when some leaf is repeated, there are
at least two products, and no inner product is needed elsewhere.
-/
namespace LinearPlan.Optimizer.Factoring

/-- The products of a tree, root first in order of discovery, the set of these products, and the
leaves. -/
structure Tree where
  interior : List NodeId
  members : List NodeId
  leaves : Tally NodeId
deriving DecidableEq, Repr

def Tree.empty : Tree := ⟨[], [], .empty⟩

def Tree.enter (t : Tree) (id : NodeId) : Tree :=
  if id ∈ t.members then t
  else { t with interior := t.interior ++ [id], members := id :: t.members }

def Tree.addLeaf (t : Tree) (id : NodeId) : Tree := { t with leaves := t.leaves.insert id }

/-- Adds a product and everything below it. A shared product is expanded once for every way that
leads to it, so each leaf is counted as often as it is a factor. -/
def expand (g : Graph) : Nat → Tree → NodeId → Except Fault Tree
  | 0, _, id => .error (.cyclic g.name id)
  | fuel + 1, t, id => do
    let n ← g.node id
    n.inputs.foldlM (fun t x => do
      let c ← g.node x
      if c.op.isMult then expand g fuel t x else return t.addLeaf x) (t.enter id)

def collect (g : Graph) (root : NodeId) : Except Fault Tree := expand g (g.size + 1) .empty root

def Tree.hasForeignParent (t : Tree) (g : Graph) : Bool :=
  (t.interior.drop 1).any fun id => (g.parentsOf id).any fun p => !t.members.contains p

def Tree.isFactorable (t : Tree) (g : Graph) : Bool :=
  decide (2 ≤ t.interior.length) && t.leaves.hasRepeated && !t.hasForeignParent g

inductive TermClass where
  | scalar
  | colVector
  | rowVector
  | matrix
  | frame
  | object
  | unknown
deriving DecidableEq, Repr

def TermClass.rank : TermClass → Nat
  | .scalar => 0
  | .colVector => 1
  | .rowVector => 2
  | .matrix => 3
  | .frame => 4
  | .object => 5
  | .unknown => 6

def TermClass.byDensity : TermClass → Bool
  | .colVector | .rowVector | .matrix => true
  | .scalar | .frame | .object | .unknown => false

def classify (s : Shape) : TermClass :=
  match s.dataType with
  | .scalar => .scalar
  | .matrix => if s.cols = 1 then .colVector else if s.rows = 1 then .rowVector else .matrix
  | .frame => .frame
  | .object => .object
  | .unknown | .other _ => .unknown

def compareLeaves (a b : NodeId × Shape) : Ordering :=
  let ca := classify a.2
  let cb := classify b.2
  (compare ca.rank cb.rank).then <|
    (if ca.byDensity then compare b.2.nnz a.2.nnz else .eq).then (compare a.1 b.1)

def precedes (g : Graph) (a b : NodeId) : Except Fault Bool := do
  let m ← g.node a
  let n ← g.node b
  return compareLeaves (a, m.shape) (b, n.shape) == .lt

def insertLeaf (g : Graph) (leaf : NodeId) : List NodeId → Except Fault (List NodeId)
  | [] => .ok [leaf]
  | last :: rest => do
    if ← precedes g leaf last then return last :: (← insertLeaf g leaf rest)
    else return leaf :: last :: rest

def sortLeaves (g : Graph) (leaves : List NodeId) : Except Fault (List NodeId) := do
  let sorted ← leaves.foldlM (fun sorted leaf => insertLeaf g leaf sorted) []
  return sorted.reverse

def times : Option NodeId → Option NodeId → Edit (Option NodeId)
  | none, rhs => pure rhs
  | lhs, none => pure lhs
  | some lhs, some rhs => some <$> Edit.mult lhs rhs

structure Groups where
  scalarsAndColVectors : Option NodeId
  rowVectors : Option NodeId
  matrices : Option NodeId
  others : Option NodeId
  powers : Nat
deriving DecidableEq, Repr

def Groups.empty : Groups := ⟨none, none, none, none, 0⟩

def Groups.insert (s : Groups) (cls : TermClass) (term : NodeId) : Edit Groups :=
  match cls with
  | .scalar | .colVector => do
    return { s with scalarsAndColVectors := ← times (some term) s.scalarsAndColVectors }
  | .rowVector => do return { s with rowVectors := ← times s.rowVectors (some term) }
  | .matrix => do return { s with matrices := ← times s.matrices (some term) }
  | .frame | .object | .unknown => do return { s with others := ← times s.others (some term) }

def Groups.addLeaf (count : NodeId → Nat) (s : Groups) (leaf : NodeId) : Edit Groups := do
  let repeated := decide (1 < count leaf)
  let term ← if repeated then Edit.pow leaf (count leaf) else pure leaf
  let n ← Edit.node leaf
  let s := if repeated then { s with powers := s.powers + 1 } else s
  s.insert (classify n.shape) term

def Groups.product (s : Groups) : Edit (Option NodeId) := do
  let p ← times s.others s.matrices
  let p ← times p s.rowVectors
  times p s.scalarsAndColVectors

/-- What building a product gives: its root if there were leaves, all new nodes, and the number of
powers. -/
structure Product where
  root : Option NodeId
  created : List NodeId
  powers : Nat
deriving DecidableEq, Repr

/-- Multiplies leaves in the given order. If that fails all new nodes are discarded. -/
def buildProduct (leaves : List NodeId) (count : NodeId → Nat) : Edit Product := do
  let first := (← get).size
  let (root, powers) ← Edit.undoing
    (do
      let groups ← leaves.foldlM (Groups.addLeaf count) .empty
      return (← groups.product, groups.powers))
    (Edit.truncate first)
  return ⟨root, (← get).ids.drop first, powers⟩

def ruleName : String := "emult"

def factor (id : NodeId) (tree : Tree) : RuleM (Option NodeId) := do
  let leaves ← RuleM.read (sortLeaves · tree.leaves.keys)
  let product ← RuleM.edit (buildProduct leaves tree.leaves.count)
  let root := product.root.getD (-1)
  RuleM.markVisited product.created
  let edges ← RuleM.edit (Edit.redirectParents id root)
  RuleM.edit (Edit.retireAll tree.interior)
  edges.forM fun e => RuleM.edit (Edit.refresh e.parent)
  RuleM.resume leaves
  RuleM.record ruleName id root
    s!"collapsed {tree.interior.length} elementwise multiplies into {product.powers} powers"
  return some root

def apply (id : NodeId) : RuleM (Option NodeId) := do
  let n ← RuleM.read (·.node id)
  if n.op.isMult then do
    let tree ← RuleM.read (collect · id)
    let p ← get
    if tree.isFactorable p.graph then factor id tree else return none
  else return none

def rule : Rule := ⟨ruleName, apply⟩

end LinearPlan.Optimizer.Factoring
