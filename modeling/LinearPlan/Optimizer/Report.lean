import LinearPlan.Graph.Basic
import LinearPlan.Text.Grouped

/-!
# Reports

What a pass says about itself: how many nodes it descended and how often each rule applied, and one
record for every replacement.
-/
namespace LinearPlan.Optimizer

structure Stats where
  visited : Int
  applied : List (String × Int)
deriving DecidableEq, Repr

namespace Stats

def empty : Stats := ⟨0, []⟩

def bump (rule : String) : List (String × Int) → List (String × Int)
  | [] => [(rule, 1)]
  | (name, n) :: rest => if name = rule then (name, n + 1) :: rest else (name, n) :: bump rule rest

def countVisit (s : Stats) : Stats := { s with visited := s.visited + 1 }

def countApplied (s : Stats) (rule : String) : Stats := { s with applied := bump rule s.applied }

/-- The number of all applications, in 64-bit arithmetic. -/
def total (s : Stats) : Int :=
  let sum : Int := (s.applied.map Prod.snd).foldl (· + ·) 0
  sum.bmod (Nat.pow 2 64)

def text (s : Stats) : String :=
  let sorted := s.applied.mergeSort fun a b => decide (¬ b.1 < a.1)
  s!"visited {Text.grouped s.visited} nodes, {Text.grouped s.total} rewrites applied" ++
    String.join (sorted.map fun e => s!", {e.1}={e.2}")

end Stats

structure Record where
  graph : String
  rule : String
  node : NodeId
  replacement : NodeId
  summary : String
deriving DecidableEq, Repr

def Record.text (r : Record) : String :=
  s!"[{r.rule}] graph {Text.quoted r.graph}: #{r.node} -> #{r.replacement}: {r.summary}"

end LinearPlan.Optimizer
