import LinearPlan.Graph.Basic

/-!
# Reachable nodes

The nodes that some roots depend on, each once, operands before their consumers and operands in
order of position.
-/
namespace LinearPlan

/-- How far a search has come: the nodes seen, and those finished, last one first. -/
structure Reach where
  seen : List NodeId
  finished : List NodeId
deriving DecidableEq, Repr

namespace Graph

/-- Visits a node and, before finishing it, its operands. Each level sees a new node, so one level
more than there are nodes is enough. -/
def reachFrom (g : Graph) : Nat → Reach → NodeId → Except Fault Reach
  | 0, r, _ => .ok r
  | fuel + 1, r, id =>
    if id ∈ r.seen then .ok r
    else do
      let n ← g.node id
      let r ← n.inputs.foldlM (g.reachFrom fuel) ⟨id :: r.seen, r.finished⟩
      return { r with finished := id :: r.finished }

/-- The nodes reachable from the roots, operands first. -/
def reachable (g : Graph) (roots : List NodeId) : Except Fault (List NodeId) := do
  let r ← roots.foldlM (g.reachFrom (g.size + 1)) ⟨[], []⟩
  return r.finished.reverse

end Graph
end LinearPlan
