import LinearPlan.Graph.Reach
import LinearPlan.Text.Box
import LinearPlan.Text.Grouped

/-!
# Listings

The nodes reachable from some roots as text: one line per node, or a table.
-/
namespace LinearPlan

def Node.line (n : Node) (id : NodeId) : String :=
  s!"#{id} = {n.op.text}" ++ String.join (n.inputs.map fun x => s!" #{x}") ++
    s!" : {n.shape.text}\n"

def groupedCount (n : Int) : String := if n < 0 then "?" else Text.grouped n

def idsText (ids : List NodeId) : String := " ".intercalate (ids.map fun id => s!"#{id}")

def Node.cells (n : Node) (id : NodeId) : List String :=
  let counts :=
    if n.isMatrix then [n.shape.rows, n.shape.cols, n.shape.nnz].map groupedCount else ["", "", ""]
  [s!"#{id}", n.op.text, idsText n.inputs, idsText n.parents,
    s!"{n.shape.dataType.name}/{n.shape.valueType.name}"] ++ counts

def nodeColumns : List Text.Column :=
  [⟨"Id", .left⟩, ⟨"Op", .left⟩, ⟨"Inputs", .left⟩, ⟨"Parents", .left⟩, ⟨"Type", .left⟩,
    ⟨"Rows", .right⟩, ⟨"Cols", .right⟩, ⟨"Nnz", .right⟩]

namespace Graph

def reachableNodes (g : Graph) (roots : List NodeId) : Except Fault (List (NodeId × Node)) := do
  let ids ← g.reachable roots
  return ids.filterMap fun id => (g.get? id).map fun n => (id, n)

def listing (g : Graph) (roots : List NodeId) : Except Fault String := do
  let nodes ← g.reachableNodes roots
  return String.join (nodes.map fun e => e.2.line e.1)

def table (g : Graph) (roots : List NodeId) : Except Fault String := do
  let nodes ← g.reachableNodes roots
  let count := Text.grouped nodes.length
  return s!"Graph {Text.quoted g.name}: {count} nodes reachable\n" ++
    Text.boxed nodeColumns (nodes.map fun e => e.2.cells e.1) ++ "\n"

end Graph
end LinearPlan
