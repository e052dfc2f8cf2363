import LinearPlan.Graph.Listing
import LinearPlan.Graph.Validity
import LinearPlan.Optimizer.Pass

/-!
# Optimizing a graph

An optimizer runs a pass with its rules over a graph, and may check the graph afterwards. Whatever
happens, the outcome holds the state in which the pass ended: the graph, the statistics, and the
records.
-/
namespace LinearPlan.Optimizer

inductive Failure where
  | pass (graph : String) (cause : PassFault)
  | invalid (cause : Defect)
  | aborted (text : String)
deriving DecidableEq, Repr

def PassFault.message (graph : String) : PassFault → String
  | .inRule rule node cause =>
    s!"rewrite of graph {Text.quoted graph} failed in rule {Text.quoted rule} " ++
      s!"on node #{node}: {cause.message}"
  | .fault cause => s!"rewrite of graph {Text.quoted graph} failed: {cause.message}"
  | .retiredReplacement rule node replacement =>
    s!"rewrite of graph {Text.quoted graph} failed: rule {Text.quoted rule} " ++
      s!"replaced node #{node} by retired node #{replacement}"
  | .notRedirected node replacement pos parent =>
    s!"rewrite of graph {Text.quoted graph} failed: node #{node} was replaced by " ++
      s!"#{replacement}, but input #{pos} of its parent {parent.text} was not redirected"
  | .endless => s!"rewrite of graph {Text.quoted graph} failed: no end"

def Failure.message : Failure → String
  | .pass graph cause => cause.message graph
  | .invalid cause => s!"graph invalid after rewrite: {cause.message}"
  | .aborted text => text

structure Outcome where
  result : Except Failure (List NodeId)
  pass : Pass

/-- Runs a pass over a graph, and returns the new roots. -/
def optimize (rules : List Rule) (validate : Bool) (g : Graph) (roots : List NodeId) : Outcome :=
  match PassM.run rules roots (.start g) with
  | .error (.inRule _ _ (.abort text)) p => ⟨.error (.aborted text), p⟩
  | .error cause p => ⟨.error (.pass g.name cause), p⟩
  | .ok newRoots p =>
    if validate then
      match p.graph.check with
      | .error cause => ⟨.error (.invalid cause), p⟩
      | .ok _ => ⟨.ok newRoots, p⟩
    else ⟨.ok newRoots, p⟩

def logLine (s : String) : String := if s.toList.getLast? = some '\n' then s else s ++ "\n"

def Outcome.traceLog (o : Outcome) (level : Option Int) (verbosity : Int) : List String :=
  match level with
  | some level => if level ≤ verbosity then o.pass.records.map Record.text else []
  | none => []

def Outcome.closingLog (o : Outcome) (verbosity : Int) : Except Fault (List String) :=
  match o.result with
  | .error _ => .ok []
  | .ok roots => do
    let name := Text.quoted o.pass.graph.name
    let summary :=
      if 1 ≤ verbosity then [s!"rewrite of graph {name}: {o.pass.stats.text}"] else []
    if 2 ≤ verbosity then
      let table ← o.pass.graph.table roots
      return summary ++ [s!"graph {name} after rewrite:\n{table}"]
    else return summary

def Outcome.log (o : Outcome) (level : Option Int) (verbosity : Int) : Except Fault String := do
  let closing ← o.closingLog verbosity
  return String.join ((o.traceLog level verbosity ++ closing).map logLine)

end LinearPlan.Optimizer
