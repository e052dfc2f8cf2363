import LinearPlan.Optimizer.Report

/-!
# Passes

A pass goes down from the roots of a graph and offers every node it meets to the rules, once and
before its operands. A rule may put another node in the place of the one it is offered; the pass
then goes on below the replacement. Rules may also mark nodes as already visited, and ask for nodes
to be visited later.

The descent is a program of bounded length: `descend` works on a task with fuel, and `settle` gives
it enough fuel for the graph at hand.
-/
namespace LinearPlan.Optimizer

/-- An offer of a node, answered by the rule at some position. -/
structure Offer where
  rule : Nat
  node : NodeId
deriving DecidableEq, Repr

structure Pass where
  graph : Graph
  /-- Nodes that were descended, or that rules asked not to descend. -/
  visited : List NodeId
  /-- Nodes that rules asked to visit later, first one first. -/
  pending : List NodeId
  /-- Replaced nodes and their replacements, latest first. -/
  replaced : List (NodeId × NodeId)
  stats : Stats
  records : List Record
  offers : List Offer
deriving DecidableEq, Repr

def Pass.start (graph : Graph) : Pass := ⟨graph, [], [], [], .empty, [], []⟩

/-- The node that stands for a given one after all replacements. Chains of replacements are no
longer than their number. -/
def Pass.latestFrom (replaced : List (NodeId × NodeId)) : Nat → NodeId → NodeId
  | 0, id => id
  | fuel + 1, id => match replaced.lookup id with
    | some next => latestFrom replaced fuel next
    | none => id

def Pass.latest (p : Pass) (id : NodeId) : NodeId := latestFrom p.replaced p.replaced.length id

inductive Interruption where
  | fault (cause : Fault)
  | complaint (text : String)
  | abort (text : String)
deriving DecidableEq, Repr

def Interruption.message : Interruption → String
  | .fault cause => cause.message
  | .complaint text => text
  | .abort text => text

abbrev RuleM := EStateM Interruption Pass

/-- A rule is offered nodes. It returns the replacement of a node, if it has one. -/
structure Rule where
  name : String
  apply : NodeId → RuleM (Option NodeId)

namespace RuleM
variable {α : Type}

def read (f : Graph → Except Fault α) : RuleM α := fun p =>
  match f p.graph with
  | .ok a => .ok a p
  | .error cause => .error (.fault cause) p

def edit (e : Edit α) : RuleM α := fun p =>
  match e p.graph with
  | .ok a g => .ok a { p with graph := g }
  | .error cause g => .error (.fault cause) { p with graph := g }

def stop (cause : Interruption) : RuleM α := fun p => .error cause p

def isVisited (id : NodeId) : RuleM Bool := fun p => .ok (decide (id ∈ p.visited)) p

def markVisited (ids : List NodeId) : RuleM Unit := fun p =>
  .ok () { p with visited := ids ++ p.visited }

def resume (ids : List NodeId) : RuleM Unit := fun p =>
  .ok () { p with pending := p.pending ++ ids }

def record (rule : String) (node replacement : NodeId) (summary : String) : RuleM Unit := fun p =>
  .ok () { p with records := p.records ++ [⟨p.graph.name, rule, node, replacement, summary⟩] }

end RuleM

inductive PassFault where
  | inRule (rule : String) (node : NodeId) (cause : Interruption)
  | fault (cause : Fault)
  | retiredReplacement (rule : String) (node replacement : NodeId)
  | notRedirected (node replacement : NodeId) (pos : Nat) (parent : NodeRef)
  | endless
deriving DecidableEq, Repr

abbrev PassM := EStateM PassFault Pass

namespace PassM
variable {α : Type}

def read (f : Graph → Except Fault α) : PassM α := fun p =>
  match f p.graph with
  | .ok a => .ok a p
  | .error cause => .error (.fault cause) p

def fail (fault : PassFault) : PassM α := fun p => .error fault p

def isVisited (id : NodeId) : PassM Bool := fun p => .ok (decide (id ∈ p.visited)) p

def enter (id : NodeId) : PassM Unit := fun p =>
  .ok () { p with visited := id :: p.visited, stats := p.stats.countVisit }

def takePending : PassM (Option NodeId) := fun p =>
  match p.pending with
  | [] => .ok none p
  | id :: rest => .ok (some id) { p with pending := rest }

def applyRule (position : Nat) (rule : Rule) (id : NodeId) : PassM (Option NodeId) := fun p =>
  match rule.apply id p with
  | .ok result p => .ok result { p with offers := p.offers ++ [⟨position, id⟩] }
  | .error cause p => .error (.inRule rule.name id cause) p

def noteReplaced (rule : String) (id replacement : NodeId) : PassM Unit := fun p =>
  .ok () { p with
    stats := p.stats.countApplied rule
    replaced := (id, replacement) :: p.replaced }

def accept (rule : Rule) (id : NodeId) : Option NodeId → PassM NodeId
  | none => pure id
  | some replacement =>
    if replacement = id then pure id
    else do
      let n ← read (·.node replacement)
      if n.retired then fail (.retiredReplacement rule.name id replacement)
      else do
        noteReplaced rule.name id replacement
        return replacement

def offer (rules : List (Rule × Nat)) (id : NodeId) : PassM NodeId :=
  rules.foldlM (fun id rule => do accept rule.1 id (← applyRule rule.2 rule.1 id)) id

inductive Task where
  | node (id : NodeId)
  | operands (id : NodeId) (pos : Nat)
  | pending
deriving DecidableEq, Repr

def requireRedirected (id : NodeId) (pos : Nat) (child replacement : NodeId) : PassM Unit :=
  if replacement = child then pure ()
  else do
    let n ← read (·.node id)
    let found ← read fun _ => n.input id pos
    if found = replacement then pure ()
    else fail (.notRedirected child replacement pos ⟨id, n.op⟩)

/-- Works on a task. Operands are read anew at every step, as rules may change them. -/
def descend (rules : List (Rule × Nat)) : Nat → Task → PassM Unit
  | 0, _ => fail .endless
  | fuel + 1, .node id => do
    if ← isVisited id then pure ()
    else do
      enter id
      discard <| read (·.node id)
      descend rules fuel (.operands id 0)
  | fuel + 1, .operands id pos => do
    let n ← read (·.node id)
    match n.inputs[pos]? with
    | none => pure ()
    | some child => do
      if ← isVisited child then pure ()
      else do
        let replacement ← offer rules child
        requireRedirected id pos child replacement
        descend rules fuel .pending
      let next ← read fun g => do (← g.node id).input id pos
      descend rules fuel (.node next)
      descend rules fuel (.operands id (pos + 1))
  | fuel + 1, .pending => do
    match ← takePending with
    | none => pure ()
    | some id => do
      if ← isVisited id then pure ()
      else do
        let n ← read (·.node id)
        if n.retired then pure ()
        else do
          let replacement ← offer rules id
          descend rules fuel (.node replacement)
      descend rules fuel .pending

def weight (g : Graph) : Nat := g.nodes.foldl (fun n node => n + 1 + node.inputs.length) 0

/-- The fuel for one root. It leaves room for all nodes that rules may add. -/
def fuelFor (g : Graph) : Nat := Nat.pow (weight g + 8) 4

def settle (rules : List (Rule × Nat)) (root : NodeId) : PassM NodeId := do
  let p ← get
  let root := p.latest root
  let root ← if root ∈ p.visited then pure root else offer rules root
  let fuel := fuelFor (← get).graph
  descend rules fuel (.node root)
  descend rules fuel .pending
  return (← get).latest root

def run (rules : List Rule) (roots : List NodeId) : PassM (List NodeId) :=
  roots.mapM (settle rules.zipIdx)

end PassM
end LinearPlan.Optimizer
