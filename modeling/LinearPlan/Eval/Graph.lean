import LinearPlan.Eval.Basic

/-!
# Evaluating graphs

The value of a node is the value of its operation at the values of its operands. `Graph.value`
computes it by plain recursion; `Graph.evaluate` computes every node once and keeps its value.
-/
namespace LinearPlan
namespace Graph
variable {α : Type} [Element α]

def evalNode (g : Graph) (id : NodeId) : Except (EvalFault α) Node :=
  match g.node id with
  | .error cause => .error (.invalid cause)
  | .ok n => if n.retired then .error (.retired ⟨id, n.op⟩) else .ok n

def valueAt (g : Graph) (inputs : Inputs α) :
    Nat → NodeId → Except (EvalFault α) (Value α)
  | 0, id => .error (.cyclic id)
  | fuel + 1, id => do
    let n ← g.evalNode id
    let operands ← n.inputs.mapM (g.valueAt inputs fuel)
    Eval.apply inputs ⟨id, n.op⟩ n.shape operands

/-- The value of a node. In a graph without cycles no path is longer than the number of nodes. -/
def value (g : Graph) (inputs : Inputs α) (id : NodeId) :
    Except (EvalFault α) (Value α) :=
  g.valueAt inputs (g.size + 1) id

abbrev Memo (α : Type) := Array (Option (Value α))

def Memo.find? (memo : Memo α) (id : NodeId) : Option (Value α) :=
  if 0 ≤ id then memo[id.toNat]?.join else none

def Memo.store (memo : Memo α) (id : NodeId) (v : Value α) : Memo α :=
  memo.setIfInBounds id.toNat (some v)

def sharedAll (step : Memo α → NodeId → Except (EvalFault α) (Value α × Memo α)) :
    Memo α → List NodeId → Except (EvalFault α) (List (Value α) × Memo α)
  | memo, [] => .ok ([], memo)
  | memo, id :: rest => do
    let (v, memo) ← step memo id
    let (vs, memo) ← sharedAll step memo rest
    return (v :: vs, memo)

def sharedAt (g : Graph) (inputs : Inputs α) :
    Nat → Memo α → NodeId → Except (EvalFault α) (Value α × Memo α)
  | 0, _, id => .error (.cyclic id)
  | fuel + 1, memo, id => match memo.find? id with
    | some v => .ok (v, memo)
    | none => do
      let n ← g.evalNode id
      let (operands, memo) ← sharedAll (g.sharedAt inputs fuel) memo n.inputs
      let v ← Eval.apply inputs ⟨id, n.op⟩ n.shape operands
      return (v, memo.store id v)

/-- The values of some roots, every node evaluated once. -/
def evaluate (g : Graph) (inputs : Inputs α) (roots : List NodeId) :
    Except (EvalFault α) (List (Value α)) := do
  let (values, _) ← sharedAll (g.sharedAt inputs (g.size + 1)) (Array.replicate g.size none) roots
  return values

def evalMessage (g : Graph) (fault : EvalFault α) : String :=
  s!"evaluating graph {Text.quoted g.name}: {fault.message}"

end Graph
end LinearPlan
