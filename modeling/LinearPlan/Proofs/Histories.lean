import LinearPlan.Proofs.Rollback

/-!
# Histories of a graph

A graph has a history: calls and cuts, each made on what the previous one left, whether that one had
succeeded or not. A cut that stops halfway leaves empty slots, and no history goes on from there. Most
actions change no shape and no literal. They change edges, flags, tiles and marks of retirement, or discard
nodes, and a property that does not depend on these survives them (`Edit.Stable`). What is left is to
refresh a node and to create nodes; `Call.finish_creates` says what the latter can do.
-/
namespace LinearPlan

inductive Action where
  | call (c : Call)
  | cut (size : Int)
deriving DecidableEq, Repr

def Action.edit : Action → Edit Unit
  | .call c => c.edit
  | .cut size => Edit.truncate size

def Action.next? (action : Action) (g : Graph) : Option Graph :=
  match action.edit g with
  | .ok _ g' => some g'
  | .error fault g' => if fault.emptied = 0 then some g' else none

/-- The graph that some actions lead to, the last one first. -/
def history? (name : String) : List Action → Option Graph
  | [] => some (.empty name)
  | action :: earlier => (history? name earlier).bind action.next?

theorem Action.finish_of_next? {action : Action} {g g' : Graph} (h : action.next? g = some g') :
    action.edit.finish g = g' := by
  unfold next? at h
  split at h
  · rename_i hrun
    cases h
    exact Edit.finish_ok hrun
  · rename_i hrun
    split at h
    · cases h
      exact Edit.finish_error hrun
    · cases h

theorem history?_cons {name : String} {action : Action} {earlier : List Action} {g : Graph}
    (h : history? name (action :: earlier) = some g) :
    ∃ g₀, history? name earlier = some g₀ ∧ action.edit.finish g₀ = g := by
  obtain ⟨g₀, hg₀, hnext⟩ := Option.bind_eq_some_iff.1 h
  exact ⟨g₀, hg₀, Action.finish_of_next? hnext⟩

theorem Graph.Appends.cases {g g' : Graph} {n m : Node} {y : NodeId} (h : g.Appends n g')
    (hm : g'.get? y = some m) :
    (y = g.size ∧ m.core = n) ∨ y ≠ g.size ∧ ∃ n₀, g.get? y = some n₀ ∧ m.core = n₀.core := by
  have hcore := core?_eq_some hm
  rw [h.core] at hcore
  by_cases hy : y = g.size
  · rw [if_pos hy] at hcore
    exact .inl ⟨hy, (Option.some.inj hcore).symm⟩
  · rw [if_neg hy] at hcore
    obtain ⟨n₀, hn₀, he⟩ := get?_of_core? hcore
    exact .inr ⟨hy, n₀, hn₀, he.symm⟩

namespace Edit
open LinearPlan.Graph
variable {α β : Type} {P : Graph → Prop} {g : Graph}

theorem finish_bind {x : Edit α} {f : α → Edit β} {a : α} {g' : Graph} (h : x g = .ok a g') :
    (x >>= f).finish g = (f a).finish g' := by
  rw [finish, bind_ok h, finish]

theorem finish_discard (e : Edit α) (g : Graph) :
    (discard e : Edit Unit).finish g = e.finish g := by
  cases he : e g with
  | ok a g' => rw [finish_ok he, finish_ok (discard_ok he)]
  | error fault g' => rw [finish_error he, finish_error (discard_error he)]

theorem keeps_forM {f : α → Edit Unit} (h : ∀ a, Keeps P (f a)) (l : List α) :
    Keeps P (l.forM f) := by
  induction l with
  | nil => exact keeps_pure ()
  | cons a l ih => exact keeps_bind (h a) fun _ => ih

/-- A property of graphs that is about the shapes and the literals of the nodes that are there. -/
structure Stable (P : Graph → Prop) : Prop where
  modify : ∀ {g : Graph} {x : NodeId} {f : Node → Node}, P g →
    (∀ n, g.get? x = some n → (f n).shape = n.shape ∧ (f n).op.literalInt? = n.op.literalInt?) →
    P (g.modify x f)
  pop : ∀ {g : Graph}, P g → P { g with nodes := g.nodes.pop }

namespace Stable
variable (hP : Stable P)
include hP

theorem modifyNode (x : NodeId) {f : Node → Node}
    (hf : ∀ n, (f n).shape = n.shape ∧ (f n).op = n.op) : Keeps P (modifyNode x f) :=
  fun _ hg => hP.modify hg fun n _ => ⟨(hf n).1, congrArg Op.literalInt? (hf n).2⟩

theorem dropParent (child parent : NodeId) : Keeps P (dropParent child parent) := by
  refine keeps_bind (keeps_read _) fun c => ?_
  split
  · exact hP.modifyNode child fun _ => ⟨rfl, rfl⟩
  · exact keeps_bind (fun _ hg => hg) fun _ => keeps_bind (keeps_read _) fun _ => keeps_fail _

theorem detach (id : NodeId) (inputs : List NodeId) : Keeps P (detach id inputs) :=
  keeps_forM (fun x => hP.dropParent x id) inputs

theorem replaceInput (parent : NodeId) (pos : Int) (child : NodeId) :
    Keeps P (replaceInput parent pos child) := by
  refine keeps_bind (keeps_read _) fun p => keeps_bind (keeps_read _) fun c =>
    keeps_bind (keeps_read _) fun old => ?_
  split
  · exact keeps_fail _
  · split
    · exact keeps_pure _
    · exact keeps_bind (hP.dropParent old parent) fun _ =>
        keeps_bind (hP.modifyNode parent fun _ => ⟨rfl, rfl⟩) fun _ =>
          keeps_bind (hP.modifyNode child fun _ => ⟨rfl, rfl⟩) fun _ => keeps_pure _

theorem redirect (edges : List Edge) (old replacement : NodeId) :
    Keeps P (redirect edges old replacement) := by
  refine keeps_bind (keeps_discard (keeps_read _)) fun _ => keeps_bind (keeps_read _) fun _ =>
    keeps_forM (fun e => ?_) edges
  exact keeps_discard (hP.replaceInput e.parent e.pos replacement)

theorem retire (id : NodeId) : Keeps P (retire id) := by
  refine keeps_bind (keeps_read _) fun n => ?_
  split
  · exact keeps_bind (hP.detach id n.inputs) fun _ => hP.modifyNode id fun _ => ⟨rfl, rfl⟩
  · exact keeps_fail _

theorem retireAll (ids : List NodeId) : Keeps P (retireAll ids) := by
  refine keeps_bind (keeps_forM (fun id => ?_) ids) fun _ =>
    keeps_bind (keeps_forM (fun id => ?_) ids) fun _ => keeps_forM (fun id => ?_) ids
  · refine keeps_bind (keeps_read _) fun n => ?_
    split
    · exact keeps_pure _
    · exact keeps_bind (keeps_read _) fun _ => keeps_fail _
  · exact keeps_bind (keeps_read _) fun n => keeps_bind (hP.detach id n.inputs) fun _ =>
      hP.modifyNode id fun _ => ⟨rfl, rfl⟩
  · refine keeps_bind (keeps_read _) fun n => ?_
    split
    · exact hP.modifyNode id fun _ => ⟨rfl, rfl⟩
    · exact keeps_fail _

theorem emptyLast : Keeps P emptyLast :=
  keeps_bind (fun _ hg => hg) fun _ => keeps_bind (keeps_read _) fun n =>
    keeps_bind (hP.detach _ n.inputs) fun _ _ hg => hP.pop hg

theorem discardLast (emptied : Nat) : Keeps P (discardLast emptied) := by
  intro g hg
  have hkept := hP.emptyLast g hg
  cases h : Edit.emptyLast g with
  | ok u g' =>
    rw [finish_ok h] at hkept
    rwa [finish_ok (discardLast_ok emptied h)]
  | error fault g' =>
    rw [finish_error h] at hkept
    rwa [finish_error (discardLast_error emptied h)]

theorem truncate (size : Int) : Keeps P (truncate size) := by
  refine keeps_bind (fun _ hg => hg) fun g => ?_
  split
  · exact keeps_fail _
  · refine keeps_bind (keeps_forM (fun id => ?_) _) fun _ => keeps_forM hP.discardLast _
    refine keeps_bind (keeps_read _) fun n => ?_
    split
    · exact keeps_pure _
    · exact keeps_bind (fun _ hg => hg) fun _ => keeps_bind (keeps_read _) fun _ => keeps_fail _

theorem setFlags (x : NodeId) (f : SliceFlags → SliceFlags) : Keeps P (setFlags x f) := by
  intro g hg
  rcases live_cases x g with ⟨fault, hf⟩ | ⟨n, hn, -, hrun⟩
  · have hrun : Edit.setFlags x f g = .error fault g := bind_error hf
    rw [finish_error hrun]
    exact hg
  · -- Neither the old operation nor the new one is a literal.
    have hset : ∀ op, op.literalInt? = n.op.literalInt? →
        P (g.modify x fun m => { m with op := op }) := fun op hop =>
      hP.modify hg fun m hm => by
        rw [hn] at hm
        cases hm
        exact ⟨rfl, hop⟩
    rw [Edit.setFlags, finish_bind hrun]
    cases hop : n.op with
    | indexing flags => exact hset (.indexing (f flags)) (by rw [hop]; rfl)
    | leftIndexing flags => exact hset (.leftIndexing (f flags)) (by rw [hop]; rfl)
    | _ => exact hg

theorem setBlocks (x : NodeId) (blocks : BlockSizes) : Keeps P (setBlocks x blocks) :=
  keeps_bind (keeps_discard (keeps_read _)) fun _ => hP.modifyNode x fun _ => ⟨rfl, rfl⟩

end Stable

/-- Adding a node changes nothing, or adds it with the shape that sizing gives, or adds it with the shape
that sizing reached and cuts the graph again. -/
theorem addNode_trichotomy (op : Op) (inputs : List NodeId) (g : Graph) :
    (∃ fault, addNode op inputs g = .error fault g) ∨
    (∃ s, (g.attach (start g op inputs)).get? g.size = some (start g op inputs) ∧
      (g.attach (start g op inputs)).sizeNode g.size (start g op inputs) = .ok s ∧
      addNode op inputs g = .ok g.size (extended g op inputs s)) ∨
    ∃ fault cause,
      (g.attach (start g op inputs)).sizeNode g.size (start g op inputs) = .error fault ∧
      addNode op inputs g =
        .error cause ((truncate g.size).finish (extended g op inputs fault.reached)) := by
  rcases addNode_error_or_live (g := g) op inputs with ⟨fault, hf⟩ | hin
  · exact .inl ⟨fault, hf⟩
  have hrun := addNode_run op hin
  have hstart : (g.attach (start g op inputs)).get? g.size = some (start g op inputs) :=
    get?_attach_start hin
  cases hs : (g.attach (start g op inputs)).sizeNode g.size (start g op inputs) with
  | ok s =>
    refine .inr (.inl ⟨s, hstart, rfl, ?_⟩)
    rw [hrun, bind_ok (undoing_ok (refresh_ok hstart rfl hs))]
    rfl
  | error fault =>
    have hrefresh := refresh_error hstart rfl hs
    rw [← extended] at hrefresh
    cases hu : truncate g.size (extended g op inputs fault.reached) with
    | ok u g' =>
      refine .inr (.inr ⟨fault, fault.cause, rfl, ?_⟩)
      rw [finish_ok hu]
      exact hrun.trans (bind_error (undoing_error hrefresh hu))
    | error cause g' =>
      refine .inr (.inr ⟨fault, cause, rfl, ?_⟩)
      have hundo : undoing (refresh g.size) (truncate g.size) (g.attach (start g op inputs)) =
          .error cause g' := by simp only [undoing, hrefresh, hu]
      rw [finish_error hu]
      exact hrun.trans (bind_error hundo)

end Edit

namespace Call
open Edit

def counts : Call → List Int
  | .data _ _ rows cols nnz | .matrix _ rows cols nnz => [rows, cols, nnz]
  | _ => []

/-- What creating nodes can do to a graph, for some declared counts. -/
inductive Creation (counts : List Int) (g : Graph) : Graph → Prop
  | nothing : Creation counts g g
  | node (op : Op) (inputs : List NodeId) : Creation counts g ((addNode op inputs).finish g)
  | power (exponent : Number) (op : Op) (inputs : List NodeId) : Creation counts g
      ((addNode op inputs).finish (extended g (.literal exponent) [] (.ofLiteral exponent)))
  | declared (name : String) (dataType : DataType) (rows cols nnz : Int)
      (h : ∀ k ∈ [rows, cols, nnz], k ∈ counts ∨ -1 ≤ k) : Creation counts g
      (extended g (.data name) [] (.declared dataType rows cols nnz))

theorem finish_creates {call : Call} (h : call.creates = true) (g : Graph) :
    Creation call.counts g (call.edit.finish g) := by
  have hguard : ∀ {c : Prop} [Decidable c] {counts : List Int} {fault : Fault} {op : Op}
      {inputs : List NodeId},
      Creation counts g ((if c then fail fault else addNode op inputs : Edit NodeId).finish g) := by
    intro c _ counts fault op inputs
    split
    · exact .nothing
    · exact .node op inputs
  have hdata : ∀ {counts : List Int} {name : String} {dataType : DataType} {rows cols nnz : Int},
      (∀ k ∈ [rows, cols, nnz], k ∈ counts ∨ -1 ≤ k) →
      Creation counts g ((Edit.data name dataType rows cols nnz).finish g) := by
    intro counts name dataType rows cols nnz hk
    rw [finish_ok (data_run g name dataType rows cols nnz)]
    exact .declared name dataType rows cols nnz hk
  cases call with
  | data _ _ _ _ _ | matrix _ _ _ _ =>
    rw [edit, finish_discard]
    exact hdata fun k hk => .inl hk
  | scalar _ =>
    rw [edit, finish_discard]
    have hk : ∀ k ∈ [0, 0, (-1 : Int)], -1 ≤ k := by decide
    exact hdata fun k hm => .inr (hk k hm)
  | literal _ | write _ _ | matMul _ _ | transpose _ | indexing _ _ _ _ _ _
  | leftIndexing _ _ _ _ _ _ _ =>
    rw [edit, finish_discard]
    exact .node _ _
  | unary _ _ | binary _ _ _ =>
    rw [edit, finish_discard]
    exact hguard
  | mult lhs rhs =>
    rw [edit, finish_discard, Edit.mult]
    exact hguard
  | pow base exponent =>
    rw [edit, finish_discard, Edit.pow, finish_bind (literal_run g _), Edit.binary, if_neg (by decide)]
    exact .power _ _ _
  | chain kind threads operands =>
    rw [edit, finish_discard, Edit.chain]
    split
    · exact .nothing
    · exact hguard
  | countNode x columns =>
    rw [edit, finish_discard]
    rcases live_cases x g with ⟨fault, hf⟩ | ⟨n, -, -, hrun⟩
    · have hrun : Edit.countNode x columns g = .error fault g := bind_error hf
      rw [finish_error hrun]
      exact .nothing
    · rw [Edit.countNode, finish_bind hrun]
      dsimp only
      generalize (if columns then n.shape.cols else n.shape.rows) = count
      split
      · exact .node _ _
      · exact hguard
  | _ => cases h

end Call

namespace Action
open Edit

def counts : Action → List Int
  | .call c => c.counts
  | .cut _ => []

theorem creates_or_refreshes_or_keeps (action : Action) :
    (∃ c, c.creates = true ∧ action = .call c) ∨ (∃ x, action = .call (.refresh x)) ∨
      ∀ {P : Graph → Prop}, Stable P → Keeps P action.edit := by
  cases action with
  | cut size => exact .inr (.inr fun hP => hP.truncate size)
  | call c =>
    cases c with
    | replaceInput parent pos child =>
      exact .inr (.inr fun hP => keeps_discard (hP.replaceInput parent pos child))
    | redirect edges old replacement =>
      exact .inr (.inr fun hP => hP.redirect edges old replacement)
    | redirectParents old replacement =>
      exact .inr (.inr fun hP => keeps_discard (keeps_bind (keeps_read _) fun edges =>
        keeps_bind (hP.redirect edges old replacement) fun _ => keeps_pure _))
    | retire id => exact .inr (.inr fun hP => hP.retire id)
    | retireAll ids => exact .inr (.inr fun hP => hP.retireAll ids)
    | refresh id => exact .inr (.inl ⟨id, rfl⟩)
    | setRowFlag id value => exact .inr (.inr fun hP => hP.setFlags id _)
    | setColFlag id value => exact .inr (.inr fun hP => hP.setFlags id _)
    | setBlocks id blocks => exact .inr (.inr fun hP => hP.setBlocks id blocks)
    | _ => exact .inl ⟨_, rfl, rfl⟩

end Action
end LinearPlan
