import LinearPlan.Proofs.CallSequences
import LinearPlan.Proofs.Validity

/-!
# Edits of edges are atomic

An edit of edges makes all its checks on the graph as it finds it, and then its changes. Some of the
changes check again (an entry among the parents has to be there, a node is not to become its own
operand, no parents may be left); on graphs whose operands and parents match, these checks pass. So an
edit that fails has changed nothing, whatever its arguments are: ids that are out of range, retired or
given twice, and edges that are stale or given twice.

Nodes may be their own operands here, and have any number of operands.
-/
namespace LinearPlan

open Edit LinearPlan.Graph

/-- The edits of edges, and the listing of edges that goes before them. -/
inductive EdgeCall where
  | replaceInput (parent : NodeId) (pos : Int) (child : NodeId)
  | parentEdges (child : NodeId)
  | redirect (edges : List Edge) (old replacement : NodeId)
  | redirectParents (old replacement : NodeId)
  | retire (id : NodeId)
  | retireAll (ids : List NodeId)
deriving DecidableEq, Repr

namespace EdgeCall

def edit : EdgeCall → Edit Unit
  | .replaceInput parent pos child => discard <| Edit.replaceInput parent pos child
  | .parentEdges child => discard <| Edit.parentEdges child
  | .redirect edges old replacement => Edit.redirect edges old replacement
  | .redirectParents old replacement => discard <| Edit.redirectParents old replacement
  | .retire id => Edit.retire id
  | .retireAll ids => Edit.retireAll ids

def checkInner (g : Graph) (ids : List NodeId) (id : NodeId) : Except Fault Unit := do
  let n ← g.live id
  match n.parents.find? fun p => !ids.contains p with
  | none => return ()
  | some p => throw (.foreignParent ⟨id, n.op⟩ (← g.refOf p))

def prepareRedirect (g : Graph) (edges : List Edge) (old replacement : NodeId) :
    Except Fault (Edit Unit) := do
  discard <| g.live replacement
  edges.forM (g.checkEdge old replacement)
  return edges.forM fun e => discard <| Edit.replaceInput e.parent e.pos replacement

/-- The checks of a call. They read the graph only, and return the changes that are left to make. -/
def prepare (g : Graph) : EdgeCall → Except Fault (Edit Unit)
  | .replaceInput parent pos child => do
    let p ← g.live parent
    let c ← g.live child
    let old ← p.input parent pos
    if parent = child then throw (.selfLoop ⟨parent, p.op⟩ pos ⟨child, c.op⟩)
    else if old = child then return pure ()
    else return do
      dropParent old parent
      setInput parent pos child
      addParent child parent
  | .parentEdges child => do
    discard <| g.parentEdges child
    return pure ()
  | .redirect edges old replacement => prepareRedirect g edges old replacement
  | .redirectParents old replacement => do
    prepareRedirect g (← g.parentEdges old) old replacement
  | .retire id => do
    let n ← g.live id
    if n.parents = [] then return do
      detach id n.inputs
      modifyNode id fun n => { n with inputs := [], retired := true }
    else throw (.stillUsed ⟨id, n.op⟩ n.parents.length)
  | .retireAll ids => do
    ids.forM (checkInner g ids)
    return do
      ids.forM clearInputs
      ids.forM markRetired

/-- An edit is made of checks and changes: if the checks fail then so does the edit, and nothing is
changed; if they pass then the edit makes the changes, and these do not fail. -/
def SplitsInto (checks : Except Fault (Edit Unit)) (edit : Edit Unit) (g : Graph) : Prop :=
  match checks with
  | .error fault => edit g = .error fault g
  | .ok changes => edit g = changes g ∧ ∃ g', changes g = .ok () g'

theorem SplitsInto.unchanged {checks : Except Fault (Edit Unit)} {edit : Edit Unit} {g g' : Graph}
    {fault : Fault} (h : SplitsInto checks edit g) (hf : edit g = .error fault g') : g' = g := by
  cases checks with
  | error cause =>
    have hrun : edit g = .error cause g := h
    rw [hf] at hrun
    cases hrun
    rfl
  | ok changes =>
    obtain ⟨heq, g₁, hok⟩ := h
    rw [hf, hok] at heq
    cases heq

section Reading
variable {α β : Type} {g : Graph}

theorem discard_bind (x : Edit α) (f : α → Edit β) :
    discard (x >>= f) = x >>= fun a => discard (f a) := by
  show (fun _ => ()) <$> (x >>= f) = x >>= fun a => (fun _ => ()) <$> f a
  exact map_bind ..

theorem discard_read (f : Graph → Except Fault α) :
    discard (Edit.read f) = Edit.read fun g => discard (f g) := by
  funext g
  cases hf : f g with
  | error fault =>
    rw [discard_error (read_error hf), Edit.read, hf]
    rfl
  | ok a =>
    rw [discard_ok (read_ok hf), Edit.read, hf]
    rfl

theorem read_bind_read (f : Graph → Except Fault α) (h : α → Graph → Except Fault β) :
    (Edit.read f >>= fun a => Edit.read (h a)) = Edit.read fun g => f g >>= fun a => h a g := by
  funext g
  cases hf : f g with
  | error fault =>
    rw [bind_error (read_error hf), Edit.read, hf]
    rfl
  | ok a =>
    rw [bind_ok (read_ok hf), Edit.read, Edit.read, hf]
    rfl

theorem forM_read (f : α → Graph → Except Fault Unit) (l : List α) :
    (l.forM fun a => Edit.read (f a)) = Edit.read fun g => l.forM (f · g) := by
  induction l with
  | nil => rfl
  | cons a l ih =>
    show (Edit.read (f a) >>= fun _ => l.forM fun a => Edit.read (f a)) = _
    rw [ih, read_bind_read]
    rfl

theorem requireInner_eq (ids : List NodeId) (x : NodeId) :
    requireInner ids x = Edit.read (checkInner · ids x) := by
  refine (congrArg (Edit.live x >>= ·) (funext fun n => ?_)).trans (read_bind_read (·.live x) _)
  cases n.parents.find? fun p => !ids.contains p with
  | none => rfl
  | some p => exact read_bind_read (·.refOf p) fun r _ => throw (.foreignParent ⟨x, n.op⟩ r)

theorem SplitsInto.read {f : Graph → Except Fault α} {k : α → Edit Unit}
    {checks : α → Except Fault (Edit Unit)}
    (h : ∀ a, f g = .ok a → SplitsInto (checks a) (k a) g) :
    SplitsInto (f g >>= checks) (Edit.read f >>= k) g := by
  unfold SplitsInto
  cases hf : f g with
  | error fault => exact bind_error (read_error hf)
  | ok a =>
    have ha := h a hf
    rw [bind_ok (read_ok hf)]
    exact ha

end Reading

section Calls
variable {g : Graph} (hg : g.Matched)
include hg

theorem replaceInput_splits (parent : NodeId) (pos : Int) (child : NodeId) :
    SplitsInto (prepare g (.replaceInput parent pos child))
      (edit (.replaceInput parent pos child)) g := by
  simp only [prepare, edit, Edit.replaceInput, discard_bind]
  refine .read (f := (·.live parent)) fun p hp => .read (f := (·.live child)) fun c hc =>
    .read (f := fun _ => p.input parent pos) fun old hold => ?_
  obtain ⟨hp, hpl⟩ := live_eq_ok_iff.1 hp
  split
  · rfl
  · split
    · exact ⟨rfl, g, rfl⟩
    · have hmem : old ∈ g.inputsOf parent := by
        obtain ⟨k, -, hk⟩ := holds_of_input_eq (e := ⟨parent, pos⟩) hp hold
        exact List.mem_of_getElem? hk
      refine ⟨?_, _, bind_ok (dropParent_ok (hg.mem_iff.2 hmem))⟩
      simp only [discard_bind]
      rfl

theorem redirect_splits (edges : List Edge) (old replacement : NodeId) :
    SplitsInto (prepareRedirect g edges old replacement) (Edit.redirect edges old replacement) g := by
  unfold prepareRedirect Edit.redirect Edit.live
  rw [discard_read]
  refine .read (f := fun g => discard (g.live replacement)) fun _ hlive =>
    .read (f := fun g => edges.forM (g.checkEdge old replacement)) fun _ hcheck => ⟨rfl, ?_⟩
  cases hr : g.live replacement with
  | error fault =>
    rw [hr] at hlive
    cases hlive
  | ok r =>
    obtain ⟨hr, hrl⟩ := live_eq_ok_iff.1 hr
    obtain ⟨g', hg', -⟩ := forM_replaceInput_ok replaceInput_matched hg hr hrl fun e he =>
      movable_of_checkEdge (Outcome.forM_eq_ok_iff.1 hcheck e he)
    exact ⟨g', hg'⟩

theorem retire_splits (id : NodeId) :
    SplitsInto (prepare g (.retire id)) (edit (.retire id)) g := by
  refine .read (f := (·.live id)) fun n hn => ?_
  obtain ⟨hn, hr⟩ := live_eq_ok_iff.1 hn
  split
  · exact ⟨rfl, _, bind_ok (detach_inputs_ok hg hn)⟩
  · rfl

theorem retireAll_splits (ids : List NodeId) :
    SplitsInto (prepare g (.retireAll ids)) (edit (.retireAll ids)) g := by
  have hread : ids.forM (requireInner ids) = Edit.read fun g => ids.forM (checkInner g ids) := by
    rw [← forM_read, ← funext (requireInner_eq ids)]
  simp only [prepare, edit, Edit.retireAll, hread]
  refine .read (f := fun g => ids.forM (checkInner g ids)) fun _ hcheck => ⟨rfl, ?_⟩
  have hinner : ∀ x ∈ ids, Inner g ids x := by
    intro x hx
    have hx := Outcome.forM_eq_ok_iff.1 hcheck x hx
    rcases requireInner_cases (g := g) ids x with ⟨fault, hf⟩ | ⟨-, hinner⟩
    · rw [requireInner_eq, read_ok (f := (checkInner · ids x)) hx] at hf
      cases hf
    · exact hinner
  obtain ⟨g', hg', -⟩ := retireAll_run hg hinner
  exact ⟨g', hg'⟩

theorem splits (call : EdgeCall) : SplitsInto (prepare g call) (edit call) g := by
  cases call with
  | replaceInput parent pos child => exact replaceInput_splits hg parent pos child
  | parentEdges child =>
    simp only [prepare, edit, Edit.parentEdges, discard_read]
    rw [← bind_pure (Edit.read _)]
    exact .read (f := fun g => discard (g.parentEdges child)) fun _ _ => ⟨rfl, g, rfl⟩
  | redirect edges old replacement => exact redirect_splits hg edges old replacement
  | redirectParents old replacement =>
    simp only [prepare, edit, Edit.redirectParents, discard_bind]
    refine .read (f := (·.parentEdges old)) fun edges _ => ?_
    have hpure : (Edit.redirect edges old replacement >>= fun _ => discard (pure edges)) =
        Edit.redirect edges old replacement := bind_pure (Edit.redirect edges old replacement)
    rw [hpure]
    exact redirect_splits hg edges old replacement
  | retire id => exact retire_splits hg id
  | retireAll ids => exact retireAll_splits hg ids

end Calls

end EdgeCall

/-- A call that fails has changed nothing, and it can fail only in its checks, before the first
change. -/
theorem edgeCall_atomic {g : Graph} (h : g.Matched) (call : EdgeCall) :
    (∀ fault g', call.edit g = .error fault g' → g' = g) ∧
      EdgeCall.SplitsInto (call.prepare g) call.edit g :=
  ⟨fun _ _ hf => (EdgeCall.splits h call).unchanged hf, EdgeCall.splits h call⟩

def selfTransposed : Graph :=
  let g := (Graph.empty "g").afterCalls [.matrix "A" 2 2 (-1), .mult 0 0]
  { g with nodes := g.nodes.push ⟨.transpose, [2], [2], .initial, .standard, false⟩ }

theorem edgeCall_atomic_selfTransposed : selfTransposed.checkNodes = .ok () ∧
    (∀ fault g', (EdgeCall.redirect [⟨1, 0⟩, ⟨1, 0⟩, ⟨1, 1⟩] 0 2).edit selfTransposed =
      .error fault g' → g' = selfTransposed) ∧
    EdgeCall.SplitsInto ((EdgeCall.redirect [⟨1, 0⟩, ⟨1, 0⟩, ⟨1, 1⟩] 0 2).prepare selfTransposed)
      (EdgeCall.redirect [⟨1, 0⟩, ⟨1, 0⟩, ⟨1, 1⟩] 0 2).edit selfTransposed := by
  have hcheck : selfTransposed.checkNodes = .ok () := by decide +kernel
  exact ⟨hcheck, edgeCall_atomic (checkNodes_eq_ok_iff_consistent.1 hcheck).matched _⟩

example : (Edit.redirect [⟨1, 0⟩, ⟨2, 0⟩] 0 2).finish selfTransposed = selfTransposed := by
  decide +kernel

end LinearPlan
