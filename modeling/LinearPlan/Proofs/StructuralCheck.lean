import LinearPlan.Proofs.Validity

/-!
# The structural check

The check of a graph looks up nodes by the ids that other nodes hold, and these may be anything. Here
the check is written with look-ups that fail for an id out of range (`Indexed`), and is shown to be the
same: a fault never occurs. Operands and parents are looked up after their range has been tested. The
search for cycles tests nothing, it runs only on graphs whose nodes have passed.
-/
namespace LinearPlan

/-- A check whose look-ups may fail. It has a fault, or it ends with a defect or with a result. -/
abbrev Indexed := ExceptT Defect (Except Fault)

namespace Indexed
variable {α β : Type}

def access (g : Graph) (x : NodeId) : Indexed Node := ExceptT.mk ((g.follow x).map .ok)

def ended (r : Except Defect α) : Indexed α := ExceptT.mk (.ok r)

def checkInput (g : Graph) (id : NodeId) (n : Node) (x : NodeId × Nat) : Indexed Unit :=
  if 0 ≤ x.1 ∧ x.1 < (g.size : Int) then do
    let c ← access g x.1
    if c.retired then throw (.retiredInput g.name ⟨id, n.op⟩ x.2 ⟨x.1, c.op⟩)
    else if c.parents.count id = n.inputs.count x.1 then return ()
    else throw (.useCount g.name ⟨id, n.op⟩ ⟨x.1, c.op⟩ (n.inputs.count x.1) (c.parents.count id))
  else throw (.invalidInput g.name ⟨id, n.op⟩ x.2 x.1)

def checkParent (g : Graph) (id : NodeId) (n : Node) (p : NodeId) : Indexed Unit :=
  if 0 ≤ p ∧ p < (g.size : Int) then do
    let parent ← access g p
    if id ∈ parent.inputs then return () else throw (.notInput g.name ⟨id, n.op⟩ ⟨p, parent.op⟩)
  else throw (.invalidParent g.name ⟨id, n.op⟩ p)

def checkNode (g : Graph) (id : NodeId) (n : Node) : Indexed Unit :=
  if n.retired then
    if n.inputs = [] ∧ n.parents = [] then return ()
    else throw (.retiredEdges g.name ⟨id, n.op⟩ n.inputs.length n.parents.length)
  else do
    ended (g.checkArity id n)
    n.inputs.zipIdx.forM (checkInput g id n)
    n.parents.forM (checkParent g id n)

def checkNodes (g : Graph) : Indexed Unit :=
  g.ids.forM fun id => do checkNode g id (← access g id)

def explore (g : Graph) : Nat → List NodeId → List NodeId → NodeId → Indexed (List NodeId)
  | 0, _, done, _ => return done
  | fuel + 1, path, done, id => do
    let n ← access g id
    let done ← n.inputs.foldlM (fun done x => do
      let c ← access g x
      if x ∈ id :: path then throw (.cycle g.name ⟨id, n.op⟩ ⟨x, c.op⟩)
      else if x ∈ done then return done
      else explore g fuel (id :: path) done x) done
    return id :: done

def checkAcyclic (g : Graph) : Indexed Unit := do
  discard <| g.ids.foldlM (fun done id => do
    discard <| access g id
    if id ∈ done then return done else explore g g.size [] done id) []

def check (g : Graph) : Indexed Unit := do
  checkNodes g
  checkAcyclic g

variable {g : Graph} {x : NodeId} {n : Node}

theorem access_bind (hn : g.get? x = some n) (f : Node → Indexed α) : (access g x >>= f) = f n := by
  have haccess : access g x = ended (.ok n) := by
    rw [access, Graph.follow_ok hn]
    rfl
  rw [haccess]
  rfl

theorem bind_ended {r : Except Defect α} {f : α → Indexed β} {h : α → Except Defect β}
    (hf : ∀ a, r = .ok a → f a = ended (h a)) : (ended r >>= f) = ended (r >>= h) := by
  cases r with
  | error defect => rfl
  | ok a => exact hf a rfl

theorem forM_ended {f : α → Indexed Unit} {h : α → Except Defect Unit} {l : List α}
    (hf : ∀ a ∈ l, f a = ended (h a)) : l.forM f = ended (l.forM h) := by
  induction l with
  | nil => rfl
  | cons a l ih =>
    show (f a >>= fun _ => l.forM f) = ended (h a >>= fun _ => l.forM h)
    rw [hf a List.mem_cons_self]
    exact bind_ended fun _ _ => ih fun b hb => hf b (List.mem_cons_of_mem a hb)

theorem foldlM_ended {f : β → α → Indexed β} {h : β → α → Except Defect β} {l : List α}
    (hf : ∀ b, ∀ a ∈ l, f b a = ended (h b a)) (b : β) :
    l.foldlM f b = ended (l.foldlM h b) := by
  induction l generalizing b with
  | nil => rfl
  | cons a l ih =>
    rw [List.foldlM_cons, List.foldlM_cons, hf b a List.mem_cons_self]
    exact bind_ended fun b' _ => ih (fun b c hc => hf b c (List.mem_cons_of_mem a hc)) b'

theorem tested_eq {f : Node → Indexed α} {defect : Defect} {h : Node → Except Defect α}
    (hf : ∀ c, f c = ended (h c)) :
    (if 0 ≤ x ∧ x < (g.size : Int) then access g x >>= f else throw defect) =
      ended (match g.get? x with
        | none => .error defect
        | some c => h c) := by
  cases hx : g.get? x with
  | none =>
    have hout : ¬ (0 ≤ x ∧ x < (g.size : Int)) := fun hin => by
      rw [← Graph.get?_isSome_iff, hx] at hin
      cases hin
    rw [if_neg hout]
    rfl
  | some c =>
    rw [if_pos (Graph.range_of_get? hx), access_bind hx]
    exact hf c

theorem checkInput_eq (id : NodeId) (y : NodeId × Nat) :
    checkInput g id n y = ended (g.checkInput id n y) := by
  refine tested_eq fun c => ?_
  split
  · rfl
  · split <;> rfl

theorem checkParent_eq (id p : NodeId) : checkParent g id n p = ended (g.checkParent id n p) := by
  refine tested_eq fun m => ?_
  split <;> rfl

theorem checkNode_eq (id : NodeId) : checkNode g id n = ended (g.checkNode id n) := by
  unfold checkNode Graph.checkNode
  split
  · split <;> rfl
  · refine bind_ended fun _ _ => ?_
    rw [forM_ended fun y _ => checkInput_eq id y]
    exact bind_ended fun _ _ => forM_ended fun p _ => checkParent_eq id p

theorem checkNodes_eq (g : Graph) : checkNodes g = ended g.checkNodes := by
  refine forM_ended fun id hid => ?_
  obtain ⟨h0, hlt⟩ := Graph.mem_ids.1 hid
  obtain ⟨n, hn⟩ := Graph.get?_of_lt h0 hlt
  rw [access_bind hn, hn]
  exact checkNode_eq id

section Search
variable (hg : g.Consistent)
include hg

theorem explore_eq (fuel : Nat) (path done : List NodeId) (hn : g.get? x = some n) :
    explore g fuel path done x = ended (g.explore fuel path done x) := by
  induction fuel generalizing path done x n with
  | zero => rfl
  | succ fuel ih =>
    have hlabel : ∀ {y m}, g.get? y = some m → g.label y = ⟨y, m.op⟩ := by
      intro y m hm
      rw [Graph.label, hm]
      rfl
    unfold explore Graph.explore
    rw [access_bind hn, Graph.inputsOf_eq hn, foldlM_ended fun done y hy => ?_]
    · exact bind_ended fun _ _ => rfl
    · obtain ⟨h0, hlt⟩ := hg.inRange hn (.inl hy)
      obtain ⟨c, hc⟩ := Graph.get?_of_lt h0 hlt
      rw [access_bind hc, ← hlabel hn, ← hlabel hc]
      split
      · rfl
      · split
        · rfl
        · exact ih (x :: path) done hc

theorem checkAcyclic_eq : checkAcyclic g = ended g.checkAcyclic := by
  have hrun : ∀ done : List NodeId, ∀ id ∈ g.ids, (do
      discard <| access g id
      if id ∈ done then return done else explore g g.size [] done id : Indexed (List NodeId)) =
        ended (if id ∈ done then .ok done else g.explore g.size [] done id) := by
    intro done id hid
    obtain ⟨h0, hlt⟩ := Graph.mem_ids.1 hid
    obtain ⟨n, hn⟩ := Graph.get?_of_lt h0 hlt
    have haccess : discard (access g id) = ended (.ok ()) := by
      rw [access, Graph.follow_ok hn]
      rfl
    rw [haccess]
    show (if id ∈ done then _ else _) = _
    split
    · rfl
    · exact explore_eq hg g.size [] done hn
  unfold checkAcyclic Graph.checkAcyclic
  rw [foldlM_ended hrun]
  generalize List.foldlM (m := Except Defect) _ [] g.ids = r
  cases r <;> rfl

end Search

theorem check_eq (g : Graph) : check g = ended g.check := by
  unfold check Graph.check
  rw [checkNodes_eq]
  exact bind_ended fun _ hnodes =>
    checkAcyclic_eq (Graph.checkNodes_eq_ok_iff_consistent.1 hnodes)

end Indexed

/-- No look-up of the check is out of range, whatever the edges of the graph are, and the nodes pass it
if and only if they are consistent. -/
theorem Graph.check_in_range_and_exact (g : Graph) :
    (Indexed.check g).run = .ok g.check ∧ (g.checkNodes = .ok () ↔ g.Consistent) :=
  ⟨congrArg ExceptT.run (Indexed.check_eq g), checkNodes_eq_ok_iff_consistent⟩

end LinearPlan
