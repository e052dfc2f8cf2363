import LinearPlan.Graph.Build
import Mathlib.Data.List.Count
import Mathlib.Data.List.Basic
import Mathlib.Tactic.Common

/-!
# Running edits

How an edit of a graph runs, one step after the other, and what single changes of nodes do to the
look-up of nodes. An edit ends in a graph whether it succeeds or fails; `Edit.finish` is that graph,
and `Edit.Keeps` says that a property of graphs survives an edit in both cases.
-/
namespace LinearPlan

namespace Outcome
variable {ε α β : Type}

theorem bind_eq_ok_iff {x : Except ε α} {f : α → Except ε β} {b : β} :
    (x >>= f) = .ok b ↔ ∃ a, x = .ok a ∧ f a = .ok b := by
  cases x <;> simp [bind, Except.bind]

theorem mapM_ok {f : α → Except ε β} {h : α → β} {l : List α} (hf : ∀ a ∈ l, f a = .ok (h a)) :
    l.mapM f = .ok (l.map h) := by
  induction l with
  | nil => rfl
  | cons a l ih =>
    rw [List.mapM_cons, hf a List.mem_cons_self, ih fun b hb => hf b (List.mem_cons_of_mem a hb)]
    rfl

theorem forM_eq_ok_iff {f : α → Except ε Unit} {l : List α} :
    l.forM f = .ok () ↔ ∀ a ∈ l, f a = .ok () := by
  induction l with
  | nil => exact ⟨fun _ _ ha => absurd ha List.not_mem_nil, fun _ => rfl⟩
  | cons a l ih =>
    show (f a >>= fun _ => l.forM f) = .ok () ↔ _
    cases hf : f a with
    | ok u =>
      show l.forM f = .ok () ↔ _
      rw [ih, List.forall_mem_cons]
      exact (and_iff_right hf).symm
    | error e =>
      constructor
      · intro h
        cases h
      · intro h
        rw [h a List.mem_cons_self] at hf
        cases hf

theorem foldlM_ok {step : β → α → Except ε β} {l : List α}
    (h : ∀ b, ∀ a ∈ l, ∃ b', step b a = .ok b') (b : β) : ∃ b', l.foldlM step b = .ok b' := by
  induction l generalizing b with
  | nil => exact ⟨b, rfl⟩
  | cons a l ih =>
    obtain ⟨b₁, hb₁⟩ := h b a List.mem_cons_self
    rw [List.foldlM_cons, hb₁]
    exact ih (fun b c hc => h b c (List.mem_cons_of_mem a hc)) b₁

end Outcome

namespace Edit
variable {α β : Type} {g g' : Graph}

theorem bind_ok {x : Edit α} {f : α → Edit β} {a : α} (h : x g = .ok a g') :
    (x >>= f) g = f a g' := by
  show EStateM.bind x f g = f a g'
  rw [EStateM.bind, h]

theorem bind_error {x : Edit α} {f : α → Edit β} {fault : Fault} (h : x g = .error fault g') :
    (x >>= f) g = .error fault g' := by
  show EStateM.bind x f g = .error fault g'
  rw [EStateM.bind, h]

theorem map_ok {x : Edit α} {f : α → β} {a : α} (h : x g = .ok a g') :
    (f <$> x) g = .ok (f a) g' := by
  show EStateM.map f x g = .ok (f a) g'
  rw [EStateM.map, h]

theorem pure_apply (a : α) : (pure a : Edit α) g = .ok a g := rfl

theorem get_apply : (get : Edit Graph) g = .ok g g := rfl

theorem discard_ok {x : Edit α} {a : α} (h : x g = .ok a g') : discard x g = .ok () g' :=
  map_ok h

theorem discard_error {x : Edit α} {fault : Fault} (h : x g = .error fault g') :
    discard x g = .error fault g' := by
  show EStateM.map _ x g = .error fault g'
  rw [EStateM.map, h]

theorem read_ok {f : Graph → Except Fault α} {a : α} (h : f g = .ok a) :
    read f g = .ok a g := by
  rw [read, h]

theorem read_error {f : Graph → Except Fault α} {fault : Fault} (h : f g = .error fault) :
    read f g = .error fault g := by
  rw [read, h]

theorem forM_nil {f : α → Edit Unit} : List.forM [] f g = .ok () g := rfl

theorem forM_cons_ok {f : α → Edit Unit} {x : α} {xs : List α} (h : f x g = .ok () g') :
    List.forM (x :: xs) f g = List.forM xs f g' :=
  bind_ok h

theorem forM_append_ok {f : α → Edit Unit} {xs ys : List α} (h : xs.forM f g = .ok () g') :
    (xs ++ ys).forM f g = ys.forM f g' := by
  induction xs generalizing g with
  | nil =>
    cases h
    rfl
  | cons x xs ih =>
    have hsplit : (f x >>= fun _ => xs.forM f) g = .ok () g' := h
    cases hx : f x g with
    | error fault g₁ =>
      rw [bind_error hx] at hsplit
      cases hsplit
    | ok u g₁ =>
      rw [bind_ok hx] at hsplit
      exact (forM_cons_ok hx).trans (ih hsplit)

theorem forM_pass {f : α → Edit Unit} {xs : List α} (h : ∀ x ∈ xs, f x g = .ok () g) :
    xs.forM f g = .ok () g := by
  induction xs with
  | nil => rfl
  | cons x xs ih =>
    exact (forM_cons_ok (h x List.mem_cons_self)).trans
      (ih fun y hy => h y (List.mem_cons_of_mem x hy))

theorem forM_check_cases {P : α → Prop} {f : α → Edit Unit} {xs : List α}
    (h : ∀ x ∈ xs, (∃ fault, f x g = .error fault g) ∨ f x g = .ok () g ∧ P x) :
    (∃ fault, xs.forM f g = .error fault g) ∨ xs.forM f g = .ok () g ∧ ∀ x ∈ xs, P x := by
  induction xs with
  | nil => exact .inr ⟨rfl, fun x hx => absurd hx List.not_mem_nil⟩
  | cons x xs ih =>
    rcases h x List.mem_cons_self with ⟨fault, hf⟩ | ⟨hx, hP⟩
    · exact .inl ⟨fault, bind_error hf⟩
    rcases ih fun y hy => h y (List.mem_cons_of_mem x hy) with ⟨fault, hf⟩ | ⟨hxs, hPs⟩
    · exact .inl ⟨fault, (forM_cons_ok hx).trans hf⟩
    · exact .inr ⟨(forM_cons_ok hx).trans hxs, List.forall_mem_cons.2 ⟨hP, hPs⟩⟩

theorem undoing_ok {e : Edit α} {undo : Edit Unit} {a : α} (h : e g = .ok a g') :
    undoing e undo g = .ok a g' := by
  rw [undoing, h]

theorem undoing_error {e : Edit α} {undo : Edit Unit} {fault : Fault} {g'' : Graph}
    (h : e g = .error fault g') (hu : undo g' = .ok () g'') :
    undoing e undo g = .error fault g'' := by
  simp only [undoing, h, hu]

theorem undoing_fails {e : Edit α} {fault : Fault} (undo : Edit Unit) (h : e g = .error fault g') :
    ∃ fault' g'', undoing e undo g = .error fault' g'' := by
  cases hu : undo g' with
  | ok u g'' => exact ⟨fault, g'', by simp only [undoing, h, hu]⟩
  | error fault' g'' => exact ⟨fault', g'', by simp only [undoing, h, hu]⟩

def finish (e : Edit α) (g : Graph) : Graph :=
  match e g with
  | .ok _ g' => g'
  | .error _ g' => g'

theorem finish_ok {e : Edit α} {a : α} (h : e g = .ok a g') : e.finish g = g' := by
  rw [finish, h]

theorem finish_error {e : Edit α} {fault : Fault} (h : e g = .error fault g') :
    e.finish g = g' := by
  rw [finish, h]

def Keeps (P : Graph → Prop) (e : Edit α) : Prop := ∀ g, P g → P (e.finish g)

section Keeps
variable {P : Graph → Prop}

theorem keeps_bind {x : Edit α} {f : α → Edit β} (hx : Keeps P x) (hf : ∀ a, Keeps P (f a)) :
    Keeps P (x >>= f) := by
  intro g hg
  have hx := hx g hg
  cases h : x g with
  | ok a g' =>
    rw [finish_ok h] at hx
    have hb : (x >>= f).finish g = (f a).finish g' := by rw [finish, bind_ok h, finish]
    exact hb ▸ hf a g' hx
  | error fault g' =>
    rw [finish_error h] at hx
    exact finish_error (bind_error h) ▸ hx

theorem keeps_of_eq {x : Edit α} (h : ∀ g, P g → x.finish g = g) : Keeps P x := by
  intro g hg
  rw [h g hg]
  exact hg

theorem finish_read (f : Graph → Except Fault α) : (read f).finish g = g := by
  unfold finish read
  cases f g <;> rfl

theorem keeps_read (f : Graph → Except Fault α) : Keeps P (read f) :=
  keeps_of_eq fun _ _ => finish_read f

theorem keeps_pure (a : α) : Keeps P (pure a : Edit α) := fun _ hg => hg

theorem keeps_fail (fault : Fault) : Keeps P (fail fault : Edit α) := fun _ hg => hg

theorem keeps_map {x : Edit α} {f : α → β} (hx : Keeps P x) : Keeps P (f <$> x) := by
  rw [map_eq_pure_bind]
  exact keeps_bind hx fun a => keeps_pure (f a)

theorem keeps_discard {x : Edit α} (hx : Keeps P x) : Keeps P (discard x) := keeps_map hx

theorem keeps_foldlM {step : β → α → Edit β} (hstep : ∀ b a, Keeps P (step b a)) (l : List α)
    (b : β) : Keeps P (l.foldlM step b) := by
  induction l generalizing b with
  | nil => exact keeps_pure b
  | cons a l ih =>
    rw [List.foldlM_cons]
    exact keeps_bind (hstep b a) ih

end Keeps
end Edit

namespace Graph

theorem get?_modify (g : Graph) (id x : NodeId) (f : Node → Node) :
    (g.modify id f).get? x = (g.get? x).map fun n => if x = id then f n else n := by
  by_cases hx : x = id
  · subst hx
    simp only [get?_modify_self, if_true]
  · simp only [get?_modify_of_ne g f hx, if_neg hx, Option.map_id']

theorem ext_get? {g g' : Graph} (hname : g.name = g'.name) (h : ∀ x, g.get? x = g'.get? x) :
    g = g' := by
  obtain ⟨name, nodes⟩ := g
  obtain ⟨name', nodes'⟩ := g'
  dsimp only at hname
  subst hname
  congr 1
  apply Array.ext_getElem?
  intro i
  simpa [get?] using h (i : Int)

theorem range_of_get? {g : Graph} {x : Int} {n : Node} (h : g.get? x = some n) :
    (0 : Int) ≤ x ∧ x < (g.size : Int) :=
  get?_eq_some_lt h

theorem get?_push (g : Graph) (n : Node) (x : Int) :
    ({ g with nodes := g.nodes.push n } : Graph).get? x =
      if x = g.size then some n else g.get? x := by
  unfold get? size
  by_cases h0 : 0 ≤ x
  · rw [if_pos h0, if_pos h0, Array.getElem?_push]
    have he : x.toNat = g.nodes.size ↔ x = (g.nodes.size : Int) := by omega
    by_cases hx : x = (g.nodes.size : Int)
    · rw [if_pos hx, if_pos (he.2 hx)]
    · rw [if_neg hx, if_neg fun h => hx (he.1 h)]
  · have hx : ¬ x = (g.nodes.size : Int) := by omega
    rw [if_neg h0, if_neg h0, if_neg hx]

theorem get?_pop (g : Graph) (x : Int) :
    ({ g with nodes := g.nodes.pop } : Graph).get? x =
      if x = (g.size : Int) - 1 then none else g.get? x := by
  unfold get? size
  by_cases h0 : 0 ≤ x
  · rw [if_pos h0, if_pos h0, Array.getElem?_pop]
    by_cases hx : x = (g.nodes.size : Int) - 1
    · rw [if_pos hx, if_neg (by omega)]
    · rw [if_neg hx]
      split
      · rfl
      · rw [Array.getElem?_eq_none (by omega)]
  · rw [if_neg h0, if_neg h0, ite_self]

theorem get?_eq_none_of_size_le {g : Graph} {x : Int} (h : (g.size : Int) ≤ x) :
    g.get? x = none := by
  cases hx : g.get? x with
  | none => rfl
  | some n => exact absurd (range_of_get? hx).2 (by omega)

theorem get?_of_lt {g : Graph} {x : Int} (h0 : 0 ≤ x) (h : x < g.size) :
    ∃ n, g.get? x = some n :=
  Option.isSome_iff_exists.1 (get?_isSome_iff.2 ⟨h0, h⟩)

theorem inputsOf_eq {g : Graph} {x : NodeId} {n : Node} (h : g.get? x = some n) :
    g.inputsOf x = n.inputs := by
  rw [inputsOf, h]

theorem parentsOf_eq {g : Graph} {x : NodeId} {n : Node} (h : g.get? x = some n) :
    g.parentsOf x = n.parents := by
  rw [parentsOf, h]

theorem exists_of_mem_inputsOf {g : Graph} {p x : NodeId} (h : x ∈ g.inputsOf p) :
    ∃ n, g.get? p = some n ∧ x ∈ n.inputs := by
  unfold inputsOf at h
  split at h
  · exact ⟨_, ‹_›, h⟩
  · cases h

theorem exists_of_mem_parentsOf {g : Graph} {p x : NodeId} (h : p ∈ g.parentsOf x) :
    ∃ n, g.get? x = some n ∧ p ∈ n.parents := by
  unfold parentsOf at h
  split at h
  · exact ⟨_, ‹_›, h⟩
  · cases h

theorem node_ok {g : Graph} {x : NodeId} {n : Node} (h : g.get? x = some n) :
    g.node x = .ok n := by
  rw [node, h]

theorem node_eq_ok_iff {g : Graph} {x : NodeId} {n : Node} :
    g.node x = .ok n ↔ g.get? x = some n := by
  unfold node
  cases g.get? x <;> simp

theorem follow_ok {g : Graph} {x : NodeId} {n : Node} (h : g.get? x = some n) :
    g.follow x = .ok n := by
  rw [follow, h]

theorem follow_eq_ok_iff {g : Graph} {x : NodeId} {n : Node} :
    g.follow x = .ok n ↔ g.get? x = some n := by
  unfold follow
  cases g.get? x <;> simp

theorem live_ok {g : Graph} {x : NodeId} {n : Node} (h : g.get? x = some n)
    (hn : n.retired = false) : g.live x = .ok n := by
  rw [live, node_ok h]
  simp only [hn, Bool.false_eq_true, if_false]

theorem live_eq_ok_iff {g : Graph} {x : NodeId} {n : Node} :
    g.live x = .ok n ↔ g.get? x = some n ∧ n.retired = false := by
  constructor
  · intro h
    unfold live node at h
    cases hx : g.get? x with
    | none => rw [hx] at h; cases h
    | some m =>
      rw [hx] at h
      dsimp only at h
      split at h
      · cases h
      · rename_i hr
        cases h
        exact ⟨rfl, by simpa using hr⟩
  · rintro ⟨h, hn⟩
    exact live_ok h hn

end Graph

/-- A node without its parents. Sizes, values and reachability depend on operands only, and the
parents follow from these. -/
def Node.core (n : Node) : Node := { n with parents := [] }

@[simp] theorem Node.core_op (n : Node) : n.core.op = n.op := rfl

@[simp] theorem Node.core_inputs (n : Node) : n.core.inputs = n.inputs := rfl

@[simp] theorem Node.core_shape (n : Node) : n.core.shape = n.shape := rfl

@[simp] theorem Node.core_retired (n : Node) : n.core.retired = n.retired := rfl

namespace Graph

def core? (g : Graph) (x : NodeId) : Option Node := (g.get? x).map Node.core

theorem core?_eq_some {g : Graph} {x : NodeId} {n : Node} (h : g.get? x = some n) :
    g.core? x = some n.core := by
  rw [core?, h]
  rfl

theorem get?_of_core? {g : Graph} {x : NodeId} {m : Node} (h : g.core? x = some m) :
    ∃ n, g.get? x = some n ∧ n.core = m :=
  Option.map_eq_some_iff.1 h

theorem inputsOf_eq_core (g : Graph) (x : NodeId) :
    g.inputsOf x = ((g.core? x).map Node.inputs).getD [] := by
  unfold inputsOf core?
  cases g.get? x <;> rfl

end Graph

namespace Edit
variable {g : Graph} {x : NodeId} {n : Node}

theorem node_run (h : g.get? x = some n) : node x g = .ok n g := read_ok (Graph.node_ok h)

theorem follow_run (h : g.get? x = some n) : follow x g = .ok n g := read_ok (Graph.follow_ok h)

theorem live_run (h : g.get? x = some n) (hn : n.retired = false) : live x g = .ok n g :=
  read_ok (Graph.live_ok h hn)

end Edit
end LinearPlan
