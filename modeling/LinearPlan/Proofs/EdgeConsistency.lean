import LinearPlan.Proofs.Edits
import Mathlib.Algebra.BigOperators.Group.List.Lemmas
import Mathlib.Algebra.Order.Ring.Int
import Mathlib.Data.List.Flatten

/-!
# Edge consistency

Every operand position that holds a node is matched by one entry among the parents of that node.
The parents are a multiset kept by hand: an edit takes out the first entry of a parent and puts new
entries at the end. `Graph.Matched` is that correspondence, `Graph.Linked` adds that retired nodes
have no edges, that no node is its own operand, and that every other node has the number of
operands of its operation.

The edits are first given as functions on graphs (`addParents`, `dropParents`, `reroute`, `clear`),
then shown to run as these functions, and last shown to keep a linked graph linked, whatever their
arguments and whether they succeed or fail.
-/
namespace LinearPlan

namespace Graph
variable {g g' : Graph}

/-- Operands and parents name each other equally often. -/
def Matched (g : Graph) : Prop := ∀ p c, (g.parentsOf c).count p = (g.inputsOf p).count c

structure Regular (g : Graph) : Prop where
  irreflexive : ∀ p, p ∉ g.inputsOf p
  operand : ∀ {p c}, c ∈ g.inputsOf p → ∃ n, g.core? c = some n ∧ n.retired = false
  inputs_nil : ∀ {x n}, g.core? x = some n → n.retired = true → n.inputs = []
  arity : ∀ {x n}, g.core? x = some n → n.retired = false → n.op.arity? = some n.inputs.length

structure Linked (g : Graph) : Prop extends Regular g where
  matched : g.Matched

theorem parentsOf_eq_getD (g : Graph) (x : NodeId) :
    g.parentsOf x = ((g.get? x).map Node.parents).getD [] := by
  unfold parentsOf
  cases g.get? x <;> rfl

theorem inputsOf_eq_getD (g : Graph) (x : NodeId) :
    g.inputsOf x = ((g.get? x).map Node.inputs).getD [] := by
  unfold inputsOf
  cases g.get? x <;> rfl

theorem Matched.mem_iff (h : g.Matched) {p c : NodeId} :
    p ∈ g.parentsOf c ↔ c ∈ g.inputsOf p := by
  rw [← List.count_pos_iff, ← List.count_pos_iff, h p c]

theorem Regular.operand_live (h : g.Regular) {p c : NodeId} (hc : c ∈ g.inputsOf p) :
    ∃ n, g.get? c = some n ∧ n.retired = false := by
  obtain ⟨m, hm, hr⟩ := h.operand hc
  obtain ⟨n, hn, rfl⟩ := get?_of_core? hm
  exact ⟨n, hn, hr⟩

theorem Regular.user_live (h : g.Regular) {p c : NodeId} (hc : c ∈ g.inputsOf p) :
    ∃ n, g.get? p = some n ∧ n.retired = false := by
  obtain ⟨n, hn, hc⟩ := exists_of_mem_inputsOf hc
  refine ⟨n, hn, ?_⟩
  cases hr : n.retired with
  | false => rfl
  | true =>
    have hnil : n.core.inputs = [] := h.inputs_nil (core?_eq_some hn) hr
    change n.inputs = [] at hnil
    rw [hnil] at hc
    cases hc

theorem Regular.arity_eq (h : g.Regular) {x : NodeId} {n : Node} (hn : g.get? x = some n)
    (hr : n.retired = false) : n.op.arity? = some n.inputs.length := by
  have harity : n.core.op.arity? = some n.core.inputs.length := h.arity (core?_eq_some hn) hr
  exact harity

theorem Linked.parents_nil (h : g.Linked) {x : NodeId} {n : Node} (hn : g.get? x = some n)
    (hr : n.retired = true) : n.parents = [] := by
  cases hp : n.parents with
  | nil => rfl
  | cons p ps =>
    have hmem : p ∈ g.parentsOf x := by
      rw [parentsOf_eq hn, hp]
      exact List.mem_cons_self
    obtain ⟨m, hm, hl⟩ := h.operand_live (h.matched.mem_iff.1 hmem)
    rw [hn] at hm
    cases hm
    rw [hr] at hl
    cases hl

theorem edges_of_get?_none {x : NodeId} (h : g.get? x = none) :
    g.inputsOf x = [] ∧ g.parentsOf x = [] := by
  rw [inputsOf, parentsOf, h]
  exact ⟨rfl, rfl⟩

def addParents (g : Graph) (parent : NodeId) (inputs : List NodeId) : Graph :=
  inputs.foldl (fun g x => g.modify x fun n => { n with parents := n.parents ++ [parent] }) g

def dropParents (g : Graph) (parent : NodeId) (inputs : List NodeId) : Graph :=
  inputs.foldl (fun g x => g.modify x fun n => { n with parents := n.parents.erase parent }) g

theorem get?_addParents (g : Graph) (parent : NodeId) (inputs : List NodeId) (x : NodeId) :
    (g.addParents parent inputs).get? x = (g.get? x).map fun n =>
      { n with parents := n.parents ++ List.replicate (inputs.count x) parent } := by
  induction inputs generalizing g with
  | nil => simp [addParents]
  | cons y ys ih =>
    have hstep : g.addParents parent (y :: ys) =
        (g.modify y fun n => { n with parents := n.parents ++ [parent] }).addParents parent ys :=
      rfl
    rw [hstep, ih, get?_modify, Option.map_map]
    congr 1
    funext n
    by_cases hx : x = y
    · subst hx
      simp [List.count_cons_self, List.replicate_succ]
    · simp [hx, List.count_cons_of_ne (Ne.symm hx)]

theorem get?_dropParents (g : Graph) (parent : NodeId) (inputs : List NodeId) (x : NodeId) :
    (g.dropParents parent inputs).get? x = (g.get? x).map fun n =>
      { n with parents := n.parents.diff (List.replicate (inputs.count x) parent) } := by
  induction inputs generalizing g with
  | nil => simp [dropParents]
  | cons y ys ih =>
    have hstep : g.dropParents parent (y :: ys) =
        (g.modify y fun n => { n with parents := n.parents.erase parent }).dropParents parent ys :=
      rfl
    rw [hstep, ih, get?_modify, Option.map_map]
    congr 1
    funext n
    by_cases hx : x = y
    · subst hx
      simp [List.count_cons_self, List.replicate_succ]
    · simp [hx, List.count_cons_of_ne (Ne.symm hx)]

theorem count_parentsOf_dropParents (g : Graph) (parent : NodeId) (inputs : List NodeId)
    (p x : NodeId) :
    ((g.dropParents parent inputs).parentsOf x).count p =
      (g.parentsOf x).count p - if p = parent then inputs.count x else 0 := by
  rw [parentsOf_eq_getD, parentsOf_eq_getD, get?_dropParents, Option.map_map]
  cases g.get? x with
  | none => simp
  | some n =>
    show (n.parents.diff _).count p = n.parents.count p - _
    rw [List.count_diff, List.count_replicate]
    by_cases hp : p = parent
    · simp [hp]
    · simp [hp, Ne.symm hp]

@[simp] theorem name_addParents (g : Graph) (parent : NodeId) (inputs : List NodeId) :
    (g.addParents parent inputs).name = g.name := by
  induction inputs generalizing g with
  | nil => rfl
  | cons y ys ih => exact (ih _).trans (name_modify ..)

@[simp] theorem size_dropParents (g : Graph) (parent : NodeId) (inputs : List NodeId) :
    (g.dropParents parent inputs).size = g.size := by
  induction inputs generalizing g with
  | nil => rfl
  | cons y ys ih => exact (ih _).trans (size_modify ..)

@[simp] theorem name_dropParents (g : Graph) (parent : NodeId) (inputs : List NodeId) :
    (g.dropParents parent inputs).name = g.name := by
  induction inputs generalizing g with
  | nil => rfl
  | cons y ys ih => exact (ih _).trans (name_modify ..)

end Graph

namespace Edit
open LinearPlan.Graph
variable {g g' : Graph}

theorem addParent_apply (x parent : NodeId) :
    addParent x parent g =
      .ok () (g.modify x fun n => { n with parents := n.parents ++ [parent] }) := rfl

theorem forM_addParent (parent : NodeId) (inputs : List NodeId) :
    inputs.forM (fun x => addParent x parent) g = .ok () (g.addParents parent inputs) := by
  induction inputs generalizing g with
  | nil => rfl
  | cons y ys ih =>
    have hy : addParent y parent g = _ := addParent_apply y parent
    exact (forM_cons_ok (f := fun x => addParent x parent) hy).trans ih

theorem dropParent_ok {x parent : NodeId} (h : parent ∈ g.parentsOf x) :
    dropParent x parent g =
      .ok () (g.modify x fun n => { n with parents := n.parents.erase parent }) := by
  obtain ⟨n, hn, hp⟩ := exists_of_mem_parentsOf h
  unfold dropParent
  rw [bind_ok (follow_run hn), if_pos hp]
  rfl

theorem detach_ok {id : NodeId} {inputs : List NodeId}
    (h : ∀ x, inputs.count x ≤ (g.parentsOf x).count id) :
    detach id inputs g = .ok () (g.dropParents id inputs) := by
  induction inputs generalizing g with
  | nil => rfl
  | cons y ys ih =>
    have hy := h y
    rw [List.count_cons_self] at hy
    have hmem : id ∈ g.parentsOf y := List.count_pos_iff.1 (by omega)
    refine (forM_cons_ok (f := fun x => dropParent x id) (dropParent_ok hmem)).trans
      (ih fun x => ?_)
    have hc := count_parentsOf_dropParents g id [y] id x
    have hx := h x
    rw [List.count_cons] at hx
    simp only [dropParents, List.foldl_cons, List.foldl_nil, if_true, List.count_cons,
      List.count_nil] at hc
    rw [hc]
    omega

end Edit

namespace Graph
variable {g g' : Graph}

def rewire (g : Graph) (parent : NodeId) (pos : Nat) (old child : NodeId) : Graph :=
  ((g.modify old fun n => { n with parents := n.parents.erase parent }).modify parent
    fun n => { n with inputs := n.inputs.set pos child }).modify child
      fun n => { n with parents := n.parents ++ [parent] }

theorem get?_rewire (g : Graph) {parent old child : NodeId} (pos : Nat) (hoc : old ≠ child)
    (x : NodeId) :
    (g.rewire parent pos old child).get? x = (g.get? x).map fun n =>
      { n with
        inputs := if x = parent then n.inputs.set pos child else n.inputs
        parents := if x = old then n.parents.erase parent
          else if x = child then n.parents ++ [parent] else n.parents } := by
  unfold rewire
  simp only [get?_modify, Option.map_map]
  congr 1
  funext n
  by_cases h2 : x = old
  · have h3 : ¬ x = child := h2 ▸ hoc
    by_cases h1 : x = parent
    · simp only [Function.comp_apply, if_pos h1, if_pos h2, if_neg h3]
    · simp only [Function.comp_apply, if_neg h1, if_pos h2, if_neg h3]
  · by_cases h1 : x = parent
    · by_cases h3 : x = child
      · simp only [Function.comp_apply, if_pos h1, if_neg h2, if_pos h3]
      · simp only [Function.comp_apply, if_pos h1, if_neg h2, if_neg h3]
    · by_cases h3 : x = child
      · simp only [Function.comp_apply, if_neg h1, if_neg h2, if_pos h3]
      · simp only [Function.comp_apply, if_neg h1, if_neg h2, if_neg h3]

theorem core?_rewire (g : Graph) {parent old child : NodeId} (pos : Nat) (hoc : old ≠ child)
    (x : NodeId) :
    (g.rewire parent pos old child).core? x = (g.core? x).map fun n =>
      if x = parent then { n with inputs := n.inputs.set pos child } else n := by
  rw [core?, core?, get?_rewire g pos hoc, Option.map_map, Option.map_map]
  congr 1
  funext n
  by_cases h1 : x = parent <;> simp [h1, Node.core]

theorem count_set {inputs : List NodeId} {pos : Nat} {old : NodeId} (child c : NodeId)
    (h : inputs[pos]? = some old) :
    (inputs.set pos child).count c + (if old = c then 1 else 0) =
      inputs.count c + if child = c then 1 else 0 := by
  obtain ⟨hlt, hget⟩ := List.getElem?_eq_some_iff.1 h
  rw [List.count_set hlt, hget]
  have hpos : old = c → 0 < inputs.count c := by
    rintro rfl
    exact List.count_pos_iff.2 (List.mem_of_getElem? h)
  by_cases h1 : old = c
  · have := hpos h1
    by_cases h2 : child = c <;> simp [h1, h2] <;> omega
  · by_cases h2 : child = c <;> simp [h1, h2]

theorem parentsOf_rewire (g : Graph) {parent old child : NodeId} {m : Node} (pos : Nat)
    (hoc : old ≠ child) (hc : g.get? child = some m) (x : NodeId) :
    (g.rewire parent pos old child).parentsOf x =
      if x = old then (g.parentsOf x).erase parent
      else if x = child then g.parentsOf x ++ [parent] else g.parentsOf x := by
  rw [parentsOf_eq_getD, get?_rewire g pos hoc, parentsOf_eq_getD]
  cases hx : g.get? x with
  | none =>
    have h3 : x ≠ child := fun he => by simp [he, hc] at hx
    by_cases h2 : x = old <;> simp [h2, h3]
  | some k => rfl

theorem inputsOf_rewire {parent old child : NodeId} {n : Node} (pos : Nat) (hoc : old ≠ child)
    (hp : g.get? parent = some n) (x : NodeId) :
    (g.rewire parent pos old child).inputsOf x =
      if x = parent then n.inputs.set pos child else g.inputsOf x := by
  rw [inputsOf_eq_core, core?_rewire g pos hoc, inputsOf_eq_core]
  by_cases hx : x = parent
  · subst hx
    rw [core?_eq_some hp, if_pos rfl]
    simp [Node.core]
  · simp [hx]

theorem Matched.rewire (h : g.Matched) {parent old child : NodeId} {n m : Node} {pos : Nat}
    (hp : g.get? parent = some n) (hc : g.get? child = some m) (hpos : n.inputs[pos]? = some old)
    (hoc : old ≠ child) : (g.rewire parent pos old child).Matched := by
  intro p c
  have hold : old ∈ g.inputsOf parent := inputsOf_eq hp ▸ List.mem_of_getElem? hpos
  have hcount := h p c
  have hset := count_set child c hpos
  have hcard := List.count_pos_iff.2 (h.mem_iff.2 hold)
  rw [parentsOf_rewire g pos hoc hc, inputsOf_rewire pos hoc hp p]
  by_cases hpp : p = parent
  · subst hpp
    rw [inputsOf_eq hp] at hcount
    rw [if_pos rfl]
    by_cases h2 : c = old
    · subst h2
      rw [if_pos rfl, List.count_erase_self]
      rw [if_pos rfl, if_neg (Ne.symm hoc)] at hset
      omega
    · rw [if_neg (Ne.symm h2)] at hset
      rw [if_neg h2]
      by_cases h3 : c = child
      · subst h3
        rw [if_pos rfl] at hset
        rw [if_pos rfl, List.count_append, List.count_singleton_self]
        omega
      · rw [if_neg (Ne.symm h3)] at hset
        rw [if_neg h3]
        omega
  · rw [if_neg hpp]
    by_cases h2 : c = old
    · rw [if_pos h2, List.count_erase_of_ne hpp, hcount]
    · rw [if_neg h2]
      by_cases h3 : c = child
      · rw [if_pos h3, List.count_append, hcount, List.count_singleton,
          if_neg (by simpa using Ne.symm hpp), Nat.add_zero]
      · rw [if_neg h3, hcount]

theorem Linked.rewire (h : g.Linked) {parent old child : NodeId} {n m : Node} {pos : Nat}
    (hp : g.get? parent = some n) (hc : g.get? child = some m) (hm : m.retired = false)
    (hne : child ≠ parent) (hpos : n.inputs[pos]? = some old) (hoc : old ≠ child) :
    (g.rewire parent pos old child).Linked := by
  have hin := inputsOf_rewire pos hoc hp
  have hcore : ∀ x, (g.rewire parent pos old child).core? x = _ := core?_rewire g pos hoc
  have hmem : ∀ {c}, c ∈ n.inputs.set pos child → c ∈ g.inputsOf parent ∨ c = child := by
    intro c hc
    rw [inputsOf_eq hp]
    exact List.mem_or_eq_of_mem_set hc
  refine ⟨⟨?_, ?_, ?_, ?_⟩, h.matched.rewire hp hc hpos hoc⟩
  · intro p hmp
    rw [hin p] at hmp
    split at hmp
    · subst p
      rcases hmem hmp with hmp | hmp
      · exact h.irreflexive _ hmp
      · exact hne hmp.symm
    · exact h.irreflexive p hmp
  · intro p c hcp
    have hlive : ∃ k, g.core? c = some k ∧ k.retired = false := by
      rw [hin p] at hcp
      split at hcp
      · rcases hmem hcp with hcp | rfl
        · exact h.operand hcp
        · exact ⟨_, core?_eq_some hc, hm⟩
      · exact h.operand hcp
    obtain ⟨k, hk, hr⟩ := hlive
    rw [hcore c, hk]
    by_cases hcp : c = parent <;> simp [hcp, hr]
  · intro x k hk hr
    rw [hcore x] at hk
    obtain ⟨k₀, hk₀, rfl⟩ := Option.map_eq_some_iff.1 hk
    by_cases hx : x = parent
    · simp only [hx, if_true] at hr ⊢
      rw [h.inputs_nil hk₀ hr]
      rfl
    · simp only [hx, if_false] at hr ⊢
      exact h.inputs_nil hk₀ hr
  · intro x k hk hr
    rw [hcore x] at hk
    obtain ⟨k₀, hk₀, rfl⟩ := Option.map_eq_some_iff.1 hk
    by_cases hx : x = parent
    · simp only [hx, if_true, List.length_set] at hr ⊢
      exact h.arity hk₀ hr
    · simp only [hx, if_false] at hr ⊢
      exact h.arity hk₀ hr

structure Maps (g : Graph) (f : NodeId → Node → Node) (g' : Graph) : Prop where
  name : g'.name = g.name
  core : ∀ x, g'.core? x = (g.core? x).map (f x)

namespace Maps
variable {f f' : NodeId → Node → Node} {g'' : Graph}

theorem refl (g : Graph) : g.Maps (fun _ n => n) g :=
  ⟨rfl, fun x => by simp⟩

theorem trans (h : g.Maps f g') (h' : g'.Maps f' g'') : g.Maps (fun x n => f' x (f x n)) g'' := by
  refine ⟨h'.name.trans h.name, fun x => ?_⟩
  rw [h'.core, h.core, Option.map_map]
  rfl

theorem congr (h : g.Maps f g') (hf : ∀ x n, g.core? x = some n → f x n = f' x n) :
    g.Maps f' g' := by
  refine ⟨h.name, fun x => ?_⟩
  rw [h.core]
  cases hx : g.core? x with
  | none => rfl
  | some n => exact congrArg some (hf x n hx)

theorem get? (h : g.Maps f g') {x : NodeId} {n : Node} (hn : g.get? x = some n) :
    ∃ n', g'.get? x = some n' ∧ n'.core = f x n.core := by
  have hx := h.core x
  rw [core?_eq_some hn] at hx
  exact get?_of_core? hx

theorem get?_rev (h : g.Maps f g') {x : NodeId} {n' : Node} (hn : g'.get? x = some n') :
    ∃ n, g.get? x = some n ∧ n'.core = f x n.core := by
  have hx := h.core x
  rw [core?_eq_some hn] at hx
  obtain ⟨m, hm, hf⟩ := Option.map_eq_some_iff.1 hx.symm
  obtain ⟨n, hn, rfl⟩ := get?_of_core? hm
  exact ⟨n, hn, hf.symm⟩

theorem size (h : g.Maps f g') : g'.size = g.size := by
  have hiff : ∀ x : Int, (0 ≤ x ∧ x < (g'.size : Int)) ↔ (0 ≤ x ∧ x < (g.size : Int)) := by
    intro x
    have hold : (g.get? x).isSome ↔ 0 ≤ x ∧ x < (g.size : Int) := get?_isSome_iff
    have hnew : (g'.get? x).isSome ↔ 0 ≤ x ∧ x < (g'.size : Int) := get?_isSome_iff
    rw [← hold, ← hnew]
    constructor
    · intro hs
      obtain ⟨n', hn'⟩ := Option.isSome_iff_exists.1 hs
      obtain ⟨n, hn, -⟩ := h.get?_rev hn'
      rw [hn]
      rfl
    · intro hs
      obtain ⟨n, hn⟩ := Option.isSome_iff_exists.1 hs
      obtain ⟨n', hn', -⟩ := h.get? hn
      rw [hn']
      rfl
  have h1 := hiff g.size
  have h2 := hiff g'.size
  omega

end Maps

theorem maps_rewire (g : Graph) {parent old child : NodeId} (pos : Nat) (hoc : old ≠ child) :
    g.Maps (fun x n => if x = parent then { n with inputs := n.inputs.set pos child } else n)
      (g.rewire parent pos old child) :=
  ⟨by simp [rewire], core?_rewire g pos hoc⟩

end Graph

namespace Edit
open LinearPlan.Graph
variable {g g' : Graph}

theorem input_run {n : Node} {id : NodeId} {pos : Nat} {x : NodeId} (h : n.inputs[pos]? = some x) :
    (read fun _ => n.input id pos) g = .ok x g := by
  refine read_ok ?_
  simp [Node.input, Node.input?, h]

theorem replaceInput_run (hm : g.Matched) {parent child old : NodeId} {pos : Nat} {p c : Node}
    (hp : g.get? parent = some p) (hpl : p.retired = false) (hc : g.get? child = some c)
    (hcl : c.retired = false) (hne : child ≠ parent) (hpos : p.inputs[pos]? = some old) :
    replaceInput parent pos child g =
      .ok old (if old = child then g else g.rewire parent pos old child) := by
  unfold replaceInput
  rw [bind_ok (live_run hp hpl), bind_ok (live_run hc hcl), bind_ok (input_run hpos),
    if_neg (Ne.symm hne)]
  by_cases hoc : old = child
  · rw [if_pos hoc, if_pos hoc]
    rfl
  · have hold : old ∈ g.inputsOf parent := inputsOf_eq hp ▸ List.mem_of_getElem? hpos
    rw [if_neg hoc, if_neg hoc, bind_ok (dropParent_ok (hm.mem_iff.2 hold))]
    rfl

theorem maps_replaceInput {parent child old : NodeId} {pos : Nat} {p : Node}
    (hp : g.get? parent = some p) (hpos : p.inputs[pos]? = some old) :
    g.Maps (fun x n => if x = parent then { n with inputs := n.inputs.set pos child } else n)
      (if old = child then g else g.rewire parent pos old child) := by
  by_cases hoc : old = child
  · subst hoc
    rw [if_pos rfl]
    refine (Maps.refl g).congr fun x n hn => ?_
    by_cases hx : x = parent
    · subst hx
      rw [core?_eq_some hp] at hn
      cases hn
      obtain ⟨hlt, hget⟩ := List.getElem?_eq_some_iff.1 hpos
      have hset : p.core.inputs.set pos old = p.core.inputs := by
        show p.inputs.set pos old = p.inputs
        rw [← hget, List.set_getElem_self]
      rw [if_pos rfl, hset]
    · rw [if_neg hx]
  · rw [if_neg hoc]
    exact maps_rewire g pos hoc

def KeptByReplaceInput (I : Graph → Prop) : Prop :=
  ∀ {g : Graph} {parent child old : NodeId} {pos : Nat} {p c : Node}, I g →
    g.get? parent = some p → p.retired = false → g.get? child = some c → c.retired = false →
    child ≠ parent → p.inputs[pos]? = some old →
    ∃ g', replaceInput parent pos child g = .ok old g' ∧ I g' ∧ g.Maps (fun x n =>
      if x = parent then { n with inputs := n.inputs.set pos child } else n) g'

theorem replaceInput_matched : KeptByReplaceInput Matched := by
  intro g parent child old pos p c hm hp hpl hc hcl hne hpos
  refine ⟨_, replaceInput_run hm hp hpl hc hcl hne hpos, ?_, maps_replaceInput hp hpos⟩
  by_cases hoc : old = child
  · rw [if_pos hoc]
    exact hm
  · rw [if_neg hoc]
    exact hm.rewire hp hc hpos hoc

theorem replaceInput_ok : KeptByReplaceInput Linked := by
  intro g parent child old pos p c hl hp hpl hc hcl hne hpos
  refine ⟨_, replaceInput_run hl.matched hp hpl hc hcl hne hpos, ?_, maps_replaceInput hp hpos⟩
  by_cases hoc : old = child
  · rw [if_pos hoc]
    exact hl
  · rw [if_neg hoc]
    exact hl.rewire hp hc hcl hne hpos hoc

theorem read_cases {α : Type} (f : Graph → Except Fault α) (g : Graph) :
    (∃ fault, read f g = .error fault g) ∨ ∃ a, f g = .ok a ∧ read f g = .ok a g := by
  cases h : f g with
  | ok a => exact .inr ⟨a, rfl, read_ok h⟩
  | error fault => exact .inl ⟨fault, read_error h⟩

theorem live_cases (x : NodeId) (g : Graph) :
    (∃ fault, live x g = .error fault g) ∨
      ∃ n, g.get? x = some n ∧ n.retired = false ∧ live x g = .ok n g := by
  rcases read_cases (·.live x) g with hf | ⟨n, hn, hr⟩
  · exact .inl hf
  · obtain ⟨hn, hl⟩ := live_eq_ok_iff.1 hn
    exact .inr ⟨n, hn, hl, hr⟩

theorem replaceInput_cases (hl : g.Linked) (parent : NodeId) (pos : Int) (child : NodeId) :
    (∃ fault, replaceInput parent pos child g = .error fault g) ∨
      ∃ old g', replaceInput parent pos child g = .ok old g' ∧ g'.Linked ∧ ∃ k, g.Maps (fun x n =>
        if x = parent then { n with inputs := n.inputs.set k child } else n) g' := by
  rcases live_cases parent g with ⟨fault, hf⟩ | ⟨p, hp, hpl, hpr⟩
  · exact .inl ⟨fault, bind_error hf⟩
  rcases live_cases child g with ⟨fault, hf⟩ | ⟨c, hc, hcl, hcr⟩
  · exact .inl ⟨fault, (bind_ok hpr).trans (bind_error hf)⟩
  cases hin : p.input? pos with
  | none =>
    have hf : (read fun _ => p.input parent pos) g = .error _ g :=
      read_error (f := fun _ => p.input parent pos) (by rw [Node.input, hin])
    exact .inl ⟨_, (bind_ok hpr).trans ((bind_ok hcr).trans (bind_error hf))⟩
  | some old =>
    unfold Node.input? at hin
    split at hin
    · rename_i h0
      obtain ⟨k, rfl⟩ := Int.eq_ofNat_of_zero_le h0
      rw [Int.toNat_natCast] at hin
      by_cases hne : child = parent
      · refine .inl ⟨.selfLoop ⟨parent, p.op⟩ k ⟨child, c.op⟩, ?_⟩
        unfold replaceInput
        rw [bind_ok hpr, bind_ok hcr, bind_ok (input_run hin), if_pos hne.symm]
        rfl
      · obtain ⟨g', hg', hl', hm⟩ := replaceInput_ok hl hp hpl hc hcl hne hin
        exact .inr ⟨old, g', hg', hl', k, hm⟩
    · cases hin

end Edit

namespace Graph
variable {g g' : Graph}

def Holds (g : Graph) (e : Edge) (x : NodeId) : Prop :=
  ∃ pos : Nat, e.pos = pos ∧ (g.inputsOf e.parent)[pos]? = some x

theorem mem_positionsOf {x : NodeId} {inputs : List NodeId} {pos : Int} :
    pos ∈ positionsOf x inputs ↔ ∃ k : Nat, pos = k ∧ inputs[k]? = some x := by
  unfold positionsOf
  simp only [List.mem_map, List.mem_filter, Prod.exists, List.mem_zipIdx_iff_getElem?, beq_iff_eq]
  constructor
  · rintro ⟨y, k, ⟨hk, rfl⟩, rfl⟩
    exact ⟨k, rfl, hk⟩
  · rintro ⟨k, rfl, hk⟩
    exact ⟨x, k, ⟨hk, rfl⟩, rfl⟩

theorem length_positionsOf (x : NodeId) (inputs : List NodeId) :
    (positionsOf x inputs).length = inputs.count x := by
  unfold positionsOf
  rw [List.length_map, ← List.countP_eq_length_filter, List.count, ← List.zipIdx_map_fst 0 inputs,
    List.countP_map]
  simp [Function.comp_def]

theorem mem_insertSorted {x y : NodeId} {l : List NodeId} :
    y ∈ insertSorted x l ↔ y = x ∨ y ∈ l := by
  induction l with
  | nil => simp [insertSorted]
  | cons z zs ih =>
    unfold insertSorted
    split
    · simp
    · split
      · rename_i hxz
        simp [hxz]
      · simp only [List.mem_cons, ih]
        tauto

theorem sorted_insertSorted {x : NodeId} {l : List NodeId} (h : l.Pairwise (· < ·)) :
    (insertSorted x l).Pairwise (· < ·) := by
  induction l with
  | nil => simp [insertSorted]
  | cons z zs ih =>
    obtain ⟨hz, hzs⟩ := List.pairwise_cons.1 h
    unfold insertSorted
    split
    · rename_i hxz
      refine List.pairwise_cons.2 ⟨fun y hy => ?_, h⟩
      rcases List.mem_cons.1 hy with rfl | hy
      · exact hxz
      · exact lt_trans hxz (hz y hy)
    · split
      · exact h
      · rename_i h1 h2
        refine List.pairwise_cons.2 ⟨fun y hy => ?_, ih hzs⟩
        rcases mem_insertSorted.1 hy with rfl | hy
        · exact lt_of_le_of_ne (not_lt.1 h1) (Ne.symm h2)
        · exact hz y hy

theorem mem_sortedParents {y : NodeId} {l : List NodeId} : y ∈ sortedParents l ↔ y ∈ l := by
  induction l with
  | nil => simp [sortedParents]
  | cons z zs ih =>
    show y ∈ insertSorted z (sortedParents zs) ↔ _
    rw [mem_insertSorted, ih, List.mem_cons]

theorem sorted_sortedParents (l : List NodeId) : (sortedParents l).Pairwise (· < ·) := by
  induction l with
  | nil => exact List.Pairwise.nil
  | cons z zs ih => exact sorted_insertSorted ih

theorem nodup_sortedParents (l : List NodeId) : (sortedParents l).Nodup :=
  (sorted_sortedParents l).imp fun h => ne_of_lt h

theorem sum_count_sortedParents (l : List NodeId) :
    ((sortedParents l).map fun p => l.count p).sum = l.length := by
  have hperm : (sortedParents l).Perm l.dedup :=
    (List.perm_ext_iff_of_nodup (nodup_sortedParents l) l.nodup_dedup).2 fun y => by
      rw [mem_sortedParents, List.mem_dedup]
  rw [(hperm.map _).sum_eq, List.sum_map_count_dedup_eq_length]

def edgesTo (g : Graph) (x : NodeId) (parents : List NodeId) : List Edge :=
  parents.flatMap fun p => (positionsOf x (g.inputsOf p)).map (Edge.mk p)

theorem mem_edgesTo {x : NodeId} {parents : List NodeId} {e : Edge} :
    e ∈ g.edgesTo x parents ↔ e.parent ∈ parents ∧ g.Holds e x := by
  simp only [edgesTo, List.mem_flatMap, List.mem_map, mem_positionsOf]
  constructor
  · rintro ⟨p, hp, pos, ⟨k, rfl, hk⟩, rfl⟩
    exact ⟨hp, k, rfl, hk⟩
  · rintro ⟨hp, k, hpos, hk⟩
    exact ⟨e.parent, hp, e.pos, ⟨k, hpos, hk⟩, rfl⟩

theorem slotsOf_ok {x : NodeId} {parents : List NodeId}
    (h : ∀ p ∈ parents, ∃ n, g.get? p = some n) :
    g.slotsOf x parents = .ok (g.edgesTo x parents) := by
  unfold slotsOf
  rw [Outcome.mapM_ok (h := fun p => (positionsOf x (g.inputsOf p)).map (Edge.mk p))]
  · rw [edgesTo, List.flatMap_def]
    rfl
  · intro p hp
    obtain ⟨n, hn⟩ := h p hp
    rw [follow_ok hn, inputsOf_eq hn]
    rfl

section Uses
variable {x : NodeId} {n : Node}

theorem Matched.mem_sortedParents_iff (hm : g.Matched) (hn : g.get? x = some n) {p : NodeId} :
    p ∈ sortedParents n.parents ↔ x ∈ g.inputsOf p := by
  rw [mem_sortedParents, ← parentsOf_eq hn, hm.mem_iff]

theorem Matched.parentEdges_eq (hm : g.Matched) (hn : g.get? x = some n) (hr : n.retired = false) :
    g.parentEdges x = .ok (g.edgesTo x (sortedParents n.parents)) := by
  have hslots : g.slotsOf x (sortedParents n.parents) =
      .ok (g.edgesTo x (sortedParents n.parents)) :=
    slotsOf_ok fun p hp => by
      obtain ⟨m, hm, -⟩ := exists_of_mem_inputsOf ((hm.mem_sortedParents_iff hn).1 hp)
      exact ⟨m, hm⟩
  have hlength : (g.edgesTo x (sortedParents n.parents)).length = n.parents.length := by
    rw [edgesTo, List.length_flatMap, ← sum_count_sortedParents n.parents]
    congr 2
    funext p
    rw [List.length_map, length_positionsOf, ← hm p x, parentsOf_eq hn]
  unfold parentEdges
  rw [live_ok hn hr]
  show (g.slotsOf x (sortedParents n.parents) >>= fun edges => _) = _
  rw [hslots]
  show (if _ = _ then _ else _) = _
  rw [if_pos hlength]
  rfl

theorem Matched.mem_edgesTo_iff (hm : g.Matched) (hn : g.get? x = some n) {e : Edge} :
    e ∈ g.edgesTo x (sortedParents n.parents) ↔ g.Holds e x := by
  rw [mem_edgesTo, hm.mem_sortedParents_iff hn]
  refine ⟨fun h => h.2, fun h => ⟨?_, h⟩⟩
  obtain ⟨k, -, hk⟩ := h
  exact List.mem_of_getElem? hk

theorem Linked.parentEdges_ok (hl : g.Linked) (hn : g.get? x = some n) (hr : n.retired = false) :
    ∃ edges, g.parentEdges x = .ok edges ∧ ∀ e, e ∈ edges ↔ g.Holds e x :=
  ⟨_, hl.matched.parentEdges_eq hn hr, fun _ => hl.matched.mem_edgesTo_iff hn⟩

end Uses

def reassign (edges : List Edge) (x replacement : NodeId) (inputs : List NodeId) : List NodeId :=
  inputs.mapIdx fun pos y => if Edge.mk x pos ∈ edges then replacement else y

theorem reassign_nil (x replacement : NodeId) (inputs : List NodeId) :
    reassign [] x replacement inputs = inputs := by
  apply List.ext_getElem?
  simp [reassign]

theorem reassign_cons (e : Edge) (edges : List Edge) (x replacement : NodeId)
    (inputs : List NodeId) {pos : Nat} (hpos : e.pos = pos) :
    reassign (e :: edges) x replacement inputs =
      reassign edges x replacement
        (if x = e.parent then inputs.set pos replacement else inputs) := by
  have he : ∀ i : Nat, Edge.mk x i = e ↔ x = e.parent ∧ pos = i := by
    intro i
    obtain ⟨p, q⟩ := e
    dsimp only at hpos
    subst hpos
    rw [Edge.mk.injEq, Int.ofNat_inj, eq_comm (a := i)]
  apply List.ext_getElem?
  intro i
  simp only [reassign, List.getElem?_mapIdx, List.mem_cons, he]
  by_cases hx : x = e.parent
  · simp only [hx, if_true, true_and, List.getElem?_set]
    by_cases hi : pos = i
    · subst hi
      cases hin : inputs[pos]? with
      | none => simp [List.getElem?_eq_none_iff.1 hin]
      | some y =>
        obtain ⟨hlt, -⟩ := List.getElem?_eq_some_iff.1 hin
        simp [hlt]
    · simp [hi]
  · simp [hx]

theorem reassign_eq_map {edges : List Edge} {old replacement x : NodeId}
    (h : ∀ pos : Nat, Edge.mk x pos ∈ edges ↔ g.Holds ⟨x, pos⟩ old) :
    reassign edges x replacement (g.inputsOf x) =
      (g.inputsOf x).map fun y => if y = old then replacement else y := by
  apply List.ext_getElem?
  intro i
  simp only [reassign, List.getElem?_mapIdx, List.getElem?_map]
  cases hi : (g.inputsOf x)[i]? with
  | none => rfl
  | some y =>
    have hy : Edge.mk x i ∈ edges ↔ y = old := by
      rw [h]
      constructor
      · rintro ⟨k, hk, hget⟩
        have hki : k = i := (Int.ofNat_inj.1 hk).symm
        rw [hki, hi] at hget
        exact Option.some.inj hget
      · rintro rfl
        exact ⟨i, rfl, hi⟩
    simp [hy]

structure Movable (g : Graph) (replacement : NodeId) (e : Edge) : Prop where
  ne : e.parent ≠ replacement
  live : ∃ n, g.get? e.parent = some n ∧ n.retired = false
  slot : ∃ y, g.Holds e y

theorem Holds.input_eq {e : Edge} {x : NodeId} {n : Node} (h : g.Holds e x)
    (hn : g.get? e.parent = some n) : n.input e.parent e.pos = .ok x := by
  obtain ⟨pos, hpos, hx⟩ := h
  rw [inputsOf_eq hn] at hx
  simp [Node.input, Node.input?, hpos, hx]

theorem holds_of_input_eq {e : Edge} {x : NodeId} {n : Node} (hn : g.get? e.parent = some n)
    (h : n.input e.parent e.pos = .ok x) : g.Holds e x := by
  unfold Node.input Node.input? at h
  split at h
  · rename_i hx
    cases h
    split at hx
    · rename_i h0
      exact ⟨e.pos.toNat, (Int.toNat_of_nonneg h0).symm, by rw [inputsOf_eq hn, hx]⟩
    · cases hx
  · cases h

theorem checkEdge_ok {old replacement : NodeId} {e : Edge} (h : g.Movable replacement e)
    (ho : g.Holds e old) : g.checkEdge old replacement e = .ok () := by
  obtain ⟨n, hn, hr⟩ := h.live
  unfold checkEdge
  rw [if_neg h.ne, live_ok hn hr]
  show (n.input e.parent e.pos >>= fun found => _) = _
  rw [ho.input_eq hn]
  show (if old = old then _ else _) = _
  rw [if_pos rfl]
  rfl

theorem movable_of_checkEdge {old replacement : NodeId} {e : Edge}
    (h : g.checkEdge old replacement e = .ok ()) : g.Movable replacement e := by
  unfold checkEdge at h
  split at h
  · cases ho : g.refOf old <;> cases hr : g.refOf replacement <;> rw [ho] at h <;>
      first | cases h | (rw [hr] at h; cases h)
  · rename_i hne
    cases hl : g.live e.parent with
    | error fault => rw [hl] at h; cases h
    | ok n =>
      rw [hl] at h
      change (n.input e.parent e.pos >>= fun found => _) = _ at h
      cases hi : n.input e.parent e.pos with
      | error fault => rw [hi] at h; cases h
      | ok found =>
        obtain ⟨hn, hr⟩ := live_eq_ok_iff.1 hl
        exact ⟨hne, ⟨n, hn, hr⟩, found, holds_of_input_eq hn hi⟩

end Graph

namespace Edit
open LinearPlan.Graph
variable {g g' : Graph}

theorem forM_replaceInput_ok {I : Graph → Prop} (hI : KeptByReplaceInput I) (hl : I g)
    {replacement : NodeId} {r : Node}
    (hr : g.get? replacement = some r) (hrl : r.retired = false) {edges : List Edge}
    (he : ∀ e ∈ edges, g.Movable replacement e) :
    ∃ g', edges.forM (fun e => discard <| replaceInput e.parent e.pos replacement) g = .ok () g' ∧
      I g' ∧ g.Maps (fun x n => { n with inputs := reassign edges x replacement n.inputs }) g' := by
  induction edges generalizing g r with
  | nil =>
    refine ⟨g, rfl, hl, (Maps.refl g).congr fun x n _ => ?_⟩
    rw [reassign_nil]
  | cons e edges ih =>
    obtain ⟨hne, ⟨p, hp, hpl⟩, y, pos, hpos, hy⟩ := he e List.mem_cons_self
    rw [inputsOf_eq hp] at hy
    obtain ⟨g₁, hg₁, hl₁, hm₁⟩ := hI hl hp hpl hr hrl (Ne.symm hne) hy
    rw [← hpos] at hg₁
    -- Liveness and the number of operands of a node are kept by moving the first edge.
    have hkeep : ∀ {x n}, g.get? x = some n → n.retired = false →
        ∃ n', g₁.get? x = some n' ∧ n'.retired = false ∧ n'.inputs.length = n.inputs.length := by
      intro x n hn hnl
      obtain ⟨n', hn', hc⟩ := hm₁.get? hn
      refine ⟨n', hn', ?_⟩
      show n'.core.retired = false ∧ n'.core.inputs.length = n.inputs.length
      rw [hc]
      by_cases hx : x = e.parent
      · simp [hx, hnl, Node.core]
      · simp [hx, hnl, Node.core]
    obtain ⟨r', hr', hrl', -⟩ := hkeep hr hrl
    obtain ⟨g₂, hg₂, hl₂, hm₂⟩ := ih hl₁ hr' hrl' fun e' he' => by
      obtain ⟨hne', ⟨p', hp', hpl'⟩, y', pos', hpos', hy'⟩ := he e' (List.mem_cons_of_mem e he')
      obtain ⟨q, hq, hql, hqlen⟩ := hkeep hp' hpl'
      rw [inputsOf_eq hp'] at hy'
      obtain ⟨hlt, -⟩ := List.getElem?_eq_some_iff.1 hy'
      rw [← hqlen, ← inputsOf_eq hq] at hlt
      exact ⟨hne', ⟨q, hq, hql⟩, _, pos', hpos', List.getElem?_eq_getElem hlt⟩
    refine ⟨g₂, ?_, hl₂, (hm₁.trans hm₂).congr fun x n _ => ?_⟩
    · exact (forM_cons_ok (f := fun e : Edge => discard <| replaceInput e.parent e.pos replacement)
        (discard_ok hg₁)).trans hg₂
    · rw [reassign_cons e edges x replacement n.inputs hpos]
      by_cases hx : x = e.parent <;> simp [hx]

theorem redirect_ok (hl : g.Linked) {old replacement : NodeId} {r : Node}
    (hr : g.get? replacement = some r) (hrl : r.retired = false) {edges : List Edge}
    (hc : edges.forM (g.checkEdge old replacement) = .ok ()) :
    ∃ g', redirect edges old replacement g = .ok () g' ∧ g'.Linked ∧
      g.Maps (fun x n => { n with inputs := reassign edges x replacement n.inputs }) g' := by
  obtain ⟨g', hg', hl', hm⟩ := forM_replaceInput_ok replaceInput_ok hl hr hrl fun e he =>
    movable_of_checkEdge (Outcome.forM_eq_ok_iff.1 hc e he)
  refine ⟨g', ?_, hl', hm⟩
  unfold redirect
  rw [bind_ok (discard_ok (live_run hr hrl)), bind_ok (read_ok hc)]
  exact hg'

theorem redirect_cases (hl : g.Linked) (edges : List Edge) (old replacement : NodeId) :
    (∃ fault, redirect edges old replacement g = .error fault g) ∨
      ∃ g', redirect edges old replacement g = .ok () g' ∧ g'.Linked ∧
        g.Maps (fun x n => { n with inputs := reassign edges x replacement n.inputs }) g' := by
  rcases live_cases replacement g with ⟨fault, hf⟩ | ⟨r, hr, hrl, hrr⟩
  · exact .inl ⟨fault, bind_error (discard_error hf)⟩
  rcases read_cases (fun g => edges.forM (g.checkEdge old replacement)) g with
    ⟨fault, hf⟩ | ⟨u, hc, -⟩
  · exact .inl ⟨fault, (bind_ok (discard_ok hrr)).trans (bind_error hf)⟩
  · exact .inr (redirect_ok hl hr hrl hc)

theorem redirect_uses_ok (hl : g.Linked) {old replacement : NodeId} {r : Node}
    (hr : g.get? replacement = some r) (hrl : r.retired = false) {edges : List Edge}
    (he : ∀ e, e ∈ edges ↔ g.Holds e old ∧ e.parent ≠ replacement) :
    ∃ g', redirect edges old replacement g = .ok () g' ∧ g'.Linked ∧
      g.Maps (fun x n => if x = replacement then n else
        { n with inputs := n.inputs.map fun y => if y = old then replacement else y }) g' := by
  have hc : edges.forM (g.checkEdge old replacement) = .ok () := by
    refine Outcome.forM_eq_ok_iff.2 fun e hmem => ?_
    obtain ⟨⟨pos, hpos, hy⟩, hne⟩ := (he e).1 hmem
    have hmov : g.Movable replacement e :=
      ⟨hne, hl.user_live (List.mem_of_getElem? hy), old, pos, hpos, hy⟩
    exact checkEdge_ok hmov ⟨pos, hpos, hy⟩
  obtain ⟨g', hg', hl', hm⟩ := redirect_ok hl hr hrl hc
  refine ⟨g', hg', hl', hm.congr fun x n hn => ?_⟩
  have hx : g.inputsOf x = n.inputs := by rw [inputsOf_eq_core, hn]; rfl
  by_cases hxr : x = replacement
  · have hsame : reassign edges x replacement n.inputs = n.inputs := by
      apply List.ext_getElem?
      simp [reassign, he, hxr]
    rw [if_pos hxr, hsame]
  · have hpos : ∀ pos : Nat, Edge.mk x pos ∈ edges ↔ g.Holds ⟨x, pos⟩ old := by simp [he, hxr]
    rw [if_neg hxr, ← hx, reassign_eq_map hpos]

theorem redirectParents_ok {old replacement : NodeId} {edges : List Edge}
    (he : g.parentEdges old = .ok edges) (hg' : redirect edges old replacement g = .ok () g') :
    redirectParents old replacement g = .ok edges g' := by
  unfold redirectParents parentEdges
  rw [bind_ok (read_ok he), bind_ok hg']
  rfl

theorem redirectParents_cases (hl : g.Linked) (old replacement : NodeId) :
    (∃ fault, redirectParents old replacement g = .error fault g) ∨
      ∃ edges g', redirectParents old replacement g = .ok edges g' ∧ g'.Linked ∧
        g.Maps (fun x n => { n with inputs := reassign edges x replacement n.inputs }) g' := by
  rcases read_cases (·.parentEdges old) g with ⟨fault, hf⟩ | ⟨edges, he, hrun⟩
  · exact .inl ⟨fault, bind_error hf⟩
  rcases redirect_cases hl edges old replacement with ⟨fault, hf⟩ | ⟨g', hg', hl', hm⟩
  · exact .inl ⟨fault, (bind_ok hrun).trans (bind_error hf)⟩
  · exact .inr ⟨edges, g', redirectParents_ok he hg', hl', hm⟩

end Edit
end LinearPlan
