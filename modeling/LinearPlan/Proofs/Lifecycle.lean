import LinearPlan.Proofs.Sizing
import LinearPlan.Proofs.Truncation

/-!
# Adding and retiring nodes

Retiring nodes removes their operands and keeps edges consistent when nothing outside of the retired
nodes uses them. A new node is put at the end, becomes known to its operands and is sized; when
sizing fails the graph is exactly what it was before. Sizing alone changes no edge. `Edit.Grown` is a
graph that was added to; cutting it back gives back what it grew from.
-/
namespace LinearPlan

namespace Graph
variable {g g' : Graph}

theorem Matched.modify (h : g.Matched) (x : NodeId) {f : Node → Node}
    (hin : ∀ m, (f m).inputs = m.inputs) (hpar : ∀ m, (f m).parents = m.parents) :
    (g.modify x f).Matched := by
  intro p c
  have hpc := h p c
  rw [parentsOf_eq_getD, inputsOf_eq_getD] at hpc ⊢
  rw [get?_modify, get?_modify, Option.map_map, Option.map_map]
  convert hpc using 3
  · congr 1
    funext m
    by_cases hc : c = x <;> simp [hc, hpar]
  · congr 1
    funext m
    by_cases hp : p = x <;> simp [hp, hin]

theorem maps_modify (g : Graph) (x : NodeId) {f : Node → Node} (hf : ∀ m, (f m).core = f m.core) :
    g.Maps (fun y m => if y = x then f m else m) (g.modify x f) := by
  refine ⟨name_modify .., fun y => ?_⟩
  rw [core?, core?, get?_modify, Option.map_map, Option.map_map]
  congr 1
  funext m
  by_cases hy : y = x <;> simp [hy, hf]

theorem Linked.modify (h : g.Linked) {x : NodeId} {f : Node → Node}
    (hin : ∀ m, (f m).inputs = m.inputs) (hpar : ∀ m, (f m).parents = m.parents)
    (hret : ∀ m, (f m).retired = m.retired) (hcore : ∀ m, (f m).core = f m.core)
    (har : ∀ n, g.get? x = some n → (f n).op.arity? = n.op.arity?) : (g.modify x f).Linked := by
  have hm := maps_modify g x hcore
  have hinputs : ∀ p, (g.modify x f).inputsOf p = g.inputsOf p := fun p => by
    rw [inputsOf_eq_core, hm.core, Option.map_map, inputsOf_eq_core]
    cases g.core? p with
    | none => rfl
    | some n => by_cases hp : p = x <;> simp [hp, hin]
  have hback : ∀ {y n'}, (g.modify x f).core? y = some n' → ∃ n, g.core? y = some n ∧
      n'.inputs = n.inputs ∧ n'.retired = n.retired ∧ n'.op.arity? = n.op.arity? := by
    intro y n' hn'
    rw [hm.core] at hn'
    obtain ⟨n, hn, rfl⟩ := Option.map_eq_some_iff.1 hn'
    refine ⟨n, hn, ?_⟩
    by_cases hy : y = x
    · subst hy
      obtain ⟨n₀, hn₀, rfl⟩ := get?_of_core? hn
      rw [if_pos rfl, hin, hret, ← hcore]
      exact ⟨rfl, rfl, har n₀ hn₀⟩
    · rw [if_neg hy]
      exact ⟨rfl, rfl, rfl⟩
  refine ⟨⟨?_, ?_, ?_, ?_⟩, h.matched.modify x hin hpar⟩
  · intro p
    rw [hinputs]
    exact h.irreflexive p
  · intro p c hc
    rw [hinputs] at hc
    obtain ⟨n, hn, hr⟩ := h.operand hc
    refine ⟨_, (hm.core c).trans (congrArg _ hn), ?_⟩
    by_cases hcx : c = x <;> simp [hcx, hret, hr]
  · intro y n' hn' hr
    obtain ⟨n, hn, hi, hrt, -⟩ := hback hn'
    rw [hi]
    exact h.inputs_nil hn (hrt ▸ hr)
  · intro y n' hn' hr
    obtain ⟨n, hn, hi, hrt, ha⟩ := hback hn'
    rw [ha, hi]
    exact h.arity hn (hrt ▸ hr)

theorem Linked.setShape (h : g.Linked) (x : NodeId) (s : Shape) :
    (g.modify x fun m => { m with shape := s }).Linked :=
  h.modify (fun _ => rfl) (fun _ => rfl) (fun _ => rfl) (fun _ => rfl) fun _ _ => rfl

/-- Taking the operands from a node, together with its entries among their parents, keeps both
directions of edges equal. -/
theorem Matched.unplug (h : g.Matched) {x : NodeId} {n : Node} (hn : g.get? x = some n)
    {f : Node → Node} (hin : ∀ m, (f m).inputs = []) (hpar : ∀ m, (f m).parents = m.parents) :
    ((g.dropParents x n.inputs).modify x f).Matched := by
  intro p c
  have hparents : ((g.dropParents x n.inputs).modify x f).parentsOf c =
      (g.dropParents x n.inputs).parentsOf c := by
    rw [parentsOf_eq_getD, parentsOf_eq_getD, get?_modify, Option.map_map]
    congr 2
    funext m
    by_cases hc : c = x <;> simp [hc, hpar]
  have hinputs : ((g.dropParents x n.inputs).modify x f).inputsOf p =
      if p = x then [] else g.inputsOf p := by
    rw [inputsOf_eq_getD, get?_modify, get?_dropParents, Option.map_map, Option.map_map,
      inputsOf_eq_getD]
    by_cases hp : p = x
    · cases g.get? p <;> simp [hp, hin]
    · cases g.get? p <;> simp [hp]
  rw [hparents, hinputs, count_parentsOf_dropParents, h p c]
  by_cases hp : p = x
  · subst hp
    simp [inputsOf_eq hn]
  · simp [hp]

theorem maps_unplug (g : Graph) (x : NodeId) (inputs : List NodeId) {f : Node → Node}
    (hf : ∀ m, (f m).core = f m.core) :
    g.Maps (fun y m => if y = x then f m else m) ((g.dropParents x inputs).modify x f) := by
  refine ⟨by simp, fun y => ?_⟩
  rw [core?, core?, get?_modify, get?_dropParents, Option.map_map, Option.map_map, Option.map_map]
  congr 1
  funext m
  by_cases hy : y = x
  · simp only [Function.comp_apply, hy, if_true, hf]
    rfl
  · simp only [Function.comp_apply, hy, if_false]
    rfl

def gone (n : Node) : Node := { n with inputs := [], retired := true }

theorem Regular.retire (h : g.Regular) {ids : List NodeId}
    (hclosed : ∀ x ∈ ids, ∀ p, x ∈ g.inputsOf p → p ∈ ids)
    (hm : g.Maps (fun x n => if x ∈ ids then gone n else n) g') : g'.Regular := by
  have hin : ∀ p, g'.inputsOf p = if p ∈ ids then [] else g.inputsOf p := by
    intro p
    rw [inputsOf_eq_core, hm.core, inputsOf_eq_core, Option.map_map]
    by_cases hp : p ∈ ids <;> cases g.core? p <;> simp [hp, gone]
  refine { irreflexive := ?_, operand := ?_, inputs_nil := ?_, arity := ?_ }
  · intro p hp
    rw [hin] at hp
    split at hp
    · cases hp
    · exact h.irreflexive p hp
  · intro p c hc
    rw [hin] at hc
    split at hc
    · cases hc
    · rename_i hp
      have hcids : c ∉ ids := fun hmem => hp (hclosed c hmem p hc)
      obtain ⟨n, hn, hr⟩ := h.operand hc
      exact ⟨n, by rw [hm.core, hn]; simp [hcids], hr⟩
  · intro x n hn hr
    rw [hm.core] at hn
    obtain ⟨n₀, hn₀, rfl⟩ := Option.map_eq_some_iff.1 hn
    by_cases hx : x ∈ ids
    · simp [hx, gone]
    · simp only [hx, if_false] at hr ⊢
      exact h.inputs_nil hn₀ hr
  · intro x n hn hr
    rw [hm.core] at hn
    obtain ⟨n₀, hn₀, rfl⟩ := Option.map_eq_some_iff.1 hn
    by_cases hx : x ∈ ids
    · simp [hx, gone] at hr
    · simp only [hx, if_false] at hr ⊢
      exact h.arity hn₀ hr

end Graph

namespace Edit
open LinearPlan.Graph
variable {g g' : Graph}

theorem detach_inputs_ok (h : g.Matched) {x : NodeId} {n : Node} (hn : g.get? x = some n) :
    detach x n.inputs g = .ok () (g.dropParents x n.inputs) :=
  detach_ok fun c => by rw [h x c, inputsOf_eq hn]

theorem retire_ok (hl : g.Linked) {x : NodeId} {n : Node} (hn : g.get? x = some n)
    (hr : n.retired = false) (hp : n.parents = []) :
    ∃ g', Edit.retire x g = .ok () g' ∧ g'.Linked ∧
      g.Maps (fun y m => if y ∈ [x] then gone m else m) g' := by
  have hm : g.Maps (fun y m => if y ∈ [x] then gone m else m)
      ((g.dropParents x n.inputs).modify x gone) :=
    (maps_unplug g x n.inputs (f := gone) fun _ => rfl).congr fun y m _ => by simp
  have hclosed : ∀ y ∈ [x], ∀ p, y ∈ g.inputsOf p → p ∈ [x] := by
    intro y hy p hmem
    rw [List.mem_singleton.1 hy, ← hl.matched.mem_iff, parentsOf_eq hn, hp] at hmem
    cases hmem
  refine ⟨_, ?_, ⟨hl.toRegular.retire hclosed hm,
    hl.matched.unplug hn (fun _ => rfl) fun _ => rfl⟩, hm⟩
  unfold Edit.retire
  rw [bind_ok (live_run hn hr), if_pos hp, bind_ok (detach_inputs_ok hl.matched hn)]
  rfl

theorem retire_cases (hl : g.Linked) (x : NodeId) :
    (∃ fault, Edit.retire x g = .error fault g) ∨
      ∃ g', Edit.retire x g = .ok () g' ∧ g'.Linked := by
  rcases live_cases x g with ⟨fault, hf⟩ | ⟨n, hn, hr, hrun⟩
  · exact .inl ⟨fault, bind_error hf⟩
  by_cases hp : n.parents = []
  · obtain ⟨g', hg', hl', -⟩ := retire_ok hl hn hr hp
    exact .inr ⟨g', hg', hl'⟩
  · refine .inl ⟨.stillUsed ⟨x, n.op⟩ n.parents.length, ?_⟩
    unfold Edit.retire
    rw [bind_ok hrun, if_neg hp]
    rfl

def Inner (g : Graph) (ids : List NodeId) (x : NodeId) : Prop :=
  ∃ n, g.get? x = some n ∧ n.retired = false ∧ ∀ p ∈ n.parents, p ∈ ids

theorem requireInner_cases (ids : List NodeId) (x : NodeId) :
    (∃ fault, requireInner ids x g = .error fault g) ∨
      requireInner ids x g = .ok () g ∧ Inner g ids x := by
  rcases live_cases x g with ⟨fault, hf⟩ | ⟨n, hn, hr, hrun⟩
  · exact .inl ⟨fault, bind_error hf⟩
  unfold requireInner
  rw [bind_ok hrun]
  cases hp : n.parents.find? fun p => !ids.contains p with
  | none =>
    refine .inr ⟨rfl, n, hn, hr, fun p hmem => ?_⟩
    simpa using List.find?_eq_none.1 hp p hmem
  | some p =>
    rcases read_cases (·.refOf p) g with ⟨fault, hf⟩ | ⟨r, -, hrf⟩
    · exact .inl ⟨fault, bind_error hf⟩
    · exact .inl ⟨_, bind_ok hrf⟩

theorem requireInner_ok {ids : List NodeId} {x : NodeId} (h : Inner g ids x) :
    requireInner ids x g = .ok () g := by
  obtain ⟨n, hn, hr, hp⟩ := h
  have hnone : n.parents.find? (fun p => !ids.contains p) = none := by
    simpa using hp
  unfold requireInner
  rw [bind_ok (live_run hn hr), hnone]
  rfl

theorem forM_clearInputs_ok (hm : g.Matched) {ids : List NodeId}
    (hids : ∀ x ∈ ids, ∃ n, g.get? x = some n) :
    ∃ g', ids.forM clearInputs g = .ok () g' ∧ g'.Matched ∧
      g.Maps (fun x n => if x ∈ ids then { n with inputs := [] } else n) g' := by
  induction ids generalizing g with
  | nil => exact ⟨g, rfl, hm, (Maps.refl g).congr fun x n _ => by simp⟩
  | cons x ids ih =>
    obtain ⟨n, hn⟩ := hids x List.mem_cons_self
    let clear : Node → Node := fun m => { m with inputs := [] }
    have hrun : clearInputs x g = .ok () ((g.dropParents x n.inputs).modify x clear) := by
      unfold clearInputs
      rw [bind_ok (follow_run hn), bind_ok (detach_inputs_ok hm hn)]
      rfl
    have hmaps := maps_unplug g x n.inputs (f := clear) fun _ => rfl
    obtain ⟨g', hg', hm', hmaps'⟩ := ih (hm.unplug hn (f := clear) (fun _ => rfl) fun _ => rfl)
      fun y hy => by
      obtain ⟨m, hy⟩ := hids y (List.mem_cons_of_mem x hy)
      obtain ⟨m', hm', -⟩ := hmaps.get? hy
      exact ⟨m', hm'⟩
    refine ⟨g', (forM_cons_ok hrun).trans hg', hm', (hmaps.trans hmaps').congr fun y m _ => ?_⟩
    by_cases hyx : y = x <;> by_cases hy : y ∈ ids <;> simp [hyx, hy, clear]

theorem forM_markRetired_ok (hm : g.Matched) {ids : List NodeId}
    (hids : ∀ x ∈ ids, ∃ n, g.get? x = some n ∧ n.parents = []) :
    ∃ g', ids.forM markRetired g = .ok () g' ∧ g'.Matched ∧
      g.Maps (fun x n => if x ∈ ids then { n with retired := true } else n) g' := by
  induction ids generalizing g with
  | nil => exact ⟨g, rfl, hm, (Maps.refl g).congr fun x n _ => by simp⟩
  | cons x ids ih =>
    obtain ⟨n, hn, hp⟩ := hids x List.mem_cons_self
    let mark : Node → Node := fun m => { m with retired := true }
    have hrun : markRetired x g = .ok () (g.modify x mark) := by
      unfold markRetired
      rw [bind_ok (follow_run hn), if_pos hp]
      rfl
    have hmaps := maps_modify g x (f := mark) fun _ => rfl
    obtain ⟨g', hg', hm', hmaps'⟩ := ih (hm.modify x (f := mark) (fun _ => rfl) fun _ => rfl)
      fun y hy => by
      obtain ⟨m, hmy, hpy⟩ := hids y (List.mem_cons_of_mem x hy)
      refine ⟨if y = x then mark m else m, by rw [get?_modify, hmy]; rfl, ?_⟩
      by_cases hyx : y = x <;> simp [hyx, mark, hpy]
    refine ⟨g', (forM_cons_ok hrun).trans hg', hm', (hmaps.trans hmaps').congr fun y m _ => ?_⟩
    by_cases hyx : y = x <;> by_cases hy : y ∈ ids <;> simp [hyx, hy, mark]

theorem Inner.user_mem (hm : g.Matched) {ids : List NodeId} {x p : NodeId} (h : Inner g ids x)
    (hp : x ∈ g.inputsOf p) : p ∈ ids := by
  obtain ⟨n, hn, -, hall⟩ := h
  exact hall p (parentsOf_eq hn ▸ hm.mem_iff.2 hp)

theorem retireAll_run (hm : g.Matched) {ids : List NodeId} (h : ∀ x ∈ ids, Inner g ids x) :
    ∃ g', (do ids.forM clearInputs; ids.forM markRetired : Edit Unit) g = .ok () g' ∧ g'.Matched ∧
      g.Maps (fun x n => if x ∈ ids then gone n else n) g' := by
  have hids : ∀ x ∈ ids, ∃ n, g.get? x = some n := fun x hx => by
    obtain ⟨n, hn, -⟩ := h x hx
    exact ⟨n, hn⟩
  obtain ⟨g₁, hg₁, hm₁, hmaps₁⟩ := forM_clearInputs_ok hm hids
  -- All users of these nodes have lost their operands, so no parent entry is left.
  have hfree : ∀ x ∈ ids, ∃ n, g₁.get? x = some n ∧ n.parents = [] := by
    intro x hx
    obtain ⟨n, hn⟩ := hids x hx
    obtain ⟨n₁, hn₁, -⟩ := hmaps₁.get? hn
    refine ⟨n₁, hn₁, List.eq_nil_iff_forall_not_mem.2 fun p hp => ?_⟩
    have hmem : x ∈ g₁.inputsOf p := hm₁.mem_iff.1 (parentsOf_eq hn₁ ▸ hp)
    rw [inputsOf_eq_core, hmaps₁.core, Option.map_map] at hmem
    cases hcore : g.core? p with
    | none => simp [hcore] at hmem
    | some m =>
      by_cases hpi : p ∈ ids
      · simp [hcore, hpi] at hmem
      · refine hpi ((h x hx).user_mem hm ?_)
        rw [inputsOf_eq_core]
        simpa [hcore, hpi] using hmem
  obtain ⟨g₂, hg₂, hm₂, hmaps₂⟩ := forM_markRetired_ok hm₁ hfree
  refine ⟨g₂, (bind_ok hg₁).trans hg₂, hm₂, (hmaps₁.trans hmaps₂).congr fun x n _ => ?_⟩
  by_cases hx : x ∈ ids <;> simp [hx, gone]

theorem retireAll_ok (hl : g.Linked) {ids : List NodeId} (h : ∀ x ∈ ids, Inner g ids x) :
    ∃ g', retireAll ids g = .ok () g' ∧ g'.Linked ∧
      g.Maps (fun x n => if x ∈ ids then gone n else n) g' := by
  obtain ⟨g', hg', hm', hmaps⟩ := retireAll_run hl.matched h
  refine ⟨g', ?_, ⟨hl.toRegular.retire (fun x hx p => (h x hx).user_mem hl.matched) hmaps, hm'⟩,
    hmaps⟩
  unfold retireAll
  rw [bind_ok (forM_pass fun x hx => requireInner_ok (h x hx))]
  exact hg'

theorem retireAll_cases (hl : g.Linked) (ids : List NodeId) :
    (∃ fault, retireAll ids g = .error fault g) ∨
      ∃ g', retireAll ids g = .ok () g' ∧ g'.Linked ∧
        g.Maps (fun x n => if x ∈ ids then gone n else n) g' := by
  rcases forM_check_cases (f := requireInner ids) fun x (_ : x ∈ ids) =>
    requireInner_cases ids x with ⟨fault, hf⟩ | ⟨-, hinner⟩
  · exact .inl ⟨fault, bind_error hf⟩
  · exact .inr (retireAll_ok hl hinner)

end Edit

namespace Graph
variable {g g' : Graph}

structure Appends (g : Graph) (n : Node) (g' : Graph) : Prop where
  name : g'.name = g.name
  core : ∀ y : Int, g'.core? y = if y = g.size then some n else g.core? y

theorem Appends.size {n : Node} (h : g.Appends n g') : g'.size = g.size + 1 := by
  have hiff : ∀ y : Int, (0 ≤ y ∧ y < (g'.size : Int)) ↔ (0 ≤ y ∧ y < (g.size : Int) + 1) := by
    intro y
    have hy : (g'.get? y).isSome = (g'.core? y).isSome := by simp [core?]
    have hold : (g.get? y).isSome ↔ 0 ≤ y ∧ y < (g.size : Int) := get?_isSome_iff
    have hnew : (g'.get? y).isSome ↔ 0 ≤ y ∧ y < (g'.size : Int) := get?_isSome_iff
    rw [← hnew, hy, h.core]
    by_cases he : y = g.size
    · rw [if_pos he]
      simp only [Option.isSome_some, true_iff]
      omega
    · rw [if_neg he, core?, Option.isSome_map, hold]
      omega
  have h1 := hiff g.size
  have h2 := hiff g'.size
  have h3 := hiff (g.size + 1)
  omega

theorem Appends.get?_self {n : Node} (h : g.Appends n g') :
    ∃ n', g'.get? g.size = some n' ∧ n'.core = n := by
  have hc := h.core g.size
  rw [if_pos rfl] at hc
  exact get?_of_core? hc

theorem Appends.core_of_ne {n : Node} (h : g.Appends n g') {y : Int} (hy : y ≠ g.size) :
    g'.core? y = g.core? y :=
  (h.core y).trans (if_neg hy)

theorem Appends.core_of_some {n m : Node} (h : g.Appends n g') {y : Int}
    (hy : g.core? y = some m) : g'.core? y = some m := by
  obtain ⟨k, hk, -⟩ := get?_of_core? hy
  have hlt := (range_of_get? hk).2
  rw [h.core_of_ne (by omega), hy]

theorem Appends.inputsOf {n : Node} (h : g.Appends n g') (x : Int) :
    g'.inputsOf x = if x = g.size then n.inputs else g.inputsOf x := by
  rw [inputsOf_eq_core, h.core, inputsOf_eq_core]
  split <;> rfl

def attach (g : Graph) (n : Node) : Graph :=
  ({ g with nodes := g.nodes.push n } : Graph).addParents g.size n.inputs

theorem get?_attach (g : Graph) (n : Node) (y : Int) :
    (g.attach n).get? y = (if y = g.size then some n else g.get? y).map fun m =>
      { m with parents := m.parents ++ List.replicate (n.inputs.count y) (g.size : Int) } := by
  rw [attach, get?_addParents, get?_push]

theorem appends_attach (g : Graph) {n : Node} (hp : n.parents = []) : g.Appends n (g.attach n) := by
  refine ⟨by simp [attach], fun y => ?_⟩
  rw [core?, get?_attach, Option.map_map]
  by_cases hy : y = g.size
  · rw [if_pos hy, if_pos hy]
    have hcore : n.core = n := by
      cases n
      cases hp
      rfl
    exact congrArg some hcore
  · rw [if_neg hy, if_neg hy]
    rfl

theorem size_notMem {inputs : List NodeId}
    (hin : ∀ y ∈ inputs, ∃ m, g.get? y = some m ∧ m.retired = false) : (g.size : Int) ∉ inputs := by
  intro hmem
  obtain ⟨m, hm, -⟩ := hin _ hmem
  exact absurd (range_of_get? hm).2 (lt_irrefl _)

theorem Matched.attach (h : g.Matched) {n : Node} (hp : n.parents = [])
    (hin : ∀ y ∈ n.inputs, ∃ m, g.get? y = some m ∧ m.retired = false) : (g.attach n).Matched := by
  intro p c
  have hcount := h p c
  have hnew : p = g.size → (g.inputsOf p).count c = 0 := fun hps => by
    rw [inputsOf, get?_eq_none_of_size_le (le_of_eq hps.symm), List.count_nil]
  rw [(appends_attach g hp).inputsOf, parentsOf_eq_getD, get?_attach]
  by_cases hcs : c = g.size
  · have hold : (g.inputsOf p).count c = 0 := by
      rw [← hcount, parentsOf, get?_eq_none_of_size_le (le_of_eq hcs.symm), List.count_nil]
    have hzero : n.inputs.count c = 0 := List.count_eq_zero.2 (hcs ▸ size_notMem hin)
    by_cases hps : p = g.size
    · simp [hcs, hps, hp, hcs ▸ hzero]
    · simp [hcs, hps, hp, hcs ▸ hzero, hcs ▸ hold]
  · cases hc : g.get? c with
    | none =>
      have hzero : n.inputs.count c = 0 := List.count_eq_zero.2 fun hmem => by
        obtain ⟨m, hm, -⟩ := hin c hmem
        rw [hc] at hm
        cases hm
      rw [parentsOf, hc] at hcount
      by_cases hps : p = g.size
      · simp [hcs, hps, hzero]
      · simp [hcs, hps, ← hcount]
    | some m =>
      rw [parentsOf_eq hc] at hcount
      by_cases hps : p = g.size
      · have hm : m.parents.count p = 0 := hcount.trans (hnew hps)
        simp [hcs, hps, hps ▸ hm]
      · simp [hcs, hps, hcount, List.count_replicate, Ne.symm hps]

theorem Linked.attach (h : g.Linked) {n : Node} (hp : n.parents = []) (hr : n.retired = false)
    (ha : n.op.arity? = some n.inputs.length)
    (hin : ∀ y ∈ n.inputs, ∃ m, g.get? y = some m ∧ m.retired = false) : (g.attach n).Linked := by
  have happ := appends_attach g hp
  refine ⟨⟨?_, ?_, ?_, ?_⟩, h.matched.attach hp hin⟩
  · intro p
    rw [happ.inputsOf]
    split
    · rename_i hps
      rw [hps]
      exact size_notMem hin
    · exact h.irreflexive p
  · intro p c hc
    have hlive : ∃ m, g.core? c = some m ∧ m.retired = false := by
      rw [happ.inputsOf] at hc
      split at hc
      · obtain ⟨m, hm, hl⟩ := hin c hc
        exact ⟨_, core?_eq_some hm, hl⟩
      · exact h.operand hc
    obtain ⟨m, hm, hl⟩ := hlive
    exact ⟨m, happ.core_of_some hm, hl⟩
  · intro x m hm hret
    rw [happ.core] at hm
    split at hm
    · cases hm
      rw [hr] at hret
      cases hret
    · exact h.inputs_nil hm hret
  · intro x m hm hret
    rw [happ.core] at hm
    split at hm
    · cases hm
      exact ha
    · exact h.arity hm hret

theorem upTo_modify (g : Graph) {size : Nat} {x : Int} (hx : (size : Int) ≤ x) (f : Node → Node) :
    (g.modify x f).upTo size = g.upTo size := by
  refine ext_get? (name_modify ..) fun (y : Int) => ?_
  rw [get?_upTo, get?_upTo]
  by_cases hy : y < (size : Int)
  · rw [get?_modify_of_ne g f (ne_of_lt (lt_of_lt_of_le hy hx))]
  · rw [if_neg hy, if_neg hy]

theorem upTo_attach (g : Graph) {n : Node} (hp : n.parents = []) {size : Nat}
    (hsize : size ≤ g.size) : (g.attach n).upTo size = g.upTo size := by
  refine ext_get? (appends_attach g hp).name fun (y : Int) => ?_
  rw [get?_upTo, get?_upTo]
  by_cases hy : y < (size : Int)
  · -- The entries of the new node are at the end, and are all cut off.
    have hnew : (List.replicate (n.inputs.count y) (g.size : Int)).filter
        (fun p => decide (p < (size : Int))) = [] := by
      rw [List.filter_replicate, if_neg (by simpa using hsize)]
    rw [if_pos hy, if_pos hy, get?_attach, if_neg (by omega), Option.map_map]
    congr 1
    funext m
    simp only [Function.comp_apply, List.filter_append, hnew, List.append_nil]
  · rw [if_neg hy, if_neg hy]

end Graph

namespace Edit
open LinearPlan.Graph
variable {g g' : Graph}

def start (g : Graph) (op : Op) (inputs : List NodeId) : Node :=
  .fresh op inputs (g.inheritedBlocks inputs)

theorem get?_attach_start {op : Op} {inputs : List NodeId}
    (hin : ∀ y ∈ inputs, ∃ m, g.get? y = some m ∧ m.retired = false) :
    (g.attach (start g op inputs)).get? g.size = some (start g op inputs) := by
  rw [get?_attach, if_pos rfl]
  simp [start, Node.fresh, List.count_eq_zero.2 (size_notMem hin)]

def extended (g : Graph) (op : Op) (inputs : List NodeId) (s : Shape) : Graph :=
  (g.attach (start g op inputs)).modify g.size fun m => { m with shape := s }

theorem appends_extended (g : Graph) (op : Op) (inputs : List NodeId) (s : Shape) :
    g.Appends { start g op inputs with shape := s } (extended g op inputs s) := by
  have happ := appends_attach g (n := start g op inputs) rfl
  have hmaps := maps_modify (g.attach (start g op inputs)) g.size
    (f := fun m => { m with shape := s }) fun _ => rfl
  refine ⟨hmaps.name.trans happ.name, fun y => ?_⟩
  rw [extended, hmaps.core, happ.core]
  by_cases hy : y = g.size
  · simp [hy]
  · simp [hy]

inductive Grown (g₀ : Graph) : Graph → Prop
  | refl : Grown g₀ g₀
  | add {g : Graph} {op : Op} {inputs : List NodeId} (h : Grown g₀ g)
      (hin : ∀ y ∈ inputs, ∃ m, g.get? y = some m ∧ m.retired = false) (s : Shape) :
      Grown g₀ (extended g op inputs s)

namespace Grown
variable {g₀ : Graph}

theorem size_le (h : Grown g₀ g) : g₀.size ≤ g.size := by
  induction h with
  | refl => exact le_rfl
  | @add g op inputs _ _ s ih =>
    rw [(appends_extended g op inputs s).size]
    omega

theorem matched (h : Grown g₀ g) (h₀ : g₀.Matched) : g.Matched := by
  induction h with
  | refl => exact h₀
  | @add g op inputs _ hin s ih =>
    exact (ih.attach (n := start g op inputs) rfl hin).modify g.size (fun _ => rfl) fun _ => rfl

theorem upTo_eq (h : Grown g₀ g) {size : Nat} (hsize : size ≤ g₀.size) :
    g.upTo size = g₀.upTo size := by
  induction h with
  | refl => rfl
  | @add g op inputs h _ s ih =>
    have hle := hsize.trans h.size_le
    rw [extended, upTo_modify _ (by omega), upTo_attach g rfl hle, ih]

theorem descending (h : Grown g₀ g) (h₀ : g₀.Matched) : g.Descending g₀.size := by
  induction h with
  | refl =>
    intro x c hx hc
    exact le_of_lt (lt_of_lt_of_le (h₀.operand_range hc).2 hx)
  | @add g op inputs h hin s ih =>
    intro x c hx hc
    rw [(appends_extended g op inputs s).inputsOf] at hc
    split at hc
    · rename_i hxs
      obtain ⟨m, hm, -⟩ := hin c hc
      exact le_of_lt (hxs ▸ (range_of_get? hm).2)
    · exact ih x c hx hc

theorem severable (h : Grown g₀ g) (h₀ : g₀.Matched) : g.Severable g₀.size := by
  refine ⟨Int.natCast_nonneg _, Int.ofNat_le.2 h.size_le, fun p c hp hc => ?_⟩
  have hin : g.inputsOf p = g₀.inputsOf p := by
    have hcut := congrArg (fun g => Graph.inputsOf g p) (h.upTo_eq le_rfl)
    simpa only [inputsOf_upTo, if_pos hp] using hcut
  exact (h₀.operand_range (hin ▸ hc)).2

theorem truncate (h : Grown g₀ g) (h₀ : g₀.Matched) : Edit.truncate g₀.size g = .ok () g₀ := by
  rw [truncate_ok (h.matched h₀) (h.severable h₀) (h.descending h₀), h.upTo_eq le_rfl, h₀.upTo_size]

end Grown

theorem push_run (op : Op) (inputs : List NodeId) :
    push op inputs g =
      .ok (g.size : Int) (g.attach (.fresh op inputs (g.inheritedBlocks inputs))) := by
  unfold push
  rw [bind_ok get_apply]
  show (inputs.forM (fun x => addParent x (g.size : Int)) >>= fun _ => pure (g.size : Int)) _ = _
  rw [bind_ok (forM_addParent _ _)]
  rfl

theorem requireOperand_cases (kind : OpKind) (y : NodeId × Nat) :
    (∃ fault, requireOperand kind y g = .error fault g) ∨
      requireOperand kind y g = .ok () g ∧ ∃ m, g.get? y.1 = some m ∧ m.retired = false := by
  unfold requireOperand
  by_cases hy : y.1 = -1
  · rw [if_pos hy]
    exact .inl ⟨_, bind_ok get_apply⟩
  · rw [if_neg hy]
    rcases live_cases y.1 g with ⟨fault, hf⟩ | ⟨m, hm, hr, hrun⟩
    · refine .inl ⟨fault, ?_⟩
      show EStateM.map _ _ g = _
      rw [EStateM.map, hf]
    · exact .inr ⟨discard_ok hrun, m, hm, hr⟩

theorem requireOperand_ok {kind : OpKind} {y : NodeId × Nat} {m : Node}
    (hm : g.get? y.1 = some m) (hr : m.retired = false) : requireOperand kind y g = .ok () g := by
  have hy : y.1 ≠ -1 := fun he => by
    have := (range_of_get? hm).1
    rw [he] at this
    cases this
  unfold requireOperand
  rw [if_neg hy]
  exact discard_ok (live_run hm hr)

theorem addNode_run (op : Op) {inputs : List NodeId}
    (hin : ∀ y ∈ inputs, ∃ m, g.get? y = some m ∧ m.retired = false) :
    addNode op inputs g =
      (do undoing (refresh g.size) (truncate g.size); return (g.size : Int) : Edit NodeId)
        (g.attach (start g op inputs)) := by
  unfold addNode
  rw [bind_ok (forM_pass fun y hy => ?_), bind_ok (push_run op inputs)]
  · rfl
  · obtain ⟨m, hm, hr⟩ := hin y.1 (List.fst_mem_of_mem_zipIdx hy)
    exact requireOperand_ok hm hr

theorem sizeNode_attach {op : Op} {inputs : List NodeId}
    (hin : ∀ y ∈ inputs, ∃ m, g.get? y = some m ∧ m.retired = false)
    (ha : op.arity? = some inputs.length) :
    (g.attach (start g op inputs)).sizeNode g.size (start g op inputs) =
      g.sizeNode g.size (start g op inputs) := by
  have hres : g.Resolves (start g op inputs) := fun y hy => by
    obtain ⟨m, hm, -⟩ := hin y hy
    exact ⟨_, core?_eq_some hm⟩
  refine (sizeNode_congr hres ha fun y hy => ?_).symm
  obtain ⟨m, hm⟩ := hres y hy
  rw [(appends_attach g (n := start g op inputs) rfl).core_of_some hm, hm]

theorem addNode_eq {op : Op} {inputs : List NodeId} {s : Shape}
    (hin : ∀ y ∈ inputs, ∃ m, g.get? y = some m ∧ m.retired = false)
    (ha : op.arity? = some inputs.length)
    (hs : g.sizeNode g.size (start g op inputs) = .ok s) :
    addNode op inputs g = .ok (g.size : Int) (extended g op inputs s) := by
  have hrefresh := refresh_ok (get?_attach_start hin) rfl ((sizeNode_attach hin ha).trans hs)
  rw [addNode_run op hin, bind_ok (undoing_ok hrefresh)]
  rfl

theorem addNode_ok (hl : g.Linked) {op : Op} {inputs : List NodeId} {s : Shape}
    (hin : ∀ y ∈ inputs, ∃ m, g.get? y = some m ∧ m.retired = false)
    (ha : op.arity? = some inputs.length)
    (hs : g.sizeNode g.size (start g op inputs) = .ok s) :
    ∃ g', addNode op inputs g = .ok (g.size : Int) g' ∧ g'.Linked ∧
      g.Appends { start g op inputs with shape := s } g' :=
  ⟨_, addNode_eq hin ha hs, (hl.attach (n := start g op inputs) rfl rfl ha hin).setShape g.size s,
    appends_extended g op inputs s⟩

theorem addNode_error (hm : g.Matched) {op : Op} {inputs : List NodeId} {fault : SizingFault}
    (hin : ∀ y ∈ inputs, ∃ m, g.get? y = some m ∧ m.retired = false)
    (hs : (g.attach (start g op inputs)).sizeNode g.size (start g op inputs) = .error fault) :
    addNode op inputs g = .error fault.cause g := by
  have hgrown : Grown g (extended g op inputs fault.reached) := .add .refl hin _
  rw [addNode_run op hin]
  exact bind_error (undoing_error (refresh_error (get?_attach_start hin) rfl hs)
    (hgrown.truncate hm))

theorem addNode_error_or_live (op : Op) (inputs : List NodeId) :
    (∃ fault, addNode op inputs g = .error fault g) ∨
      ∀ y ∈ inputs, ∃ m, g.get? y = some m ∧ m.retired = false := by
  rcases forM_check_cases (f := requireOperand op.kind) fun y (_ : y ∈ inputs.zipIdx) =>
    requireOperand_cases op.kind y with ⟨fault, hf⟩ | ⟨-, hlive⟩
  · exact .inl ⟨fault, bind_error hf⟩
  · refine .inr fun y hy => ?_
    obtain ⟨k, hk⟩ := List.getElem?_of_mem hy
    exact hlive (y, k) (List.mem_zipIdx_iff_getElem?.2 hk)

theorem addNode_fails_or_sized (g : Graph) {op : Op} {inputs : List NodeId}
    (ha : op.arity? = some inputs.length) :
    (∃ fault g₁, addNode op inputs g = .error fault g₁) ∨
      (∀ y ∈ inputs, ∃ m, g.get? y = some m ∧ m.retired = false) ∧
        ∃ s, g.sizeNode g.size (start g op inputs) = .ok s := by
  rcases addNode_error_or_live (g := g) op inputs with ⟨fault, hfail⟩ | hlive
  · exact .inl ⟨fault, g, hfail⟩
  cases hs : g.sizeNode g.size (start g op inputs) with
  | ok s => exact .inr ⟨hlive, s, rfl⟩
  | error fault =>
    rw [← sizeNode_attach hlive ha] at hs
    have hrefresh := refresh_error (get?_attach_start hlive) rfl hs
    obtain ⟨fault', g₁, hundo⟩ := undoing_fails (truncate g.size) hrefresh
    refine .inl ⟨fault', g₁, ?_⟩
    rw [addNode_run op hlive]
    exact bind_error hundo

theorem addNode_outcome (hm : g.Matched) (op : Op) (inputs : List NodeId) :
    (∃ fault, addNode op inputs g = .error fault g) ∨
      ∃ s, (∀ y ∈ inputs, ∃ m, g.get? y = some m ∧ m.retired = false) ∧
        (g.attach (start g op inputs)).sizeNode g.size (start g op inputs) = .ok s ∧
        addNode op inputs g = .ok (g.size : Int) (extended g op inputs s) := by
  rcases addNode_error_or_live op inputs with hfail | hin
  · exact .inl hfail
  cases hs : (g.attach (start g op inputs)).sizeNode g.size (start g op inputs) with
  | error fault => exact .inl ⟨fault.cause, addNode_error hm hin hs⟩
  | ok s =>
    refine .inr ⟨s, hin, rfl, ?_⟩
    rw [addNode_run op hin, bind_ok (undoing_ok (refresh_ok (get?_attach_start hin) rfl hs))]
    rfl

theorem addNode_cases (hl : g.Linked) (op : Op) (inputs : List NodeId)
    (ha : needsArity op = false → op.arity? = some inputs.length) :
    (∃ fault, addNode op inputs g = .error fault g) ∨
      ∃ s g', addNode op inputs g = .ok (g.size : Int) g' ∧ g'.Linked ∧
        g.Appends { start g op inputs with shape := s } g' ∧
        g.sizeNode g.size (start g op inputs) = .ok s := by
  refine (addNode_outcome hl.matched op inputs).imp_right fun ⟨s, hin, hs, _⟩ => ?_
  have harity : op.arity? = some inputs.length := by
    cases hop : needsArity op with
    | true => exact arity_of_sizeNode hs hop
    | false => exact ha hop
  rw [sizeNode_attach hin harity] at hs
  obtain ⟨g', hg', hl', happ⟩ := addNode_ok hl hin harity hs
  exact ⟨s, g', hg', hl', happ, hs⟩

end Edit
end LinearPlan
