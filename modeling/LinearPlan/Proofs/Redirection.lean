import LinearPlan.Proofs.CallSequences

/-!
# Giving the uses of a node to another one

The uses of a node are the operand positions that hold it. They are listed by parent and position, and
moved to the replacement one at a time: each move takes the first entry of a parent out of the parents
of the node and puts one at the end of those of the replacement. A parent may use the node several
times, and use the replacement beside it; in the end the node has no parents, the replacement has one
more for each use in the order in which they were listed, and nothing else has changed.
-/
namespace LinearPlan

def Edge.Before (e e' : Edge) : Prop :=
  e.parent < e'.parent ∨ e.parent = e'.parent ∧ e.pos < e'.pos

theorem Edge.Before.ne {e e' : Edge} (h : e.Before e') : e ≠ e' := by
  rintro rfl
  rcases h with h | ⟨-, h⟩
  · exact lt_irrefl _ h
  · exact lt_irrefl _ h

namespace Graph
variable {g : Graph}

theorem sorted_positionsOf (x : NodeId) (inputs : List NodeId) :
    (positionsOf x inputs).Pairwise (· < ·) := by
  have hidx : (inputs.zipIdx.map Prod.snd).Pairwise (· < ·) := by
    rw [List.zipIdx_map_snd, List.range'_eq_map_range]
    simpa using List.pairwise_lt_range
  refine List.Pairwise.map _ (fun a b hab => ?_) ((List.pairwise_map.1 hidx).filter _)
  exact Int.ofNat_lt.2 hab

theorem sorted_edgesTo (g : Graph) (x : NodeId) {parents : List NodeId}
    (h : parents.Pairwise (· < ·)) : (g.edgesTo x parents).Pairwise Edge.Before := by
  refine List.pairwise_flatMap.2 ⟨fun p _ => ?_, h.imp fun {p q} hpq e he e' he' => ?_⟩
  · exact (sorted_positionsOf x (g.inputsOf p)).map _ fun _ _ hlt => .inr ⟨rfl, hlt⟩
  · obtain ⟨_, -, rfl⟩ := List.mem_map.1 he
    obtain ⟨_, -, rfl⟩ := List.mem_map.1 he'
    exact .inl hpq

theorem count_parents_edgesTo (g : Graph) (x : NodeId) {parents : List NodeId} (h : parents.Nodup)
    (p : NodeId) : ((g.edgesTo x parents).map Edge.parent).count p =
      if p ∈ parents then (g.inputsOf p).count x else 0 := by
  have hparent : ∀ q, ((positionsOf x (g.inputsOf q)).map (Edge.mk q)).map Edge.parent =
      List.replicate ((g.inputsOf q).count x) q := fun q => by
    rw [List.map_map, ← length_positionsOf]
    exact List.map_const' ..
  induction parents with
  | nil => rfl
  | cons q parents ih =>
    obtain ⟨hq, hrest⟩ := List.nodup_cons.1 h
    have hsplit : (g.edgesTo x (q :: parents)).map Edge.parent =
        List.replicate ((g.inputsOf q).count x) q ++ (g.edgesTo x parents).map Edge.parent := by
      rw [edgesTo, List.flatMap_cons, List.map_append, hparent]
      rfl
    rw [hsplit, List.count_append, ih hrest, List.count_replicate]
    by_cases hp : p = q
    · subst hp
      simp [hq]
    · simp [hp, Ne.symm hp]

def moveUses (g : Graph) (edges : List Edge) (old replacement : NodeId) : Graph :=
  edges.foldl (fun g e => g.rewire e.parent e.pos.toNat old replacement) g

theorem get?_moveUses (g : Graph) {edges : List Edge} {old replacement : NodeId}
    (hne : old ≠ replacement) (hpos : ∀ e ∈ edges, 0 ≤ e.pos) (x : NodeId) :
    (g.moveUses edges old replacement).get? x = (g.get? x).map fun n =>
      { n with
        inputs := reassign edges x replacement n.inputs
        parents := if x = old then n.parents.diff (edges.map Edge.parent)
          else if x = replacement then n.parents ++ edges.map Edge.parent else n.parents } := by
  induction edges generalizing g with
  | nil => simp [moveUses, reassign_nil]
  | cons e edges ih =>
    have h0 := hpos e List.mem_cons_self
    have hstep : g.moveUses (e :: edges) old replacement =
        (g.rewire e.parent e.pos.toNat old replacement).moveUses edges old replacement := rfl
    rw [hstep, ih _ fun e' he' => hpos e' (List.mem_cons_of_mem e he'), get?_rewire g _ hne,
      Option.map_map]
    congr 1
    funext n
    have hcons := reassign_cons e edges x replacement n.inputs (Int.toNat_of_nonneg h0).symm
    by_cases hx : x = old
    · subst hx
      simp [hcons]
    · by_cases hxr : x = replacement
      · subst hxr
        simp [hx, hcons]
      · simp [hx, hxr, hcons]

theorem Holds.rewire {e e' : Edge} {old replacement : NodeId} {p : Node} {pos : Nat}
    (h : g.Holds e' old) (hne : old ≠ replacement) (hp : g.get? e.parent = some p)
    (hpos : e.pos = pos) (he : e' ≠ e) : (g.rewire e.parent pos old replacement).Holds e' old := by
  obtain ⟨k, hk, hget⟩ := h
  refine ⟨k, hk, ?_⟩
  rw [inputsOf_rewire pos hne hp]
  split
  · rename_i hparent
    have hkp : pos ≠ k := by
      rintro rfl
      obtain ⟨q, i⟩ := e
      obtain ⟨q', i'⟩ := e'
      exact he (congrArg₂ Edge.mk hparent (hk.trans hpos.symm))
    rw [hparent, inputsOf_eq hp] at hget
    rw [List.getElem?_set_ne hkp, hget]
  · exact hget

end Graph

namespace Edit
open LinearPlan.Graph
variable {g : Graph} {edges : List Edge} {old replacement : NodeId}

theorem forM_replaceInput_run (hm : g.Matched) {r : Node} (hr : g.get? replacement = some r)
    (hrl : r.retired = false) (hne : old ≠ replacement) (hnodup : edges.Nodup)
    (he : ∀ e ∈ edges, g.Movable replacement e ∧ g.Holds e old) :
    edges.forM (fun e => discard <| replaceInput e.parent e.pos replacement) g =
      .ok () (g.moveUses edges old replacement) ∧ (g.moveUses edges old replacement).Matched := by
  induction edges generalizing g r with
  | nil => exact ⟨rfl, hm⟩
  | cons e edges ih =>
    obtain ⟨hnotin, hrest⟩ := List.nodup_cons.1 hnodup
    obtain ⟨⟨hparent, ⟨p, hp, hpl⟩, -⟩, pos, hpos, hget⟩ := he e List.mem_cons_self
    rw [inputsOf_eq hp] at hget
    have hrun := replaceInput_run hm hp hpl hr hrl (Ne.symm hparent) hget
    rw [if_neg hne, ← hpos] at hrun
    have hstep : g.moveUses (e :: edges) old replacement =
        (g.rewire e.parent pos old replacement).moveUses edges old replacement := by
      show (g.rewire e.parent e.pos.toNat old replacement).moveUses edges old replacement = _
      rw [hpos, Int.toNat_natCast]
    -- Moving an edge changes neither the use of nodes nor the other edges.
    have hlive : ∀ {x n}, g.get? x = some n → n.retired = false →
        ∃ n', (g.rewire e.parent pos old replacement).get? x = some n' ∧ n'.retired = false :=
      fun {x n} hn hnl => ⟨_, (get?_rewire g pos hne x).trans (congrArg _ hn), hnl⟩
    obtain ⟨r', hr', hrl'⟩ := hlive hr hrl
    obtain ⟨hrun', hm'⟩ := ih (hm.rewire hp hr hget hne) hr' hrl' hrest fun e' he' => by
      obtain ⟨⟨hparent', ⟨q, hq, hql⟩, -⟩, huse⟩ := he e' (List.mem_cons_of_mem e he')
      obtain ⟨q', hq', hql'⟩ := hlive hq hql
      have huse' := huse.rewire hne hp hpos fun h => hnotin (h ▸ he')
      exact ⟨⟨hparent', ⟨q', hq', hql'⟩, old, huse'⟩, huse'⟩
    rw [hstep]
    exact ⟨(forM_cons_ok (f := fun e : Edge => discard <| replaceInput e.parent e.pos replacement)
      (discard_ok hrun)).trans hrun', hm'⟩

theorem redirect_run (hm : g.Matched) {r : Node} (hr : g.get? replacement = some r)
    (hrl : r.retired = false) (hne : old ≠ replacement) (hnodup : edges.Nodup)
    (he : ∀ e ∈ edges, g.Movable replacement e ∧ g.Holds e old) :
    redirect edges old replacement g = .ok () (g.moveUses edges old replacement) ∧
      (g.moveUses edges old replacement).Matched := by
  have hcheck : edges.forM (g.checkEdge old replacement) = .ok () :=
    Outcome.forM_eq_ok_iff.2 fun e hmem => checkEdge_ok (he e hmem).1 (he e hmem).2
  obtain ⟨hrun, hm'⟩ := forM_replaceInput_run hm hr hrl hne hnodup he
  refine ⟨?_, hm'⟩
  unfold redirect
  rw [bind_ok (discard_ok (live_run hr hrl)), bind_ok (read_ok hcheck)]
  exact hrun

end Edit

namespace Graph
variable {g g' : Graph} {edges : List Edge} {old replacement : NodeId}

/-- A graph after all uses of a node have been given to its replacement. Operands are as they were
apart from the positions in the list, parents apart from those of the two nodes. -/
structure Moved (g : Graph) (old replacement : NodeId) (edges : List Edge) (g' : Graph) : Prop where
  operands : g.Maps (fun x n => { n with inputs := reassign edges x replacement n.inputs }) g'
  emptied : g'.parentsOf old = []
  gained : g'.parentsOf replacement = g.parentsOf replacement ++ edges.map Edge.parent
  others : ∀ x, x ≠ old → x ≠ replacement → g'.parentsOf x = g.parentsOf x

@[simp] theorem name_moveUses (g : Graph) (edges : List Edge) (old replacement : NodeId) :
    (g.moveUses edges old replacement).name = g.name := by
  induction edges generalizing g with
  | nil => rfl
  | cons e edges ih => exact (ih _).trans (by simp [rewire])

theorem maps_moveUses (g : Graph) (hne : old ≠ replacement) (hpos : ∀ e ∈ edges, 0 ≤ e.pos) :
    g.Maps (fun x n => { n with inputs := reassign edges x replacement n.inputs })
      (g.moveUses edges old replacement) := by
  refine ⟨name_moveUses .., fun x => ?_⟩
  rw [core?, core?, get?_moveUses g hne hpos, Option.map_map, Option.map_map]
  rfl

theorem parentsOf_moveUses (hne : old ≠ replacement) (hpos : ∀ e ∈ edges, 0 ≤ e.pos) {x : NodeId}
    {n : Node} (hn : g.get? x = some n) : (g.moveUses edges old replacement).parentsOf x =
      if x = old then n.parents.diff (edges.map Edge.parent)
      else if x = replacement then n.parents ++ edges.map Edge.parent else n.parents := by
  rw [parentsOf_eq_getD, get?_moveUses g hne hpos, hn]
  rfl

theorem Holds.pos_nonneg {e : Edge} {x : NodeId} (h : g.Holds e x) : 0 ≤ e.pos := by
  obtain ⟨k, hk, -⟩ := h
  rw [hk]
  exact Int.natCast_nonneg k

theorem Matched.diff_edgesTo (hm : g.Matched) {n : Node} (hn : g.get? old = some n) :
    n.parents.diff ((g.edgesTo old (sortedParents n.parents)).map Edge.parent) = [] := by
  refine List.eq_nil_iff_forall_not_mem.2 fun p hp => ?_
  rw [← List.count_pos_iff, List.count_diff,
    count_parents_edgesTo g old (nodup_sortedParents n.parents) p] at hp
  have hmem : p ∈ sortedParents n.parents := mem_sortedParents.2 (List.count_pos_iff.1 (by omega))
  have hcount := hm p old
  rw [parentsOf_eq hn] at hcount
  rw [if_pos hmem] at hp
  omega

theorem Matched.moved (hm : g.Matched) {n r : Node} (hn : g.get? old = some n)
    (hr : g.get? replacement = some r) (hne : old ≠ replacement) :
    g.Moved old replacement (g.edgesTo old (sortedParents n.parents))
      (g.moveUses (g.edgesTo old (sortedParents n.parents)) old replacement) := by
  have hpos : ∀ e ∈ g.edgesTo old (sortedParents n.parents), 0 ≤ e.pos :=
    fun e he => ((hm.mem_edgesTo_iff hn).1 he).pos_nonneg
  refine ⟨maps_moveUses g hne hpos, ?_, ?_, fun x hx hxr => ?_⟩
  · rw [parentsOf_moveUses hne hpos hn, if_pos rfl, hm.diff_edgesTo hn]
  · rw [parentsOf_moveUses hne hpos hr, if_neg (Ne.symm hne), if_pos rfl, parentsOf_eq hr]
  · cases hg : g.get? x with
    | none =>
      have hnone : (g.moveUses (g.edgesTo old (sortedParents n.parents)) old replacement).get? x =
          none := by rw [get?_moveUses g hne hpos, hg, Option.map_none]
      rw [(edges_of_get?_none hg).2, (edges_of_get?_none hnone).2]
    | some k => rw [parentsOf_moveUses hne hpos hg, if_neg hx, if_neg hxr, parentsOf_eq hg]

theorem getElem?_reassign (edges : List Edge) (x replacement : NodeId) (inputs : List NodeId)
    (pos : Nat) : (reassign edges x replacement inputs)[pos]? =
      inputs[pos]?.map fun y => if Edge.mk x pos ∈ edges then replacement else y :=
  List.getElem?_mapIdx

theorem reassign_reassign {x : NodeId} (h : ∀ e ∈ edges, g.Holds e old) :
    reassign edges x old (reassign edges x replacement (g.inputsOf x)) = g.inputsOf x := by
  apply List.ext_getElem?
  intro i
  rw [getElem?_reassign, getElem?_reassign, Option.map_map]
  by_cases he : Edge.mk x i ∈ edges
  · obtain ⟨k, hk, hget⟩ := h _ he
    have hki : i = k := Int.ofNat_inj.1 hk
    rw [hki, hget]
    simp [← hki, he]
  · simp [he, Function.comp_def]

section Reassigned
variable (hmaps : g.Maps (fun x n => { n with inputs := reassign edges x replacement n.inputs }) g')
include hmaps

theorem inputsOf_reassigned (x : NodeId) :
    g'.inputsOf x = reassign edges x replacement (g.inputsOf x) := by
  rw [inputsOf_eq_core, inputsOf_eq_core, hmaps.core]
  cases g.core? x <;> rfl

theorem live_reassigned {x : NodeId} {n : Node} (hn : g.get? x = some n) (hnl : n.retired = false) :
    ∃ n', g'.get? x = some n' ∧ n'.retired = false := by
  obtain ⟨n', hn', hcore⟩ := hmaps.get? hn
  exact ⟨n', hn', (congrArg Node.retired hcore).trans hnl⟩

theorem Holds.reassigned {e : Edge} (h : g.Holds e old) (he : e ∈ edges) :
    g'.Holds e replacement := by
  obtain ⟨k, hk, hget⟩ := h
  refine ⟨k, hk, ?_⟩
  have hmem : Edge.mk e.parent k ∈ edges := hk ▸ he
  rw [inputsOf_reassigned hmaps, getElem?_reassign, hget, Option.map_some, if_pos hmem]

theorem redirect_back (hm' : g'.Matched) {n : Node} (hn : g.get? old = some n)
    (hnl : n.retired = false) (hne : old ≠ replacement) (hnodup : edges.Nodup)
    (he : ∀ e ∈ edges, g.Movable old e ∧ g.Holds e old) :
    ∃ g'', Edit.redirect edges replacement old g' = .ok () g'' ∧
      ∀ x, g''.inputsOf x = g.inputsOf x := by
  have hheld : ∀ e ∈ edges, g'.Holds e replacement :=
    fun e hmem => (he e hmem).2.reassigned hmaps hmem
  have hmov : ∀ e ∈ edges, g'.Movable old e := fun e hmem => by
    obtain ⟨hparent, ⟨p, hp, hpl⟩, -⟩ := (he e hmem).1
    exact ⟨hparent, live_reassigned hmaps hp hpl, replacement, hheld e hmem⟩
  obtain ⟨n', hn', hnl'⟩ := live_reassigned hmaps hn hnl
  obtain ⟨hrun, -⟩ := Edit.redirect_run hm' hn' hnl' (Ne.symm hne) hnodup fun e hmem =>
    ⟨hmov e hmem, hheld e hmem⟩
  have hback := maps_moveUses g' (Ne.symm hne) fun e hmem => (hheld e hmem).pos_nonneg
  refine ⟨_, hrun, fun x => ?_⟩
  rw [inputsOf_reassigned hback, inputsOf_reassigned hmaps,
    reassign_reassign fun e hmem => (he e hmem).2]

end Reassigned

theorem Holds.movable {e : Edge} (h : g.Holds e old)
    (hret : ∀ x n, g.get? x = some n → n.retired = true → n.inputs = [])
    (hy : old ∉ g.inputsOf replacement) : g.Movable replacement e := by
  obtain ⟨k, hk, hget⟩ := h
  have hin := List.mem_of_getElem? hget
  refine ⟨fun hparent => hy (hparent ▸ hin), ?_, old, k, hk, hget⟩
  obtain ⟨p, hp, hold⟩ := exists_of_mem_inputsOf hin
  refine ⟨p, hp, Bool.eq_false_iff.2 fun hpr => ?_⟩
  rw [hret _ p hp hpr] at hold
  cases hold

end Graph

open LinearPlan.Graph

/-- All consumers of a node use its replacement afterwards, at the same positions, and nothing else
has changed. The positions are returned. Giving them back restores all operands, unless the node was
its own operand, which cannot be moved back to it; `EdgesConsistent` excludes such nodes. -/
theorem redirectParents_moves_uses {g : Graph} (hm : g.Matched)
    (hret : ∀ x n, g.get? x = some n → n.retired = true → n.inputs = []) {old replacement : NodeId}
    {n r : Node} (hn : g.live old = .ok n) (hr : g.live replacement = .ok r)
    (hne : old ≠ replacement) (huse : old ∉ g.inputsOf replacement) :
    ∃ edges g', g.parentEdges old = .ok edges ∧ edges.Nodup ∧ edges.Pairwise Edge.Before ∧
      (∀ e, e ∈ edges ↔ g.Holds e old) ∧
      Edit.redirectParents old replacement g = .ok edges g' ∧ g.Moved old replacement edges g' ∧
      (old ∉ g.inputsOf old → ∃ g'', Edit.redirect edges replacement old g' = .ok () g'' ∧
        ∀ x, g''.inputsOf x = g.inputsOf x) := by
  obtain ⟨hn, hnl⟩ := live_eq_ok_iff.1 hn
  obtain ⟨hr, hrl⟩ := live_eq_ok_iff.1 hr
  have hedges := hm.parentEdges_eq hn hnl
  have hmem : ∀ e, e ∈ g.edgesTo old (sortedParents n.parents) ↔ g.Holds e old :=
    fun e => hm.mem_edgesTo_iff hn
  have hsorted := g.sorted_edgesTo old (sorted_sortedParents n.parents)
  have hmoved := hm.moved hn hr hne
  generalize g.edgesTo old (sortedParents n.parents) = edges at hedges hmem hsorted hmoved
  have hnodup : edges.Nodup := hsorted.imp Edge.Before.ne
  have hmov : ∀ {y}, old ∉ g.inputsOf y → ∀ e ∈ edges, g.Movable y e ∧ g.Holds e old :=
    fun hy e he => ⟨((hmem e).1 he).movable hret hy, (hmem e).1 he⟩
  obtain ⟨hrun, hm'⟩ := Edit.redirect_run hm hr hrl hne hnodup (hmov huse)
  exact ⟨edges, _, hedges, hnodup, hsorted, hmem, Edit.redirectParents_ok hedges hrun, hmoved,
    fun hself => redirect_back hmoved.operands hm' hn hnl hne hnodup (hmov hself)⟩

def sharedOperands : Graph :=
  (Graph.empty "g").afterCalls [.matrix "A" 2 2 (-1), .matrix "B" 2 2 (-1), .matMul 1 0, .mult 0 0,
    .mult 0 1, .transpose 0, .retire 5]

def sharedUses : List Edge := [⟨2, 1⟩, ⟨3, 0⟩, ⟨3, 1⟩, ⟨4, 0⟩]

theorem redirectParents_moves_uses_sharedOperands : sharedOperands.parentEdges 0 = .ok sharedUses ∧
    ∃ g', Edit.redirectParents 0 1 sharedOperands = .ok sharedUses g' ∧ g'.parentsOf 0 = [] ∧
      g'.parentsOf 1 = [2, 4, 2, 3, 3, 4] ∧ ∃ g'', Edit.redirect sharedUses 1 0 g' = .ok () g'' ∧
        ∀ x, g''.inputsOf x = sharedOperands.inputsOf x := by
  have hc : sharedOperands.EdgesConsistent := ((linked_empty "g").afterCalls _).edgesConsistent
  have hA : sharedOperands.live 0 =
      .ok ⟨.data "A", [], [2, 3, 3, 4], .declared .matrix 2 2 (-1), .standard, false⟩ := by
    decide +kernel
  have hB : sharedOperands.live 1 =
      .ok ⟨.data "B", [], [2, 4], .declared .matrix 2 2 (-1), .standard, false⟩ := by
    decide +kernel
  have hedges : sharedOperands.parentEdges 0 = .ok sharedUses := by decide +kernel
  obtain ⟨edges, g', hlist, -, -, -, hrun, hmoved, hback⟩ := redirectParents_moves_uses hc.counts
    (fun x n hn hr => (hc.retired x n hn hr).1) hA hB (by decide) (by decide +kernel)
  obtain rfl : sharedUses = edges := Except.ok.inj (hedges.symm.trans hlist)
  have hgained := hmoved.gained.trans (show _ = [2, 4, 2, 3, 3, 4] by decide +kernel)
  exact ⟨hedges, g', hrun, hmoved.emptied, hgained, hback (by decide +kernel)⟩

end LinearPlan
