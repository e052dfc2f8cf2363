import LinearPlan.Proofs.Binary64
import LinearPlan.Proofs.FactoringFixedPoint
import LinearPlan.Proofs.Preservation

/-!
# Values along one application of a rule

A single application of a rule keeps the values of all nodes, and not only of those that a pass keeps
track of. A product may be factored in any valid graph: the sizes of the users are only read where a
variable is, and variables are not sized anew. What is asked of the elements is that products are
exact. Merging writes asks for sizes that are right, as the width of a base becomes a literal, but for
no arithmetic: elements are copied, so floats will do.
-/
namespace LinearPlan

namespace Graph
variable {α : Type} [Element α] {g g' : Graph} {inputs : Inputs α} {x : NodeId}
  {v : Value α}

theorem Resized.hasValue (h : g.Resized g') (hv : g.HasValue inputs x v) :
    g'.HasValue inputs x v := by
  refine hv.induct (motive := g'.HasValue inputs) fun {x n vs v} hn hr _ hvs happ => ?_
  have hx := plan_eq_some hn hr
  obtain ⟨j, hj, hop, hin⟩ := h.item hx
  refine hasValue_of_item (s := n.shape) vs hj (hin ▸ hvs) (fun hdata => ?_) (by rw [hop]; exact happ)
  rw [hop] at hdata
  rw [Option.some.inj (hj.symm.trans (h.data x n.item hx hdata))]
  rfl

end Graph

namespace Optimizer
open LinearPlan.Graph
variable {p p' : Pass} {id root : NodeId}

theorem Factoring.replacing_of_apply (ho : p.graph.Ordered)
    (hrun : Factoring.rule.apply id p = .ok (some root) p') : ∃ t M edges g₁ g₂ g₃,
      Replacing (Extended p.graph) p.graph id t M root edges g₁ g₂ g₃ ∧ g₃.Resized p'.graph := by
  have hends : Ends (Factoring.rule.apply id) p (fun _ _ => True) fun result p' =>
      ∀ root, result = some root → ∃ t M edges g₁ g₂ g₃,
        Replacing (Extended p.graph) p.graph id t M root edges g₁ g₂ g₃ ∧ g₃.Resized p'.graph := by
    refine apply_steps ho id (fun _ _ => nofun) (fun _ _ => trivial) fun {t M} hc hf => ?_
    refine factor_steps ho And.right (builds_linked ho.toLinked fun y hy => hc.item hy)
      ⟨.refl, ho.toLinked⟩ hc hf (fun _ _ _ => trivial) fun hstep _ _ _ => ?_
    refine (Edit.refreshAll_ends hstep.refactored.ordered.toLinked hstep.users).imp
      (fun _ _ _ => trivial) fun _ g₄ hres records root hroot => ?_
    cases hroot
    exact ⟨_, _, _, _, _, _, hstep, hres⟩
  exact (ends_ok hrun).1 hends root rfl

theorem Factoring.refactored_of_apply (ho : p.graph.Ordered)
    (hrun : Factoring.rule.apply id p = .ok (some root) p') :
    ∃ M g, Refactored p.graph id M root g ∧ g.Resized p'.graph := by
  obtain ⟨t, M, edges, g₁, g₂, g₃, hstep, hres⟩ := replacing_of_apply ho hrun
  exact ⟨M, g₃, hstep.refactored, hres⟩

/-- Factoring a product in a valid graph keeps values, whatever the sizes are. -/
theorem factoring_keeps_values {α : Type} [Element α] [ProductElement α]
    (hc : p.graph.check = .ok ()) (hM : ∀ M, p.graph.plan.Factors id M → ∀ y, M.count y < 2 ^ 53)
    (hrun : Factoring.rule.apply id p = .ok (some root) p') (inputs : Inputs α) :
    (∀ x n v, p'.graph.get? x = some n → n.retired = false →
      p.graph.evaluate inputs [x] = .ok [v] → p'.graph.evaluate inputs [x] = .ok [v]) ∧
    ∀ v, p.graph.evaluate inputs [id] = .ok [v] → p'.graph.evaluate inputs [root] = .ok [v] := by
  have ho : p.graph.Ordered := check_eq_ok_iff_ordered.1 hc
  obtain ⟨M, g, hre, hres⟩ := Factoring.refactored_of_apply ho hrun
  obtain ⟨hcarry, hroot⟩ := hre.carries ho (p.graph.evaluated inputs) (hM M hre.factors)
  have ho' := hres.ordered hre.ordered
  simp only [evaluate_singleton_iff ho.acyclic, evaluate_singleton_iff ho'.acyclic]
  refine ⟨fun x n v hn hr hv => ?_, fun v hv => hres.hasValue (hroot ⟨v, hv⟩ v hv)⟩
  -- The products inside are retired, so a node in use is not one of them.
  have hC : ¬ p.graph.plan.Inside id x := fun hC => by
    obtain ⟨j, hj, -⟩ := Plan.exists_of_wires hres.wires (plan_eq_some hn hr)
    rw [hre.gone x hC] at hj
    cases hj
  exact hres.hasValue (hcarry x ⟨v, hv⟩ hC v hv)

/-- A scaled cube that was sized for another base, below a node that is sized anew. The base is neither
a scalar nor a matrix. -/
def staleCube : Graph :=
  (Graph.empty "g").afterCalls [.matrix "A" 2 2 (-1), .data "B" .frame 3 2 (-1), .scalar "s",
    .mult 0 0, .mult 3 2, .mult 4 0, .transpose 5, .replaceInput 3 0 1, .replaceInput 3 1 1,
    .replaceInput 5 1 1]

def staleCubeInputs : Inputs (Option Int) where
  lookup name :=
    if name = "B" then some (.matrix (.ofFn 3 2 fun i j => some (i + 2 * j + 1)))
    else if name = "s" then some (.scalar (some 5)) else none
  processors := 4

theorem factoring_keeps_values_staleCube : (Pass.start staleCube).graph.check = .ok () ∧
    ∃ p', Factoring.rule.apply 5 (.start staleCube) = .ok (some 9) p' ∧
      p'.graph.evaluate staleCubeInputs [6] =
        .ok [.matrix (.ofFn 2 3 fun j i => some (5 * (i + 2 * j + 1) ^ 3))] ∧
      p'.graph.evaluate staleCubeInputs [9] =
        .ok [.matrix (.ofFn 3 2 fun i j => some (5 * (i + 2 * j + 1) ^ 3))] := by
  have hc : (Pass.start staleCube).graph.check = .ok () := by decide +kernel
  have hbelow : (Pass.start staleCube).graph.plan.FactorsBelow (2 ^ 53) :=
    (check_eq_ok_iff_ordered.1 hc).factorsBelow (by decide +kernel)
  have hsix : (Pass.start staleCube).graph.evaluate staleCubeInputs [6] =
      .ok [.matrix (.ofFn 2 3 fun j i => some (5 * (i + 2 * j + 1) ^ 3))] := by decide +kernel
  have hfive : (Pass.start staleCube).graph.evaluate staleCubeInputs [5] =
      .ok [.matrix (.ofFn 3 2 fun i j => some (5 * (i + 2 * j + 1) ^ 3))] := by decide +kernel
  have hrun : (success? (Factoring.rule.apply 5) (.start staleCube)).map (fun r =>
      (r.1, (r.2.graph.get? 6).map Node.retired)) = some (some 9, some false) := by decide +kernel
  obtain ⟨⟨result, p'⟩, hrun, he⟩ := Option.map_eq_some_iff.1 hrun
  obtain ⟨rfl, hlive⟩ := Prod.mk.inj he
  obtain ⟨n, hn, hr⟩ := Option.map_eq_some_iff.1 hlive
  have hrun := ok_of_success? hrun
  obtain ⟨hkept, hroot⟩ := factoring_keeps_values hc (hbelow 5) hrun staleCubeInputs
  exact ⟨hc, p', hrun, hkept 6 n _ hn hr hsix, hroot _ hfive⟩

namespace Slicing
variable {axis : Axis} {axes : List Axis} {index x y : NodeId} {i : Item} {m : Merge}

structure MergesAt (p : Pass) (x : NodeId) (m : Merge) (p' : Pass) : Prop where
  top : m.top = x
  run : mergeAt m.axis x p = .ok (some m.written) p'
  collected : collectChain p.graph m.axis x = .ok m.chain
  merged : Merged p.graph m p'.graph

theorem mergeAt_cases (h : p.graph.Sound) (hw : p.graph.plan.WriteAt axis index x y i) :
    mergeAt axis x p = .ok none p ∨ ∃ m p', m.axis = axis ∧ MergesAt p x m p' := by
  refine (mergeAt_run h.ordered hw).imp And.left fun ⟨m, n, summary, hm, hrun⟩ => ?_
  obtain rfl : m.axis = axis := List.mem_singleton.1 hm.axis
  obtain ⟨g', hmerge, hstep⟩ := mergeChain_ok h (hm.applies h.toTyped) hm.start hm.measured
  rw [RuleM.bind_ok (RuleM.edit_ok hmerge)] at hrun
  exact ⟨m, _, rfl, hm.top, hrun, hm.collected, hstep⟩

theorem mergesAt_of_tryAxes (h : p.graph.Sound) (hx : p.graph.plan x = some i)
    (hop : i.op = .leftIndexing ⟨true, true⟩) (hrun : tryAxes x axes p = .ok (some root) p') :
    ∃ m, m.axis ∈ axes ∧ m.written = root ∧ MergesAt p x m p' := by
  induction axes with
  | nil =>
    have hnone : EStateM.Result.ok none p = .ok (some root) p' := hrun
    cases hnone
  | cons axis rest ih =>
    obtain ⟨index, y, hw⟩ := writeAt_of_equal h.toLinked hx hop axis
    unfold tryAxes at hrun
    rcases mergeAt_cases h hw with hnone | ⟨m, q, rfl, hm⟩
    · rw [RuleM.bind_ok hnone] at hrun
      obtain ⟨m, haxis, hm⟩ := ih hrun
      exact ⟨m, List.mem_cons_of_mem axis haxis, hm⟩
    · rw [RuleM.bind_ok hm.run] at hrun
      have hsome : EStateM.Result.ok (some m.written) q = .ok (some root) p' := hrun
      cases hsome
      exact ⟨m, List.mem_cons_self, rfl, hm⟩

theorem mergesAt_of_apply (h : p.graph.Sound) (hrun : apply axes id p = .ok (some root) p') :
    ∃ m, m.axis ∈ axes ∧ m.written = root ∧ MergesAt p id m p' := by
  cases hn : p.graph.get? id with
  | none =>
    have hnode : p.graph.node id = .error (.invalidId p.graph.name id p.graph.size) := by
      rw [node, hn]
    rw [apply, RuleM.bind_error (RuleM.read_error hnode)] at hrun
    cases hrun
  | some n =>
    by_cases hop : n.op = .leftIndexing ⟨true, true⟩
    · rw [apply_of_op_eq hn hop axes] at hrun
      cases hr : n.retired with
      | true =>
        rcases tryAxes_retired h.ordered hn hr axes with ⟨hnone, -⟩ | ⟨fault, -, herror⟩
        · rw [hnone] at hrun
          cases hrun
        · rw [herror] at hrun
          cases hrun
      | false => exact mergesAt_of_tryAxes h (plan_eq_some hn hr) hop hrun
    · rw [apply_of_op_ne hn hop axes] at hrun
      cases hrun

end Slicing

/-- Merging writes in a valid graph with settled shapes keeps values, with any elements that small
integers can be read back from. The writes of the chain are used for other values. Bases have less
than `2 ^ 53` rows and columns, which literals can hold. -/
theorem slicing_keeps_values {α : Type} [Element α] [IndexElement α] {axes : List Slicing.Axis}
    (hc : p.graph.check = .ok ()) (hs : p.graph.Refreshed) (hd : p.graph.Numeric)
    (hl : p.graph.ReadsLiterals α)
    (hrun : (Slicing.rule axes).apply id p = .ok (some root) p') :
    ∃ axis ∈ axes, ∃ chain, Slicing.mergeAt axis id p = .ok (some root) p' ∧
      Slicing.collectChain p.graph axis id = .ok chain ∧
      ∀ inputs : Inputs α, p.graph.Honest inputs →
        (∀ name u, inputs name = some u → u.Within (2 ^ 53)) →
        (∀ x v, x ∉ chain → p.graph.evaluate inputs [x] = .ok [v] →
          p'.graph.evaluate inputs [x] = .ok [v]) ∧
        ∀ v, p.graph.evaluate inputs [id] = .ok [v] → p'.graph.evaluate inputs [root] = .ok [v] := by
  have hsound := hd.sound hc hs
  obtain ⟨m, haxis, rfl, hm⟩ := Slicing.mergesAt_of_apply hsound hrun
  refine ⟨m.axis, haxis, m.chain, hm.run, hm.collected, fun inputs hh hin => ?_⟩
  obtain ⟨rank, hrank⟩ := hsound.acyclic
  obtain ⟨hcarry, hroot⟩ := hm.merged.carries hsound (hd.valued hh) hrank
    (hm.merged.exists_lineAt hsound (hd.valued hh) hl (by decide) (by decide) hin
      (fun hlt => IndexElement.toInt?_ofInt (by have := hm.merged.applies.width; omega)) hrank)
  simp only [evaluate_singleton_iff hsound.acyclic, evaluate_singleton_iff hm.merged.sound.acyclic]
  refine ⟨fun x v hx hv => hcarry x ⟨v, hv⟩ hx v hv, fun v hv => ?_⟩
  rw [← hm.top] at hv
  exact hroot ⟨v, hv⟩ v hv

def rowWrites : Graph :=
  (Graph.empty "g").afterCalls [.matrix "A" 3 4 (-1), .scalar "s", .literal (.ofInt 2),
    .literal (.ofInt 1), .leftIndexing ⟨true, true⟩ 0 1 2 2 3 3,
    .leftIndexing ⟨true, true⟩ 4 1 2 2 2 2, .transpose 5]

def rowWritesInputs : Inputs Float where
  lookup name :=
    if name = "A" then some (.matrix (.ofFn 3 4 fun i j =>
      (if i = 1 ∧ j = 3 then .nan else .ofInt (i + 4 * j) : Number).toFloat))
    else if name = "s" then some (.scalar Number.nan.toFloat) else none
  processors := 4

theorem slicing_keeps_values_rowWrites : (Pass.start rowWrites).graph.check = .ok () ∧
    (Pass.start rowWrites).graph.Refreshed ∧ (Pass.start rowWrites).graph.Numeric ∧
    (Pass.start rowWrites).graph.ReadsLiterals Float ∧
    (Pass.start rowWrites).graph.Honest rowWritesInputs ∧
    ∃ p', (Slicing.rule [.col, .row]).apply 5 (.start rowWrites) = .ok (some 16) p' ∧
      p'.graph.evaluate rowWritesInputs [6] = .ok [.matrix (.ofFn 4 3 fun j i =>
        (if i = 1 ∧ j ≠ 2 then .nan else .ofInt (i + 4 * j) : Number).toFloat)] ∧
      p'.graph.evaluate rowWritesInputs [16] = .ok [.matrix (.ofFn 3 4 fun i j =>
        (if i = 1 ∧ j ≠ 2 then .nan else .ofInt (i + 4 * j) : Number).toFloat)] := by
  have hc : (Pass.start rowWrites).graph.check = .ok () := by decide +kernel
  have hs : (Pass.start rowWrites).graph.Refreshed := refreshed_of_settled (by decide +kernel)
  have hd : (Pass.start rowWrites).graph.Numeric := numeric_of_ids (by decide +kernel)
  have hl : (Pass.start rowWrites).graph.ReadsLiterals Float :=
    readsLiterals_float (by decide +kernel)
  have hh : (Pass.start rowWrites).graph.Honest rowWritesInputs :=
    honest_of_sameBounds (by decide +kernel)
  have hin : ∀ name u, rowWritesInputs name = some u → u.Within (2 ^ 53) :=
    Value.within_of_ite (by decide) (by decide)
  have hsix : (Pass.start rowWrites).graph.evaluate rowWritesInputs [6] =
      .ok [.matrix (.ofFn 4 3 fun j i =>
        (if i = 1 ∧ j ≠ 2 then .nan else .ofInt (i + 4 * j) : Number).toFloat)] := by decide +kernel
  have hfive : (Pass.start rowWrites).graph.evaluate rowWritesInputs [5] =
      .ok [.matrix (.ofFn 3 4 fun i j =>
        (if i = 1 ∧ j ≠ 2 then .nan else .ofInt (i + 4 * j) : Number).toFloat)] := by decide +kernel
  have hchains : ∀ axis : Slicing.Axis, ∃ rest, 6 ∉ 5 :: rest ∧
      Slicing.collectChain (Pass.start rowWrites).graph axis 5 = .ok (5 :: rest) := by
    intro axis
    cases axis with
    | row => exact ⟨[4], by decide, by decide +kernel⟩
    | col => exact ⟨[], by decide, by decide +kernel⟩
  have hrun : (success? ((Slicing.rule [.col, .row]).apply 5) (.start rowWrites)).map Prod.fst =
      some (some 16) := by decide +kernel
  obtain ⟨⟨result, p'⟩, hrun, rfl⟩ := Option.map_eq_some_iff.1 hrun
  have hrun := ok_of_success? hrun
  obtain ⟨axis, -, chain, -, hchain, hvalues⟩ := slicing_keeps_values hc hs hd hl hrun
  obtain ⟨rest, hsix', hrest⟩ := hchains axis
  obtain rfl : 5 :: rest = chain := Except.ok.inj (hrest.symm.trans hchain)
  obtain ⟨hkept, hroot⟩ := hvalues rowWritesInputs hh hin
  exact ⟨hc, hs, hd, hl, hh, p', hrun, hkept 6 _ hsix' hsix, hroot _ hfive⟩

end Optimizer
end LinearPlan
