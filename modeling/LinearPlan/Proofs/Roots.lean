import LinearPlan.Proofs.Traversal
import Mathlib.Algebra.Order.BigOperators.Group.List
import Mathlib.Tactic.Ring

/-!
# Passes over roots

A pass goes through its roots one after the other. Between two roots nothing is pending. Nodes that
were replaced are retired or spent, so that none is replaced twice, and replacements are newer than
what they replace. What stands for a root after its turn has been visited, so it is not replaced
later.
-/
namespace LinearPlan.Optimizer
open LinearPlan.Graph

namespace Pass
variable {l : List (NodeId × NodeId)}

theorem countP_lt {x z : Int} (hmem : (x, z) ∈ l) (hlt : x < z) :
    l.countP (fun kv : Int × Int => decide (z ≤ kv.1)) <
      l.countP fun kv : Int × Int => decide (x ≤ kv.1) := by
  induction l with
  | nil => cases hmem
  | cons kv rest ih =>
    have hmono : rest.countP (fun kv : Int × Int => decide (z ≤ kv.1)) ≤
        rest.countP fun kv : Int × Int => decide (x ≤ kv.1) :=
      List.countP_mono_left fun kv _ h => by
        simp only [decide_eq_true_eq] at h ⊢
        omega
    rw [List.countP_cons, List.countP_cons]
    rcases List.mem_cons.1 hmem with rfl | hmem
    · simp only [decide_eq_true_eq, le_refl, if_true]
      rw [if_neg (by omega)]
      omega
    · have hrest := ih hmem
      split <;> split <;> simp only [decide_eq_true_eq] at * <;> omega

theorem lookup_latestFrom (hinc : ∀ kv ∈ l, @LT.lt Int _ kv.1 kv.2) {fuel : Nat} {x : Int}
    (hfuel : l.countP (fun kv : Int × Int => decide (x ≤ kv.1)) ≤ fuel) :
    l.lookup (latestFrom l fuel x) = none := by
  induction fuel generalizing x with
  | zero =>
    rw [latestFrom, List.lookup_eq_none_iff]
    intro kv hkv
    have hnot := List.countP_eq_zero.1 (Nat.le_zero.1 hfuel) kv hkv
    simp only [decide_eq_true_eq] at hnot
    rw [bne_iff_ne]
    rintro rfl
    exact hnot le_rfl
  | succ fuel ih =>
    unfold latestFrom
    cases hx : l.lookup x with
    | none => exact hx
    | some z =>
      obtain ⟨l₁, l₂, hl, -⟩ := List.lookup_eq_some_iff.1 hx
      have hmem : (x, z) ∈ l := hl ▸ List.mem_append_right l₁ List.mem_cons_self
      have hlt := countP_lt hmem (hinc _ hmem)
      exact ih (by omega)

theorem latestFrom_of_none {x : NodeId} (h : l.lookup x = none) (fuel : Nat) :
    latestFrom l fuel x = x := by
  cases fuel with
  | zero => rfl
  | succ fuel => rw [latestFrom, h]

theorem latestFrom_of_some {x z : NodeId} (h : l.lookup x = some z) (fuel : Nat) :
    latestFrom l (fuel + 1) x = latestFrom l fuel z := by
  rw [latestFrom, h]

theorem latestFrom_mem (fuel : Nat) (x : NodeId) :
    latestFrom l fuel x = x ∨ ∃ k, (k, latestFrom l fuel x) ∈ l := by
  induction fuel generalizing x with
  | zero => exact .inl rfl
  | succ fuel ih =>
    cases hx : l.lookup x with
    | none => exact .inl (latestFrom_of_none hx _)
    | some z =>
      obtain ⟨l₁, l₂, hl, -⟩ := List.lookup_eq_some_iff.1 hx
      have hmem : (x, z) ∈ l := hl ▸ List.mem_append_right l₁ List.mem_cons_self
      rw [latestFrom_of_some hx]
      rcases ih z with he | hk
      · rw [he]
        exact .inr ⟨x, hmem⟩
      · exact .inr hk

theorem latestFrom_cons {id root : NodeId} (hid : l.lookup id = none) (hroot : l.lookup root = none)
    (hne : root ≠ id) {fuel : Nat} {x : NodeId} (hx : l.lookup (latestFrom l fuel x) = none) :
    latestFrom ((id, root) :: l) (fuel + 1) x =
      if latestFrom l fuel x = id then root else latestFrom l fuel x := by
  have hself : ((id, root) :: l).lookup id = some root := List.lookup_cons_self
  have hcons : ∀ {y}, y ≠ id → ((id, root) :: l).lookup y = l.lookup y := fun {y} hy => by
    rw [List.lookup_cons, beq_eq_false_iff_ne.2 hy]
  have hstop : ∀ k, latestFrom ((id, root) :: l) k root = root :=
    latestFrom_of_none ((hcons hne).trans hroot)
  induction fuel generalizing x with
  | zero =>
    rw [latestFrom] at hx
    show _ = if x = id then root else x
    by_cases hxid : x = id
    · rw [hxid, if_pos rfl, latestFrom_of_some hself, hstop]
    · rw [if_neg hxid, latestFrom_of_none ((hcons hxid).trans hx)]
  | succ fuel ih =>
    by_cases hxid : x = id
    · rw [hxid, latestFrom_of_none hid, if_pos rfl, latestFrom_of_some hself, hstop]
    · cases hlook : l.lookup x with
      | none =>
        rw [latestFrom_of_none ((hcons hxid).trans hlook), latestFrom_of_none hlook, if_neg hxid]
      | some z =>
        rw [latestFrom_of_some hlook] at hx ⊢
        rw [latestFrom_of_some ((hcons hxid).trans hlook)]
        exact ih hx

end Pass

/-- The replacements of a pass go upwards, from nodes that will not be replaced again. -/
structure Trail (p : Pass) : Prop where
  increasing : ∀ kv ∈ p.replaced, @LT.lt Int _ kv.1 kv.2
  old : ∀ kv ∈ p.replaced, @LT.lt Int _ kv.2 p.graph.size
  lost : ∀ kv ∈ p.replaced, p.graph.plan kv.1 = none ∨ ∃ axis, p.graph.plan.Spent axis kv.1

variable {S : NodeId → Prop} {p p' : Pass} {id root r : NodeId}

namespace Trail

theorem lookup_latest (h : Trail p) (x : NodeId) : p.replaced.lookup (p.latest x) = none :=
  Pass.lookup_latestFrom h.increasing (List.countP_le_length ..)

theorem lookup_new (h : Trail p) {x : Int} (hx : (p.graph.size : Int) ≤ x) :
    p.replaced.lookup x = none := by
  rw [List.lookup_eq_none_iff]
  intro kv hkv
  have hlt := h.increasing kv hkv
  have hold := h.old kv hkv
  rw [bne_iff_ne]
  rintro rfl
  omega

variable {C : NodeId → Prop} {g' : Graph}

theorem lookup_replaced (h : Trail p) (hs : p.graph.Sound) (hstep : Step p.graph id root C g') :
    p.replaced.lookup id = none := by
  rw [List.lookup_eq_none_iff]
  intro kv hkv
  rw [bne_iff_ne]
  rintro rfl
  rcases h.lost kv hkv with hnone | ⟨axis, hspent⟩
  · obtain ⟨i, hi, -⟩ := hstep.rework.op_of_changed hstep.rework.id_changed
    rw [hnone] at hi
    cases hi
  · exact hstep.not_spent hs hspent hstep.rework.id_changed

theorem latest_step (h : Trail p) (hs : p.graph.Sound) (hstep : Step p.graph id root C p'.graph)
    (hr : p'.replaced = (id, root) :: p.replaced) (x : NodeId) :
    p'.latest x = if p.latest x = id then root else p.latest x := by
  unfold Pass.latest
  rw [hr, List.length_cons]
  exact Pass.latestFrom_cons (h.lookup_replaced hs hstep) (h.lookup_new hstep.rework.root_new)
    hstep.rework.root_ne (h.lookup_latest x)

theorem move (h : Trail p) (hs : p.graph.Sound) (hm : Move S p p') : Trail p' := by
  cases hm with
  | visit hg hv hr =>
    refine ⟨?_, ?_, ?_⟩
    · rw [hr]
      exact h.increasing
    · rw [hr, hg]
      exact h.old
    · rw [hr, hg]
      exact h.lost
  | @step id root C hstep hid hun hv hnew hr =>
    obtain ⟨i, hi, -⟩ := hstep.rework.op_of_changed hstep.rework.id_changed
    obtain ⟨j, hj⟩ := hstep.rework.root_live
    have hlt := (range_of_plan hi).2
    have hroot := hstep.rework.root_new
    have hsize := hstep.rework.size_le
    refine ⟨?_, ?_, ?_⟩ <;> rw [hr] <;> intro kv hkv <;> rcases List.mem_cons.1 hkv with rfl | hkv
    · exact hlt.trans_le hroot
    · exact h.increasing kv hkv
    · exact (range_of_plan hj).2
    · have hold := h.old kv hkv
      omega
    · exact hstep.lost_of_changed hs hstep.rework.id_changed
    · refine hstep.lost hs ?_ (h.lost kv hkv)
      have hinc := h.increasing kv hkv
      have hold := h.old kv hkv
      omega

theorem latest_move (h : Trail p) (hs : p.graph.Sound) (hm : Move S p p')
    (hr : ¬ S (p.latest r) ∨ p.latest r ∈ p.visited) : p'.latest r = p.latest r := by
  cases hm with
  | visit hg hv hrep =>
    unfold Pass.latest
    rw [hrep]
  | step hstep hid hun hv hnew hrep =>
    rw [h.latest_step hs hstep hrep, if_neg]
    rintro rfl
    rcases hr with hr | hr
    · exact hr hid
    · exact hun hr

end Trail

def Known (g : Graph) (x : NodeId) : Prop :=
  ∃ op, g.opOf x = some op ∧ (g.plan x = none → op.isMult = true)

theorem opOf_of_plan {g : Graph} {x : NodeId} {i : Item} (h : g.plan x = some i) :
    g.opOf x = some i.op := by
  obtain ⟨n, hn, -, rfl⟩ := get?_of_plan h
  rw [opOf, core?_eq_some hn]
  rfl

theorem known_of_plan {g : Graph} {x : NodeId} {i : Item} (h : g.plan x = some i) : Known g x :=
  ⟨_, opOf_of_plan h, fun hnone => by rw [h] at hnone; cases hnone⟩

theorem Known.step {g g' : Graph} {C : NodeId → Prop} {x : NodeId} (h : Known g x)
    (hstep : Step g id root C g') : Known g' x := by
  obtain ⟨op, hop, hret⟩ := h
  refine ⟨op, hstep.rework.ops x op hop, fun hnone => ?_⟩
  cases hx : g.plan x with
  | none => exact hret hx
  | some i =>
    rw [opOf_of_plan hx] at hop
    cases hop
    exact hstep.rework.isMult_of_retired hx hnone

structure Steady (D : NodeId → Prop) (p : Pass) : Prop where
  sound : p.graph.Sound
  new : ∀ x : Int, (p.graph.size : Int) ≤ x → D x
  closed : ∀ x i, D x → p.graph.plan x = some i → ∀ y ∈ i.inputs, D y
  trail : Trail p
  known : ∀ kv ∈ p.replaced, D kv.2 ∧ Known p.graph kv.2

variable {D : NodeId → Prop}

theorem Steady.move (h : Steady D p) (hm : Move D p p') : Steady D p' := by
  have htrail := h.trail.move h.sound hm
  cases hm with
  | visit hg hv hr =>
    refine ⟨hg ▸ h.sound, hg ▸ h.new, hg ▸ h.closed, htrail, ?_⟩
    rw [hr, hg]
    exact h.known
  | step hstep hid hun hv hnew hr =>
    have hsize := hstep.rework.size_le
    refine ⟨hstep.sound, fun x hx => h.new x (by omega), hstep.rework.closed h.new h.closed hid, htrail, ?_⟩
    rw [hr]
    intro kv hkv
    rcases List.mem_cons.1 hkv with rfl | hkv
    · obtain ⟨i, hi⟩ := hstep.rework.root_live
      exact ⟨h.new _ hstep.rework.root_new, known_of_plan hi⟩
    · exact ⟨(h.known kv hkv).1, (h.known kv hkv).2.step hstep⟩

theorem Steady.moves (h : Steady D p) (hm : Moves D p p') : Steady D p' := by
  induction hm with
  | refl => exact h
  | tail _ hm ih => exact ih.move hm

theorem Known.moves {x : NodeId} (hk : Known p.graph x) (hm : Moves D p p') :
    Known p'.graph x := by
  induction hm with
  | refl => exact hk
  | tail _ hm ih =>
    cases hm with
    | visit hg => exact hg ▸ ih
    | step hstep => exact ih.step hstep

theorem Steady.latest (h : Steady D p) (hr : D r) (hk : Known p.graph r) :
    D (p.latest r) ∧ Known p.graph (p.latest r) := by
  rcases Pass.latestFrom_mem (l := p.replaced) p.replaced.length r with he | ⟨k, hmem⟩
  · rw [Pass.latest, he]
    exact ⟨hr, hk⟩
  · exact h.known _ hmem

theorem Steady.latest_moves (h : Steady D p) (hm : Moves S p p') (hS : ∀ x, S x → D x)
    (hr : ¬ S (p.latest r) ∨ p.latest r ∈ p.visited) : p'.latest r = p.latest r := by
  have hall : Steady D p' ∧ p'.latest r = p.latest r ∧
      (¬ S (p.latest r) ∨ p.latest r ∈ p'.visited) := by
    induction hm with
    | refl => exact ⟨h, rfl, hr⟩
    | tail _ hm ih =>
      obtain ⟨hs, he, hr'⟩ := ih
      have he' := hs.trail.latest_move hs.sound hm (r := r) (he.symm ▸ hr')
      refine ⟨hs.move (hm.mono hS), he'.trans he, hr'.imp_right fun hv => ?_⟩
      cases hm with
      | visit _ hvis => exact hvis _ hv
      | step _ _ _ hvis => exact hvis _ hv
  exact hall.2.1

namespace PassM
variable {rules : List (Rule × Nat)} {t : NodeId}

theorem weight_eq_sum (g : Graph) :
    weight g = (g.nodes.toList.map fun n => 1 + n.inputs.length).sum := by
  have hfold : ∀ (l : List Node) (k : Nat), l.foldl (fun n node => n + 1 + node.inputs.length) k =
      k + (l.map fun n => 1 + n.inputs.length).sum := by
    intro l
    induction l with
    | nil => exact fun k => rfl
    | cons n rest ih =>
      intro k
      rw [List.foldl_cons, ih, List.map_cons, List.sum_cons]
      omega
  unfold weight
  rw [← Array.foldl_toList, hfold, Nat.zero_add]

theorem size_le_weight (g : Graph) : g.size ≤ weight g := by
  have hle := List.length_le_sum_of_one_le (g.nodes.toList.map fun n => 1 + n.inputs.length)
    (List.forall_mem_map.2 fun n _ => Nat.le_add_right 1 _)
  rw [← weight_eq_sum, List.length_map] at hle
  exact hle

theorem length_inputsOf_le_weight (g : Graph) (x : NodeId) : (g.inputsOf x).length ≤ weight g := by
  cases hx : g.get? x with
  | none =>
    rw [Graph.inputsOf_eq_getD, hx]
    exact Nat.zero_le _
  | some n =>
    rw [Graph.inputsOf_eq hx, weight_eq_sum]
    have hmem : n ∈ g.nodes.toList := by
      rw [Graph.get?, if_pos (Graph.range_of_get? hx).1] at hx
      exact Array.mem_toList_iff.2 (Array.mem_of_getElem? hx)
    have hle := List.le_sum_of_mem
      (List.mem_map_of_mem (f := fun n : Node => 1 + n.inputs.length) hmem)
    exact (Nat.le_add_left _ 1).trans hle

theorem le_fuelFor {g : Graph} {k : Nat} (hk : k ≤ (23 * g.size) * (g.size + 2) + (g.size + 1)) :
    8 * k + 2 ≤ fuelFor g := by
  have hmono : Nat.pow (g.size + 8) 4 ≤ fuelFor g :=
    Nat.pow_le_pow_left (Nat.add_le_add_right (size_le_weight _) 8) 4
  refine le_trans ?_ hmono
  generalize g.size = s at *
  have hpow : Nat.pow (s + 8) 4 = s ^ 4 + 32 * s ^ 3 + 384 * s ^ 2 + 2048 * s + 4096 := by
    show (s + 8) ^ 4 = _
    ring
  have hsquare : 23 * s * (s + 2) = 23 * s ^ 2 + 46 * s := by ring
  omega

theorem need_le_fuelFor (hp : p.pending.length ≤ p.graph.size + 1) :
    8 * work p + 2 ≤ fuelFor p.graph := by
  have hu : unvisited p ≤ p.graph.size := Plan.tally_le_size ..
  have hw : writes p.graph ≤ p.graph.size := Plan.tally_le_size ..
  have hm : Factoring.products p.graph ≤ p.graph.size := Plan.tally_le_size ..
  refine le_fuelFor ?_
  unfold work
  exact Nat.add_le_add (Nat.mul_le_mul (by omega) (by omega)) hp

theorem below_ok (hrules : ∀ r ∈ rules, Standard r.1) (h : Steady D p) {i : Item}
    (ht : p.graph.plan t = some i) (hD : D t) (hr : p.latest r = t)
    (hp : ∀ y ∈ p.pending, D y ∧ Kept p.graph.plan y ∧
      ∀ rank, p.graph.plan.Ranked rank → rank y < rank t)
    (hlen : p.pending.length ≤ p.graph.size + 1) :
    ∃ p₁ p', descend rules (fuelFor p.graph) (.node t) p = .ok () p₁ ∧
      descend rules (fuelFor p.graph) .pending p₁ = .ok () p' ∧
      p'.pending = [] ∧ Moves D p p' ∧ p'.latest r = t ∧ t ∈ p'.visited := by
  obtain ⟨rank, hrank⟩ := h.sound.acyclic
  have hlt := (range_of_plan ht).2
  have hgood : Good (fun x : Int => D x ∧ ((p.graph.size : Int) ≤ x ∨ rank x < rank t)) t p := by
    refine ⟨⟨h.sound, fun x hx => ⟨h.new x hx, .inl hx⟩, ?_, ?_, ?_⟩, fun y hy => ?_⟩
    · rintro x j ⟨hDx, hx⟩ hj y hy
      refine ⟨h.closed x j hDx hj y hy, .inr ?_⟩
      have hxs := (range_of_plan hj).2
      have hyx := hrank hj hy
      rcases hx with hx | hx
      · omega
      · omega
    · rintro ⟨-, hx | hx⟩
      · omega
      · omega
    · exact fun j hj y hy => ⟨h.closed t j hD hj y hy, .inr (hrank hj hy)⟩
    · obtain ⟨hDy, hk, hy⟩ := hp y hy
      exact ⟨⟨hDy, .inr (hy rank hrank)⟩, hk⟩
  have hfuel := need_le_fuelFor hlen
  obtain ⟨p₁, hrun₁, hlead₁, hend₁⟩ := completes hrules (fuelFor p.graph) p (.node t) hgood
    ⟨.inr rfl, .root, i, ht⟩ hfuel
  obtain ⟨p₂, hrun₂, hlead₂, hend₂⟩ := completes hrules (fuelFor p.graph) p₁ .pending hlead₁.good
    trivial (by
      have hwork := hlead₁.work_le
      simp only [need]
      omega)
  have hmoves := hlead₁.moves.trans hlead₂.moves
  refine ⟨p₁, p₂, hrun₁, hrun₂, hend₂, ?_, ?_, ?_⟩
  · exact Moves.mono (fun x hx => hx.1) hmoves
  · rw [← hr]
    exact h.latest_moves hmoves (fun x hx => hx.1) (.inl (hr ▸ hgood.scope.root))
  · exact (hlead₂.moves.guarded hlead₁.good.scope).2.1 t hend₁

theorem retired_ok (rules : List (Rule × Nat)) (h : p.graph.Sound) {n : Node} (hn : p.graph.get? t = some n)
    (hret : p.graph.plan t = none) (hp : p.pending = []) {fuel : Nat} (hfuel : 2 ≤ fuel) :
    ∃ p', descend rules fuel (.node t) p = .ok () p' ∧
      descend rules fuel .pending p' = .ok () p' ∧ p'.pending = [] ∧ Moves D p p' ∧
      p'.replaced = p.replaced ∧ t ∈ p'.visited := by
  obtain ⟨fuel, rfl⟩ : ∃ k, fuel = k + 2 := ⟨fuel - 2, by omega⟩
  by_cases hv : t ∈ p.visited
  · exact ⟨p, descend_node_of_visited hv, descend_pending_of_nil hp, hp, .refl, rfl, hv⟩
  · have hnil : n.inputs = [] := by
      have hin := h.inputsOf_eq_plan t
      rw [inputsOf_eq hn, hret] at hin
      exact hin
    obtain ⟨p₁, henter, hgraph, hvis, hpend₁, hrepl⟩ : ∃ p₁, enter t p = .ok () p₁ ∧
        p₁.graph = p.graph ∧ p₁.visited = t :: p.visited ∧ p₁.pending = p.pending ∧
        p₁.replaced = p.replaced := ⟨_, rfl, rfl, rfl, rfl, rfl⟩
    have hsub : ∀ x ∈ p.visited, x ∈ p₁.visited := fun x hx => by
      rw [hvis]
      exact List.mem_cons_of_mem t hx
    have hops : descend rules (fuel + 1) (.operands t 0) p₁ = .ok () p₁ :=
      descend_operands_of_none (hgraph.symm ▸ hn) (by rw [hnil]; rfl)
    exact ⟨p₁, (descend_node_of_unvisited hv hn henter).trans hops,
      descend_pending_of_nil (hpend₁.trans hp), hpend₁.trans hp,
      .single (.visit hgraph hsub hrepl), hrepl, hvis ▸ List.mem_cons_self⟩

theorem settle_of {p₁ p₂ p₃ : Pass} (hoffer : p.latest r ∈ p.visited ∧ t = p.latest r ∧ p₁ = p ∨
      p.latest r ∉ p.visited ∧ offer rules (p.latest r) p = .ok t p₁)
    (h₂ : descend rules (fuelFor p₁.graph) (.node t) p₁ = .ok () p₂)
    (h₃ : descend rules (fuelFor p₁.graph) .pending p₂ = .ok () p₃) :
    settle rules r p = .ok (p₃.latest t) p₃ := by
  have hget : ∀ q : Pass, (get : PassM Pass) q = .ok q q := fun _ => rfl
  unfold settle
  rw [bind_ok (hget p)]
  simp only
  rcases hoffer with ⟨hv, rfl, rfl⟩ | ⟨hv, hoffer⟩
  · have hpure : (pure (p₁.latest r) : PassM NodeId) p₁ = .ok (p₁.latest r) p₁ := rfl
    rw [if_pos hv, bind_ok hpure, bind_ok (hget p₁), bind_ok h₂, bind_ok h₃, bind_ok (hget p₃)]
    rfl
  · rw [if_neg hv, bind_ok hoffer, bind_ok (hget p₁), bind_ok h₂, bind_ok h₃, bind_ok (hget p₃)]
    rfl

theorem pending_of_replaces (h : Steady D p) (hp : p.pending = []) (hid : D id)
    (hrep : Replaces p id root p') {y : NodeId} (hy : y ∈ p'.pending) :
    D y ∧ Kept p'.graph.plan y ∧ ∀ rank, p'.graph.plan.Ranked rank → rank y < rank root := by
  rcases hrep.pending hy with hy | ⟨hk, M, hf, hy⟩
  · rw [hp] at hy
    cases hy
  · refine ⟨hf.factors.mem_of_closed h.closed hid hy, hk, fun rank hrank => ?_⟩
    exact hf.built.rank_lt hrank hf.new hy

theorem settle_ok (hrules : ∀ r ∈ rules, Standard r.1) (h : Steady D p) (hp : p.pending = [])
    (hr : D r) (hk : Known p.graph r) :
    ∃ p', settle rules r p = .ok (p'.latest r) p' ∧ p'.pending = [] ∧ Moves D p p' ∧
      p'.latest r ∈ p'.visited := by
  have hlast : ∀ {q : Pass}, Steady D q → q.latest (q.latest r) = q.latest r := fun hq =>
    Pass.latestFrom_of_none (hq.trail.lookup_latest r) _
  obtain ⟨hD, op, hop, hret⟩ := h.latest hr hk
  obtain ⟨c, hc, hcop⟩ := Option.map_eq_some_iff.1 hop
  obtain ⟨n, hn, rfl⟩ := get?_of_core? hc
  have hfuel : ∀ g, 2 ≤ fuelFor g := fun g => by
    have hle : Nat.pow 8 4 ≤ fuelFor g := Nat.pow_le_pow_left (Nat.le_add_left 8 _) 4
    exact le_trans (by decide) hle
  -- A root that is left as it is: it may have been retired as a product by an earlier root.
  have hstay : ∀ {p₁ : Pass}, Moves D p p₁ → Alike p p₁ →
      ∃ p₂ p', descend rules (fuelFor p₁.graph) (.node (p.latest r)) p₁ = .ok () p₂ ∧
        descend rules (fuelFor p₁.graph) .pending p₂ = .ok () p' ∧ p'.pending = [] ∧
        Moves D p p' ∧ p'.latest r = p.latest r ∧ p.latest r ∈ p'.visited := by
    intro p₁ hmoves hsame
    have h₁ := h.moves hmoves
    have hlat₁ : p₁.latest r = p.latest r := by
      unfold Pass.latest
      rw [hsame.replaced]
    have hp₁ : p₁.pending = [] := hsame.pending.trans hp
    cases hplan : p₁.graph.plan (p.latest r) with
    | none =>
      obtain ⟨p', hrun, hpend, hnil, hm, hrepl, hv⟩ := retired_ok rules h₁.sound
        (hsame.graph.symm ▸ hn) hplan hp₁ (hfuel p₁.graph)
      refine ⟨p', p', hrun, hpend, hnil, hmoves.trans hm, ?_, hv⟩
      rw [← hlat₁]
      unfold Pass.latest
      rw [hrepl]
    | some i =>
      obtain ⟨p₂, p', hrun, hpend, hnil, hm, hlat, hv⟩ := below_ok hrules h₁ hplan hD hlat₁
        (by rw [hp₁]; exact nofun) (by rw [hp₁]; exact Nat.zero_le _)
      exact ⟨p₂, p', hrun, hpend, hnil, hmoves.trans hm, hlat, hv⟩
  by_cases hv : p.latest r ∈ p.visited
  · obtain ⟨p₂, p', hrun, hpend, hnil, hm, hlat, hv'⟩ := hstay .refl (.refl p)
    refine ⟨p', ?_, hnil, hm, hlat.symm ▸ hv'⟩
    rw [settle_of (.inl ⟨hv, rfl, rfl⟩) hrun hpend, ← hlat, hlast (h.moves hm)]
  · have hlive : n.op = .leftIndexing ⟨true, true⟩ → n.retired = false := by
      intro hwrite
      by_contra hretired
      have hm := hret (plan_eq_none_of_retired hn (by simpa using hretired))
      have hop' : n.op = op := hcop
      rw [← hop', hwrite] at hm
      cases hm
    rcases offer_cases hrules h.sound hn hlive with ⟨p₁, hoffer, hsame⟩ | ⟨root, p₁, hoffer, hrep⟩
    · obtain ⟨p₂, p', hrun, hpend, hnil, hm, hlat, hv'⟩ := hstay (.single hsame.move) hsame
      refine ⟨p', ?_, hnil, hm, hlat.symm ▸ hv'⟩
      rw [settle_of (.inr ⟨hv, hoffer⟩) hrun hpend, ← hlat, hlast (h.moves hm)]
    · obtain ⟨C, hstep⟩ := hrep.step
      obtain ⟨i, hi⟩ := hstep.rework.root_live
      have hmove : Move D p p₁ := hrep.move hD hv
      have h₁ := h.move hmove
      have hlat₁ : p₁.latest r = root := by
        rw [h.trail.latest_step h.sound hstep hrep.replaced, if_pos rfl]
      obtain ⟨p₂, p', hrun, hpend, hnil, hm, hlat, hv'⟩ := below_ok hrules h₁ hi
        (h.new root hstep.rework.root_new) hlat₁ (fun y hy => pending_of_replaces h hp hD hrep hy)
        (hrep.pending_le hp)
      have hm' := hm.head hmove
      refine ⟨p', ?_, hnil, hm', hlat.symm ▸ hv'⟩
      rw [settle_of (.inr ⟨hv, hoffer⟩) hrun hpend, ← hlat, hlast (h.moves hm')]

theorem run_ok {rules : List Rule} (hrules : ∀ r ∈ rules, Standard r) {roots : List NodeId}
    (h : Steady D p) (hp : p.pending = []) (hr : ∀ r ∈ roots, D r ∧ Known p.graph r) :
    ∃ p', run rules roots p = .ok (roots.map p'.latest) p' ∧ Moves D p p' := by
  have hzip : ∀ r ∈ rules.zipIdx, Standard r.1 := fun r hr => hrules r.1 (List.fst_mem_of_mem_zipIdx hr)
  unfold run
  induction roots generalizing p with
  | nil => exact ⟨p, rfl, .refl⟩
  | cons r rest ih =>
    obtain ⟨hD, hk⟩ := hr r List.mem_cons_self
    obtain ⟨p₁, hrun₁, hnil₁, hm₁, hv₁⟩ := settle_ok hzip h hp hD hk
    obtain ⟨p', hrun, hm⟩ := ih (h.moves hm₁) hnil₁ fun r' hr' =>
      ⟨(hr r' (List.mem_cons_of_mem r hr')).1, (hr r' (List.mem_cons_of_mem r hr')).2.moves hm₁⟩
    refine ⟨p', ?_, hm₁.trans hm⟩
    rw [List.mapM_cons, bind_ok hrun₁, bind_ok hrun,
      ← (h.moves hm₁).latest_moves hm (fun _ hx => hx) (.inr hv₁)]
    rfl

end PassM
end LinearPlan.Optimizer
