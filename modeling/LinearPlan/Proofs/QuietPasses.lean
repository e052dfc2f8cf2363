import LinearPlan.Proofs.Coverage

/-!
# Passes that change nothing

If no rule applies to any node below the roots, then a pass offers these nodes, enters them, and ends
with the graph as it was. A pass with a single rule leaves such a graph behind if the rule does not
come back to a node that it has left alone: whatever it does elsewhere, the node stays one that it
leaves alone, and so are the nodes that it adds.
-/
namespace LinearPlan.Optimizer
open LinearPlan.Graph

namespace PassM
variable {rules : List (Rule × Nat)} {g : Graph} {R : NodeId → Prop} {p p' : Pass} {id r : NodeId}
  {fuel : Nat}

def QuietBelow (rules : List (Rule × Nat)) (g : Graph) (R : NodeId → Prop) : Prop :=
  ∀ x, R x → ∃ n, g.get? x = some n ∧ (∀ y ∈ n.inputs, R y) ∧ ∀ r ∈ rules, Quiet r.1 g x

structure Untouched (g : Graph) (p : Pass) : Prop where
  graph : p.graph = g
  pending : p.pending = []
  replaced : p.replaced = []
  applied : p.stats.applied = []

def Passes (rules : List (Rule × Nat)) (g : Graph) (fuel : Nat) (task : Task) (p : Pass) : Prop :=
  Ends (descend rules fuel task) p (fun fault _ => fault = .endless) fun _ p' => Untouched g p'

def Task.Within (R : NodeId → Prop) : Task → Prop
  | .node id => R id
  | .operands id _ => R id
  | .pending => True

theorem Untouched.enter (h : Untouched g p) (id : NodeId) :
    ∃ p', enter id p = .ok () p' ∧ Untouched g p' :=
  ⟨_, rfl, h.graph, h.pending, h.replaced, h.applied⟩

theorem Untouched.offer (h : Untouched g p) (hq : ∀ r ∈ rules, Quiet r.1 g id) :
    ∃ p', offer rules id p = .ok id p' ∧ Untouched g p' := by
  obtain ⟨offers, hrun, -⟩ := offer_of_quiet (p := p) (h.graph.symm ▸ hq)
  exact ⟨_, hrun, h.graph, h.pending, h.replaced, h.applied⟩

section Tasks
variable (hR : QuietBelow rules g R)
  (ih : ∀ task p, task.Within R → Untouched g p → Passes rules g fuel task p)

include hR ih

theorem node_passes (hid : R id) (h : Untouched g p) : Passes rules g (fuel + 1) (.node id) p := by
  obtain ⟨n, hn, -⟩ := hR id hid
  by_cases hv : id ∈ p.visited
  · exact (ends_ok (descend_node_of_visited hv)).2 h
  · obtain ⟨p₁, hrun, h₁⟩ := h.enter id
    rw [Passes, Ends, descend_node_of_unvisited hv (h.graph.symm ▸ hn) hrun]
    exact ih (.operands id 0) p₁ hid h₁

theorem operands_passes {pos : Nat} (hid : R id) (h : Untouched g p) :
    Passes rules g (fuel + 1) (.operands id pos) p := by
  obtain ⟨n, hn, hin, -⟩ := hR id hid
  unfold Passes descend
  rw [ends_bind_ok (read_ok (h.graph.symm ▸ node_ok hn))]
  cases hpos : n.inputs[pos]? with
  | none => exact h
  | some child =>
    have hchild := hin child (List.mem_of_getElem? hpos)
    -- The operand is the one that was offered.
    have hgo : ∀ q, Untouched g q → Ends (do
        let next ← read fun g => do (← g.node id).input id pos
        descend rules fuel (.node next)
        descend rules fuel (.operands id (pos + 1))) q (fun fault _ => fault = .endless)
          fun _ p' => Untouched g p' := by
      intro q hq
      rw [ends_bind_ok (read_operand (hq.graph.symm ▸ hn) hpos)]
      exact (ih (.node child) q hchild hq).bind fun _ q₁ hq₁ => ih (.operands id (pos + 1)) q₁ hid hq₁
    simp only
    rw [ends_bind_ok (isVisited_apply child)]
    split
    · exact hgo p h
    · obtain ⟨m, -, -, hquiet⟩ := hR child hchild
      obtain ⟨p₁, hrun, h₁⟩ := h.offer hquiet
      have hreq : requireRedirected id pos child child p₁ = .ok () p₁ := by
        rw [requireRedirected, if_pos rfl]
        rfl
      rw [ends_bind_ok hrun, ends_bind_ok hreq]
      exact (ih .pending p₁ trivial h₁).bind fun _ p₂ h₂ => hgo p₂ h₂

omit hR ih

theorem pending_passes (h : Untouched g p) : Passes rules g (fuel + 1) .pending p :=
  (ends_ok (descend_pending_of_nil h.pending)).2 h

end Tasks

theorem descend_passes (hR : QuietBelow rules g R) (fuel : Nat) (task : Task) (p : Pass)
    (hw : task.Within R) (h : Untouched g p) : Passes rules g fuel task p := by
  induction fuel generalizing task p with
  | zero => cases task <;> exact rfl
  | succ fuel ih =>
    cases task with
    | node id => exact node_passes hR ih hw h
    | operands id pos => exact operands_passes hR ih hw h
    | pending => exact pending_passes h

theorem settle_passes (hR : QuietBelow rules g R) (hr : R r) (h : Untouched g p) :
    Ends (settle rules r) p (fun fault _ => fault = .endless) fun t p' => t = r ∧ Untouched g p' := by
  have hlatest : ∀ {q}, Untouched g q → q.latest r = r := fun {q} hq => by
    rw [Pass.latest, hq.replaced]
    rfl
  have hgo : ∀ q, Untouched g q → Descends rules (fun fault _ => fault = .endless)
      (fun t p' => t = r ∧ Untouched g p') r q := fun q hq =>
    (descend_passes hR _ (.node r) q hr hq).mono fun _ q₁ hq₁ =>
      (descend_passes hR _ .pending q₁ trivial hq₁).mono fun _ q₂ hq₂ => ⟨hlatest hq₂, hq₂⟩
  refine settle_ends (fun _ => ?_) fun _ => ?_
  · rw [hlatest h]
    exact hgo p h
  · obtain ⟨-, -, -, hquiet⟩ := hR r hr
    obtain ⟨p₁, hrun, h₁⟩ := h.offer hquiet
    rw [hlatest h, ends_ok hrun]
    exact hgo p₁ h₁

theorem run_passes {rules : List Rule} (hrules : ∀ r ∈ rules, Standard r) (ho : g.Ordered)
    (hR : QuietBelow rules.zipIdx g R) {roots : List NodeId} (hroots : ∀ r ∈ roots, R r)
    (h : Untouched g p) : ∃ p', run rules roots p = .ok roots p' ∧ Untouched g p' := by
  have hzip : ∀ r ∈ rules.zipIdx, Standard r.1 := fun r hr =>
    hrules r.1 (List.fst_mem_of_mem_zipIdx hr)
  unfold run
  induction roots generalizing p with
  | nil => exact ⟨p, rfl, h⟩
  | cons r rest ih =>
    have hlawful : Lawful p := ⟨h.graph.symm ▸ ho, by rw [Upward, h.replaced]; exact nofun⟩
    obtain ⟨t, p₁, hrun, ht, h₁⟩ := (settle_passes hR (hroots r List.mem_cons_self) h).exists_ok_of_apart
      (settle_halts hzip hlawful h.pending r) fun _ _ he hstop => hstop.1 (he ▸ trivial)
    obtain ⟨p₂, hrest, h₂⟩ := ih (fun r hr => hroots r (List.mem_cons_of_mem _ hr)) h₁
    refine ⟨p₂, ?_, h₂⟩
    rw [List.mapM_cons, bind_ok hrun, bind_ok hrest, ht]
    rfl

structure Invariant (rules : List (Rule × Nat)) (I : Pass → Prop) : Prop where
  enter : ∀ {p p' id n}, I p → p.graph.get? id = some n → Entered p id p' → I p'
  take : ∀ {p id rest}, I p → p.pending = id :: rest → I { p with pending := rest }
  offer : ∀ {p id}, I p → id ∉ p.visited →
    Ends (offer rules id) p (fun _ _ => True) fun _ p' => I p'

namespace Invariant
variable {I : Pass → Prop}

theorem descend (h : Invariant rules I) (fuel : Nat) (task : Task) (p : Pass) (hp : I p) :
    Ends (descend rules fuel task) p (fun _ _ => True) fun _ p' => I p' := by
  induction fuel generalizing task p with
  | zero => cases task <;> trivial
  | succ fuel ih =>
    have hgo : ∀ {id pos q}, I q →
        GoesOn rules fuel id pos (fun _ _ => True) (fun _ p' => I p') q := fun hq =>
      ⟨fun _ _ => trivial, fun next _ => (ih (.node next) _ hq).mono fun _ q₁ hq₁ => ih _ q₁ hq₁⟩
    cases task with
    | node id =>
      refine descend_node_ends (fun _ => hp) (fun _ _ _ _ => trivial) fun _ p₁ hent n hn => ?_
      exact ih _ p₁ (h.enter hp hn hent)
    | operands id pos =>
      refine descend_operands_ends (fun _ _ => trivial) (fun _ => hp) (fun _ _ _ => hgo hp)
        fun child _ hv => (h.offer hp hv).mono fun r p₁ hp₁ => ⟨fun _ _ => trivial, fun _ => ?_⟩
      exact (ih .pending p₁ hp₁).mono fun _ p₂ hp₂ => hgo hp₂
    | pending =>
      refine descend_pending_ends (fun _ => hp) (fun _ _ _ _ _ => trivial)
        (fun id rest hpend _ => ih .pending _ (h.take hp hpend)) fun id rest i hpend hv _ => ?_
      exact (h.offer (h.take hp hpend) hv).mono fun r p₁ hp₁ =>
        (ih (.node r) p₁ hp₁).mono fun _ p₂ hp₂ => ih .pending p₂ hp₂

theorem settle (h : Invariant rules I) (hp : I p) (r : NodeId) :
    Ends (settle rules r) p (fun _ _ => True) fun _ p' => I p' := by
  have hgo : ∀ t q, I q → Descends rules (fun _ _ => True) (fun _ p' => I p') t q := fun _ q hq =>
    (h.descend _ (.node _) q hq).mono fun _ q₁ hq₁ => h.descend _ .pending q₁ hq₁
  refine settle_ends (fun _ => hgo _ p hp) fun hv => ?_
  exact (h.offer hp hv).mono fun t p₁ hp₁ => hgo t p₁ hp₁

theorem run {rules : List Rule} (h : Invariant rules.zipIdx I) (hp : I p) (roots : List NodeId) :
    Ends (run rules roots) p (fun _ _ => True) fun _ p' => I p' :=
  (ends_mapM (R := fun _ _ => True) hp fun r _ _ hq =>
    (h.settle hq r).mono fun _ _ hq' => ⟨hq', trivial, fun _ _ => trivial⟩).mono fun _ _ hp' => hp'.1

end Invariant

end PassM

/-- What a rule does on graphs with the property `J`, if it does not come back to nodes in the state
`Q`: it leaves these alone, whatever it leaves alone is in this state, and a step keeps the state,
and brings the replaced node and all new nodes into it. -/
structure Rests (r : Rule) (J : Graph → Prop) (Q : Graph → NodeId → Prop) : Prop where
  standard : Standard r
  ordered : ∀ {g}, J g → g.Ordered
  quiet : ∀ {g x n}, J g → g.get? x = some n → Q g x → PassM.Quiet r g x
  apply : ∀ {p} (id : NodeId), J p.graph → Ends (r.apply id) p (fun _ _ => True) fun result p' =>
    result = none ∧ p' = p ∧ Q p.graph id ∨ ∃ root, result = some root ∧ Rewrites p id root p' ∧
      J p'.graph ∧ ∀ x n, p'.graph.get? x = some n →
        (∀ m, p.graph.get? x = some m → x ≠ id → Q p.graph x) → Q p'.graph x

structure Finished (J : Graph → Prop) (Q : Graph → NodeId → Prop) (n : Nat) (p : Pass) : Prop where
  graph : J p.graph
  visited : ∀ x ∈ p.visited, ∃ m, p.graph.get? x = some m
  quiet : ∀ (x : Int) m, p.graph.get? x = some m → n ≤ x ∨ ⟨0, x⟩ ∈ p.offers → Q p.graph x

variable {r : Rule} {J : Graph → Prop} {Q : Graph → NodeId → Prop} {n : Nat} {p p' : Pass}
  {id root : NodeId}

theorem Rewrites.visited_exist (h : Rewrites p id root p')
    (hv : ∀ x ∈ p.visited, ∃ m, p.graph.get? x = some m) :
    ∀ x ∈ p'.visited, ∃ m, p'.graph.get? x = some m := by
  have hsize : p.graph.size ≤ p'.graph.size := by
    obtain ⟨C, g, hwork, hres⟩ := h.rework
    rw [hres.size]
    exact hwork.size_le
  have hold : ∀ x ∈ p.visited, ∃ m, p'.graph.get? x = some m := fun x hx => by
    obtain ⟨m, hm⟩ := hv x hx
    have hrange := range_of_get? hm
    exact Option.isSome_iff_exists.1
      (get?_isSome_iff.2 ⟨hrange.1, hrange.2.trans_le (Int.ofNat_le.2 hsize)⟩)
  intro x hx
  cases h with
  | factor _ _ _ hvis =>
    rcases (hvis x).1 hx with hx | ⟨hs, hlt⟩
    · exact hold x hx
    · exact Option.isSome_iff_exists.1
        (get?_isSome_iff.2 ⟨(Int.natCast_nonneg _).trans hs, hlt⟩)
  | merge _ _ _ _ hvis => exact hold x (hvis ▸ hx)

theorem Rests.offer (h : Rests r J Q) (hp : Finished J Q n p) (id : NodeId) :
    Ends (PassM.offer [r].zipIdx id) p (fun _ _ => True) fun _ p' => Finished J Q n p' := by
  show Ends (PassM.offer [(r, 0)] id) p _ _
  have hends := (h.standard.apply_ends (h.ordered hp.graph) id).imp (fun _ _ _ => trivial)
    fun _ _ hans => hans.offers
  have hends := hends.and (h.apply id hp.graph)
  cases hrun : r.apply id p with
  | error cause p₁ =>
    exact (ends_error (PassM.offer_cons_error (r := (r, 0)) [] hrun)).2 trivial
  | ok result p₁ =>
    obtain ⟨p₂, hrun₂, hsame₂, hoff₂⟩ := PassM.applyRule_ok 0 hrun
    unfold Ends
    obtain ⟨hoff, ⟨rfl, rfl, hq⟩ | ⟨root, rfl, hrew, hJ, hstep⟩⟩ := (ends_ok hrun).1 hends
    · rw [PassM.offer_cons_none (r := (r, 0)) hrun₂]
      show Finished J Q n p₂
      refine ⟨hsame₂.graph ▸ hp.graph, fun x hx => ?_, fun x m hm hx => ?_⟩
      · rw [hsame₂.graph]
        exact hp.visited x (hsame₂.visited ▸ hx)
      · rw [hsame₂.graph] at hm ⊢
        rw [hoff₂, List.mem_append, List.mem_singleton] at hx
        rcases hx with hx | hx | hx
        · exact hp.quiet x m hm (.inl hx)
        · exact hp.quiet x m hm (.inr hx)
        · cases hx
          exact hq
    · obtain ⟨i, hi⟩ := hrew.root_live
      obtain ⟨p₃, hrun₃, hsame₃, hoff₃⟩ :=
        PassM.offer_cons_some (r := (r, 0)) [] hrun₂ hrew.root_ne (hsame₂.graph.symm ▸ hi)
      have hgraph : p₃.graph = p₁.graph := hsame₃.graph.trans hsame₂.graph
      rw [hrun₃]
      show Finished J Q n p₃
      refine ⟨hgraph ▸ hJ, fun x hx => ?_, fun x m hm hx => ?_⟩
      · rw [hgraph]
        refine hrew.visited_exist hp.visited x ?_
        rw [hsame₃.visited] at hx
        exact hsame₂.visited ▸ hx
      · rw [hgraph] at hm ⊢
        refine hstep x m hm fun k hk hxid => hp.quiet x k hk ?_
        rw [hoff₃, hoff₂, hoff, List.mem_append, List.mem_singleton] at hx
        rcases hx with hx | hx | hx
        · exact .inl hx
        · exact .inr hx
        · cases hx
          exact absurd rfl hxid

theorem Rests.invariant (h : Rests r J Q) (n : Nat) :
    PassM.Invariant [r].zipIdx (Finished J Q n) where
  enter {p p' id k} hp hk hent := by
    refine ⟨hent.graph ▸ hp.graph, fun x hx => ?_, fun x m hm hx => ?_⟩
    · rw [hent.graph]
      rw [hent.visited] at hx
      rcases List.mem_cons.1 hx with rfl | hx
      · exact ⟨k, hk⟩
      · exact hp.visited x hx
    · rw [hent.graph] at hm ⊢
      exact hp.quiet x m hm (hent.offers ▸ hx)
  take hp _ := ⟨hp.graph, hp.visited, hp.quiet⟩
  offer hp _ := h.offer hp _

/-- The outcome of a pass that changed nothing: it returns its roots, and no rule was applied. -/
structure Outcome.Unchanged (o : Outcome) (g : Graph) (roots : List NodeId) : Prop where
  result : o.result = .ok roots
  graph : o.pass.graph = g
  applied : o.pass.stats.applied = []
  total : o.pass.stats.total = 0

theorem optimize_quiet {rules : List Rule} {g : Graph} {R : NodeId → Prop} {roots : List NodeId}
    (hrules : ∀ r ∈ rules, Standard r) (ho : g.Ordered) (hR : PassM.QuietBelow rules.zipIdx g R)
    (hroots : ∀ r ∈ roots, R r) (validate : Bool) :
    (optimize rules validate g roots).Unchanged g roots := by
  obtain ⟨p, hrun, hp⟩ := PassM.run_passes hrules ho hR hroots (p := .start g) ⟨rfl, rfl, rfl, rfl⟩
  have hout : optimize rules validate g roots = ⟨.ok roots, p⟩ := by
    unfold optimize
    rw [hrun]
    simp [hp.graph, check_eq_ok_iff_ordered.2 ho]
  rw [hout]
  refine ⟨rfl, hp.graph, hp.applied, ?_⟩
  show p.stats.total = 0
  rw [Stats.total, hp.applied]
  rfl

theorem Rests.second_pass (h : Rests r J Q) {g : Graph} (hg : J g) {roots newRoots : List NodeId}
    {validate : Bool}
    (hroots : ∀ t ∈ roots, ∃ n, g.get? t = some n ∧ n.retired = false ∧ n.parents = [])
    (hok : (optimize [r] validate g roots).result = .ok newRoots) (validate' : Bool) :
    (optimize [r] validate' (optimize [r] validate g roots).pass.graph newRoots).Unchanged
      (optimize [r] validate g roots).pass.graph newRoots := by
  have hrule : ∀ t ∈ [r], Standard t := fun t ht => List.mem_singleton.1 ht ▸ h.standard
  have hstart : Finished J Q g.size (.start g) := by
    refine ⟨hg, nofun, fun x m hm hx => ?_⟩
    rcases hx with hx | hx
    · exact absurd hx (not_le.2 (range_of_get? hm).2)
    · cases hx
  have hend := (ends_ok (run_of_optimize hok)).1 ((h.invariant g.size).run hstart roots)
  obtain ⟨hrest, hnew⟩ := resting_of_optimize hrule (h.ordered hg) hroots hok
  refine optimize_quiet hrule (h.ordered hend.graph)
    (R := (· ∈ (optimize [r] validate g roots).pass.visited)) (fun x hx => ?_) hnew validate'
  obtain ⟨m, hm⟩ := hend.visited x hx
  refine ⟨m, hm, fun y hy => hrest.visited_of_dependsOn hx (.single (inputsOf_eq hm ▸ hy)), ?_⟩
  intro t ht
  obtain rfl := List.mem_singleton.1 ht
  refine h.quiet hend.graph hm (hend.quiet x m hm ?_)
  rcases le_or_gt (g.size : Int) x with hle | hlt
  · exact .inl hle
  · exact .inr (hrest.tidy.offered x hx hlt (r, 0) List.mem_cons_self)

end LinearPlan.Optimizer
