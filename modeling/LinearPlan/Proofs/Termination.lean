import LinearPlan.Proofs.Roots
import LinearPlan.Proofs.StaleRules

/-!
# Passes terminate

On a valid graph a pass comes to an end, with a result or with a fault of a rule, whatever the sizes
in the graph are. Sizes decide which rule applies and whether it fails, but the bound for the work that
is left does not mention them: every task enters a node, takes a pending one, or goes on to the next
operand, and no offer adds to the work.
-/
namespace LinearPlan

theorem Plan.Factors.of_wires {P P' : Plan} (h : P.wires = P'.wires) {x : NodeId}
    {M : Multiset NodeId} (hx : P.Factors x M) : P'.Factors x M := by
  induction hx with
  | leaf hx hm =>
    obtain ⟨j, hj, hop, -⟩ := Plan.exists_of_wires h hx
    exact .leaf hj (hop ▸ hm)
  | product hx hm hi _ _ iha ihb =>
    obtain ⟨j, hj, hop, hin⟩ := Plan.exists_of_wires h hx
    exact .product hj (hop ▸ hm) (hin.trans hi) iha ihb

namespace Optimizer
open LinearPlan.Graph
open Slicing (Axis)

/-- The fault of a descent or of a search that ran out of fuel. -/
def PassFault.IsEndless : PassFault → Prop
  | .endless => True
  | .fault cause => cause.IsCyclic
  | .inRule _ _ (.fault cause) => cause.IsCyclic
  | _ => False

variable {p p' : Pass} {id root : NodeId}

noncomputable def effort (p : Pass) : Nat :=
  (unvisited p + 11 * (sharing p.graph .row + sharing p.graph .col)) *
    (Factoring.products p.graph + 2) + p.pending.length

theorem Alike.effort_eq (h : Alike p p') : effort p' = effort p := by
  simp only [effort, unvisited, h.graph, h.visited, h.pending]

theorem unvisited_of_wires (hw : p'.graph.plan.wires = p.graph.plan.wires)
    (hs : p'.graph.size = p.graph.size) (hv : p'.visited = p.visited) :
    unvisited p' ≤ unvisited p := by
  unfold unvisited
  rw [hs, hv]
  exact Plan.tally_le_of_wires hw fun {_ _ _} _ _ _ hi => hi

theorem Rewrites.effort_le (h : Rewrites p id root p') (ho : p.graph.Ordered)
    (hun : id ∉ p.visited) : effort p' ≤ effort p := by
  unfold effort
  cases h with
  | @factor M leaves g h hrep hg hv hp hleaves hlen =>
    have hu : unvisited { p' with graph := g } + 1 ≤ unvisited p :=
      unvisited_factored h hun (by rw [hg.size] at hv; exact hv)
    have hu' : unvisited p' ≤ unvisited { p' with graph := g } :=
      unvisited_of_wires hg.wires hg.size rfl
    have hw : ∀ axis, sharing p'.graph axis ≤ sharing p.graph axis := fun axis =>
      (sharing_of_wires hg.wires hg.size).trans (sharing_refactored h axis)
    have hm := (products_of_wires hg.wires hg.size).trans h.products_lt.le
    have hrow := hw .row
    have hcol := hw .col
    rw [hp, List.length_append]
    exact spend_le (by omega) hm (by omega)
  | @merge m g h hid hroot hg hv hp =>
    have hu : unvisited { p' with graph := g } ≤ unvisited p + (2 * m.chain.length + 6) :=
      unvisited_merged h hv
    have hu' : unvisited p' ≤ unvisited { p' with graph := g } :=
      unvisited_of_wires hg.wires hg.size rfl
    have hw : sharing p'.graph .row + sharing p'.graph .col + m.chain.length ≤
        sharing p.graph .row + sharing p.graph .col + 1 := by
      have hres : ∀ axis, sharing p'.graph axis ≤ sharing g axis := fun axis =>
        sharing_of_wires hg.wires hg.size
      have hrow := hres .row
      have hcol := hres .col
      have hmain := sharing_merged h ho
      cases haxis : m.axis with
      | row =>
        have hother : sharing g .col ≤ sharing p.graph .col :=
          sharing_merged_other h ho (by rw [haxis]; decide)
        rw [haxis] at hmain
        omega
      | col =>
        have hother : sharing g .row ≤ sharing p.graph .row :=
          sharing_merged_other h ho (by rw [haxis]; decide)
        rw [haxis] at hmain
        omega
    have hlong := h.chained.long
    have hless : unvisited p' + 11 * (sharing p'.graph .row + sharing p'.graph .col) ≤
        unvisited p + 11 * (sharing p.graph .row + sharing p.graph .col) := by
      omega
    have hm := (products_of_wires hg.wires hg.size).trans (products_merged h)
    rw [hp]
    exact Nat.add_le_add_right (Nat.mul_le_mul hless (Nat.add_le_add_right hm 2)) _

namespace Rewrites

theorem id_old (h : Rewrites p id root p') : @LT.lt Int _ id p.graph.size := by
  obtain ⟨C, g, hwork, -⟩ := h.rework
  obtain ⟨i, hi, -⟩ := hwork.op_of_changed hwork.id_changed
  exact (range_of_plan hi).2

theorem root_new (h : Rewrites p id root p') : @LE.le Int _ p.graph.size root := by
  obtain ⟨C, g, hwork, -⟩ := h.rework
  exact hwork.root_new

theorem root_ne (h : Rewrites p id root p') : root ≠ id := by
  obtain ⟨C, g, hwork, -⟩ := h.rework
  exact hwork.root_ne

theorem root_live (h : Rewrites p id root p') : ∃ i, p'.graph.plan root = some i := by
  obtain ⟨C, g, hwork, hres⟩ := h.rework
  obtain ⟨i, hi⟩ := hwork.root_live
  obtain ⟨j, hj, -⟩ := hres.item hi
  exact ⟨j, hj⟩

theorem ordered (h : Rewrites p id root p') (ho : p.graph.Ordered) : p'.graph.Ordered := by
  obtain ⟨C, g, hwork, hres⟩ := h.rework
  exact hres.ordered (hwork.ordered ho)

theorem idle (h : Rewrites p id root p') : PassM.Idle p'.graph root := by
  cases h with
  | factor h _ hg =>
    obtain ⟨i, op, hi, hop⟩ := h.built.isBinary h.new
    obtain ⟨j, hj, hop', -⟩ := hg.item hi
    exact PassM.idle_of_distinct (hg.ordered h.ordered) hj (hop'.trans hop)
      fun hN => h.distinct (hN.of_wires hg.wires)
  | @merge m g h hid hroot hg =>
    subst hroot
    obtain ⟨j, hj, hop, -⟩ := hg.item h.result.written
    exact PassM.idle_of_write hj hop (PassM.flags_ne m.axis)

theorem congr {q q' : Pass} (h : Rewrites p id root q) {p₀ : Pass} (h₀ : Alike p₀ p)
    (hg : q'.graph = q.graph) (hv : q'.visited = q.visited) (hp : q'.pending = q.pending) :
    Rewrites p₀ id root q' := by
  cases h with
  | factor h hrep hres hvis hpend hleaves hlen =>
    rw [h₀.graph] at h hvis hlen
    refine .factor h hrep (hg.symm ▸ hres) (fun y => ?_) ?_ hleaves hlen
    · rw [hv, hvis y, h₀.visited, hg]
    · rw [hp, hpend, h₀.pending]
  | merge h hid hroot hres hvis hpend =>
    rw [h₀.graph] at h
    exact .merge h hid hroot (hg.symm ▸ hres) (hv.trans (hvis.trans h₀.visited))
      (hp.trans (hpend.trans h₀.pending))

end Rewrites

namespace PassM
variable {rules : List (Rule × Nat)}

structure Offered (rules : List (Rule × Nat)) (p : Pass) (id r : NodeId) (p' : Pass) : Prop where
  cases : r = id ∧ Alike p p' ∨ Rewrites p id r p' ∧ p'.replaced = (id, r) :: p.replaced
  offers : p.offers ⊆ p'.offers
  all : r = id → ∀ rule ∈ rules, ⟨rule.2, id⟩ ∈ p'.offers

def Refused (p : Pass) (fault : PassFault) (p' : Pass) : Prop :=
  ¬ fault.IsEndless ∧ p'.replaced = p.replaced

theorem offer_ends (hrules : ∀ r ∈ rules, Standard r.1) (h : p.graph.Ordered) (id : NodeId) :
    Ends (offer rules id) p (Refused p) (Offered rules p id) := by
  induction rules generalizing p with
  | nil => exact ⟨.inl ⟨rfl, .refl p⟩, fun _ ho => ho, nofun⟩
  | cons r rest ih =>
    have hrest : ∀ r ∈ rest, Standard r.1 := fun r hr => hrules r (List.mem_cons_of_mem _ hr)
    have hends := (hrules r List.mem_cons_self).apply_ends h id
    cases hrun : r.1.apply id p with
    | error cause p₁ =>
      have hfails := (ends_error hrun).1 hends
      obtain ⟨fault, rfl, hcause, -⟩ := hfails.fault
      exact (ends_error (offer_cons_error rest hrun)).2 ⟨hcause, hfails.replaced⟩
    | ok result p₁ =>
      have hans := (ends_ok hrun).1 hends
      obtain ⟨p₂, hrun₂, hsame₂, hoff₂⟩ := applyRule_ok r.2 hrun
      have hsub₂ : p.offers ⊆ p₂.offers := fun o ho => by
        rw [hoff₂, hans.offers]
        exact List.mem_append_left _ ho
      unfold Ends
      rcases hans.cases with ⟨rfl, rfl⟩ | ⟨root, rfl, hrew⟩
      · rw [offer_cons_none hrun₂]
        refine (ih hrest (hsame₂.graph.symm ▸ h)).imp (fun fault p' href => ?_) fun q p' hq => ?_
        · exact ⟨href.1, href.2.trans hsame₂.replaced⟩
        · refine ⟨hq.cases.imp (fun hc => ⟨hc.1, hsame₂.trans hc.2⟩) fun hc => ⟨?_, ?_⟩,
            fun o ho => hq.offers (hsub₂ ho), fun hid rule hrule => ?_⟩
          · exact hc.1.congr hsame₂ rfl rfl rfl
          · rw [hc.2, hsame₂.replaced]
          · rcases List.mem_cons.1 hrule with rfl | hrule
            · refine hq.offers ?_
              rw [hoff₂]
              exact List.mem_append_right _ (List.mem_singleton_self _)
            · exact hq.all hid rule hrule
      · obtain ⟨i, hi⟩ := hrew.root_live
        obtain ⟨p₃, hrun₃, hsame₃, hoff₃⟩ :=
          offer_cons_some rest hrun₂ hrew.root_ne (hsame₂.graph.symm ▸ hi)
        have hidle : Idle p₃.graph root := by
          rw [hsame₃.graph]
          exact hsame₂.graph.symm ▸ hrew.idle
        obtain ⟨p', hrun', hsame', hoff'⟩ := offer_of_idle hrest hidle
        rw [hrun₃, hrun']
        refine ⟨.inr ⟨hrew.congr (.refl p) ?_ ?_ ?_, ?_⟩, fun o ho => hoff' ?_, fun he => absurd he hrew.root_ne⟩
        · rw [hsame'.graph, hsame₃.graph]
          exact hsame₂.graph
        · rw [hsame'.visited, hsame₃.visited]
          exact hsame₂.visited
        · rw [hsame'.pending, hsame₃.pending]
          exact hsame₂.pending
        · rw [hsame'.replaced, hsame₃.replaced]
          exact congrArg ((id, root) :: ·) (hsame₂.replaced.trans hans.replaced)
        · rw [hoff₃]
          exact hsub₂ ho

section Tasks
variable {α β : Type} {E : PassFault → Pass → Prop} {R : β → Pass → Prop} {fuel pos : Nat}

theorem read_ends {f : Graph → Except Fault α} {k : α → PassM β}
    (hok : ∀ a, f p.graph = .ok a → Ends (k a) p E R)
    (herror : ∀ fault, f p.graph = .error fault → E (.fault fault) p) :
    Ends (read f >>= k) p E R := by
  refine Ends.bind (P := fun a q => q = p ∧ f p.graph = .ok a) ?_ ?_
  · unfold Ends read
    cases h : f p.graph with
    | ok a => exact ⟨rfl, rfl⟩
    | error fault => exact herror fault h
  · rintro a q ⟨rfl, ha⟩
    exact hok a ha

theorem node_ends {k : Node → PassM β} (hE : ∀ fault, ¬ fault.IsEndless → E fault p)
    (hok : ∀ n, p.graph.get? id = some n → Ends (k n) p E R) :
    Ends (read (·.node id) >>= k) p E R := by
  cases hget : p.graph.get? id with
  | none =>
    have hnode : p.graph.node id = .error (.invalidId p.graph.name id p.graph.size) := by
      rw [node, hget]
    refine read_ends (fun n hn => ?_) fun fault hf => ?_
    · rw [hnode] at hn
      cases hn
    · rw [hnode] at hf
      cases hf
      exact hE _ not_false
  | some n => exact (ends_bind_ok (read_ok (node_ok hget))).2 (hok n hget)

theorem input_error {n : Node} {fault : Fault} (h : n.input id pos = .error fault) :
    ¬ fault.IsCyclic := by
  unfold Node.input at h
  split at h
  · cases h
  · cases h
    exact not_false

theorem input_of_ok {n : Node} {y : NodeId} (h : n.input id pos = .ok y) :
    n.inputs[pos]? = some y := by
  unfold Node.input Node.input? at h
  split at h
  · cases h
    simpa using ‹_›
  · cases h

theorem slot_ends {k : NodeId → PassM β} (hE : ∀ fault, ¬ fault.IsEndless → E fault p)
    (hok : ∀ y, (p.graph.inputsOf id)[pos]? = some y → Ends (k y) p E R) :
    Ends (read (fun g => do (← g.node id).input id pos) >>= k) p E R := by
  cases hget : p.graph.get? id with
  | none =>
    have hnode : (do (← p.graph.node id).input id pos) =
        Except.error (.invalidId p.graph.name id p.graph.size) := by
      rw [node, hget]
      rfl
    refine read_ends (fun n hn => ?_) fun fault hf => ?_
    · rw [hnode] at hn
      cases hn
    · rw [hnode] at hf
      cases hf
      exact hE _ not_false
  | some n =>
    have hnode : (do (← p.graph.node id).input id pos) = n.input id pos := by
      rw [node_ok hget]
      rfl
    refine read_ends (fun y hy => ?_) fun fault hf => ?_
    · rw [hnode] at hy
      refine hok y ?_
      rw [inputsOf_eq hget]
      exact input_of_ok hy
    · rw [hnode] at hf
      exact hE _ (input_error hf)

theorem requireRedirected_ends {k : Unit → PassM β} {child r : NodeId}
    (hE : ∀ fault, ¬ fault.IsEndless → E fault p)
    (hok : r = child ∨ (p.graph.inputsOf id)[pos]? = some r → Ends (k ()) p E R) :
    Ends (requireRedirected id pos child r >>= k) p E R := by
  refine Ends.bind (P := fun _ q => q = p ∧ (r = child ∨ (p.graph.inputsOf id)[pos]? = some r)) ?_ ?_
  · unfold requireRedirected
    split
    · rename_i hchild
      exact ⟨rfl, .inl hchild⟩
    · refine node_ends hE fun n hn => read_ends (fun y hy => ?_) fun fault hf => ?_
      · split
        · rename_i hfound
          refine ⟨rfl, .inr ?_⟩
          rw [inputsOf_eq hn, input_of_ok hy, hfound]
        · exact hE _ not_false
      · exact hE _ (input_error hf)
  · rintro - q ⟨rfl, hq⟩
    exact hok hq

structure Entered (p : Pass) (id : NodeId) (p' : Pass) : Prop where
  graph : p'.graph = p.graph
  visited : p'.visited = id :: p.visited
  pending : p'.pending = p.pending
  replaced : p'.replaced = p.replaced
  offers : p'.offers = p.offers

variable {Q : Unit → Pass → Prop}

theorem descend_node_ends (hvisited : id ∈ p.visited → Q () p)
    (hE : ∀ p', Entered p id p' → ∀ fault, ¬ fault.IsEndless → E fault p')
    (henter : id ∉ p.visited → ∀ p', Entered p id p' → ∀ n, p.graph.get? id = some n →
      Ends (descend rules fuel (.operands id 0)) p' E Q) :
    Ends (descend rules (fuel + 1) (.node id)) p E Q := by
  unfold descend
  rw [ends_bind_ok (isVisited_apply id)]
  by_cases hv : id ∈ p.visited
  · rw [if_pos (decide_eq_true hv)]
    exact hvisited hv
  · rw [if_neg (by simpa using hv)]
    obtain ⟨p₁, hrun, hent⟩ : ∃ p₁, enter id p = .ok () p₁ ∧ Entered p id p₁ :=
      ⟨_, rfl, rfl, rfl, rfl, rfl, rfl⟩
    rw [ends_bind_ok hrun]
    refine Ends.bind (P := fun _ q => q = p₁ ∧ ∃ n, p.graph.get? id = some n) ?_ ?_
    · exact node_ends (hE p₁ hent) fun n hn => ⟨rfl, n, hent.graph ▸ hn⟩
    · rintro - q ⟨rfl, n, hn⟩
      exact henter hv q hent n hn

def GoesOn (rules : List (Rule × Nat)) (fuel : Nat) (id : NodeId) (pos : Nat)
    (E : PassFault → Pass → Prop) (Q : Unit → Pass → Prop) (p : Pass) : Prop :=
  (∀ fault, ¬ fault.IsEndless → E fault p) ∧ ∀ next, (p.graph.inputsOf id)[pos]? = some next →
    Ends (descend rules fuel (.node next)) p E fun _ p' =>
      Ends (descend rules fuel (.operands id (pos + 1))) p' E Q

theorem descend_operands_ends (hE : ∀ fault, ¬ fault.IsEndless → E fault p)
    (hdone : (p.graph.inputsOf id)[pos]? = none → Q () p)
    (hvisited : ∀ child, (p.graph.inputsOf id)[pos]? = some child → child ∈ p.visited →
      GoesOn rules fuel id pos E Q p)
    (hoffer : ∀ child, (p.graph.inputsOf id)[pos]? = some child → child ∉ p.visited →
      Ends (offer rules child) p E fun r p₁ => (∀ fault, ¬ fault.IsEndless → E fault p₁) ∧
        (r = child ∨ (p₁.graph.inputsOf id)[pos]? = some r →
          Ends (descend rules fuel .pending) p₁ E fun _ p₂ => GoesOn rules fuel id pos E Q p₂)) :
    Ends (descend rules (fuel + 1) (.operands id pos)) p E Q := by
  have hgo : ∀ q, GoesOn rules fuel id pos E Q q → Ends (do
      let next ← read fun g => do (← g.node id).input id pos
      descend rules fuel (.node next)
      descend rules fuel (.operands id (pos + 1))) q E Q := by
    intro q hq
    exact slot_ends hq.1 fun next hnext => (hq.2 next hnext).bind fun _ _ hend => hend
  unfold descend
  refine node_ends hE fun n hn => ?_
  rw [inputsOf_eq hn] at hdone hvisited hoffer
  cases hpos : n.inputs[pos]? with
  | none => exact hdone hpos
  | some child =>
    simp only
    rw [ends_bind_ok (isVisited_apply child)]
    by_cases hv : child ∈ p.visited
    · rw [if_pos (decide_eq_true hv)]
      exact hgo p (hvisited child hpos hv)
    · rw [if_neg (by simpa using hv)]
      refine (hoffer child hpos hv).bind fun r p₁ hr => requireRedirected_ends hr.1 fun hred => ?_
      exact (hr.2 hred).bind fun _ p₂ hp₂ => hgo p₂ hp₂

theorem descend_pending_ends (hnil : p.pending = [] → Q () p)
    (hE : ∀ id rest, p.pending = id :: rest →
      ∀ fault, ¬ fault.IsEndless → E fault { p with pending := rest })
    (hskip : ∀ id rest, p.pending = id :: rest → id ∈ p.visited ∨ p.graph.plan id = none →
      Ends (descend rules fuel .pending) { p with pending := rest } E Q)
    (hoffer : ∀ id rest i, p.pending = id :: rest → id ∉ p.visited → p.graph.plan id = some i →
      Ends (offer rules id) { p with pending := rest } E fun r p₁ =>
        Ends (descend rules fuel (.node r)) p₁ E fun _ p₂ =>
          Ends (descend rules fuel .pending) p₂ E Q) :
    Ends (descend rules (fuel + 1) .pending) p E Q := by
  unfold descend
  cases hpend : p.pending with
  | nil =>
    have htake : takePending p = .ok none p := by rw [takePending, hpend]
    rw [ends_bind_ok htake]
    exact hnil hpend
  | cons id rest =>
    have htake : takePending p = .ok (some id) { p with pending := rest } := by
      rw [takePending, hpend]
    rw [ends_bind_ok htake]
    simp only
    rw [ends_bind_ok (isVisited_apply id)]
    by_cases hv : id ∈ p.visited
    · rw [if_pos (decide_eq_true hv)]
      exact hskip id rest hpend (.inl hv)
    · rw [if_neg (by simpa using hv)]
      refine node_ends (hE id rest hpend) fun n hn => ?_
      cases hr : n.retired with
      | true => exact hskip id rest hpend (.inr (plan_eq_none_of_retired hn hr))
      | false =>
        refine (hoffer id rest n.item hpend hv (plan_eq_some hn hr)).bind fun r p₁ hr₁ => ?_
        exact hr₁.bind fun _ _ hend => hend

def Descends (rules : List (Rule × Nat)) (E : PassFault → Pass → Prop) (Q : NodeId → Pass → Prop)
    (t : NodeId) (p : Pass) : Prop :=
  Ends (descend rules (fuelFor p.graph) (.node t)) p E fun _ p₁ =>
    Ends (descend rules (fuelFor p.graph) .pending) p₁ E fun _ p₂ => Q (p₂.latest t) p₂

theorem settle_ends {Q : NodeId → Pass → Prop} {r : NodeId}
    (hvisited : p.latest r ∈ p.visited → Descends rules E Q (p.latest r) p)
    (hoffer : p.latest r ∉ p.visited → Ends (offer rules (p.latest r)) p E (Descends rules E Q)) :
    Ends (settle rules r) p E Q := by
  have hgo : ∀ t q, Descends rules E Q t q → Ends (do
      let fuel := fuelFor (← get).graph
      descend rules fuel (.node t)
      descend rules fuel .pending
      return (← get).latest t) q E Q := by
    intro t q hq
    refine (ends_bind_ok (rfl : (get : PassM Pass) q = .ok q q)).2 ?_
    exact Ends.bind hq fun _ q₁ hq₁ => Ends.bind hq₁ fun _ q₂ hq₂ => hq₂
  show Ends (if p.latest r ∈ p.visited then pure (p.latest r) >>= _ else
    offer rules (p.latest r) >>= _) p E Q
  split
  · exact hgo _ p (hvisited ‹_›)
  · exact (hoffer ‹_›).bind hgo

end Tasks

def Upward (p : Pass) : Prop := ∀ kv ∈ p.replaced, @LT.lt Int _ kv.1 kv.2

structure Lawful (p : Pass) : Prop where
  ordered : p.graph.Ordered
  upward : Upward p

def Stops (fault : PassFault) (p : Pass) : Prop := ¬ fault.IsEndless ∧ Upward p

theorem Lawful.stops (h : Lawful p) (fault : PassFault) (hf : ¬ fault.IsEndless) : Stops fault p :=
  ⟨hf, h.upward⟩

variable {r : NodeId} {fuel : Nat}

theorem Offered.lawful (h : Offered rules p id r p') (hl : Lawful p) (hun : id ∉ p.visited) :
    Lawful p' ∧ effort p' ≤ effort p := by
  rcases h.cases with ⟨-, hsame⟩ | ⟨hrew, hrep⟩
  · refine ⟨⟨hsame.graph.symm ▸ hl.ordered, ?_⟩, hsame.effort_eq.le⟩
    unfold Upward
    rw [hsame.replaced]
    exact hl.upward
  · refine ⟨⟨hrew.ordered hl.ordered, ?_⟩, hrew.effort_le hl.ordered hun⟩
    unfold Upward
    rw [hrep]
    intro kv hkv
    rcases List.mem_cons.1 hkv with rfl | hkv
    · have hold := hrew.id_old
      have hnew := hrew.root_new
      exact hold.trans_le hnew
    · exact hl.upward kv hkv

theorem offer_lawful (hrules : ∀ r ∈ rules, Standard r.1) (hl : Lawful p) (hun : id ∉ p.visited) :
    Ends (offer rules id) p Stops fun r p' =>
      Offered rules p id r p' ∧ Lawful p' ∧ effort p' ≤ effort p := by
  refine (offer_ends hrules hl.ordered id).imp (fun fault p' href => ⟨href.1, ?_⟩) fun r p' hoff =>
    ⟨hoff, hoff.lawful hl hun⟩
  unfold Upward
  rw [href.2]
  exact hl.upward

theorem Entered.lawful (h : Entered p id p') (hl : Lawful p) : Lawful p' := by
  refine ⟨h.graph.symm ▸ hl.ordered, ?_⟩
  unfold Upward
  rw [h.replaced]
  exact hl.upward

theorem Entered.effort_mono (h : Entered p id p') : effort p' ≤ effort p := by
  have hless : unvisited p' ≤ unvisited p := by
    unfold unvisited
    rw [h.graph, h.visited]
    exact Plan.tally_le le_rfl fun {x i} hx hv => ⟨i, hx, fun hmem => hv (List.mem_cons_of_mem _ hmem)⟩
  unfold effort
  rw [h.graph, h.pending]
  exact Nat.add_le_add_right (Nat.mul_le_mul_right _ (Nat.add_le_add_right hless _)) _

theorem Entered.effort_le (h : Entered p id p') {i : Item} (hi : p.graph.plan id = some i)
    (hun : id ∉ p.visited) : effort p' + 2 ≤ effort p := by
  have hless := unvisited_enter hi hun h.graph h.visited
  unfold effort
  rw [h.graph, h.pending, Nat.add_assoc]
  exact spend_le (by omega) le_rfl (by omega)

noncomputable def cost (p : Pass) : Task → Nat
  | .node _ => 8 * effort p + 2
  | .operands _ pos => 8 * effort p + 3 + (6 - pos)
  | .pending => 8 * effort p + 1

def Halts (rules : List (Rule × Nat)) (fuel : Nat) (task : Task) (p : Pass) : Prop :=
  Ends (descend rules fuel task) p Stops fun _ p' =>
    Lawful p' ∧ effort p' ≤ effort p ∧ (task = .pending → p'.pending = [])

theorem retired_halts (hl : Lawful p) (hret : p.graph.plan id = none) :
    Halts rules (fuel + 1) (.operands id 0) p := by
  have hnil : p.graph.inputsOf id = [] := by rw [hl.ordered.inputsOf_eq_plan, hret]; rfl
  refine descend_operands_ends hl.stops (fun _ => ⟨hl, le_rfl, nofun⟩) (fun child hpos => ?_)
    fun child hpos => ?_
  · rw [hnil] at hpos
    cases hpos
  · rw [hnil] at hpos
    cases hpos

variable {pos : Nat} (ih : ∀ task p, Lawful p → cost p task ≤ fuel → Halts rules fuel task p)

include ih

theorem node_halts (hl : Lawful p) (hfuel : cost p (.node id) ≤ fuel + 1) :
    Halts rules (fuel + 1) (.node id) p := by
  simp only [cost] at hfuel
  refine descend_node_ends (fun _ => ⟨hl, le_rfl, nofun⟩)
    (fun p₁ hent => (hent.lawful hl).stops) fun hv p₁ hent n hn => ?_
  cases hplan : p.graph.plan id with
  | none =>
    obtain ⟨k, rfl⟩ : ∃ k, fuel = k + 1 := ⟨fuel - 1, by omega⟩
    refine (retired_halts (hent.lawful hl) (hent.graph.symm ▸ hplan)).mono fun _ p' hp' => ?_
    exact ⟨hp'.1, hp'.2.1.trans hent.effort_mono, nofun⟩
  | some i =>
    have hless := hent.effort_le hplan hv
    refine (ih (.operands id 0) p₁ (hent.lawful hl) (by simp only [cost]; omega)).mono
      fun _ p' hp' => ⟨hp'.1, ?_, nofun⟩
    have hle := hp'.2.1
    omega

theorem operands_halts (hrules : ∀ r ∈ rules, Standard r.1) (hl : Lawful p)
    (hfuel : cost p (.operands id pos) ≤ fuel + 1) :
    Halts rules (fuel + 1) (.operands id pos) p := by
  simp only [cost] at hfuel
  -- A node has at most six operands, so there is fuel for one more task at this operand.
  have hlt : ∀ {child}, (p.graph.inputsOf id)[pos]? = some child → pos < 6 := by
    intro child hpos
    rw [hl.ordered.inputsOf_eq_plan] at hpos
    cases hi : p.graph.plan id with
    | none =>
      rw [hi] at hpos
      cases hpos
    | some i =>
      rw [hi] at hpos
      obtain ⟨hlt, -⟩ := List.getElem?_eq_some_iff.1 hpos
      exact hlt.trans_le (arity_le (hl.ordered.arity_of_plan hi))
  have hgo : ∀ {q}, pos < 6 → Lawful q → effort q ≤ effort p → GoesOn rules fuel id pos Stops
      (fun _ p' => Lawful p' ∧ effort p' ≤ effort p ∧ (Task.operands id pos = .pending →
        p'.pending = [])) q := by
    intro q hpos hq hle
    refine ⟨hq.stops, fun next _ => ?_⟩
    refine (ih (.node next) q hq (by simp only [cost]; omega)).mono fun _ q₁ hq₁ => ?_
    have hle₁ := hq₁.2.1
    refine (ih (.operands id (pos + 1)) q₁ hq₁.1 (by simp only [cost]; omega)).mono
      fun _ q₂ hq₂ => ⟨hq₂.1, ?_, nofun⟩
    have hle₂ := hq₂.2.1
    omega
  refine descend_operands_ends hl.stops (fun _ => ⟨hl, le_rfl, nofun⟩)
    (fun child hpos _ => hgo (hlt hpos) hl le_rfl) fun child hpos hv => ?_
  refine (offer_lawful hrules hl hv).mono fun r p₁ hr => ⟨hr.2.1.stops, fun _ => ?_⟩
  have hle₁ := hr.2.2
  refine (ih .pending p₁ hr.2.1 (by simp only [cost]; omega)).mono fun _ p₂ hp₂ => ?_
  exact hgo (hlt hpos) hp₂.1 (hp₂.2.1.trans hle₁)

theorem pending_halts (hrules : ∀ r ∈ rules, Standard r.1) (hl : Lawful p)
    (hfuel : cost p .pending ≤ fuel + 1) : Halts rules (fuel + 1) .pending p := by
  simp only [cost] at hfuel
  have htaken : ∀ {id rest}, p.pending = id :: rest → Lawful { p with pending := rest } ∧
      effort { p with pending := rest } + 1 = effort p := by
    intro id rest hpend
    refine ⟨⟨hl.ordered, hl.upward⟩, ?_⟩
    simp only [effort, unvisited, hpend, List.length_cons]
    omega
  have hrest : ∀ {q}, Lawful q → effort q + 1 ≤ effort p → Ends (descend rules fuel .pending) q Stops
      fun _ p' => Lawful p' ∧ effort p' ≤ effort p ∧ (Task.pending = .pending → p'.pending = []) := by
    intro q hq hle
    refine (ih .pending q hq (by simp only [cost]; omega)).mono fun _ q₁ hq₁ => ⟨hq₁.1, ?_, hq₁.2.2⟩
    have hle₁ := hq₁.2.1
    omega
  refine descend_pending_ends (fun hnil => ⟨hl, le_rfl, fun _ => hnil⟩)
    (fun id rest hpend => (htaken hpend).1.stops) (fun id rest hpend _ => ?_)
    fun id rest i hpend hv _ => ?_
  · exact hrest (htaken hpend).1 (htaken hpend).2.le
  · obtain ⟨hl₀, heq⟩ := htaken hpend
    refine (offer_lawful hrules hl₀ hv).mono fun r p₁ hr => ?_
    have hle₁ := hr.2.2
    refine (ih (.node r) p₁ hr.2.1 (by simp only [cost]; omega)).mono fun _ p₂ hp₂ => ?_
    have hle₂ := hp₂.2.1
    exact hrest hp₂.1 (by omega)

omit ih

theorem descend_halts (hrules : ∀ r ∈ rules, Standard r.1) (fuel : Nat) (task : Task) (p : Pass)
    (hl : Lawful p) (hfuel : cost p task ≤ fuel) : Halts rules fuel task p := by
  induction fuel generalizing task p with
  | zero => cases task <;> simp [cost] at hfuel
  | succ fuel ih =>
    cases task with
    | node id => exact node_halts ih hl hfuel
    | operands id pos => exact operands_halts ih hrules hl hfuel
    | pending => exact pending_halts ih hrules hl hfuel

theorem effort_le_fuelFor (hp : p.pending.length ≤ p.graph.size + 1) :
    8 * effort p + 2 ≤ fuelFor p.graph := by
  have hu : unvisited p ≤ p.graph.size := Plan.tally_le_size ..
  have hrow : sharing p.graph .row ≤ p.graph.size := Plan.tally_le_size ..
  have hcol : sharing p.graph .col ≤ p.graph.size := Plan.tally_le_size ..
  have hm : Factoring.products p.graph ≤ p.graph.size := Plan.tally_le_size ..
  refine le_fuelFor ?_
  unfold effort
  exact Nat.add_le_add (Nat.mul_le_mul (by omega) (by omega)) hp

theorem Offered.pending_le (h : Offered rules p id r p') (hp : p.pending = []) :
    p'.pending.length ≤ p'.graph.size + 1 := by
  rcases h.cases with ⟨-, hsame⟩ | ⟨hrew, -⟩
  · rw [hsame.pending, hp]
    exact Nat.zero_le _
  · obtain ⟨C, g, hwork, hres⟩ := hrew.rework
    have hsize := hwork.size_le
    rw [← hres.size] at hsize
    cases hrew with
    | factor _ _ _ _ hp' _ hlen =>
      have hm : Factoring.products p.graph ≤ p.graph.size := Plan.tally_le_size ..
      rw [hp', hp, List.nil_append]
      omega
    | merge _ _ _ _ _ hp' =>
      rw [hp', hp]
      exact Nat.zero_le _

theorem settle_halts (hrules : ∀ r ∈ rules, Standard r.1) (hl : Lawful p) (hp : p.pending = [])
    (r : NodeId) : Ends (settle rules r) p Stops fun _ p' => Lawful p' ∧ p'.pending = [] := by
  have hgo : ∀ t q, Lawful q → q.pending.length ≤ q.graph.size + 1 →
      Descends rules Stops (fun _ p' => Lawful p' ∧ p'.pending = []) t q := by
    intro t q hq hlen
    have hfuel := effort_le_fuelFor hlen
    refine (descend_halts hrules _ (.node t) q hq hfuel).mono fun _ q₁ hq₁ => ?_
    have hle := hq₁.2.1
    refine (descend_halts hrules _ .pending q₁ hq₁.1 (by simp only [cost]; omega)).mono ?_
    exact fun _ q₂ hq₂ => ⟨hq₂.1, hq₂.2.2 rfl⟩
  refine settle_ends (fun _ => hgo _ p hl (by rw [hp]; exact Nat.zero_le _)) fun hv => ?_
  exact (offer_lawful hrules hl hv).mono fun t p₁ ht => hgo t p₁ ht.2.1 (ht.1.pending_le hp)

end PassM

/-- Following replacements comes to an end, within as many steps as there are replacements. -/
def Pass.Settles (p : Pass) : Prop := ∀ x, p.replaced.lookup (p.latest x) = none

theorem PassM.Upward.settles (h : PassM.Upward p) : p.Settles := fun _ =>
  Pass.lookup_latestFrom h (List.countP_le_length ..)

/-- A pass over a valid graph comes to an end, whatever its sizes, its roots and the rules are: it has
a result, or a fault that is not for a lack of fuel. -/
theorem run_terminates {rules : List Rule} (hrules : ∀ r ∈ rules, Standard r) {g : Graph}
    (hc : g.check = .ok ()) (roots : List NodeId) :
    Ends (PassM.run rules roots) (.start g) (fun fault p => ¬ fault.IsEndless ∧ p.Settles)
      fun _ p => p.Settles := by
  have hzip : ∀ r ∈ rules.zipIdx, Standard r.1 := fun r hr =>
    hrules r.1 (List.fst_mem_of_mem_zipIdx hr)
  have hl : PassM.Lawful (.start g) := ⟨check_eq_ok_iff_ordered.1 hc, nofun⟩
  have hends := ends_mapM (E := PassM.Stops) (I := fun p => PassM.Lawful p ∧ p.pending = [])
    (R := fun _ _ => True) (l := roots) ⟨hl, rfl⟩ fun r _ p hp =>
      (PassM.settle_halts hzip hp.1 hp.2 r).mono fun _ _ hp' => ⟨hp', trivial, fun _ _ => trivial⟩
  exact hends.imp (fun fault p hstop => ⟨hstop.1, hstop.2.settles⟩) fun _ p hp =>
    hp.1.1.upward.settles

theorem run_terminates_staleSum : staleSum.check = .ok () ∧ ∀ roots,
    Ends (PassM.run [Slicing.rule [.row, .col], Factoring.rule, Factoring.rule] roots)
      (.start staleSum) (fun fault p => ¬ fault.IsEndless ∧ p.Settles) fun _ p => p.Settles := by
  have hc : staleSum.check = .ok () := by decide +kernel
  have hrules : ∀ r ∈ [Slicing.rule [.row, .col], Factoring.rule, Factoring.rule], Standard r := by
    intro r hr
    simp only [List.mem_cons, List.not_mem_nil, or_false] at hr
    rcases hr with rfl | rfl | rfl
    · exact .inr ⟨_, rfl⟩
    · exact .inl rfl
    · exact .inl rfl
  exact ⟨hc, run_terminates hrules hc⟩

end Optimizer
end LinearPlan
