import LinearPlan.Graph.Validity
import LinearPlan.Proofs.Plans
import Mathlib.Data.Finset.Card

/-!
# What the validity check establishes

The check accepts exactly the graphs whose edges are consistent and whose plan has no cycle. The
search for cycles marks a node as done after its operands, so the nodes that are done, last one
first, are in topological order; this order gives every node a rank above those of its operands.
Conversely a rank keeps the search from meeting a node of its own path.
-/
namespace LinearPlan

def Plan.Ranked (P : Plan) (rank : NodeId → Nat) : Prop :=
  ∀ {x i y}, P x = some i → y ∈ i.inputs → rank y < rank x

def Plan.Acyclic (P : Plan) : Prop := ∃ rank, P.Ranked rank

namespace Graph
variable {g : Graph}

@[simp] theorem length_ids (g : Graph) : g.ids.length = g.size := by simp [ids]

theorem length_le_size {l : List NodeId} (hl : l.Nodup)
    (h : ∀ x ∈ l, (0 : Int) ≤ x ∧ x < (g.size : Int)) : l.length ≤ g.size := by
  have hsub : l ⊆ g.ids := fun x hx => mem_ids.2 (h x hx)
  simpa using (List.subperm_of_subset hl hsub).length_le

def Checked (g : Graph) (x : NodeId) (n : Node) : Prop :=
  if n.retired = true then n.inputs = [] ∧ n.parents = []
  else n.op.arity? = some n.inputs.length ∧
    (∀ y ∈ n.inputs, ∃ c, g.get? y = some c ∧ c.retired = false ∧
      c.parents.count x = n.inputs.count y) ∧
    ∀ p ∈ n.parents, ∃ m, g.get? p = some m ∧ x ∈ m.inputs

theorem checkArity_eq_ok {x : NodeId} {n : Node} :
    g.checkArity x n = .ok () ↔ n.op.arity? = some n.inputs.length := by
  unfold checkArity
  cases ha : n.op.arity? with
  | none => simp
  | some want =>
    by_cases hw : n.inputs.length = want
    · simp [hw]
    · simp [hw, Ne.symm hw]

theorem checkInput_eq_ok {x : NodeId} {n : Node} {y : NodeId × Nat} :
    g.checkInput x n y = .ok () ↔ ∃ c, g.get? y.1 = some c ∧ c.retired = false ∧
      c.parents.count x = n.inputs.count y.1 := by
  unfold checkInput
  cases hy : g.get? y.1 with
  | none => simp
  | some c =>
    cases hr : c.retired with
    | true => simp [hr]
    | false =>
      by_cases hc : c.parents.count x = n.inputs.count y.1
      · simp [hr, hc]
      · simp [hr, hc]

theorem checkParent_eq_ok {x p : NodeId} {n : Node} :
    g.checkParent x n p = .ok () ↔ ∃ m, g.get? p = some m ∧ x ∈ m.inputs := by
  unfold checkParent
  cases hp : g.get? p with
  | none => simp
  | some m =>
    by_cases hm : x ∈ m.inputs
    · simp [hm]
    · simp [hm]

theorem checkNode_eq_ok {x : NodeId} {n : Node} : g.checkNode x n = .ok () ↔ g.Checked x n := by
  unfold checkNode Checked
  by_cases hr : n.retired = true
  · rw [if_pos hr, if_pos hr]
    by_cases he : n.inputs = [] ∧ n.parents = []
    · simp [he]
    · simp [he]
  · rw [if_neg hr, if_neg hr]
    rw [← checkArity_eq_ok (g := g) (x := x)]
    have hinputs : n.inputs.zipIdx.forM (g.checkInput x n) = .ok () ↔
        ∀ y ∈ n.inputs, ∃ c, g.get? y = some c ∧ c.retired = false ∧
          c.parents.count x = n.inputs.count y := by
      rw [Outcome.forM_eq_ok_iff]
      constructor
      · intro h y hy
        obtain ⟨k, hk⟩ := List.getElem?_of_mem hy
        exact checkInput_eq_ok.1 (h (y, k) (List.mem_zipIdx_iff_getElem?.2 hk))
      · intro h y hy
        exact checkInput_eq_ok.2 (h y.1 (List.fst_mem_of_mem_zipIdx hy))
    have hparents : n.parents.forM (g.checkParent x n) = .ok () ↔
        ∀ p ∈ n.parents, ∃ m, g.get? p = some m ∧ x ∈ m.inputs := by
      rw [Outcome.forM_eq_ok_iff]
      exact forall₂_congr fun _ _ => checkParent_eq_ok
    rw [← hinputs, ← hparents]
    cases g.checkArity x n with
    | error e => exact ⟨nofun, fun h => nomatch h.1⟩
    | ok u =>
      show (n.inputs.zipIdx.forM (g.checkInput x n) >>= fun _ => _) = _ ↔ _
      cases n.inputs.zipIdx.forM (g.checkInput x n) with
      | error e => exact ⟨nofun, fun h => nomatch h.2.1⟩
      | ok u => exact ⟨fun h => ⟨rfl, rfl, h⟩, fun h => h.2.2⟩

theorem checkNodes_eq_ok : g.checkNodes = .ok () ↔ ∀ x n, g.get? x = some n → g.Checked x n := by
  unfold checkNodes
  rw [Outcome.forM_eq_ok_iff]
  constructor
  · intro h x n hn
    have hx := h x (mem_ids.2 (range_of_get? hn))
    rw [hn] at hx
    exact checkNode_eq_ok.1 hx
  · intro h x _
    cases hn : g.get? x with
    | none => rfl
    | some n => exact checkNode_eq_ok.2 (h x n hn)

/-- What the nodes of a graph have to satisfy, one by one and pair by pair: retired nodes have no edges,
other nodes have the operands that their operation asks for, all edges lead to nodes, operands are not
retired, and operands and parents name each other equally often. -/
structure Consistent (g : Graph) : Prop where
  retired : ∀ {x n}, g.get? x = some n → n.retired = true → n.inputs = [] ∧ n.parents = []
  arity : ∀ {x n}, g.get? x = some n → n.retired = false → n.op.arity? = some n.inputs.length
  inRange : ∀ {x n} {y : Int}, g.get? x = some n → y ∈ n.inputs ∨ y ∈ n.parents →
    0 ≤ y ∧ y < (g.size : Int)
  operand : ∀ {x n y c}, g.get? x = some n → n.retired = false → y ∈ n.inputs →
    g.get? y = some c → c.retired = false
  counts : ∀ {p c n m}, g.get? p = some n → g.get? c = some m →
    m.parents.count p = n.inputs.count c

theorem consistent_of_checked (h : ∀ x n, g.get? x = some n → g.Checked x n) : g.Consistent := by
  have hretired : ∀ {x n}, g.get? x = some n → n.retired = true → n.inputs = [] ∧ n.parents = [] := by
    intro x n hn hr
    have hc := h x n hn
    rwa [Checked, if_pos hr] at hc
  have hlive : ∀ {x n}, g.get? x = some n → n.retired = false →
      n.op.arity? = some n.inputs.length ∧
        (∀ y ∈ n.inputs, ∃ c, g.get? y = some c ∧ c.retired = false ∧
          c.parents.count x = n.inputs.count y) ∧
        ∀ p ∈ n.parents, ∃ m, g.get? p = some m ∧ x ∈ m.inputs := by
    intro x n hn hr
    have hc := h x n hn
    rwa [Checked, if_neg (by simp [hr])] at hc
  have hinput : ∀ {x n y}, g.get? x = some n → y ∈ n.inputs →
      ∃ c, g.get? y = some c ∧ c.retired = false ∧ c.parents.count x = n.inputs.count y := by
    intro x n y hn hy
    cases hr : n.retired with
    | false => exact (hlive hn hr).2.1 y hy
    | true =>
      rw [(hretired hn hr).1] at hy
      cases hy
  have hparent : ∀ {x n p}, g.get? x = some n → p ∈ n.parents →
      ∃ m, g.get? p = some m ∧ x ∈ m.inputs := by
    intro x n p hn hp
    cases hr : n.retired with
    | false => exact (hlive hn hr).2.2 p hp
    | true =>
      rw [(hretired hn hr).2] at hp
      cases hp
  refine ⟨hretired, fun hn hr => (hlive hn hr).1, ?_, ?_, ?_⟩
  · rintro x n y hn (hy | hy)
    · obtain ⟨c, hc, -⟩ := hinput hn hy
      exact range_of_get? hc
    · obtain ⟨m, hm, -⟩ := hparent hn hy
      exact range_of_get? hm
  · intro x n y c hn _ hy hc
    obtain ⟨c', hc', hr, -⟩ := hinput hn hy
    rw [hc] at hc'
    cases hc'
    exact hr
  · -- Counts are compared along operands only; a parent entry is checked for an operand behind it.
    intro p c n m hn hm
    by_cases hc : c ∈ n.inputs
    · obtain ⟨m', hm', -, hcount⟩ := hinput hn hc
      rw [hm] at hm'
      cases hm'
      exact hcount
    · rw [List.count_eq_zero.2 hc, List.count_eq_zero]
      intro hp
      obtain ⟨n', hn', hcn⟩ := hparent hm hp
      rw [hn] at hn'
      cases hn'
      exact hc hcn

namespace Consistent

theorem checked (h : g.Consistent) {x : NodeId} {n : Node} (hn : g.get? x = some n) :
    g.Checked x n := by
  unfold Checked
  split
  · exact h.retired hn ‹_›
  · rename_i hr
    have hr : n.retired = false := by simpa using hr
    refine ⟨h.arity hn hr, fun y hy => ?_, fun p hp => ?_⟩
    · obtain ⟨h0, hlt⟩ := h.inRange hn (.inl hy)
      obtain ⟨c, hc⟩ := get?_of_lt h0 hlt
      exact ⟨c, hc, h.operand hn hr hy hc, h.counts hn hc⟩
    · obtain ⟨h0, hlt⟩ := h.inRange hn (.inr hp)
      obtain ⟨m, hm⟩ := get?_of_lt h0 hlt
      refine ⟨m, hm, List.count_pos_iff.1 ?_⟩
      rw [← h.counts hm hn]
      exact List.count_pos_iff.2 hp

theorem matched (h : g.Consistent) : g.Matched := by
  intro p c
  cases hp : g.get? p with
  | none =>
    rw [(edges_of_get?_none hp).1, List.count_nil, List.count_eq_zero]
    intro hmem
    obtain ⟨m, hm, hpm⟩ := exists_of_mem_parentsOf hmem
    obtain ⟨h0, hlt⟩ := h.inRange hm (.inr hpm)
    obtain ⟨n, hn⟩ := get?_of_lt h0 hlt
    rw [hp] at hn
    cases hn
  | some n =>
    rw [inputsOf_eq hp]
    cases hc : g.get? c with
    | none =>
      rw [(edges_of_get?_none hc).2, List.count_nil, eq_comm, List.count_eq_zero]
      intro hmem
      obtain ⟨h0, hlt⟩ := h.inRange hp (.inl hmem)
      obtain ⟨m, hm⟩ := get?_of_lt h0 hlt
      rw [hc] at hm
      cases hm
    | some m =>
      rw [parentsOf_eq hc]
      exact h.counts hp hc

theorem linked (h : g.Consistent) (hirr : ∀ p, p ∉ g.inputsOf p) : g.Linked := by
  refine ⟨⟨hirr, ?_, ?_, ?_⟩, h.matched⟩
  · intro p c hc
    obtain ⟨n, hn, hcn⟩ := exists_of_mem_inputsOf hc
    have hr : n.retired = false := by
      cases hr : n.retired with
      | false => rfl
      | true =>
        rw [(h.retired hn hr).1] at hcn
        cases hcn
    obtain ⟨h0, hlt⟩ := h.inRange hn (.inl hcn)
    obtain ⟨m, hm⟩ := get?_of_lt h0 hlt
    have hlive : m.retired = false := h.operand hn hr hcn hm
    exact ⟨_, core?_eq_some hm, hlive⟩
  · intro x n hn hr
    obtain ⟨m, hm, rfl⟩ := get?_of_core? hn
    exact (h.retired hm hr).1
  · intro x n hn hr
    obtain ⟨m, hm, rfl⟩ := get?_of_core? hn
    have harity : m.op.arity? = some m.inputs.length := h.arity hm hr
    exact harity

end Consistent

theorem checkNodes_eq_ok_iff_consistent : g.checkNodes = .ok () ↔ g.Consistent := by
  rw [checkNodes_eq_ok]
  exact ⟨consistent_of_checked, fun h _ _ hn => h.checked hn⟩

theorem Linked.checked (h : g.Linked) {x : NodeId} {n : Node} (hn : g.get? x = some n) :
    g.Checked x n := by
  unfold Checked
  split
  · rename_i hr
    have hin : n.core.inputs = [] := h.inputs_nil (core?_eq_some hn) hr
    exact ⟨hin, h.parents_nil hn hr⟩
  · rename_i hr
    have hr : n.retired = false := by simpa using hr
    refine ⟨h.arity_eq hn hr, fun y hy => ?_, fun p hp => ?_⟩
    · rw [← inputsOf_eq hn] at hy
      obtain ⟨c, hc, hcr⟩ := h.operand_live hy
      refine ⟨c, hc, hcr, ?_⟩
      rw [← parentsOf_eq hc, ← inputsOf_eq hn, h.matched]
    · rw [← parentsOf_eq hn, h.matched.mem_iff] at hp
      obtain ⟨m, hm, hx⟩ := exists_of_mem_inputsOf hp
      exact ⟨m, hm, hx⟩

/-- Nodes in topological order: operands stand further back. -/
inductive Settled (g : Graph) : List NodeId → Prop
  | nil : Settled g []
  | cons {x : NodeId} {done : List NodeId} (h : Settled g done)
      (hx : ∀ y ∈ g.inputsOf x, y ∈ done) : Settled g (x :: done)

theorem settled_of_foldlM {step : List NodeId → NodeId → Except Defect (List NodeId)}
    {l d d' : List NodeId}
    (hstep : ∀ d d', ∀ y ∈ l, g.Settled d → step d y = .ok d' → g.Settled d' ∧ d ⊆ d' ∧ y ∈ d')
    (hd : g.Settled d) (h : l.foldlM step d = .ok d') :
    g.Settled d' ∧ d ⊆ d' ∧ ∀ y ∈ l, y ∈ d' := by
  induction l generalizing d with
  | nil =>
    cases h
    exact ⟨hd, fun _ h => h, fun y hy => absurd hy List.not_mem_nil⟩
  | cons y l ih =>
    rw [List.foldlM_cons] at h
    cases hy : step d y with
    | error e =>
      rw [hy] at h
      cases h
    | ok d₁ =>
      rw [hy] at h
      obtain ⟨hs, hsub, hmem⟩ := hstep d d₁ y List.mem_cons_self hd hy
      obtain ⟨hs', hsub', hall⟩ :=
        ih (fun d d' z hz => hstep d d' z (List.mem_cons_of_mem y hz)) hs h
      exact ⟨hs', fun z hz => hsub' (hsub hz), List.forall_mem_cons.2 ⟨hsub' hmem, hall⟩⟩

/-- Exploring a node settles it and all it depends on. As the nodes of the path differ, the fuel
does not run out. -/
theorem explore_settled (hrange : ∀ {p c}, c ∈ g.inputsOf p → (0 : Int) ≤ c ∧ c < (g.size : Int))
    {fuel : Nat} {path done done' : List NodeId} {id : NodeId} (hpath : (id :: path).Nodup)
    (hin : ∀ x ∈ id :: path, (0 : Int) ≤ x ∧ x < (g.size : Int))
    (hfuel : g.size ≤ fuel + path.length) (hd : g.Settled done)
    (h : g.explore fuel path done id = .ok done') :
    g.Settled done' ∧ done ⊆ done' ∧ id ∈ done' := by
  induction fuel generalizing path done done' id with
  | zero =>
    have hlen := length_le_size hpath hin
    rw [List.length_cons] at hlen
    omega
  | succ fuel ih =>
    have hstep : ∀ d d', ∀ y ∈ g.inputsOf id, g.Settled d →
        (if y ∈ id :: path then .error (Defect.cycle g.name (g.label id) (g.label y))
          else if y ∈ d then .ok d else g.explore fuel (id :: path) d y) = .ok d' →
        g.Settled d' ∧ d ⊆ d' ∧ y ∈ d' := by
      intro d d' y hmem hd hy
      split at hy
      · cases hy
      · rename_i hnew
        split at hy
        · rename_i hdone
          cases hy
          exact ⟨hd, fun _ h => h, hdone⟩
        · refine ih (List.nodup_cons.2 ⟨hnew, hpath⟩) ?_ ?_ hd hy
          · exact List.forall_mem_cons.2 ⟨hrange hmem, hin⟩
          · rw [List.length_cons]
            omega
    unfold explore at h
    generalize hrun : List.foldlM (m := Except Defect) _ done (g.inputsOf id) = result at h
    cases result with
    | error e => cases h
    | ok d =>
      cases h
      obtain ⟨hs, hsub, hall⟩ := settled_of_foldlM hstep hd hrun
      exact ⟨.cons hs hall, fun z hz => List.mem_cons_of_mem id (hsub hz), List.mem_cons_self⟩

theorem Settled.exists_rank {done : List NodeId} (h : g.Settled done) :
    ∃ rank : NodeId → Nat, ∀ x ∈ done,
      rank x < done.length ∧ ∀ y ∈ g.inputsOf x, y ∈ done ∧ rank y < rank x := by
  induction h with
  | nil => exact ⟨fun _ => 0, fun x hx => absurd hx List.not_mem_nil⟩
  | @cons x done _ hx ih =>
    obtain ⟨rank, hrank⟩ := ih
    by_cases hmem : x ∈ done
    · refine ⟨rank, fun z hz => ?_⟩
      have hz : z ∈ done := by
        rcases List.mem_cons.1 hz with rfl | hz
        · exact hmem
        · exact hz
      obtain ⟨hlt, hops⟩ := hrank z hz
      rw [List.length_cons]
      exact ⟨by omega, fun y hy => ⟨List.mem_cons_of_mem x (hops y hy).1, (hops y hy).2⟩⟩
    · -- A new node gets a rank above all others.
      refine ⟨Function.update rank x done.length, fun z hz => ?_⟩
      have hold : ∀ y ∈ done, Function.update rank x done.length y = rank y := fun y hy =>
        Function.update_of_ne (show y ≠ x from fun he => hmem (he ▸ hy)) _ _
      rw [List.length_cons]
      rcases List.mem_cons.1 hz with rfl | hz
      · rw [Function.update_self]
        refine ⟨by omega, fun y hy => ⟨List.mem_cons_of_mem z (hx y hy), ?_⟩⟩
        rw [hold y (hx y hy)]
        exact (hrank y (hx y hy)).1
      · obtain ⟨hlt, hops⟩ := hrank z hz
        rw [hold z hz]
        refine ⟨by omega, fun y hy => ⟨List.mem_cons_of_mem x (hops y hy).1, ?_⟩⟩
        rw [hold y (hops y hy).1]
        exact (hops y hy).2

theorem exists_rank_of_checkAcyclic
    (hrange : ∀ {p c}, c ∈ g.inputsOf p → (0 : Int) ≤ c ∧ c < (g.size : Int))
    (h : g.checkAcyclic = .ok ()) :
    ∃ rank : NodeId → Nat, ∀ x, ∀ y ∈ g.inputsOf x, rank y < rank x := by
  have hstep : ∀ d d', ∀ y ∈ g.ids, g.Settled d →
      (if y ∈ d then .ok d else g.explore g.size [] d y) = .ok d' →
      g.Settled d' ∧ d ⊆ d' ∧ y ∈ d' := by
    intro d d' y hmem hd hy
    split at hy
    · rename_i hdone
      cases hy
      exact ⟨hd, fun _ h => h, hdone⟩
    · refine explore_settled hrange (by simp) (fun x hx => ?_) (by simp) hd hy
      rw [List.mem_singleton.1 hx]
      exact mem_ids.1 hmem
  unfold checkAcyclic at h
  generalize hrun : List.foldlM (m := Except Defect) _ [] g.ids = result at h
  cases result with
  | error e => cases h
  | ok done =>
    obtain ⟨hs, -, hall⟩ := settled_of_foldlM hstep .nil hrun
    obtain ⟨rank, hrank⟩ := hs.exists_rank
    refine ⟨rank, fun x y hy => ?_⟩
    obtain ⟨n, hn, -⟩ := exists_of_mem_inputsOf hy
    exact ((hrank x (hall x (mem_ids.2 (range_of_get? hn)))).2 y hy).2

theorem explore_ok {rank : NodeId → Nat} (hrank : ∀ x, ∀ y ∈ g.inputsOf x, rank y < rank x)
    {fuel : Nat} {path : List NodeId} (done : List NodeId) {id : NodeId}
    (hpath : ∀ p ∈ path, rank id < rank p) : ∃ done', g.explore fuel path done id = .ok done' := by
  induction fuel generalizing path done id with
  | zero => exact ⟨done, rfl⟩
  | succ fuel ih =>
    have hstep : ∀ d, ∀ y ∈ g.inputsOf id, ∃ d',
        (if y ∈ id :: path then .error (Defect.cycle g.name (g.label id) (g.label y))
          else if y ∈ d then .ok d else g.explore fuel (id :: path) d y) = .ok d' := by
      intro d y hy
      have hy := hrank id y hy
      have hbelow : ∀ p ∈ id :: path, rank y < rank p :=
        List.forall_mem_cons.2 ⟨hy, fun p hp => hy.trans (hpath p hp)⟩
      rw [if_neg fun hmem => lt_irrefl _ (hbelow y hmem)]
      by_cases hd : y ∈ d
      · exact ⟨d, if_pos hd⟩
      · rw [if_neg hd]
        exact ih d hbelow
    obtain ⟨d, hd⟩ := Outcome.foldlM_ok hstep done
    unfold explore
    rw [hd]
    exact ⟨_, rfl⟩

theorem checkAcyclic_ok {rank : NodeId → Nat} (hrank : ∀ x, ∀ y ∈ g.inputsOf x, rank y < rank x) :
    g.checkAcyclic = .ok () := by
  have hstep : ∀ d, ∀ y ∈ g.ids, ∃ d',
      (if y ∈ d then .ok d else g.explore g.size [] d y) = .ok d' := by
    intro d y _
    by_cases hd : y ∈ d
    · exact ⟨d, if_pos hd⟩
    · rw [if_neg hd]
      exact explore_ok hrank d fun p hp => absurd hp List.not_mem_nil
  obtain ⟨d, hd⟩ := Outcome.foldlM_ok hstep []
  unfold checkAcyclic
  rw [hd]
  rfl

theorem Linked.ranked_iff (h : g.Linked) {rank : NodeId → Nat} :
    g.plan.Ranked rank ↔ ∀ x, ∀ y ∈ g.inputsOf x, rank y < rank x := by
  constructor
  · intro hr x y hy
    obtain ⟨n, hn, hnr⟩ := h.user_live hy
    rw [inputsOf_eq hn] at hy
    exact hr (plan_eq_some hn hnr) hy
  · intro hr x i y hx hy
    rw [← inputsOf_of_plan hx] at hy
    exact hr x y hy

theorem check_eq_ok_iff : g.check = .ok () ↔ g.Linked ∧ g.plan.Acyclic := by
  have hcheck : g.check = .ok () ↔ g.checkNodes = .ok () ∧ g.checkAcyclic = .ok () := by
    unfold check
    cases g.checkNodes with
    | error e => exact ⟨nofun, fun h => nomatch h.1⟩
    | ok u => exact ⟨fun h => ⟨rfl, h⟩, fun h => h.2⟩
  rw [hcheck, checkNodes_eq_ok_iff_consistent]
  constructor
  · rintro ⟨hnodes, hacyclic⟩
    have hrange : ∀ {p c}, c ∈ g.inputsOf p → (0 : Int) ≤ c ∧ c < (g.size : Int) := by
      intro p c hc
      obtain ⟨n, hn, hcn⟩ := exists_of_mem_inputsOf hc
      exact hnodes.inRange hn (.inl hcn)
    obtain ⟨rank, hrank⟩ := exists_rank_of_checkAcyclic hrange hacyclic
    have hl := hnodes.linked fun p hp => lt_irrefl _ (hrank p p hp)
    exact ⟨hl, rank, hl.ranked_iff.2 hrank⟩
  · rintro ⟨hl, rank, hrank⟩
    exact ⟨consistent_of_checked fun x n hn => hl.checked hn,
      checkAcyclic_ok (hl.ranked_iff.1 hrank)⟩

/-- Edges are consistent and nothing depends on itself. Sizes may be out of date. -/
structure Ordered (g : Graph) : Prop extends Linked g where
  acyclic : g.plan.Acyclic

theorem check_eq_ok_iff_ordered : g.check = .ok () ↔ g.Ordered :=
  check_eq_ok_iff.trans ⟨fun h => ⟨h.1, h.2⟩, fun h => ⟨h.toLinked, h.acyclic⟩⟩

def lower (g : Graph) (rank : NodeId → Nat) (x : NodeId) : Finset NodeId :=
  g.ids.toFinset.filter fun y => rank y < rank x

theorem card_lower_le (g : Graph) (rank : NodeId → Nat) (x : NodeId) :
    (g.lower rank x).card ≤ g.size := by
  have hle := (Finset.card_filter_le g.ids.toFinset fun y => rank y < rank x).trans
    g.ids.toFinset_card_le
  rwa [length_ids] at hle

theorem card_lower_lt {rank : NodeId → Nat} {x y : NodeId} (hy : y ∈ g.ids)
    (hlt : rank y < rank x) : (g.lower rank y).card < (g.lower rank x).card := by
  refine Finset.card_lt_card (Finset.ssubset_iff_of_subset ?_ |>.2 ⟨y, ?_, ?_⟩)
  · intro z hz
    obtain ⟨hz, hzy⟩ := Finset.mem_filter.1 hz
    exact Finset.mem_filter.2 ⟨hz, hzy.trans hlt⟩
  · exact Finset.mem_filter.2 ⟨List.mem_toFinset.2 hy, hlt⟩
  · simp [lower]

theorem exists_rank_lt_size (h : g.plan.Acyclic) (hc : g.plan.Closed) :
    ∃ rank : NodeId → Nat, g.plan.Ranked rank ∧
      ∀ {x i}, g.plan x = some i → rank x < g.size := by
  obtain ⟨rank, hrank⟩ := h
  have hmem : ∀ {x i}, g.plan x = some i → x ∈ g.ids := fun hx => mem_ids.2 (range_of_plan hx)
  refine ⟨fun x => (g.lower rank x).card, ?_, ?_⟩
  · intro x i y hx hy
    obtain ⟨j, hj⟩ := hc hx y hy
    exact card_lower_lt (hmem hj) (hrank hx hy)
  · intro x i hx
    have hlt : (g.lower rank x).card < g.ids.toFinset.card := by
      refine Finset.card_lt_card (Finset.ssubset_iff_of_subset (Finset.filter_subset _ _) |>.2
        ⟨x, List.mem_toFinset.2 (hmem hx), ?_⟩)
      simp
    have hle := g.ids.toFinset_card_le
    rw [length_ids] at hle
    exact hlt.trans_le hle

end Graph
end LinearPlan
