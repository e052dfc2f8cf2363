import LinearPlan.Eval.Graph
import LinearPlan.Proofs.Validity
import Mathlib.Order.Lattice.Nat

/-!
# Values of nodes

`Graph.HasValue` relates a node with its value, whatever the depth of the recursion that finds it.
A node has at most one value. In a graph without cycles the plain recursion finds every value at the
depth it is given, and so does the evaluation that keeps the values it has found: its memo holds
values of nodes and nothing else.
-/
namespace LinearPlan

namespace Outcome
variable {ε α β : Type}

theorem mapM_eq_ok_iff {f : α → Except ε β} {l : List α} {vs : List β} :
    l.mapM f = .ok vs ↔ List.Forall₂ (fun a b => f a = .ok b) l vs := by
  induction l generalizing vs with
  | nil =>
    rw [List.mapM_nil, List.forall₂_nil_left_iff]
    exact ⟨fun h => (Except.ok.inj h).symm, fun h => congrArg Except.ok h.symm⟩
  | cons a l ih =>
    simp only [List.mapM_cons, bind_eq_ok_iff, ih, List.forall₂_cons_left_iff]
    constructor
    · rintro ⟨b, hb, bs, hbs, h⟩
      exact ⟨b, bs, hb, hbs, (Except.ok.inj h).symm⟩
    · rintro ⟨b, bs, hb, hbs, rfl⟩
      exact ⟨b, hb, bs, hbs, rfl⟩

theorem exists_of_forall₂_left {R : α → β → Prop} {l : List α} {us : List β}
    (h : List.Forall₂ R l us) {a : α} (ha : a ∈ l) : ∃ u ∈ us, R a u := by
  induction h with
  | nil => cases ha
  | cons hb _ ih =>
    rcases List.mem_cons.1 ha with rfl | ha
    · exact ⟨_, List.mem_cons_self, hb⟩
    · obtain ⟨u, hu, hR⟩ := ih ha
      exact ⟨u, List.mem_cons_of_mem _ hu, hR⟩

theorem exists_of_forall₂_right {R : α → β → Prop} {l : List α} {us : List β}
    (h : List.Forall₂ R l us) {u : β} (hu : u ∈ us) : ∃ a ∈ l, R a u :=
  exists_of_forall₂_left h.flip hu

end Outcome

namespace Graph
variable {α : Type} [Element α] {g g' : Graph} {inputs : Inputs α}
  {x : NodeId} {v w : Value α}

def HasValue (g : Graph) (inputs : Inputs α) (x : NodeId) (v : Value α) : Prop :=
  ∃ fuel, g.valueAt inputs fuel x = .ok v

omit [Element α] in
theorem evalNode_eq_ok_iff {n : Node} :
    (g.evalNode x : Except (EvalFault α) Node) = .ok n ↔ g.get? x = some n ∧ n.retired = false := by
  unfold evalNode node
  cases hx : g.get? x with
  | none => simp
  | some m =>
    by_cases hm : m.retired = true
    · simp only [hm, if_true, Option.some.injEq]
      constructor
      · intro h
        cases h
      · rintro ⟨rfl, hr⟩
        simp [hm] at hr
    · simp only [hm, Bool.false_eq_true, if_false, Except.ok.injEq, Option.some.injEq]
      constructor
      · rintro rfl
        exact ⟨rfl, by simpa using hm⟩
      · exact fun h => h.1

theorem valueAt_succ_eq_ok_iff {fuel : Nat} :
    g.valueAt inputs (fuel + 1) x = .ok v ↔ ∃ n vs, g.get? x = some n ∧ n.retired = false ∧
      List.Forall₂ (fun y u => g.valueAt inputs fuel y = .ok u) n.inputs vs ∧
      Eval.apply inputs ⟨x, n.op⟩ n.shape vs = .ok v := by
  simp only [valueAt, Outcome.bind_eq_ok_iff, evalNode_eq_ok_iff, Outcome.mapM_eq_ok_iff]
  constructor
  · rintro ⟨n, ⟨hn, hr⟩, vs, hvs, happ⟩
    exact ⟨n, vs, hn, hr, hvs, happ⟩
  · rintro ⟨n, vs, hn, hr, hvs, happ⟩
    exact ⟨n, ⟨hn, hr⟩, vs, hvs, happ⟩

theorem valueAt_mono {fuel fuel' : Nat} (hle : fuel ≤ fuel') (h : g.valueAt inputs fuel x = .ok v) :
    g.valueAt inputs fuel' x = .ok v := by
  induction fuel generalizing fuel' x v with
  | zero => cases h
  | succ fuel ih =>
    obtain ⟨k, rfl⟩ : ∃ k, fuel' = k + 1 := ⟨fuel' - 1, by omega⟩
    obtain ⟨n, vs, hn, hr, hvs, happ⟩ := valueAt_succ_eq_ok_iff.1 h
    refine valueAt_succ_eq_ok_iff.2 ⟨n, vs, hn, hr, ?_, happ⟩
    exact hvs.imp fun _ _ hy => ih (by omega) hy

theorem HasValue.unique (h : g.HasValue inputs x v) (h' : g.HasValue inputs x w) : v = w := by
  obtain ⟨k, hk⟩ := h
  obtain ⟨k', hk'⟩ := h'
  have hv := valueAt_mono (le_max_left k k') hk
  rw [valueAt_mono (le_max_right k k') hk'] at hv
  exact (Except.ok.inj hv).symm

theorem exists_fuel_of_forall₂ {l : List NodeId} {vs : List (Value α)}
    (h : List.Forall₂ (g.HasValue inputs) l vs) :
    ∃ fuel, List.Forall₂ (fun y u => g.valueAt inputs fuel y = .ok u) l vs := by
  induction h with
  | nil => exact ⟨0, .nil⟩
  | cons hy _ ih =>
    obtain ⟨k, hk⟩ := hy
    obtain ⟨k', hk'⟩ := ih
    refine ⟨max k k', .cons (valueAt_mono (le_max_left k k') hk) ?_⟩
    exact hk'.imp fun _ _ hy => valueAt_mono (le_max_right k k') hy

theorem hasValue_iff : g.HasValue inputs x v ↔ ∃ n vs, g.get? x = some n ∧ n.retired = false ∧
    List.Forall₂ (g.HasValue inputs) n.inputs vs ∧
    Eval.apply inputs ⟨x, n.op⟩ n.shape vs = .ok v := by
  constructor
  · rintro ⟨_ | fuel, h⟩
    · cases h
    · obtain ⟨n, vs, hn, hr, hvs, happ⟩ := valueAt_succ_eq_ok_iff.1 h
      exact ⟨n, vs, hn, hr, hvs.imp fun _ _ hy => ⟨fuel, hy⟩, happ⟩
  · rintro ⟨n, vs, hn, hr, hvs, happ⟩
    obtain ⟨fuel, hfuel⟩ := exists_fuel_of_forall₂ hvs
    exact ⟨fuel + 1, valueAt_succ_eq_ok_iff.2 ⟨n, vs, hn, hr, hfuel, happ⟩⟩

theorem HasValue.induct {motive : NodeId → Value α → Prop}
    (step : ∀ {x n vs v}, g.get? x = some n → n.retired = false →
      List.Forall₂ (g.HasValue inputs) n.inputs vs → List.Forall₂ motive n.inputs vs →
      Eval.apply inputs ⟨x, n.op⟩ n.shape vs = .ok v → motive x v)
    (h : g.HasValue inputs x v) : motive x v := by
  obtain ⟨fuel, h⟩ := h
  induction fuel generalizing x v with
  | zero => cases h
  | succ fuel ih =>
    obtain ⟨n, vs, hn, hr, hvs, happ⟩ := valueAt_succ_eq_ok_iff.1 h
    exact step hn hr (hvs.imp fun _ _ hy => ⟨fuel, hy⟩) (hvs.imp fun _ _ hy => ih hy) happ

theorem valueAt_of_core {fuel : Nat} (hc : ∀ {y n}, g.core? y = some n → g'.core? y = some n)
    (h : g.valueAt inputs fuel x = .ok v) : g'.valueAt inputs fuel x = .ok v := by
  induction fuel generalizing x v with
  | zero => cases h
  | succ fuel ih =>
    obtain ⟨n, vs, hn, hr, hvs, happ⟩ := valueAt_succ_eq_ok_iff.1 h
    obtain ⟨n', hn', hcore⟩ := get?_of_core? (hc (core?_eq_some hn))
    obtain ⟨op, inputs, parents, shape, blocks, retired⟩ := n
    obtain ⟨op', inputs', parents', shape', blocks', retired'⟩ := n'
    cases hcore
    exact valueAt_succ_eq_ok_iff.2 ⟨_, vs, hn', hr, hvs.imp fun _ _ hy => ih hy, happ⟩

/-- `Graph.value` is deep enough when operands have lower ranks: of the nodes with a lower rank, no
more than all are on a path. -/
theorem value_of_rank (rank : NodeId → Nat)
    (hrank : ∀ {y n u}, g.get? y = some n → n.retired = false → g.HasValue inputs y u →
      ∀ z ∈ n.inputs, rank z < rank y) (h : g.HasValue inputs x v) : g.value inputs x = .ok v := by
  have hdepth : g.valueAt inputs ((g.lower rank x).card + 1) x = .ok v := by
    refine h.induct (motive := fun x v => g.valueAt inputs ((g.lower rank x).card + 1) x = .ok v)
      fun {x n vs v} hn hr hval hvs happ => ?_
    refine valueAt_succ_eq_ok_iff.2 ⟨n, vs, hn, hr, ?_, happ⟩
    have hx : g.HasValue inputs x v := hasValue_iff.2 ⟨n, vs, hn, hr, hval, happ⟩
    have hlow := (List.forall₂_and_left n.inputs vs).2 ⟨hrank hn hr hx, hval⟩
    refine List.Forall₂.mp (fun y u ⟨hlt, hyval⟩ hdeep => ?_) hlow hvs
    obtain ⟨m, -, hm, -⟩ := hasValue_iff.1 hyval
    exact valueAt_mono (card_lower_lt (mem_ids.2 (range_of_get? hm)) hlt) hdeep
  exact valueAt_mono (Nat.succ_le_succ (card_lower_le g rank x)) hdepth

theorem value_eq_ok_iff (ha : g.plan.Acyclic) : g.value inputs x = .ok v ↔ g.HasValue inputs x v := by
  obtain ⟨rank, hrank⟩ := ha
  exact ⟨fun h => ⟨_, h⟩, value_of_rank rank fun hn hr _ _ hz => hrank (plan_eq_some hn hr) hz⟩

theorem HasValue.value_eq (h : g.HasValue inputs x v) : g.value inputs x = .ok v := by
  let depth : NodeId → Nat := fun y => sInf {k | ∃ u, g.valueAt inputs k y = .ok u}
  refine value_of_rank depth (fun {y n u} hn hr hy z hz => ?_) h
  obtain ⟨fuel, hfuel⟩ := hy
  obtain ⟨w, hw⟩ : ∃ w, g.valueAt inputs (depth y) y = .ok w :=
    Nat.sInf_mem (s := {k | ∃ u, g.valueAt inputs k y = .ok u}) ⟨fuel, u, hfuel⟩
  cases hd : depth y with
  | zero =>
    rw [hd] at hw
    cases hw
  | succ k =>
    rw [hd] at hw
    obtain ⟨m, vs, hm, -, hvs, -⟩ := valueAt_succ_eq_ok_iff.1 hw
    rw [hn] at hm
    cases hm
    obtain ⟨t, -, ht⟩ := Outcome.exists_of_forall₂_left hvs hz
    exact Nat.lt_succ_of_le (Nat.sInf_le ⟨t, ht⟩)

def Memo.Holds (memo : Memo α) (g : Graph) (inputs : Inputs α) : Prop :=
  ∀ y u, memo.find? y = some u → g.HasValue inputs y u

theorem Memo.holds_replicate (n : Nat) :
    Memo.Holds (Array.replicate n none : Memo α) g inputs := by
  intro y u h
  unfold Memo.find? at h
  split at h
  · rw [Array.getElem?_replicate] at h
    split at h <;> cases h
  · cases h

theorem Memo.Holds.store {memo : Memo α} (h : memo.Holds g inputs) (hx : 0 ≤ x)
    (hv : g.HasValue inputs x v) : (memo.store x v).Holds g inputs := by
  intro y u hy
  unfold Memo.find? Memo.store at hy
  split at hy
  · rename_i h0
    rw [Array.getElem?_setIfInBounds] at hy
    split at hy
    · rename_i he
      obtain rfl : x = y := by
        rw [← Int.toNat_of_nonneg hx, he, Int.toNat_of_nonneg h0]
      split at hy
      · cases hy
        exact hv
      · cases hy
    · exact h y u (by rwa [Memo.find?, if_pos h0])
  · cases hy

section Shared
variable {step : Memo α → NodeId → Except (EvalFault α) (Value α × Memo α)} {C : Memo α → Prop}
  {R : NodeId → Value α → Prop} {memo memo' : Memo α} {l : List NodeId} {vs : List (Value α)}

omit [Element α] in
theorem sharedAll_sound
    (h : sharedAll step memo l = .ok (vs, memo')) (hm : C memo)
    (hstep : ∀ memo y u memo', C memo → step memo y = .ok (u, memo') → R y u ∧ C memo') :
    List.Forall₂ R l vs ∧ C memo' := by
  induction l generalizing memo vs with
  | nil =>
    cases h
    exact ⟨.nil, hm⟩
  | cons y l ih =>
    obtain ⟨⟨u, memo₁⟩, hy, h⟩ := Outcome.bind_eq_ok_iff.1 h
    obtain ⟨⟨us, memo₂⟩, hl, h⟩ := Outcome.bind_eq_ok_iff.1 h
    cases h
    obtain ⟨hR, hm₁⟩ := hstep _ _ _ _ hm hy
    obtain ⟨hall, hm₂⟩ := ih hl hm₁
    exact ⟨.cons hR hall, hm₂⟩

omit [Element α] in
theorem sharedAll_complete
    (h : List.Forall₂ R l vs) (hm : C memo)
    (hstep : ∀ memo y u, C memo → R y u → ∃ memo', step memo y = .ok (u, memo') ∧ C memo') :
    ∃ memo', sharedAll step memo l = .ok (vs, memo') ∧ C memo' := by
  induction h generalizing memo with
  | nil => exact ⟨memo, rfl, hm⟩
  | cons hy _ ih =>
    obtain ⟨memo₁, hrun, hm₁⟩ := hstep _ _ _ hm hy
    obtain ⟨memo₂, hall, hm₂⟩ := ih hm₁
    refine ⟨memo₂, Outcome.bind_eq_ok_iff.2 ⟨_, hrun, ?_⟩, hm₂⟩
    exact Outcome.bind_eq_ok_iff.2 ⟨_, hall, rfl⟩

end Shared

theorem sharedAt_sound {fuel : Nat} {memo memo' : Memo α} (hm : memo.Holds g inputs)
    (h : g.sharedAt inputs fuel memo x = .ok (v, memo')) :
    g.HasValue inputs x v ∧ memo'.Holds g inputs := by
  induction fuel generalizing memo memo' x v with
  | zero => cases h
  | succ fuel ih =>
    unfold sharedAt at h
    cases hx : memo.find? x with
    | some u =>
      simp only [hx] at h
      cases h
      exact ⟨hm x _ hx, hm⟩
    | none =>
      simp only [hx] at h
      obtain ⟨n, hn, h⟩ := Outcome.bind_eq_ok_iff.1 h
      obtain ⟨⟨vs, memo₁⟩, hops, h⟩ := Outcome.bind_eq_ok_iff.1 h
      obtain ⟨u, happ, h⟩ := Outcome.bind_eq_ok_iff.1 h
      cases h
      obtain ⟨hget, hr⟩ := evalNode_eq_ok_iff.1 hn
      obtain ⟨hall, hm₁⟩ :=
        sharedAll_sound (C := (Memo.Holds · g inputs)) hops hm fun _ _ _ _ hC hy => ih hC hy
      have hval : g.HasValue inputs x v := hasValue_iff.2 ⟨n, vs, hget, hr, hall, happ⟩
      exact ⟨hval, hm₁.store (range_of_get? hget).1 hval⟩

theorem sharedAt_complete {fuel : Nat} {memo : Memo α} (hm : memo.Holds g inputs)
    (h : g.valueAt inputs fuel x = .ok v) :
    ∃ memo', g.sharedAt inputs fuel memo x = .ok (v, memo') ∧ memo'.Holds g inputs := by
  induction fuel generalizing memo x v with
  | zero => cases h
  | succ fuel ih =>
    unfold sharedAt
    cases hx : memo.find? x with
    | some u =>
      obtain rfl := (hm x u hx).unique ⟨_, h⟩
      exact ⟨memo, rfl, hm⟩
    | none =>
      obtain ⟨n, vs, hget, hr, hvs, happ⟩ := valueAt_succ_eq_ok_iff.1 h
      obtain ⟨memo₁, hops, hm₁⟩ :=
        sharedAll_complete (C := (Memo.Holds · g inputs)) hvs hm fun _ _ _ hC hy => ih hC hy
      refine ⟨memo₁.store x v, ?_, hm₁.store (range_of_get? hget).1 ⟨_, h⟩⟩
      refine Outcome.bind_eq_ok_iff.2 ⟨n, evalNode_eq_ok_iff.2 ⟨hget, hr⟩, ?_⟩
      refine Outcome.bind_eq_ok_iff.2 ⟨_, hops, ?_⟩
      exact Outcome.bind_eq_ok_iff.2 ⟨v, happ, rfl⟩

theorem hasValue_of_evaluate {roots : List NodeId} {vs : List (Value α)}
    (h : g.evaluate inputs roots = .ok vs) : List.Forall₂ (g.HasValue inputs) roots vs := by
  obtain ⟨⟨us, memo⟩, hall, h⟩ := Outcome.bind_eq_ok_iff.1 h
  cases h
  exact (sharedAll_sound (C := (Memo.Holds · g inputs)) hall (Memo.holds_replicate g.size)
    fun _ _ _ _ hC hy => sharedAt_sound hC hy).1

theorem evaluate_of_value {roots : List NodeId} {vs : List (Value α)}
    (h : List.Forall₂ (fun x v => g.value inputs x = .ok v) roots vs) :
    g.evaluate inputs roots = .ok vs := by
  obtain ⟨memo, hall, -⟩ := sharedAll_complete (C := (Memo.Holds · g inputs)) h
    (Memo.holds_replicate g.size) fun _ _ _ hC hy => sharedAt_complete hC hy
  exact Outcome.bind_eq_ok_iff.2 ⟨_, hall, rfl⟩

theorem evaluate_eq_ok_iff (ha : g.plan.Acyclic) {roots : List NodeId} {vs : List (Value α)} :
    g.evaluate inputs roots = .ok vs ↔ List.Forall₂ (g.HasValue inputs) roots vs :=
  ⟨hasValue_of_evaluate, fun h => evaluate_of_value (h.imp fun _ _ hy => (value_eq_ok_iff ha).2 hy)⟩

theorem evaluate_singleton_iff (ha : g.plan.Acyclic) :
    g.evaluate inputs [x] = .ok [v] ↔ g.HasValue inputs x v := by
  rw [evaluate_eq_ok_iff ha, List.forall₂_cons, and_iff_left List.Forall₂.nil]

end Graph
end LinearPlan
