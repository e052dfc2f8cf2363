import LinearPlan.Proofs.ProductValues
import LinearPlan.Proofs.SliceValues
import LinearPlan.Proofs.Steps
import LinearPlan.Proofs.ValueShapes

/-!
# Values along a step

A step of a pass keeps values: the new node has the value of the one it replaces, and all nodes that
are kept have the values they had. This is so for a set of nodes that have values and that contains
the operands of its members; for slices flags have to be right as well. Nothing is said about nodes
without values: a merged chain may have a value that the chain before it did not have.
-/
namespace LinearPlan

namespace Eval
variable {α : Type} {node : NodeRef} {s : Shape} {v : Value α}

theorem data_of_not_numeric (hs : ¬ s.profile.Numeric) : data node s (some v) = .ok v := by
  unfold Shape.profile at hs
  unfold data
  cases hd : s.dataType <;> simp only [hd, Profile.Numeric, not_true_eq_false] at hs ⊢

theorem apply_of_profile [Element α] {inputs : Inputs α} {x : NodeId} {op : Op}
    {s' : Shape} {vs : List (Value α)} (hp : op = .data op.name → s'.profile = s.profile)
    (h : apply inputs ⟨x, op⟩ s vs = .ok v) : apply inputs ⟨x, op⟩ s' vs = .ok v := by
  cases op with
  | data name =>
    have hp := hp rfl
    have hv := eq_some_of_data (show data ⟨x, .data name⟩ s (inputs name) = .ok v from h)
    show data ⟨x, .data name⟩ s' (inputs name) = .ok v
    by_cases hn : s.profile.Numeric
    · rw [data_eq_ok_iff (hp ▸ hn), hp]
      exact (data_eq_ok_iff hn).1 h
    · rw [hv]
      exact data_of_not_numeric (hp ▸ hn)
  | _ =>
    -- How many operands there are decides whether the operation is defined.
    rcases vs with _ | ⟨_, _ | ⟨_, _ | ⟨_, _ | ⟨_, _ | ⟨_, _ | ⟨_, _⟩⟩⟩⟩⟩⟩ <;> exact h

end Eval

def Item.IsNumeric (i : Item) : Prop := i.op = .data i.op.name → i.profile.Numeric

theorem Item.isNumeric_of_op {i : Item} {op : Op} (hop : i.op = op)
    (hne : op ≠ .data op.name) : i.IsNumeric := fun h => absurd (hop ▸ h) hne

namespace Graph
variable {α : Type} [Element α] {g g' : Graph} {inputs : Inputs α} {D : NodeId → Prop}
  {x : NodeId} {i : Item} {v : Value α}

structure Evaluated (g : Graph) (inputs : Inputs α) (D : NodeId → Prop) : Prop where
  value : ∀ x, D x → ∃ v, g.HasValue inputs x v
  closed : ∀ x i, D x → g.plan x = some i → ∀ y ∈ i.inputs, D y

/-- Nodes that have values, with their operands. Bounds that are flagged as equal are equal. -/
structure Valued (g : Graph) (inputs : Inputs α) (D : NodeId → Prop) : Prop extends
    Evaluated g inputs D where
  honest : ∀ x i vs, D x → g.plan x = some i →
    List.Forall₂ (g.HasValue inputs) i.inputs vs → i.op.Honest vs
  numeric : ∀ x i, D x → g.plan x = some i → i.IsNumeric

theorem HasValue.item (h : g.HasValue inputs x v) : ∃ i, g.plan x = some i := by
  obtain ⟨n, -, hn, hr, -⟩ := hasValue_iff.1 h
  exact ⟨_, plan_eq_some hn hr⟩

theorem hasValue_of_item (vs : List (Value α)) {s : Shape} (hx : g.plan x = some i)
    (hvs : List.Forall₂ (g.HasValue inputs) i.inputs vs)
    (hs : i.op = .data i.op.name → s.profile = i.profile)
    (h : Eval.apply inputs ⟨x, i.op⟩ s vs = .ok v) : g.HasValue inputs x v := by
  obtain ⟨n, hget, hr, rfl⟩ := get?_of_plan hx
  exact hasValue_iff.2 ⟨n, vs, hget, hr, hvs, Eval.apply_of_profile (fun hop => (hs hop).symm) h⟩

theorem HasValue.apply (h : g.HasValue inputs x v) (hx : g.plan x = some i) :
    ∃ vs s, List.Forall₂ (g.HasValue inputs) i.inputs vs ∧ s.profile = i.profile ∧
      Eval.apply inputs ⟨x, i.op⟩ s vs = .ok v := by
  obtain ⟨n, vs, hn, hr, hvs, happ⟩ := hasValue_iff.1 h
  rw [plan_eq_some hn hr] at hx
  cases hx
  exact ⟨vs, n.shape, hvs, rfl, happ⟩

theorem forall₂_hasValue_unique {l : List NodeId} {us vs : List (Value α)}
    (h : List.Forall₂ (g.HasValue inputs) l us) (h' : List.Forall₂ (g.HasValue inputs) l vs) :
    us = vs := by
  induction h generalizing vs with
  | nil =>
    cases h'
    rfl
  | cons hy _ ih =>
    cases h' with
    | cons hy' hrest => rw [hy.unique hy', ih hrest]

theorem evaluated (g : Graph) (inputs : Inputs α) :
    g.Evaluated inputs fun x => ∃ v, g.HasValue inputs x v where
  value _ hx := hx
  closed x i hx hi y hy := by
    obtain ⟨v, hv⟩ := hx
    obtain ⟨vs, -, hvs, -⟩ := hv.apply hi
    obtain ⟨u, -, hu⟩ := Outcome.exists_of_forall₂_left hvs hy
    exact ⟨u, hu⟩

theorem Valued.describes (hD : g.Valued inputs D) (hs : g.plan.Sized) (hl : g.ReadsLiterals α)
    {n : Nat} (hn : 1 < n) (hle : n ≤ 2 ^ 63) (hin : ∀ name u, inputs name = some u → u.Within n)
    (h : g.HasValue inputs x v) (hx : D x) (hi : g.plan x = some i) :
    i.Describes v ∧ v.Within n := by
  refine h.induct (motive := fun x v => D x → ∀ i, g.plan x = some i → i.Describes v ∧ v.Within n)
    (fun {x n' vs v} hget hr hval hvs happ hx i hi => ?_) hx i hi
  have hitem := plan_eq_some hget hr
  rw [hi] at hitem
  cases hitem
  have hops : List.Forall₂ (fun j u => j.Describes u ∧ u.Within n) (g.plan.operands n'.item) vs := by
    have hmem := (List.forall₂_and_left n'.inputs vs).2
      ⟨fun y hy => hD.closed x _ hx hi y hy, hval⟩
    refine forall₂_filterMap (List.Forall₂.mp (fun y u ⟨hDy, hyval⟩ hy => ?_) hmem hvs)
    obtain ⟨j, hj⟩ := hyval.item
    exact ⟨j, hj, hy hDy j hj⟩
  exact Eval.describes_apply hn hle hin (hs hi) hops (hD.honest x _ vs hx hi hval)
    (fun hop => ⟨rfl, hD.numeric x _ hx hi hop⟩) (fun value hop => hl x n' value hget hop) happ

end Graph

namespace Optimizer
open LinearPlan.Graph Factoring Slicing
variable {α : Type} [Element α] {g g' : Graph} {inputs : Inputs α}
  {D C : NodeId → Prop} {id root x : NodeId} {v : Value α}

def Carries (g g' : Graph) (inputs : Inputs α) (D C : NodeId → Prop) (x : NodeId) :
    Prop :=
  D x → ¬ C x → ∀ v, g.HasValue inputs x v → g'.HasValue inputs x v

namespace Rework

theorem carried_operands (h : Rework g id root C g') (hD : g.Evaluated inputs D) {i : Item}
    (hi : g.plan x = some i) (hx : D x) (hC : ¬ C x)
    (hcarry : ∀ y ∈ i.inputs, y ≠ id → Carries g g' inputs D C y)
    (hroot : id ∈ i.inputs → ∀ v, g.HasValue inputs id v → g'.HasValue inputs root v)
    {vs : List (Value α)} (hvs : List.Forall₂ (g.HasValue inputs) i.inputs vs) :
    List.Forall₂ (g'.HasValue inputs) (i.subst id root).inputs vs := by
  refine List.forall₂_map_left_iff.2 ?_
  have hmem := (List.forall₂_and_left i.inputs vs).2 ⟨fun y hy => hy, hvs⟩
  refine hmem.imp fun y u ⟨hy, hu⟩ => ?_
  by_cases hyid : y = id
  · subst hyid
    rw [if_pos rfl]
    exact hroot hy u hu
  · rw [if_neg hyid]
    exact hcarry y hy hyid (hD.closed x i hx hi y hy) (fun hCy => hC (h.users hCy hyid hi hy)) u hu

theorem carries (h : Rework g id root C g') (hD : g.Evaluated inputs D) {rank : NodeId → Nat}
    (hrank : g.plan.Ranked rank)
    (hroot : (∀ y, rank y < rank id → Carries g g' inputs D C y) → D id → ∀ v,
      g.HasValue inputs id v → g'.HasValue inputs root v) (x : NodeId) :
    Carries g g' inputs D C x := by
  induction hk : rank x using Nat.strong_induction_on generalizing x with
  | _ k ih =>
    subst hk
    intro hx hC v hv
    obtain ⟨i, hi⟩ := hv.item
    obtain ⟨vs, s, hvs, hs, happ⟩ := hv.apply hi
    have hops : List.Forall₂ (g'.HasValue inputs) (i.subst id root).inputs vs := by
      refine h.carried_operands hD hi hx hC (fun y hy _ => ih _ (hrank hi hy) y rfl) ?_ hvs
      intro hid
      exact hroot (fun y hy => ih _ (hy.trans (hrank hi hid)) y rfl) (hD.closed x i hx hi id hid)
    exact hasValue_of_item vs (h.kept_item hi hC) hops (fun _ => hs) happ

end Rework

namespace Step

theorem valued (h : Step g id root C g') (hD : g.Valued inputs D) {N : NodeId → Prop}
    (hcarry : ∀ x, Carries g g' inputs D C x)
    (hroot : D id → ∀ v, g.HasValue inputs id v → g'.HasValue inputs root v) (hN : D id → N root)
    (hnew : D id → ∀ x, N x → (∃ v, g'.HasValue inputs x v) ∧ ∀ i, g'.plan x = some i →
      (∀ y ∈ i.inputs, (D y ∧ ¬ C y) ∨ N y) ∧ i.IsNumeric ∧
      ∀ vs, List.Forall₂ (g'.HasValue inputs) i.inputs vs → i.op.Honest vs) :
    g'.Valued inputs fun x => (D x ∧ ¬ C x) ∨ (D id ∧ N x) := by
  refine ⟨⟨?_, ?_⟩, ?_, ?_⟩
  · rintro x (⟨hx, hC⟩ | ⟨hid, hx⟩)
    · obtain ⟨v, hv⟩ := hD.value x hx
      exact ⟨v, hcarry x hx hC v hv⟩
    · exact (hnew hid x hx).1
  · rintro x j (⟨hx, hC⟩ | ⟨hid, hx⟩) hj y hy
    · obtain ⟨v, hv⟩ := hD.value x hx
      obtain ⟨i, hi⟩ := hv.item
      rw [h.rework.kept_item hi hC] at hj
      cases hj
      rcases Item.mem_subst.1 hy with ⟨hy, hne⟩ | ⟨rfl, hmem⟩
      · exact .inl ⟨hD.closed x i hx hi y hy, fun hCy => hC (h.rework.users hCy hne hi hy)⟩
      · have hid := hD.closed x i hx hi id hmem
        exact .inr ⟨hid, hN hid⟩
    · exact (((hnew hid x hx).2 j hj).1 y hy).imp_right fun hN => ⟨hid, hN⟩
  · rintro x j vs (⟨hx, hC⟩ | ⟨hid, hx⟩) hj hvs
    · obtain ⟨v, hv⟩ := hD.value x hx
      obtain ⟨i, hi⟩ := hv.item
      obtain ⟨us, -, hus, -⟩ := hv.apply hi
      rw [h.rework.kept_item hi hC] at hj
      cases hj
      have hops := h.rework.carried_operands hD.toEvaluated hi hx hC (fun y _ _ => hcarry y)
        (fun hmem => hroot (hD.closed x i hx hi id hmem)) hus
      rw [← forall₂_hasValue_unique hops hvs]
      exact hD.honest x i us hx hi hus
    · exact ((hnew hid x hx).2 j hj).2.2 vs hvs
  · rintro x j (⟨hx, hC⟩ | ⟨hid, hx⟩) hj
    · obtain ⟨v, hv⟩ := hD.value x hx
      obtain ⟨i, hi⟩ := hv.item
      rw [h.rework.kept_item hi hC] at hj
      cases hj
      exact hD.numeric x i hx hi
    · exact ((hnew hid x hx).2 j hj).2.1

end Step

namespace Factoring.Refactored
variable {M : Multiset NodeId}

theorem value?_leaf (h : Refactored g id M root g') (ho : g.Ordered) (hD : g.Evaluated inputs D)
    {rank : NodeId → Nat} (hrank : g.plan.Ranked rank)
    (hcarry : ∀ y, rank y < rank id → Carries g g' inputs D (g.plan.Inside id) y) (hid : D id)
    {y : NodeId} (hy : y ∈ M) :
    (D y ∧ ¬ g.plan.Inside id y) ∧ g'.value? inputs y = g.value? inputs y := by
  have hDy := h.factors.mem_of_closed hD.closed hid hy
  obtain ⟨j, hj, hm, -⟩ := h.factors.mem hy
  have hC : ¬ g.plan.Inside id y := fun hin => by
    obtain ⟨k, hk, hkm⟩ := hin.product
    exact Plan.not_inside_of_leaf hj hm (.root hk hkm)
  obtain ⟨v, hv⟩ := hD.value y hDy
  have hv' := hcarry y (h.factors.rank_lt hrank h.inside hy) hDy hC v hv
  refine ⟨⟨hDy, hC⟩, ?_⟩
  rw [(value?_eq_some_iff ho.acyclic).2 hv, (value?_eq_some_iff h.ordered.acyclic).2 hv']

theorem root_value [ProductElement α] (h : Refactored g id M root g') (ho : g.Ordered)
    (hD : g.Evaluated inputs D) (hM : ∀ y, M.count y < 2 ^ 53) {rank : NodeId → Nat}
    (hrank : g.plan.Ranked rank)
    (hcarry : ∀ y, rank y < rank id → Carries g g' inputs D (g.plan.Inside id) y) (hid : D id)
    (hv : g.HasValue inputs id v) : g'.HasValue inputs root v := by
  have hprod : WithOne.coe (g'.value? inputs root) = WithOne.coe (g.value? inputs id) := by
    calc WithOne.coe (g'.value? inputs root)
      _ = Partial.productOf (g'.value? inputs) M := value?_of_built h.ordered hM h.built
      _ = Partial.productOf (g.value? inputs) M :=
        Partial.productOf_congr fun y hy => (h.value?_leaf ho hD hrank hcarry hid hy).2
      _ = WithOne.coe (g.value? inputs id) := (value?_of_factors ho.acyclic h.factors).symm
  rw [← value?_eq_some_iff h.ordered.acyclic, WithOne.coe_injective hprod,
    value?_eq_some_iff ho.acyclic]
  exact hv

theorem carries [ProductElement α] (h : Refactored g id M root g') (ho : g.Ordered)
    (hD : g.Evaluated inputs D) (hM : ∀ y, M.count y < 2 ^ 53) :
    (∀ x, Carries g g' inputs D (g.plan.Inside id) x) ∧
      (D id → ∀ v, g.HasValue inputs id v → g'.HasValue inputs root v) := by
  obtain ⟨rank, hrank⟩ := ho.acyclic
  have hcarry := (Rework.factor h).carries hD hrank fun hcarry hid v hv =>
    h.root_value ho hD hM hrank hcarry hid hv
  exact ⟨hcarry, fun hid v hv => h.root_value ho hD hM hrank (fun y _ => hcarry y) hid hv⟩

end Factoring.Refactored

namespace Factoring.Factored
variable {M : Multiset NodeId}

def Part (g' : Graph) (inputs : Inputs α) (s : Int) (M : Multiset NodeId) (x : Int) :
    Prop :=
  s ≤ x ∧ (∃ v, g'.HasValue inputs x v) ∧ ((∃ m, g'.plan.Built s M x m) ∨
    ∃ i y, g'.plan x = some i ∧ i.op = .literal (.ofInt (M.count y)))

theorem part_operand (h : Factored g id M root g') {s x : Int} {i : Item}
    (hx : Part g' inputs s M x) (hi : g'.plan x = some i) {y : NodeId} (hy : y ∈ i.inputs) :
    y ∈ M ∨ Part g' inputs s M y := by
  obtain ⟨hs, ⟨v, hv⟩, hbuilt⟩ := hx
  obtain ⟨vs, -, hvs, -⟩ := hv.apply hi
  obtain ⟨u, -, hu⟩ := Outcome.exists_of_forall₂_left hvs hy
  have hterm : ∀ {a : Int} {m}, g'.plan.Built s M a m → g'.HasValue inputs a u →
      a ∈ M ∨ Part g' inputs s M a := by
    intro a m hb hu
    by_cases has : a < s
    · cases hb with
      | leaf _ _ hone => exact .inl (Multiset.count_pos.1 (by omega))
      | power _ hs' => omega
      | product _ hs' => omega
    · exact .inr ⟨not_lt.1 has, ⟨u, hu⟩, .inl ⟨m, hb⟩⟩
  rcases hbuilt with ⟨m, hb⟩ | ⟨k, z, hk, hop⟩
  · cases hb with
    | leaf _ hlt => omega
    | @power _ e leaf j j' k hx' _ hop hin hleaf hls he hes hj hn =>
      rw [hi] at hx'
      cases hx'
      rw [hin] at hy
      rcases List.mem_cons.1 hy with rfl | hy
      · exact .inl (Multiset.count_pos.1 (by omega))
      · rw [List.mem_singleton.1 hy] at hu ⊢
        exact .inr ⟨hes, ⟨u, hu⟩, .inr ⟨j', leaf, he, hj⟩⟩
    | @product _ a b j m m' hx' _ hop hin ha hb =>
      rw [hi] at hx'
      cases hx'
      rw [hin] at hy
      rcases List.mem_cons.1 hy with rfl | hy
      · exact hterm ha hu
      · rw [List.mem_singleton.1 hy] at hu ⊢
        exact hterm hb hu
  · rw [hi] at hk
    cases hk
    have harity := h.sound.arity_of_plan hi
    rw [hop] at harity
    rw [List.length_eq_zero_iff.1 (Option.some.inj harity).symm] at hy
    cases hy

theorem part_item {s x : Int} {i : Item} (hx : Part g' inputs s M x)
    (hi : g'.plan x = some i) : i.IsNumeric ∧ ∀ vs : List (Value α), i.op.Honest vs := by
  obtain ⟨hs, -, ⟨m, hb⟩ | ⟨k, y, hk, hop⟩⟩ := hx
  · obtain ⟨j, op, hj, hop⟩ := hb.isBinary hs
    rw [hi] at hj
    cases hj
    refine ⟨Item.isNumeric_of_op hop nofun, fun vs => ?_⟩
    rw [hop]
    trivial
  · rw [hi] at hk
    cases hk
    refine ⟨Item.isNumeric_of_op hop nofun, fun vs => ?_⟩
    rw [hop]
    trivial

end Factoring.Factored

end Optimizer
end LinearPlan
