import LinearPlan.Proofs.Steps

/-!
# How often a node is a factor

A product of `n` levels can have a factor `2 ^ n` times, and the count becomes the exponent of a
power. Steps of a pass do not raise these counts: a power stands for all occurrences of its base, so
it is a factor at most as often as its base was.
-/
namespace LinearPlan

namespace Plan
variable {P P' : Plan} {x id root : NodeId} {N : Multiset NodeId} {b : Nat}

/-- Every node is a factor of any other one less than `b` times. -/
def FactorsBelow (P : Plan) (b : Nat) : Prop := ∀ x M, P.Factors x M → ∀ y, M.count y < b

theorem Factors.card_le {rank : NodeId → Nat} (hrank : P.Ranked rank) (h : P.Factors x N) :
    N.card ≤ 2 ^ rank x := by
  induction h with
  | leaf _ _ =>
    rw [Multiset.card_singleton]
    exact Nat.one_le_two_pow
  | @product x a b i m m' hx _ hi _ _ iha ihb =>
    have ha : rank a < rank x := hrank hx (hi ▸ List.mem_cons_self)
    have hb : rank b < rank x := hrank hx (hi ▸ List.mem_cons_of_mem a List.mem_cons_self)
    rw [Multiset.card_add]
    calc m.card + m'.card ≤ 2 ^ (rank x - 1) + 2 ^ (rank x - 1) :=
          Nat.add_le_add (iha.trans (Nat.pow_le_pow_right (by decide) (by omega)))
            (ihb.trans (Nat.pow_le_pow_right (by decide) (by omega)))
      _ = 2 ^ (rank x - 1 + 1) := by omega
      _ = 2 ^ rank x := by rw [Nat.sub_add_cancel (by omega)]

/-- The counts stay when a node is replaced, if they do for the node that replaces it. A relation
tells which node a factor stands for. -/
theorem Factors.count_le {R : NodeId → NodeId → Prop} {K : NodeId → Prop}
    (hkept : ∀ x, K x → P' x = (P x).map (Item.subst id root))
    (hops : ∀ x i y, K x → P x = some i → y ∈ i.inputs → y = id ∨ K y)
    (hself : ∀ x z, K x → (R x z ↔ z = x))
    (hroot : ∀ N, P'.Factors root N → ∃ M, P.Factors id M ∧ (∀ y ∈ N, ∃ z, R y z) ∧
      ∀ y z, R y z → N.count y ≤ M.count z) (h : P'.Factors x N) (hx : K x) :
    ∃ M, P.Factors x M ∧ (∀ y ∈ N, ∃ z, R y z) ∧ ∀ y z, R y z → N.count y ≤ M.count z := by
  induction h with
  | @leaf x j hj hm =>
    rw [hkept x hx] at hj
    obtain ⟨i, hi, rfl⟩ := Option.map_eq_some_iff.1 hj
    refine ⟨{x}, .leaf hi hm, fun y hy => ?_, fun y z hR => ?_⟩
    · rw [Multiset.mem_singleton.1 hy]
      exact ⟨x, (hself x x hx).2 rfl⟩
    · by_cases hyx : y = x
      · rw [hyx] at hR ⊢
        rw [(hself x z hx).1 hR]
      · rw [Multiset.count_singleton, if_neg hyx]
        exact Nat.zero_le _
  | @product x a' b' j n n' hj hm hin ha hb iha ihb =>
    rw [hkept x hx] at hj
    obtain ⟨i, hi, rfl⟩ := Option.map_eq_some_iff.1 hj
    -- Each operand is kept, or is the new node in the place of the old one.
    obtain ⟨a, b, hab, rfl, rfl⟩ : ∃ a b, i.inputs = [a, b] ∧ a' = (if a = id then root else a) ∧
        b' = if b = id then root else b := by
      have hmap : i.inputs.map (fun y => if y = id then root else y) = [a', b'] := hin
      match hi' : i.inputs with
      | [a, b] =>
        rw [hi'] at hmap
        simp only [List.map_cons, List.map_nil, List.cons.injEq, and_true] at hmap
        exact ⟨a, b, rfl, hmap.1.symm, hmap.2.symm⟩
      | [] => rw [hi'] at hmap; cases hmap
      | [_] => rw [hi'] at hmap; cases hmap
      | _ :: _ :: _ :: _ => rw [hi'] at hmap; cases hmap
    have hone : ∀ {c n}, c ∈ i.inputs → P'.Factors (if c = id then root else c) n →
        (K (if c = id then root else c) → ∃ M, P.Factors (if c = id then root else c) M ∧
          (∀ y ∈ n, ∃ z, R y z) ∧ ∀ y z, R y z → n.count y ≤ M.count z) →
        ∃ M, P.Factors c M ∧ (∀ y ∈ n, ∃ z, R y z) ∧ ∀ y z, R y z → n.count y ≤ M.count z := by
      intro c n hc hn ih
      by_cases hcid : c = id
      · rw [if_pos hcid] at hn
        rw [hcid]
        exact hroot n hn
      · simp only [if_neg hcid] at ih
        exact ih ((hops x i c hx hi hc).resolve_left hcid)
    obtain ⟨M₁, hM₁, hst₁, hc₁⟩ := hone (hab ▸ List.mem_cons_self) ha iha
    obtain ⟨M₂, hM₂, hst₂, hc₂⟩ := hone (hab ▸ List.mem_cons_of_mem a List.mem_cons_self) hb ihb
    refine ⟨M₁ + M₂, .product hi hm hab hM₁ hM₂, fun y hy => ?_, fun y z hR => ?_⟩
    · exact (Multiset.mem_add.1 hy).elim (hst₁ y) (hst₂ y)
    · rw [Multiset.count_add, Multiset.count_add]
      exact Nat.add_le_add (hc₁ y z hR) (hc₂ y z hR)

theorem FactorsBelow.count_lt {R : NodeId → NodeId → Prop} {M : Multiset NodeId} (hb : 1 < b)
    (hP : P.FactorsBelow b) (hM : P.Factors x M) (hst : ∀ y ∈ N, ∃ z, R y z)
    (hcount : ∀ y z, R y z → N.count y ≤ M.count z) (y : NodeId) : N.count y < b := by
  by_cases hy : y ∈ N
  · obtain ⟨z, hz⟩ := hst y hy
    exact (hcount y z hz).trans_lt (hP x M hM z)
  · rw [Multiset.count_eq_zero.2 hy]
    omega

theorem count_lt_of_leaf (hb : 1 < b) {i : Item} (hi : P x = some i) (hm : i.op.isMult = false)
    (h : P.Factors x N) (y : NodeId) : N.count y < b := by
  rw [h.unique (.leaf hi hm), Multiset.count_singleton]
  split <;> omega

end Plan

theorem Graph.Ordered.factorsBelow {g : Graph} (ho : g.Ordered) {k : Nat} (h : g.size ≤ k) :
    g.plan.FactorsBelow (2 ^ k) := by
  obtain ⟨rank, hrank, hlt⟩ := exists_rank_lt_size ho.acyclic ho.closed
  intro x M hM y
  have hx : rank x < g.size := by
    cases hM with
    | leaf hx => exact hlt hx
    | product hx => exact hlt hx
  calc M.count y ≤ M.card := Multiset.count_le_card y M
    _ ≤ 2 ^ rank x := hM.card_le hrank
    _ < 2 ^ k := Nat.pow_lt_pow_right (by decide) (hx.trans_le h)

theorem Graph.Sound.factorsBelow {g : Graph} (hs : g.Sound) {k : Nat} (h : g.size ≤ k) :
    g.plan.FactorsBelow (2 ^ k) :=
  hs.ordered.factorsBelow h

namespace Optimizer
open LinearPlan.Graph Factoring Slicing
variable {g g' : Graph} {id root : NodeId} {C : NodeId → Prop} {b : Nat}

theorem Factoring.Factored.count_le {M : Multiset NodeId} (h : Factored g id M root g')
    {N : Multiset NodeId} (hN : g'.plan.Factors root N) :
    (∀ y ∈ N, ∃ z, Stands g'.plan g.size y z) ∧
      ∀ y z, Stands g'.plan g.size y z → N.count y ≤ M.count z := by
  obtain ⟨hone, hst⟩ := factors_distinct h.leaf_op h.built le_rfl hN
  refine ⟨fun y hy => ?_, fun y z hR => ?_⟩
  · obtain ⟨z, -, hz⟩ := hst y hy
    exact ⟨z, hz⟩
  · by_cases hy : y ∈ N
    · obtain ⟨z', hz', hR'⟩ := hst y hy
      rw [hR.unique hR']
      exact (hone y).trans (Multiset.count_pos.2 hz')
    · rw [Multiset.count_eq_zero.2 hy]
      exact Nat.zero_le _

theorem Factoring.Factored.fresh_of_changed {M : Multiset NodeId} (h : Factored g id M root g')
    {x : Int} {j : Item} (hx : g'.plan x = some j)
    (hk : ¬ (x < (g.size : Int) ∧ ¬ g.plan.Inside id x)) :
    (g.size : Int) ≤ x ∧ Fresh g.size M x j := by
  have hxs : (g.size : Int) ≤ x := by
    by_contra hlt
    refine hk ⟨not_le.1 hlt, fun hC => ?_⟩
    rw [h.gone x hC] at hx
    cases hx
  obtain ⟨i, hi, hf⟩ := h.fresh x hxs (range_of_plan hx).2
  rw [hx] at hi
  cases hi
  exact ⟨hxs, hf⟩

theorem Slicing.Merged.changed_cases {m : Merge} (h : Merged g m g') {x : Int} {j : Item}
    (hx : g'.plan x = some j) (hk : ¬ (x < (g.size : Int) ∧ x ∉ m.chain)) :
    (∃ i lower upper, g.plan x = some i ∧ (∃ flags, i.op = .leftIndexing flags) ∧
      j = m.rewrite x lower upper i) ∨ m.start ≤ x := by
  by_cases hxc : x ∈ m.chain
  · obtain ⟨t, i, hw⟩ := h.applies.chain.writeAt hxc
    obtain ⟨flags, hop, -⟩ := hw.op
    obtain ⟨lower, upper, -, -, hitem, -⟩ := h.result.done x hxc i hw.item
    exact .inl ⟨i, lower, upper, hw.item, ⟨flags, hop⟩, Option.some.inj (hx.symm.trans hitem)⟩
  · refine .inr ?_
    rw [h.start]
    by_contra hlt
    exact hk ⟨not_le.1 hlt, hxc⟩

theorem Slicing.Merged.count_le {m : Merge} (h : Merged g m g') {N : Multiset NodeId}
    (hN : g'.plan.Factors m.written N) :
    ∃ M, g.plan.Factors m.top M ∧ (∀ y ∈ N, ∃ z, z = if y = m.written then m.top else y) ∧
      ∀ y z, (z = if y = m.written then m.top else y) → N.count y ≤ M.count z := by
  obtain ⟨_, i, hw⟩ := h.applies.topAt
  obtain ⟨flags, hop, -⟩ := hw.op
  refine ⟨{m.top}, .leaf hw.item (by rw [hop]; rfl), fun y _ => ⟨_, rfl⟩, fun y z hz => ?_⟩
  rw [hN.unique (.leaf h.result.written rfl), Multiset.count_singleton]
  by_cases hy : y = m.written
  · rw [if_pos hy] at hz
    rw [if_pos hy, hz, Multiset.count_singleton_self]
  · rw [if_neg hy]
    exact Nat.zero_le _

namespace Step
variable {x : NodeId} {N : Multiset NodeId}

theorem count_lt_of_kept (h : Step g id root C g') (hs : g.Sound) (hb : 1 < b)
    (hP : g.plan.FactorsBelow b) (hN : g'.plan.Factors x N)
    (hx : @LT.lt Int _ x g.size ∧ ¬ C x) (y : NodeId) : N.count y < b := by
  have hops : ∀ x i y, (@LT.lt Int _ x g.size ∧ ¬ C x) → g.plan x = some i → y ∈ i.inputs →
      y = id ∨ (@LT.lt Int _ y g.size ∧ ¬ C y) := by
    rintro x i y ⟨-, hC⟩ hi hy
    by_cases hyid : y = id
    · exact .inl hyid
    · exact .inr ⟨hs.operand_lt hi hy, fun hCy => hC (h.rework.users hCy hyid hi hy)⟩
  have hkept : ∀ x, (@LT.lt Int _ x g.size ∧ ¬ C x) →
      g'.plan x = (g.plan x).map (Item.subst id root) := fun x hx => h.rework.kept hx.1 hx.2
  cases h with
  | @factor _ _ M _ h hrep =>
    have hself : ∀ y z, (@LT.lt Int _ y g.size ∧ ¬ g.plan.Inside id y) →
        (Stands g'.plan g.size y z ↔ z = y) := by
      refine fun y z hy => ⟨fun hR => ?_, fun he => .inl ⟨hy.1, he⟩⟩
      rcases hR with ⟨-, he⟩ | ⟨hge, -⟩
      · exact he
      · exact absurd hy.1 (not_lt.2 hge)
    obtain ⟨K, hK, hst, hcount⟩ := hN.count_le hkept hops hself
      (fun N hN => ⟨M, h.factors, h.count_le hN⟩) hx
    exact hP.count_lt hb hK hst hcount y
  | @merge m _ h =>
    have hnew : @LE.le Int _ g.size m.written := (Rework.merge h.toRechained).root_new
    have hself : ∀ y z, (@LT.lt Int _ y g.size ∧ y ∉ m.chain) →
        ((z = if y = m.written then m.top else y) ↔ z = y) := by
      intro y z hy
      have hne : y ≠ m.written := fun he => absurd hy.1 (not_lt.2 (he ▸ hnew))
      rw [if_neg hne]
    obtain ⟨K, hK, hst, hcount⟩ := hN.count_le hkept hops hself (fun N hN => h.count_le hN) hx
    exact hP.count_lt hb hK hst hcount y

theorem count_lt_of_changed (h : Step g id root C g') (hb : 1 < b) (hN : g'.plan.Factors x N)
    (hx : ¬ (@LT.lt Int _ x g.size ∧ ¬ C x)) (y : NodeId) : N.count y < b := by
  obtain ⟨j, hj⟩ : ∃ j, g'.plan x = some j := by
    cases hN with
    | leaf hx => exact ⟨_, hx⟩
    | product hx => exact ⟨_, hx⟩
  cases hm : j.op.isMult with
  | false => exact Plan.count_lt_of_leaf hb hj hm hN y
  | true =>
    cases h with
    | @factor _ _ M _ h hrep =>
      have hxs := (h.fresh_of_changed hj hx).1
      obtain ⟨m, hbuilt⟩ := h.terms x j .mult hxs hj (isMult_iff.1 hm)
      exact ((factors_distinct h.leaf_op hbuilt (hbuilt.le_of_new hxs) hN).1 y).trans_lt hb
    | @merge m _ h =>
      rcases h.changed_cases hj hx with ⟨i, lo, hi, -, ⟨flags, hop⟩, rfl⟩ | hxs
      · rw [Merge.rewrite_op, hop] at hm
        cases hm
      · rcases h.result.new_cases hj hxs with ⟨-, -, n, rfl⟩ | ⟨-, rfl⟩ | ⟨-, rfl⟩ <;> cases hm

theorem factorsBelow (h : Step g id root C g') (hs : g.Sound) (hb : 1 < b)
    (hP : g.plan.FactorsBelow b) : g'.plan.FactorsBelow b := by
  intro x N hN
  by_cases hx : @LT.lt Int _ x g.size ∧ ¬ C x
  · exact h.count_lt_of_kept hs hb hP hN hx
  · exact h.count_lt_of_changed hb hN hx

end Step
end Optimizer
end LinearPlan
