import LinearPlan.Proofs.QuietPasses

/-!
# Factoring a second time

A product may be left alone because a product inside of it is used elsewhere. Such a product is offered
only once, but what is inside of it may be factored later in the same pass. If the product that is used
elsewhere becomes another product, then this one is inside, and used elsewhere as well. If all of its
factors are equal it becomes a power, which is a mere factor from then on: the tree of the product above
gets smaller, and a second pass may factor it. As long as no such product is used elsewhere, one pass is
enough.
-/
namespace LinearPlan

namespace Plan
variable {P P' : Plan} {x y z : NodeId}

def Shared (P : Plan) (y : NodeId) : Prop :=
  ∃ p q j k, p ≠ q ∧ P p = some j ∧ j.op.isMult = true ∧ y ∈ j.inputs ∧ P q = some k ∧ y ∈ k.inputs

def IsPower (P : Plan) (y : NodeId) : Prop :=
  ∃ z n, 2 ≤ n ∧ P.Factors y (Multiset.replicate n z)

/-- Products of equal factors have one use, or are used by no product. -/
def PowersApart (P : Plan) : Prop := ∀ y, P.Shared y → ¬ P.IsPower y

theorem Inside.of_wires (h : P.wires = P'.wires) (hy : P.Inside x y) : P'.Inside x y := by
  induction hy with
  | root hx hm =>
    obtain ⟨j, hj, hop, -⟩ := exists_of_wires h hx
    exact .root hj (hop ▸ hm)
  | step _ hx hy hj hm ih =>
    obtain ⟨k, hk, -, hin⟩ := exists_of_wires h hx
    obtain ⟨l, hl, hop, -⟩ := exists_of_wires h hj
    exact .step ih hk (hin ▸ hy) hl (hop ▸ hm)

theorem Collapsible.of_wires (h : P.wires = P'.wires) (hc : P.Collapsible x) : P'.Collapsible x := by
  obtain ⟨y, hy, hne⟩ := hc.inner
  obtain ⟨m, z, hm, hz⟩ := hc.repeated
  refine ⟨⟨y, hy.of_wires h, hne⟩, ⟨m, z, hm.of_wires h, hz⟩, fun hy hne hp hmem => ?_⟩
  obtain ⟨j, hj, -, hin⟩ := exists_of_wires h.symm hp
  exact (hc.closed (hy.of_wires h.symm) hne hj (hin ▸ hmem)).of_wires h

theorem PowersApart.of_wires (h : P.wires = P'.wires) (hP : P.PowersApart) : P'.PowersApart := by
  rintro y ⟨p, q, j, k, hne, hj, hm, hyj, hk, hyk⟩ ⟨z, n, hn, hf⟩
  obtain ⟨j', hj', hop, hinj⟩ := exists_of_wires h.symm hj
  obtain ⟨k', hk', -, hink⟩ := exists_of_wires h.symm hk
  exact hP y ⟨p, q, j', k', hne, hj', hop ▸ hm, hinj ▸ hyj, hk', hink ▸ hyk⟩
    ⟨z, n, hn, hf.of_wires h.symm⟩

theorem Factors.le_of_inside {m m' : Multiset NodeId} (h : P.Factors x m) (hy : P.Inside x y)
    (hm : P.Factors y m') : m' ≤ m := by
  induction h with
  | leaf hx hmx => exact absurd hy (not_inside_of_leaf hx hmx)
  | product hx hmx hin ha hb iha ihb =>
    rcases (inside_iff hx hmx hin).1 hy with rfl | hy | hy
    · exact (hm.unique (.product hx hmx hin ha hb)).le
    · exact (iha hy).trans (Multiset.le_add_right _ _)
    · exact (ihb hy).trans (Multiset.le_add_left _ _)

theorem Factors.two_le_card {m : Multiset NodeId} {i : Item} (h : P.Factors x m) (hx : P x = some i)
    (hm : i.op.isMult = true) : 2 ≤ m.card := by
  cases h with
  | leaf hx' hm' =>
    rw [hx] at hx'
    cases hx'
    rw [hm] at hm'
    cases hm'
  | product _ _ _ ha hb =>
    have hpos := Multiset.card_pos.2 ha.ne_zero
    have hpos' := Multiset.card_pos.2 hb.ne_zero
    rw [Multiset.card_add]
    omega

theorem IsPower.product (h : P.IsPower x) : ∃ i, P x = some i ∧ i.op.isMult = true := by
  obtain ⟨z, n, hn, hf⟩ := h
  generalize hm : Multiset.replicate n z = m at hf
  cases hf with
  | leaf =>
    have hcard := congrArg Multiset.card hm
    rw [Multiset.card_replicate, Multiset.card_singleton] at hcard
    omega
  | product hx hmult => exact ⟨_, hx, hmult⟩

theorem Built.new_cases {s x : Int} {M m : Multiset NodeId} (h : P.Built s M x m) (hs : s ≤ x) :
    (∃ i, P x = some i ∧ i.op.isMult = true) ∨
      (∃ i, P x = some i ∧ i.op.isMult = false) ∧ ∃ z n, 2 ≤ n ∧ m = Multiset.replicate n z := by
  cases h with
  | leaf _ hlt => exact absurd hlt (not_lt.2 hs)
  | power hx _ hop _ _ _ _ _ _ hn =>
    exact .inr ⟨⟨_, hx, by rw [hop]; rfl⟩, _, _, hn, rfl⟩
  | product hx _ hop => exact .inl ⟨_, hx, by rw [hop]; rfl⟩

end Plan

namespace Optimizer.Factoring
open LinearPlan.Graph
variable {g g' : Graph} {id root x y : NodeId} {M : Multiset NodeId}

theorem exists_factors (ho : g.Ordered) {i : Item} (hx : g.plan x = some i) :
    ∃ m, g.plan.Factors x m := by
  cases hm : i.op.isMult with
  | true =>
    obtain ⟨t, m, -, hc⟩ := collect_ok ho hx hm
    exact ⟨m, hc.factors⟩
  | false => exact ⟨_, .leaf hx hm⟩

namespace Refactored

theorem origin (h : Refactored g id M root g') {k : Item} (hx : g'.plan x = some k)
    (hlt : @LT.lt Int _ x g.size) :
    ¬ g.plan.Inside id x ∧ ∃ j, g.plan x = some j ∧ k = j.subst id root := by
  have hC : ¬ g.plan.Inside id x := fun hC => by
    rw [h.gone x hC] at hx
    cases hx
  rw [h.kept x hlt hC] at hx
  obtain ⟨j, hj, rfl⟩ := Option.map_eq_some_iff.1 hx
  exact ⟨hC, j, hj, rfl⟩

theorem operand_of_new (h : Refactored g id M root g') {k l : Item} (hx : g'.plan x = some k)
    (hnew : @LE.le Int _ g.size x) (hy : y ∈ k.inputs) (hl : g'.plan y = some l)
    (hm : l.op.isMult = true) : @LE.le Int _ g.size y := by
  obtain ⟨k', hk', hf⟩ := h.fresh x hnew (range_of_plan hx).2
  rw [hx] at hk'
  cases hk'
  rcases hf.operand y hy with hyM | ⟨hys, -⟩
  · rw [h.leaf_op y hyM l hl] at hm
    cases hm
  · exact hys

/-- What is inside an old product afterwards was inside before, or is new and has the place of the
replaced product. -/
theorem inside_old (h : Refactored g id M root g') (ho : g.Ordered) (hx : @LT.lt Int _ x g.size)
    (hy : g'.plan.Inside x y) :
    (@LT.lt Int _ y g.size → g.plan.Inside x y) ∧ (@LE.le Int _ g.size y → g.plan.Inside x id) := by
  induction hy with
  | root hi hm =>
    obtain ⟨-, j, hj, rfl⟩ := h.origin hi hx
    exact ⟨fun _ => .root hj hm, fun hle => absurd hx (not_lt.2 hle)⟩
  | @step z y i l _ hz hy hl hm ih =>
    by_cases hzs : @LT.lt Int _ z g.size
    · obtain ⟨-, j, hj, rfl⟩ := h.origin hz hzs
      have hzin := ih.1 hzs
      rcases Item.mem_subst.1 hy with ⟨hyj, -⟩ | ⟨rfl, hid⟩
      · have hlt := ho.operand_lt hj hyj
        obtain ⟨-, k', hk', rfl⟩ := h.origin hl hlt
        exact ⟨fun _ => .step hzin hj hyj hk' hm, fun hle => absurd hlt (not_lt.2 hle)⟩
      · obtain ⟨k, hk, hkm⟩ := h.inside.product
        exact ⟨fun hlt => absurd h.new (not_le.2 hlt), fun _ => .step hzin hj hid hk hkm⟩
    · have hzs := not_lt.1 hzs
      have hys := h.operand_of_new hz hzs hy hl hm
      exact ⟨fun hlt => absurd hlt (not_lt.2 hys), fun _ => ih.2 hzs⟩

theorem inside_kept (h : Refactored g id M root g') (hC : ¬ g.plan.Inside id y)
    (hy : g.plan.Inside x y) : g'.plan.Inside x y := by
  induction hy with
  | root hi hm => exact .root (Rework.kept_item (.factor h) hi hC) hm
  | @step z y i j hz hi hy hj hm ih =>
    have hzC : ¬ g.plan.Inside id z := fun hzC => hC (.step hzC hi hy hj hm)
    have hne : y ≠ id := fun he => hC (he ▸ h.inside)
    exact .step (ih hzC) (Rework.kept_item (.factor h) hi hzC) (Item.mem_subst.2 (.inl ⟨hy, hne⟩))
      (Rework.kept_item (.factor h) hj hC) hm

theorem user_inside (h : Refactored g id M root g') (ho : g.Ordered) (hx : ¬ g.plan.Inside id x)
    (hid : g.plan.Inside x id) : ∃ z j, g.plan.Inside x z ∧ g.plan z = some j ∧ id ∈ j.inputs ∧
      g'.plan.Inside x z ∧ g'.plan z = some (j.subst id root) := by
  cases hid with
  | root => exact absurd h.inside hx
  | @step z _ j k hz hj hmem hk hm =>
    have hzC : ¬ g.plan.Inside id z := Rework.user_not_changed (.factor h) ho hj hmem
    exact ⟨z, j, hz, hj, hmem, h.inside_kept hzC hz, Rework.kept_item (.factor h) hj hzC⟩

theorem apart_of_not_inside (h : Refactored g id M root g') (hx : ¬ g.plan.Inside id x)
    (hid : ¬ g.plan.Inside x id) (hy : g.plan.Inside x y) : ¬ g.plan.Inside id y := by
  induction hy with
  | root => exact hx
  | @step z y i j hz hi hy hj hm ih =>
    intro hC
    by_cases he : y = id
    · exact hid (he ▸ .step hz hi hy hj hm)
    · exact ih (Rework.users (.factor h) hC he hi hy)

/-- The factors of a node after the replacement: those of the replaced product are merged, and the
others stay. -/
theorem factors_kept (h : Refactored g id M root g') {m T : Multiset NodeId}
    (hT : g'.plan.Factors root T) (hm : g.plan.Factors x m) (hx : x = id ∨ ¬ g.plan.Inside id x) :
    ∃ m', g'.plan.Factors (if x = id then root else x) m' ∧
      (¬ g.plan.Inside x id → m' = m) ∧ (∀ b ∈ m, b ∈ m' ∨ b ∈ M) ∧
      (g.plan.Inside x id → ∀ t ∈ T, t ∈ m') := by
  induction hm with
  | @leaf x i hi hmult =>
    have hC : ¬ g.plan.Inside id x := fun hC => by
      obtain ⟨j, hj, hjm⟩ := hC.product
      rw [hi] at hj
      cases hj
      rw [hmult] at hjm
      cases hjm
    have hne : x ≠ id := fun he => hC (he ▸ h.inside)
    rw [if_neg hne]
    exact ⟨{x}, .leaf (Rework.kept_item (.factor h) hi hC) hmult, fun _ => rfl, fun b hb => .inl hb,
      fun hid => absurd hid (Plan.not_inside_of_leaf hi hmult)⟩
  | @product x a b i m₁ m₂ hi hmult hin ha hb iha ihb =>
    by_cases hxid : x = id
    · subst hxid
      rw [if_pos rfl]
      have hM := h.factors.unique (.product hi hmult hin ha hb)
      exact ⟨T, hT, fun hid => absurd h.inside hid, fun b hb => .inr (hM ▸ hb), fun _ _ ht => ht⟩
    · have hC := hx.resolve_left hxid
      have hoperand : ∀ c ∈ i.inputs, c = id ∨ ¬ g.plan.Inside id c := fun c hc => by
        by_contra hno
        rw [not_or, not_not] at hno
        exact hC (Rework.users (.factor h) hno.2 hno.1 hi hc)
      obtain ⟨m₁', hf₁, hsame₁, hsub₁, hT₁⟩ := iha (hoperand a (hin ▸ List.mem_cons_self))
      obtain ⟨m₂', hf₂, hsame₂, hsub₂, hT₂⟩ :=
        ihb (hoperand b (hin ▸ List.mem_cons_of_mem a List.mem_cons_self))
      have hinside : g.plan.Inside x id ↔ g.plan.Inside a id ∨ g.plan.Inside b id := by
        rw [Plan.inside_iff hi hmult hin, or_iff_right (Ne.symm hxid)]
      rw [if_neg hxid, hinside, not_or]
      refine ⟨m₁' + m₂', .product (Rework.kept_item (.factor h) hi hC) hmult ?_ hf₁ hf₂,
        fun hid => ?_, fun c hc => ?_, fun hid t ht => ?_⟩
      · rw [Item.subst, hin]
        rfl
      · rw [hsame₁ hid.1, hsame₂ hid.2]
      · rw [Multiset.mem_add] at hc ⊢
        rcases hc with hc | hc
        · exact (hsub₁ c hc).imp_left .inl
        · exact (hsub₂ c hc).imp_left .inr
      · rw [Multiset.mem_add]
        exact hid.imp (hT₁ · t ht) (hT₂ · t ht)

theorem distinct_of_new (h : Refactored g id M root g') {i : Item} (hx : g'.plan x = some i)
    (hm : i.op.isMult = true) (hnew : @LE.le Int _ g.size x) {N : Multiset NodeId}
    (hN : g'.plan.Factors x N) (y : NodeId) : N.count y ≤ 1 := by
  obtain ⟨m, hb⟩ := h.terms x i _ hnew hx (isMult_iff.1 hm)
  exact (factors_distinct h.leaf_op hb (hb.le_of_new hnew) hN).1 y

theorem collapsible_of_old (h : Refactored g id M root g') (ho : g.Ordered)
    (hrep : ∃ y, 1 < M.count y) (hpow : g.plan.PowersApart) (hlt : @LT.lt Int _ x g.size)
    (hc : g'.plan.Collapsible x) : g.plan.Collapsible x := by
  obtain ⟨i, hi, -⟩ := hc.product
  obtain ⟨hxC, j, hj, rfl⟩ := h.origin hi hlt
  have hxid : x ≠ id := fun he => hxC (he ▸ h.inside)
  obtain ⟨m, hm⟩ := exists_factors ho hj
  have hback : ∀ {p k}, g.plan p = some k → g'.plan.Inside x p → g.plan.Inside x p := fun hp hin =>
    (h.inside_old ho hlt hin).1 (range_of_plan hp).2
  -- Users of products inside that are kept are kept too, as they are outside of the replaced product.
  have hclosed : ∀ {y p k}, g.plan.Inside x y → y ≠ x → ¬ g.plan.Inside id y → g.plan p = some k →
      y ∈ k.inputs → g.plan.Inside x p := by
    intro y p k hy hne hyC hp hmem
    obtain ⟨l, hl, hlm⟩ := hy.product
    have hpC : ¬ g.plan.Inside id p := fun hpC => hyC (.step hpC hp hmem hl hlm)
    have hyid : y ≠ id := fun he => hyC (he ▸ h.inside)
    exact hback hp (hc.closed (h.inside_kept hyC hy) hne (Rework.kept_item (.factor h) hp hpC)
      (Item.mem_subst.2 (.inl ⟨hmem, hyid⟩)))
  by_cases hid : g.plan.Inside x id
  · obtain ⟨y, hy⟩ := hrep
    refine ⟨⟨id, hid, Ne.symm hxid⟩, ⟨m, y, hm, ?_⟩, fun {y p k} hy hne hp hmem => ?_⟩
    · exact hy.trans_le (Multiset.count_le_of_le y (hm.le_of_inside hid h.factors))
    · by_cases hyC : g.plan.Inside id y
      · by_cases hyid : y = id
        · subst hyid
          obtain ⟨z, l, hz, hl, hmem', hz', hl'⟩ := h.user_inside ho hxC hid
          by_contra hno
          have hzm : l.op.isMult = true := by
            obtain ⟨l', hl'', hm'⟩ := hz.product
            rw [hl] at hl''
            cases hl''
            exact hm'
          have hshared : g.plan.Shared y :=
            ⟨z, p, l, k, fun he => hno (he ▸ hz), hl, hzm, hmem', hp, hmem⟩
          rcases h.built.new_cases h.new with ⟨r, hr, hrm⟩ | ⟨-, w, n, hn, hM⟩
          · -- The new product is inside, and has the same user outside.
            have hroot : g'.plan.Inside x root :=
              .step hz' hl' (Item.mem_subst.2 (.inr ⟨rfl, hmem'⟩)) hr hrm
            have hrx : root ≠ x := fun he => absurd h.new (not_le.2 (he ▸ hlt))
            exact hno (hback hp (hc.closed hroot hrx (Rework.user_kept (.factor h) ho hp hmem)
              (Item.mem_subst.2 (.inr ⟨rfl, hmem⟩))))
          · exact hpow y hshared ⟨w, n, hn, hM ▸ h.factors⟩
        · exact hid.trans (Rework.users (.factor h) hyC hyid hp hmem)
      · exact hclosed hy hne hyC hp hmem
  · obtain ⟨y, hy, hne⟩ := hc.inner
    obtain ⟨m', w, hm', hw⟩ := hc.repeated
    obtain ⟨r, hr⟩ := h.built.item
    obtain ⟨T, hT⟩ := exists_factors h.ordered hr
    obtain ⟨m'', hm'', hsame, -⟩ := h.factors_kept hT hm (.inr hxC)
    rw [if_neg hxid, hsame hid] at hm''
    refine ⟨⟨y, ?_, hne⟩, ⟨m, w, hm, hm''.unique hm' ▸ hw⟩, fun {y p k} hy hne hp hmem => ?_⟩
    · rcases lt_or_ge y (g.size : Int) with hys | hys
      · exact (h.inside_old ho hlt hy).1 hys
      · exact absurd ((h.inside_old ho hlt hy).2 hys) hid
    · exact hclosed hy hne (h.apart_of_not_inside hxC hid hy) hp hmem

theorem isPower_of_kept (h : Refactored g id M root g') (ho : g.Ordered) {i : Item}
    (hy : g.plan y = some i) (hym : i.op.isMult = true) (hyC : ¬ g.plan.Inside id y)
    (hpower : g'.plan.IsPower y) : g.plan.IsPower y := by
  have hyid : y ≠ id := fun he => hyC (he ▸ h.inside)
  obtain ⟨z, n, hn, hf⟩ := hpower
  obtain ⟨m, hm⟩ := exists_factors ho hy
  obtain ⟨r, hr⟩ := h.built.item
  obtain ⟨T, hT⟩ := exists_factors h.ordered hr
  obtain ⟨m', hm', hsame, hsub, hall⟩ := h.factors_kept hT hm (.inr hyC)
  rw [if_neg hyid] at hm'
  have hrepl := hm'.unique hf
  by_cases hid : g.plan.Inside y id
  · have hTz : ∀ t ∈ T, t = z := fun t ht => Multiset.eq_of_mem_replicate (hrepl ▸ hall hid t ht)
    rcases h.built.new_cases h.new with ⟨k, hk, hkm⟩ | ⟨⟨k, hk, hkm⟩, w, l, -, hM⟩
    · -- A new product has two factors, and not the same one twice.
      have hcard := hT.two_le_card hk hkm
      have hone := h.distinct_of_new hk hkm h.new hT z
      rw [Multiset.eq_replicate_card.2 hTz, Multiset.count_replicate_self] at hone
      omega
    · -- The power is the only factor now, so all factors were below it.
      have hz : root = z := hTz root (hT.unique (.leaf hk hkm) ▸ Multiset.mem_singleton_self root)
      have hw : ∀ b ∈ m, b = w := by
        intro b hb
        rcases hsub b hb with hb' | hb'
        · obtain ⟨c, hc, -⟩ := hm.mem hb
          rw [hrepl] at hb'
          rw [Multiset.eq_of_mem_replicate hb', ← hz] at hc
          exact absurd h.new (not_le.2 (range_of_plan hc).2)
        · exact Multiset.eq_of_mem_replicate (hM ▸ hb')
      exact ⟨w, m.card, hm.two_le_card hy hym, Multiset.eq_replicate_card.2 hw ▸ hm⟩
  · exact ⟨z, n, hn, by rw [← hrepl, hsame hid]; exact hm⟩

theorem powersApart (h : Refactored g id M root g') (ho : g.Ordered) (hpow : g.plan.PowersApart) :
    g'.plan.PowersApart := by
  rintro y ⟨p, q, j, k, hne, hj, hjm, hyj, hk, hyk⟩ hpower
  obtain ⟨i, hi, him⟩ := hpower.product
  rcases lt_or_ge y (g.size : Int) with hlt | hnew
  · obtain ⟨hyC, i', hi', rfl⟩ := h.origin hi hlt
    have huser : ∀ {p j}, g'.plan p = some j → y ∈ j.inputs →
        ∃ j', g.plan p = some j' ∧ j'.op = j.op ∧ y ∈ j'.inputs := by
      intro p j hj hyj
      rcases lt_or_ge p (g.size : Int) with hp | hp
      · obtain ⟨-, j', hj', rfl⟩ := h.origin hj hp
        rcases Item.mem_subst.1 hyj with ⟨hmem, -⟩ | ⟨rfl, -⟩
        · exact ⟨j', hj', rfl, hmem⟩
        · exact absurd h.new (not_le.2 hlt)
      · exact absurd (h.operand_of_new hj hp hyj hi him) (not_le.2 hlt)
    obtain ⟨j', hj', hop, hyj'⟩ := huser hj hyj
    obtain ⟨k', hk', -, hyk'⟩ := huser hk hyk
    exact hpow y ⟨p, q, j', k', hne, hj', hop ▸ hjm, hyj', hk', hyk'⟩
      (h.isPower_of_kept ho hi' him hyC hpower)
  · obtain ⟨z, n, hn, hf⟩ := hpower
    have hone := h.distinct_of_new hi him hnew hf z
    rw [Multiset.count_replicate_self] at hone
    omega

end Refactored
theorem Refactored.not_collapsible (h : Refactored g id M root g') (ho : g.Ordered)
    (hrep : ∃ y, 1 < M.count y) (hpow : g.plan.PowersApart)
    (hx : ∀ m, g.get? x = some m → x ≠ id → ¬ g.plan.Collapsible x) : ¬ g'.plan.Collapsible x := by
  intro hc
  obtain ⟨i, hi, him⟩ := hc.product
  rcases lt_or_ge x (g.size : Int) with hlt | hnew
  · obtain ⟨hxC, j, hj, -⟩ := h.origin hi hlt
    obtain ⟨m, hm, -⟩ := get?_of_plan hj
    exact hx m hm (fun he => hxC (he ▸ h.inside)) (h.collapsible_of_old ho hrep hpow hlt hc)
  · obtain ⟨N, y, hN, hy⟩ := hc.repeated
    have hone := h.distinct_of_new hi him hnew hN y
    omega

end Optimizer.Factoring

namespace Optimizer
open LinearPlan.Graph

theorem Rewrites.refactored {p p' : Pass} {id root : NodeId} (h : Rewrites p id root p')
    (hid : p.graph.plan.Inside id id) : ∃ M g, Factoring.Refactored p.graph id M root g ∧
      (∃ y, 1 < M.count y) ∧ g.Resized p'.graph := by
  cases h with
  | factor h hrep hres => exact ⟨_, _, h, hrep, hres⟩
  | merge h htop =>
    obtain ⟨i, hi, hm⟩ := hid.product
    obtain ⟨t, j, hj⟩ := h.chained.topAt
    obtain ⟨flags, hop, -⟩ := hj.op
    have hitem := hj.item
    rw [htop, hi] at hitem
    cases hitem
    rw [hop] at hm
    cases hm

structure Factoring.Settles (g : Graph) : Prop where
  ordered : g.Ordered
  powers : g.plan.PowersApart

theorem Factoring.rests :
    Rests Factoring.rule Factoring.Settles fun g x => ¬ g.plan.Collapsible x where
  standard := .inl rfl
  ordered h := h.ordered
  quiet {g x n} h hn hq p hp := by
    subst hp
    rcases apply_run h.ordered hn with ⟨hnone, -⟩ | ⟨t, M, hc, hf, -⟩
    · exact hnone
    · exact absurd ((hc.isFactorable_iff_collapsible h.ordered.toLinked).1 hf) hq
  apply {p} id h := by
    refine apply_steps h.ordered id (fun hno => .inl ⟨rfl, rfl, hno⟩) (fun _ _ => trivial)
      fun {t M} hc hf => ?_
    refine (factor_ends h.ordered hc hf).imp (fun _ _ _ => trivial) fun result p' hans => ?_
    obtain ⟨hans, hsome⟩ := hans
    rcases hans.cases with ⟨rfl, -⟩ | ⟨root, rfl, hrew⟩
    · exact absurd rfl hsome
    · obtain ⟨M, g, hre, hrep, hres⟩ := hrew.refactored hc.inside
      refine .inr ⟨root, rfl, hrew, ⟨hrew.ordered h.ordered, ?_⟩, fun x m _ hx hcol => ?_⟩
      · exact (hre.powersApart h.ordered h.powers).of_wires hres.wires.symm
      · exact hre.not_collapsible h.ordered hrep h.powers hx (hcol.of_wires hres.wires)

namespace Factoring

def isPowerAt (g : Graph) (x : NodeId) : Bool :=
  (g.opOf x).any Op.isMult && match collect g x with
  | .ok t => decide (t.leaves.keys.length ≤ 1)
  | .error _ => false

def isSharedAt (g : Graph) (x : NodeId) : Bool :=
  (g.parentsOf x).any fun p => (g.opOf p).any Op.isMult && (g.parentsOf x).any fun q => decide (p ≠ q)

theorem powersApart_of_ids (ho : g.Ordered)
    (h : ∀ x ∈ g.ids, isSharedAt g x = true → isPowerAt g x = false) : g.plan.PowersApart := by
  rintro y ⟨p, q, j, k, hne, hj, hjm, hyj, hk, hyk⟩ hpower
  obtain ⟨i, hi, him⟩ := hpower.product
  obtain ⟨z, n, -, hf⟩ := hpower
  obtain ⟨t, m, ht, hcol⟩ := collect_ok ho hi him
  have hmem : ∀ {p j}, g.plan p = some j → y ∈ j.inputs → p ∈ g.parentsOf y := fun hp hy =>
    ho.matched.mem_iff.2 (inputsOf_of_plan hp ▸ hy)
  have hshared : isSharedAt g y = true := by
    refine List.any_eq_true.2 ⟨p, hmem hj hyj, ?_⟩
    rw [opOf_of_plan hj, Bool.and_eq_true, List.any_eq_true]
    exact ⟨hjm, q, hmem hk hyk, decide_eq_true hne⟩
  have hkeys : t.leaves.keys.length ≤ 1 := by
    have hone : t.leaves.keys ⊆ [z] := fun x hx => by
      rw [hcol.mem_keys, hcol.factors.unique hf] at hx
      exact List.mem_singleton.2 (Multiset.eq_of_mem_replicate hx)
    exact (List.subperm_of_subset hcol.wellFormed.nodup hone).length_le
  have hpow : isPowerAt g y = true := by
    rw [isPowerAt, ht, opOf_of_plan hi, Bool.and_eq_true]
    exact ⟨him, decide_eq_true hkeys⟩
  rw [h y (mem_ids.2 (range_of_plan hi)) hshared] at hpow
  cases hpow

end Factoring

/-- After a pass that factors products, a second one changes nothing, unless a product of equal factors
is used by another product and elsewhere. -/
theorem optimize_factoring_twice {g : Graph} {roots newRoots : List NodeId} {validate : Bool}
    (hc : g.check = .ok ()) (hpow : g.plan.PowersApart)
    (hroots : ∀ r ∈ roots, ∃ n, g.get? r = some n ∧ n.retired = false ∧ n.parents = [])
    (hok : (optimize [Factoring.rule] validate g roots).result = .ok newRoots) (validate' : Bool) :
    (optimize [Factoring.rule] validate' (optimize [Factoring.rule] validate g roots).pass.graph
      newRoots).Unchanged (optimize [Factoring.rule] validate g roots).pass.graph newRoots :=
  Factoring.rests.second_pass ⟨check_eq_ok_iff_ordered.1 hc, hpow⟩ hroots hok validate'

/-- A product of two different factors that is used by another product and elsewhere. -/
def sharedProduct : Graph :=
  (Graph.empty "g").afterCalls [.matrix "A" 2 2 (-1), .matrix "B" 2 2 (-1), .mult 0 1, .mult 2 0,
    .mult 3 1, .mult 4 1, .transpose 3]

theorem optimize_factoring_twice_sharedProduct : sharedProduct.check = .ok () ∧
    sharedProduct.plan.PowersApart ∧
    (optimize [Factoring.rule] true sharedProduct [5, 6]).result = .ok [5, 6] ∧
    (optimize [Factoring.rule] true
      (optimize [Factoring.rule] true sharedProduct [5, 6]).pass.graph [5, 6]).Unchanged
      (optimize [Factoring.rule] true sharedProduct [5, 6]).pass.graph [5, 6] := by
  have hc : sharedProduct.check = .ok () := by decide +kernel
  have hpow : sharedProduct.plan.PowersApart :=
    Factoring.powersApart_of_ids (check_eq_ok_iff_ordered.1 hc) (by decide +kernel)
  have hok : (optimize [Factoring.rule] true sharedProduct [5, 6]).result = .ok [5, 6] := by
    decide +kernel
  have hlive : ∀ r ∈ [5, 6], (sharedProduct.get? r).map (fun n => (n.retired, n.parents)) =
      some (false, []) := by decide +kernel
  refine ⟨hc, hpow, hok, optimize_factoring_twice hc hpow (fun r hr => ?_) hok true⟩
  obtain ⟨n, hn, he⟩ := Option.map_eq_some_iff.1 (hlive r hr)
  exact ⟨n, hn, congrArg Prod.fst he, congrArg Prod.snd he⟩

/-- A product of equal factors that is used by another product and elsewhere. -/
def sharedPower : Graph :=
  (Graph.empty "g").afterCalls [.matrix "A" 2 2 (-1), .matrix "B" 2 2 (-1), .mult 0 0, .mult 2 0,
    .mult 3 1, .mult 4 1, .transpose 3]

/-- The product becomes a power, and only a second pass factors the product above it. -/
theorem optimize_factoring_again : sharedPower.check = .ok () ∧ sharedPower.Refreshed ∧
    (∀ r ∈ [5, 6], ∃ n, sharedPower.get? r = some n ∧ n.retired = false ∧ n.parents = []) ∧
    (optimize [Factoring.rule] true sharedPower [5, 6]).result = .ok [5, 6] ∧
    (optimize [Factoring.rule] true
      (optimize [Factoring.rule] true sharedPower [5, 6]).pass.graph [5, 6]).pass.stats.total = 1 := by
  have hlive : ∀ r ∈ [5, 6], (sharedPower.get? r).map (fun n => (n.retired, n.parents)) =
      some (false, []) := by decide +kernel
  refine ⟨by decide +kernel, refreshed_of_settled (by decide +kernel), fun r hr => ?_,
    by decide +kernel, by decide +kernel⟩
  obtain ⟨n, hn, he⟩ := Option.map_eq_some_iff.1 (hlive r hr)
  exact ⟨n, hn, congrArg Prod.fst he, congrArg Prod.snd he⟩

end Optimizer
end LinearPlan
