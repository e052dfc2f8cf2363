import LinearPlan.Proofs.Completion
import LinearPlan.Proofs.Termination

/-!
# Passes visit everything

At the end of a successful pass all nodes below the returned roots have been visited. Rules mark the
nodes of a new product as visited and ask for its factors, and a merge puts nodes that are not visited
below and above a chain; nodes that were visited before may get new operands in this way. What carries
the proof is that an operand of a visited node is visited, pending, or still ahead of one of the
nodes that the pass is at.

This needs that no step changes a visited node. A node is changed only together with all of its users,
up to the node that is replaced. So a visited node is safe if it has a visited user, or no user at all,
or is the value that a write puts into a row, as the writes of a chain are targets and not values.
-/
namespace LinearPlan

open Optimizer.Slicing (Axis)

namespace Graph
variable {g g' : Graph} {x y q : NodeId} {pos : Nat}

theorem Linked.item_of_slot (h : g.Linked) (hy : (g.inputsOf q)[pos]? = some y) :
    ∃ i, g.plan q = some i ∧ i.inputs[pos]? = some y := by
  obtain ⟨n, hn, hr⟩ := h.user_live (List.mem_of_getElem? hy)
  rw [inputsOf_eq hn] at hy
  exact ⟨_, plan_eq_some hn hr, hy⟩

theorem Linked.item_of_mem (h : g.Linked) (hy : y ∈ g.inputsOf q) :
    ∃ i, g.plan q = some i ∧ y ∈ i.inputs := by
  obtain ⟨pos, hpos⟩ := List.mem_iff_getElem?.1 hy
  obtain ⟨i, hi, hpos⟩ := h.item_of_slot hpos
  exact ⟨i, hi, List.mem_of_getElem? hpos⟩

def IsValue (g : Graph) (x : NodeId) : Prop :=
  ∃ q flags, g.opOf q = some (.leftIndexing flags) ∧ (g.inputsOf q)[1]? = some x

theorem Resized.inputsOf_eq (h : g.Resized g') (hl : g.Linked) (x : NodeId) :
    g'.inputsOf x = g.inputsOf x := by
  rw [h.linked.inputsOf_eq_plan, hl.inputsOf_eq_plan]
  cases hx : g.plan x with
  | none =>
    have hw := congrFun h.wires x
    rw [Plan.wires, Plan.wires, hx] at hw
    rw [Option.map_eq_none_iff.1 hw]
  | some i =>
    obtain ⟨j, hj, -, hin⟩ := h.item hx
    rw [hj]
    exact hin

end Graph

theorem Merge.rewrite_value (m : Merge) (c lower upper : NodeId) (i : Item) :
    (m.rewrite c lower upper i).inputs[1]? = i.inputs[1]? := by
  unfold rewrite
  split <;> cases m.axis <;> simp [Item.narrow, Item.retarget, Axis.lowerPos, Axis.upperPos]

namespace Optimizer
open LinearPlan.Graph

namespace Rework
variable {g g' : Graph} {id root x y q : NodeId} {C : NodeId → Prop} {pos : Nat}

theorem inputsOf_kept (h : Rework g id root C g') (ho : g.Ordered) (hx : @LT.lt Int _ x g.size)
    (hC : ¬ C x) : g'.inputsOf x = (g.inputsOf x).map fun y => if y = id then root else y := by
  rw [(h.ordered ho).inputsOf_eq_plan, ho.inputsOf_eq_plan, h.kept hx hC]
  cases g.plan x <;> rfl

theorem slot_of_kept (h : Rework g id root C g') (ho : g.Ordered)
    (hy : (g.inputsOf x)[pos]? = some y) (hC : ¬ C x) :
    (g'.inputsOf x)[pos]? = some (if y = id then root else y) := by
  obtain ⟨i, hi, -⟩ := ho.item_of_slot hy
  rw [h.inputsOf_kept ho (range_of_plan hi).2 hC, List.getElem?_map, hy]
  rfl

theorem user_of_old (h : Rework g id root C g') (ho : g.Ordered) (hy : @LT.lt Int _ y g.size)
    (hne : y ≠ id) (hmem : y ∈ g'.inputsOf q) : ∃ z, y ∈ g.inputsOf z := by
  obtain ⟨k, hk, hyk⟩ := (h.ordered ho).item_of_mem hmem
  rcases h.user_cases hy hne hk hyk with ⟨j, hj, hyj⟩ | ⟨-, c, j, -, hj, hyj⟩
  · exact ⟨q, inputsOf_of_plan hj ▸ hyj⟩
  · exact ⟨c, inputsOf_of_plan hj ▸ hyj⟩

theorem not_isValue (h : Rework g id root C g') (ho : g.Ordered) (hC : C x) (hne : x ≠ id) :
    ¬ g.IsValue x := by
  rintro ⟨q, flags, hop, hx⟩
  obtain ⟨i, hi, hslot⟩ := ho.item_of_slot hx
  have hiop : i.op = .leftIndexing flags := by
    rw [opOf_of_plan hi] at hop
    exact Option.some.inj hop
  cases h with
  | factor h =>
    obtain ⟨j, hj, hm⟩ := ((Rework.factor h).users hC hne hi (List.mem_of_getElem? hslot)).product
    rw [hi] at hj
    cases hj
    rw [hiop] at hm
    cases hm
  | merge h => exact absurd (h.chained.chain.users hC hne hi hslot).2 (by decide)

theorem isValue (h : Rework g id root C g') (ho : g.Ordered) (hne : x ≠ id) (hx : g.IsValue x) :
    g'.IsValue x := by
  obtain ⟨q, flags, hop, hslot⟩ := hx
  refine ⟨q, flags, h.ops q _ hop, ?_⟩
  by_cases hC : C q
  · obtain ⟨i, hi, hix⟩ := ho.item_of_slot hslot
    have hiop : i.op = .leftIndexing flags := by
      rw [opOf_of_plan hi] at hop
      exact Option.some.inj hop
    cases h with
    | factor h =>
      obtain ⟨j, hj, hm⟩ := hC.product
      rw [hi] at hj
      cases hj
      rw [hiop] at hm
      cases hm
    | @merge m _ h =>
      obtain ⟨lower, upper, -, -, hitem, -⟩ := h.result.done q hC i hi
      rw [inputsOf_of_plan hitem, Merge.rewrite_value]
      exact hix
  · rw [h.slot_of_kept ho hslot hC, if_neg hne]

theorem replaced_cases (h : Rework g id root C g') : (∀ q, id ∉ g'.inputsOf q) ∨ g'.IsValue id := by
  cases h with
  | factor h =>
    refine .inl fun q hq => ?_
    obtain ⟨k, hk, hmem⟩ := h.ordered.item_of_mem hq
    obtain ⟨l, hl⟩ := h.ordered.closed hk _ hmem
    rw [h.gone _ h.inside] at hl
    cases hl
  | @merge m _ h =>
    refine .inr ⟨m.written, m.axis.flags, opOf_of_plan h.result.written, ?_⟩
    rw [inputsOf_of_plan h.result.written]
    rfl

end Rework

def Anchored (g : Graph) (V : List NodeId) (x : NodeId) : Prop :=
  (∀ q, x ∉ g.inputsOf q) ∨ (∃ q ∈ V, x ∈ g.inputsOf q) ∨ g.IsValue x

section Anchored
variable {g g' : Graph} {V V' : List NodeId} {id root x : NodeId} {C : NodeId → Prop}

theorem Anchored.mono (hV : V ⊆ V') (h : Anchored g V x) : Anchored g V' x := by
  rcases h with h | ⟨q, hq, hx⟩ | h
  · exact .inl h
  · exact .inr (.inl ⟨q, hV hq, hx⟩)
  · exact .inr (.inr h)

theorem Anchored.resized (hres : g.Resized g') (hl : g.Linked) (h : Anchored g V x) :
    Anchored g' V x := by
  unfold Anchored IsValue
  simp only [hres.inputsOf_eq hl]
  rcases h with h | h | ⟨q, flags, hop, hx⟩
  · exact .inl h
  · exact .inr (.inl h)
  · exact .inr (.inr ⟨q, flags, hres.ops q _ hop, hx⟩)

theorem Rework.not_visited (h : Rework g id root C g') (ho : g.Ordered) (hun : id ∉ V)
    (hV : ∀ x ∈ V, Anchored g V x) (hC : C x) : x ∉ V := by
  obtain ⟨rank, hrank⟩ := ho.acyclic
  -- By induction on the distance to the replaced node, as users have higher ranks.
  induction hk : rank id - rank x using Nat.strong_induction_on generalizing x with
  | _ k ih =>
    intro hx
    have hne : x ≠ id := fun he => hun (he ▸ hx)
    rcases hV x hx with hnone | ⟨q, hq, hmem⟩ | hval
    · obtain ⟨q, i, hi, hxi⟩ := h.exists_user hC hne
      exact hnone q (inputsOf_of_plan hi ▸ hxi)
    · obtain ⟨i, hi, hxi⟩ := ho.item_of_mem hmem
      have hqC := h.users hC hne hi hxi
      have hlt := hrank hi hxi
      have hle := h.rank_le hrank hqC
      exact ih _ (by omega) hqC rfl hq
    · exact h.not_isValue ho hC hne hval

theorem Anchored.rework (h : Rework g id root C g') (ho : g.Ordered) (hsep : ∀ x, C x → x ∉ V)
    (hx : @LT.lt Int _ x g.size) (ha : Anchored g V x) : Anchored g' V x := by
  by_cases hid : x = id
  · subst hid
    exact h.replaced_cases.imp_right .inr
  · rcases ha with hnone | ⟨q, hq, hmem⟩ | hval
    · refine .inl fun q hq => ?_
      obtain ⟨z, hz⟩ := h.user_of_old ho hx hid hq
      exact hnone z hz
    · obtain ⟨pos, hpos⟩ := List.mem_iff_getElem?.1 hmem
      have hpos' := h.slot_of_kept ho hpos fun hC => hsep q hC hq
      rw [if_neg hid] at hpos'
      exact .inr (.inl ⟨q, hq, List.mem_of_getElem? hpos'⟩)
    · exact .inr (.inr (h.isValue ho hid hval))

theorem Anchored.replacement (h : Rework g id root C g') (ho : g.Ordered) (ha : Anchored g V id) :
    Anchored g' V root := by
  have hslots := (h.takesPlace ho (.refl (h.ordered ho).toLinked)).slots
  rcases ha with hnone | ⟨q, hq, hmem⟩ | ⟨q, flags, hop, hslot⟩
  · refine .inl fun q hq => ?_
    obtain ⟨j, hj, hroot⟩ := (h.ordered ho).item_of_mem hq
    obtain ⟨i, hi, hid⟩ := h.user_of_root ho hj hroot
    exact hnone q (inputsOf_of_plan hi ▸ hid)
  · obtain ⟨pos, hpos⟩ := List.mem_iff_getElem?.1 hmem
    exact .inr (.inl ⟨q, hq, List.mem_of_getElem? (hslots q pos hpos)⟩)
  · exact .inr (.inr ⟨q, flags, h.ops q _ hop, hslots q 1 hslot⟩)

theorem Factoring.Refactored.anchored {M : Multiset NodeId} (h : Refactored g id M root g')
    (ho : g.Ordered) (hV : ∀ y : Int, (g.size : Int) ≤ y → y < (g'.size : Int) → y ∈ V)
    (hx : @LE.le Int _ g.size x) (hne : x ≠ root) : Anchored g' V x := by
  by_cases hused : ∃ q, x ∈ g'.inputsOf q
  · obtain ⟨q, hq⟩ := hused
    obtain ⟨k, hk, hxk⟩ := h.ordered.item_of_mem hq
    refine .inr (.inl ⟨q, hV q ?_ (range_of_plan hk).2, hq⟩)
    by_contra hlt
    have hold := not_le.1 hlt
    have hC : ¬ g.plan.Inside id q := fun hC => by
      rw [h.gone q hC] at hk
      cases hk
    rw [h.kept q hold hC] at hk
    obtain ⟨j, hj, rfl⟩ := Option.map_eq_some_iff.1 hk
    rcases Item.mem_subst.1 hxk with ⟨hxj, -⟩ | ⟨he, -⟩
    · exact absurd (ho.operand_lt hj hxj) (not_lt.2 hx)
    · exact hne he
  · exact .inl fun q hq => hused ⟨q, hq⟩

theorem Factoring.Refactored.factor_anchored {M : Multiset NodeId} (h : Refactored g id M root g')
    (hV : ∀ y : Int, (g.size : Int) ≤ y → y < (g'.size : Int) → y ∈ V) (hx : x ∈ M) :
    Anchored g' V x := by
  rcases h.built.user hx with rfl | ⟨q, i, op, hs, hi, -, hmem⟩
  · obtain ⟨i, hi, -⟩ := h.leaf_kept hx
    have hlt := (range_of_plan hi).2
    have hnew := h.new
    omega
  · exact .inr (.inl ⟨q, hV q hs (range_of_plan hi).2, inputsOf_of_plan hi ▸ hmem⟩)

end Anchored

def Marked (p : Pass) (x : NodeId) : Prop :=
  x ∈ p.visited ∨ x ∈ p.pending ∨ ∃ kv ∈ p.replaced, x = kv.1 ∨ x = kv.2

def AllOffered (rules : List (Rule × Nat)) (p : Pass) (x : NodeId) : Prop :=
  ∀ rule ∈ rules, ⟨rule.2, x⟩ ∈ p.offers

structure Tidy (rules : List (Rule × Nat)) (n : Nat) (p : Pass) : Prop where
  lawful : PassM.Lawful p
  grown : n ≤ p.graph.size
  old : ∀ x, Marked p x → @LT.lt Int _ x p.graph.size
  anchored : ∀ x, Marked p x → Anchored p.graph p.visited x
  offered : ∀ x ∈ p.visited, @LT.lt Int _ x n → AllOffered rules p x

/-- A node that is still ahead: one of a list, or an operand of a node that the pass is at, from the
position on where the pass is. -/
def Due (K : List (NodeId × Nat)) (X : List NodeId) (g : Graph) (y : NodeId) : Prop :=
  y ∈ X ∨ ∃ f ∈ K, ∃ pos, f.2 ≤ pos ∧ (g.inputsOf f.1)[pos]? = some y

/-- No operand of a visited node will be left out. -/
structure Covers (K : List (NodeId × Nat)) (X : List NodeId) (p : Pass) : Prop where
  frames : ∀ f ∈ K, f.1 ∈ p.visited
  operand : ∀ x ∈ p.visited, ∀ y ∈ p.graph.inputsOf x,
    y ∈ p.visited ∨ y ∈ p.pending ∨ Due K X p.graph y

structure Follows (n : Nat) (p p' : Pass) : Prop where
  visited : p.visited ⊆ p'.visited
  offers : p.offers ⊆ p'.offers
  size_le : p.graph.size ≤ p'.graph.size
  anchored : ∀ x, @LT.lt Int _ x p.graph.size → Anchored p.graph p.visited x →
    Anchored p'.graph p'.visited x
  stands : ∀ x ∈ p.visited, p.replaced.lookup x = none → p'.replaced.lookup x = none
  slots : ∀ x ∈ p.visited, ∀ (pos : Nat) y, (p'.graph.inputsOf x)[pos]? = some y →
    (p.graph.inputsOf x)[pos]? = some y ∨ @LE.le Int _ n y

variable {rules : List (Rule × Nat)} {n : Nat} {p p' : Pass} {id root r x y : NodeId}
  {K : List (NodeId × Nat)} {X : List NodeId}

theorem Follows.refl (n : Nat) (p : Pass) : Follows n p p :=
  ⟨List.Subset.refl _, List.Subset.refl _, le_rfl, fun _ _ h => h, fun _ _ h => h,
    fun _ _ _ _ h => .inl h⟩

theorem Follows.trans {p₁ : Pass} (h : Follows n p p₁) (h' : Follows n p₁ p') : Follows n p p' := by
  refine ⟨fun _ hx => h'.visited (h.visited hx), fun _ hx => h'.offers (h.offers hx),
    h.size_le.trans h'.size_le, fun x hx ha => h'.anchored x ?_ (h.anchored x hx ha),
    fun x hx hl => h'.stands x (h.visited hx) (h.stands x hx hl), fun x hx pos y hy => ?_⟩
  · have hle := h.size_le
    omega
  · rcases h'.slots x (h.visited hx) pos y hy with hy | hy
    · exact h.slots x hx pos y hy
    · exact .inr hy

structure Rewires (p : Pass) (id root : NodeId) (p' : Pass) : Prop where
  visited : p.visited ⊆ p'.visited
  pending : p.pending ⊆ p'.pending
  size_le : p.graph.size ≤ p'.graph.size
  kept : ∀ x ∈ p.visited, p'.graph.inputsOf x =
    (p.graph.inputsOf x).map fun y => if y = id then root else y
  anchored : ∀ x, @LT.lt Int _ x p.graph.size → Anchored p.graph p.visited x →
    Anchored p'.graph p'.visited x
  replacement : Anchored p'.graph p'.visited root
  fresh : ∀ x, x ∈ p'.visited ∨ x ∈ p'.pending → (x ∈ p.visited ∨ x ∈ p.pending) ∨
    @LT.lt Int _ x p'.graph.size ∧ Anchored p'.graph p'.visited x
  entered : ∀ x ∈ p'.visited, x ∈ p.visited ∨ @LE.le Int _ p.graph.size x ∧
    ∀ y ∈ p'.graph.inputsOf x, y ∈ p'.visited ∨ y ∈ p'.pending

theorem Rewrites.rewires (h : Rewrites p id root p') (ho : p.graph.Ordered)
    (hold : ∀ x ∈ p.visited, @LT.lt Int _ x p.graph.size)
    (hV : ∀ x ∈ p.visited, Anchored p.graph p.visited x) (hun : id ∉ p.visited)
    (hid : Anchored p.graph p.visited id) : Rewires p id root p' := by
  have hkept : ∀ {C g}, Rework p.graph id root C g → g.Resized p'.graph → ∀ x ∈ p.visited,
      p'.graph.inputsOf x = (p.graph.inputsOf x).map fun y => if y = id then root else y := by
    intro C g hwork hres x hx
    rw [hres.inputsOf_eq (hwork.ordered ho).toLinked]
    exact hwork.inputsOf_kept ho (hold x hx) fun hC => hwork.not_visited ho hun hV hC hx
  have hanch : ∀ {C g}, Rework p.graph id root C g → g.Resized p'.graph →
      p.visited ⊆ p'.visited → ∀ x, @LT.lt Int _ x p.graph.size → Anchored p.graph p.visited x →
        Anchored p'.graph p'.visited x := fun hwork hres hsub x hx ha =>
    ((ha.rework hwork ho (fun _ => hwork.not_visited ho hun hV) hx).resized hres
      (hwork.ordered ho).toLinked).mono hsub
  have hroot : ∀ {C g}, Rework p.graph id root C g → g.Resized p'.graph →
      p.visited ⊆ p'.visited → Anchored p'.graph p'.visited root := fun hwork hres hsub =>
    ((hid.replacement hwork ho).resized hres (hwork.ordered ho).toLinked).mono hsub
  cases h with
  | @factor M leaves g h hrep hres hv hp hleaves hlen =>
    have hwork : Rework p.graph id root _ g := .factor h
    have hsub : p.visited ⊆ p'.visited := fun x hx => (hv x).2 (.inl hx)
    have hnew : ∀ y : Int, (p.graph.size : Int) ≤ y → y < (g.size : Int) → y ∈ p'.visited :=
      fun y hs hlt => (hv y).2 (.inr ⟨hs, by rw [hres.size]; exact hlt⟩)
    have hlt : p.graph.size ≤ p'.graph.size := by rw [hres.size]; exact h.size_le
    refine ⟨hsub, ?_, hlt, hkept hwork hres, hanch hwork hres hsub, hroot hwork hres hsub, ?_, ?_⟩
    · rw [hp]
      exact List.subset_append_left _ _
    · rintro x (hx | hx)
      · rcases (hv x).1 hx with hx | ⟨hs, hlt⟩
        · exact .inl (.inl hx)
        · refine .inr ⟨hlt, ?_⟩
          by_cases hxr : x = root
          · exact hxr ▸ hroot hwork hres hsub
          · exact (h.anchored ho hnew hs hxr).resized hres h.ordered.toLinked
      · rw [hp, List.mem_append, hleaves] at hx
        rcases hx with hx | hx
        · exact .inl (.inr hx)
        · obtain ⟨i, hi, -⟩ := h.leaf_kept hx
          have hxs := (range_of_plan hi).2
          exact .inr ⟨by omega, (h.factor_anchored hnew hx).resized hres h.ordered.toLinked⟩
    · intro x hx
      rcases (hv x).1 hx with hx | ⟨hs, hlt⟩
      · exact .inl hx
      · refine .inr ⟨hs, fun y hy => ?_⟩
        rw [hres.inputsOf_eq h.ordered.toLinked] at hy
        obtain ⟨i, hi, hyi⟩ := h.ordered.item_of_mem hy
        obtain ⟨k, hk, hf⟩ := h.fresh x hs (range_of_plan hi).2
        rw [hi] at hk
        cases hk
        rcases hf.operand y hyi with hyM | ⟨hys, hyx⟩
        · refine .inr ?_
          rw [hp, List.mem_append]
          exact .inr ((hleaves y).2 hyM)
        · exact .inl ((hv y).2 (.inr ⟨hys, hyx.trans hlt⟩))
  | @merge m g h hid' hroot' hres hv hp =>
    subst hid' hroot'
    have hwork : Rework p.graph m.top m.written _ g := .merge h
    have hsub : p.visited ⊆ p'.visited := by rw [hv]; exact List.Subset.refl _
    refine ⟨hsub, ?_, ?_, hkept hwork hres, hanch hwork hres hsub, hroot hwork hres hsub, ?_, ?_⟩
    · rw [hp]
      exact List.Subset.refl _
    · rw [hres.size]
      exact hwork.size_le
    · rw [hv, hp]
      exact fun x hx => .inl hx
    · rw [hv]
      exact fun x hx => .inl hx

namespace Rewires

theorem slot (h : Rewires p id root p') (hx : x ∈ p.visited) {pos : Nat}
    (hy : (p.graph.inputsOf x)[pos]? = some y) :
    (p'.graph.inputsOf x)[pos]? = some (if y = id then root else y) := by
  rw [h.kept x hx, List.getElem?_map, hy]
  rfl

theorem due (h : Rewires p id root p') (hcov : Covers K X p) (hy : Due K X p.graph y) :
    Due K (X.map fun z => if z = id then root else z) p'.graph (if y = id then root else y) := by
  rcases hy with hy | ⟨f, hf, pos, hle, hpos⟩
  · exact .inl (List.mem_map.2 ⟨y, hy, rfl⟩)
  · exact .inr ⟨f, hf, pos, hle, h.slot (hcov.frames f hf) hpos⟩

theorem covers (h : Rewires p id root p') (hcov : Covers K X p) (hid : Due K X p.graph id) :
    Covers K (X.map fun z => if z = id then root else z) p' := by
  refine ⟨fun f hf => h.visited (hcov.frames f hf), fun x hx y' hy' => ?_⟩
  rcases h.entered x hx with hx | ⟨-, hops⟩
  · rw [h.kept x hx] at hy'
    obtain ⟨y, hy, rfl⟩ := List.mem_map.1 hy'
    by_cases hyid : y = id
    · rw [hyid]
      exact .inr (.inr (h.due hcov hid))
    · rcases hcov.operand x hx y hy with hv | hp | hd
      · rw [if_neg hyid]
        exact .inl (h.visited hv)
      · rw [if_neg hyid]
        exact .inr (.inl (h.pending hp))
      · exact .inr (.inr (h.due hcov hd))
  · rcases hops y' hy' with hv | hp
    · exact .inl hv
    · exact .inr (.inl hp)

theorem follows (h : Rewires p id root p') (hun : id ∉ p.visited) (hn : @LE.le Int _ n root)
    (hrep : p'.replaced = (id, root) :: p.replaced) (hoff : p.offers ⊆ p'.offers) :
    Follows n p p' := by
  refine ⟨h.visited, hoff, h.size_le, h.anchored, fun x hx hl => ?_, fun x hx pos y' hy' => ?_⟩
  · have hne : x ≠ id := fun he => hun (he ▸ hx)
    rw [hrep, List.lookup_cons, beq_eq_false_iff_ne.2 hne]
    exact hl
  · rw [h.kept x hx, List.getElem?_map, Option.map_eq_some_iff] at hy'
    obtain ⟨y, hy, rfl⟩ := hy'
    split
    · exact .inr hn
    · exact .inl hy

end Rewires

namespace PassM

structure Answered (rules : List (Rule × Nat)) (n : Nat) (p : Pass) (id r : NodeId) (p' : Pass) :
    Prop where
  tidy : Tidy rules n p'
  follows : Follows n p p'
  anchored : Anchored p'.graph p'.visited r
  offered : @LT.lt Int _ r n → AllOffered rules p' r
  stands : p.replaced.lookup id = none → p'.replaced.lookup r = none
  slot : ∀ x ∈ p.visited, ∀ pos : Nat, (p.graph.inputsOf x)[pos]? = some id →
    (p'.graph.inputsOf x)[pos]? = some r
  covers : ∀ K X, Covers K X p → Due K X p.graph id →
    Covers K (X.map fun z => if z = id then r else z) p'

theorem Alike.answered (h : Alike p p') (hoff : p.offers ⊆ p'.offers) (hall : AllOffered rules p' id)
    (ht : Tidy rules n p) (hid : Anchored p.graph p.visited id) : Answered rules n p id id p' := by
  have hmark : ∀ {x}, Marked p' x → Marked p x := fun {x} hx => by
    unfold Marked at hx ⊢
    rwa [h.visited, h.pending, h.replaced] at hx
  have hlawful : Lawful p' := by
    refine ⟨h.graph.symm ▸ ht.lawful.ordered, ?_⟩
    unfold Upward
    rw [h.replaced]
    exact ht.lawful.upward
  refine ⟨⟨hlawful, ?_, fun x hx => ?_, fun x hx => ?_, fun x hx hlt rule hr => ?_⟩,
    ⟨?_, hoff, ?_, fun x _ ha => ?_, fun x _ hl => ?_, fun x _ pos y hy => ?_⟩, ?_, fun _ => hall,
    fun hl => ?_, fun x _ pos hpos => ?_, fun K X hcov _ => ?_⟩
  · rw [h.graph]
    exact ht.grown
  · rw [h.graph]
    exact ht.old x (hmark hx)
  · rw [h.graph, h.visited]
    exact ht.anchored x (hmark hx)
  · exact hoff (ht.offered x (h.visited ▸ hx) hlt rule hr)
  · rw [h.visited]
    exact List.Subset.refl _
  · rw [h.graph]
  · rw [h.graph, h.visited]
    exact ha
  · rw [h.replaced]
    exact hl
  · rw [h.graph] at hy
    exact .inl hy
  · rw [h.graph, h.visited]
    exact hid
  · rw [h.replaced]
    exact hl
  · rw [h.graph]
    exact hpos
  · have hX : (X.map fun z => if z = id then id else z) = X := by
      refine (List.map_congr_left fun z _ => ?_).trans (List.map_id X)
      split
      · exact ‹z = id›.symm
      · rfl
    rw [hX]
    refine ⟨fun f hf => h.visited.symm ▸ hcov.frames f hf, fun x hx y hy => ?_⟩
    rw [h.visited, h.pending, h.graph]
    rw [h.visited] at hx
    rw [h.graph] at hy
    exact hcov.operand x hx y hy

theorem Offered.answered (h : Offered rules p id r p') (ht : Tidy rules n p) (hun : id ∉ p.visited)
    (hid : Anchored p.graph p.visited id) : Answered rules n p id r p' := by
  rcases h.cases with ⟨rfl, hsame⟩ | ⟨hrew, hrep⟩
  · exact Alike.answered hsame h.offers (h.all rfl) ht hid
  · have hwire := hrew.rewires ht.lawful.ordered (fun x hx => ht.old x (.inl hx))
      (fun x hx => ht.anchored x (.inl hx)) hun hid
    have hgrown := ht.grown
    have hold := hrew.id_old
    have hnew := hrew.root_new
    have hle := hwire.size_le
    have hn : @LE.le Int _ n r := by omega
    have hmark : ∀ {x}, Marked p' x → Marked p x ∨ x = id ∨
        @LT.lt Int _ x p'.graph.size ∧ Anchored p'.graph p'.visited x := by
      intro x hx
      rcases hx with hx | hx | ⟨kv, hkv, hx⟩
      · exact (hwire.fresh x (.inl hx)).imp (Or.imp_right .inl) .inr
      · exact (hwire.fresh x (.inr hx)).imp (Or.imp_right .inl) .inr
      · rw [hrep] at hkv
        rcases List.mem_cons.1 hkv with rfl | hkv
        · rcases hx with rfl | rfl
          · exact .inr (.inl rfl)
          · obtain ⟨i, hi⟩ := hrew.root_live
            exact .inr (.inr ⟨(range_of_plan hi).2, hwire.replacement⟩)
        · exact .inl (.inr (.inr ⟨kv, hkv, hx⟩))
    refine ⟨⟨(h.lawful ht.lawful hun).1, hgrown.trans hle, fun x hx => ?_, fun x hx => ?_,
      fun x hx hlt rule hr => ?_⟩, hwire.follows hun hn hrep h.offers, hwire.replacement,
      fun hlt => absurd hlt (by omega), fun _ => ?_, fun x hx pos hpos => ?_,
      fun K X hcov hdue => hwire.covers hcov hdue⟩
    · rcases hmark hx with hx | rfl | hx
      · have hlt := ht.old x hx
        omega
      · omega
      · exact hx.1
    · rcases hmark hx with hx | rfl | hx
      · exact hwire.anchored x (ht.old x hx) (ht.anchored x hx)
      · exact hwire.anchored x hold hid
      · exact hx.2
    · rcases hwire.entered x hx with hx | ⟨hs, -⟩
      · exact h.offers (ht.offered x hx hlt rule hr)
      · omega
    · rw [hrep, List.lookup_eq_none_iff]
      intro kv hkv
      rw [bne_iff_ne]
      intro he
      rcases List.mem_cons.1 hkv with rfl | hkv
      · rw [he] at hnew
        omega
      · have hlt := ht.old kv.1 (.inr (.inr ⟨kv, hkv, .inl rfl⟩))
        rw [← he] at hlt
        omega
    · rw [hwire.slot hx hpos, if_pos rfl]

theorem offer_answers (hrules : ∀ r ∈ rules, Standard r.1) (ht : Tidy rules n p)
    (hun : id ∉ p.visited) (hid : Anchored p.graph p.visited id) :
    Ends (offer rules id) p (fun _ _ => True) (Answered rules n p id) :=
  (offer_ends hrules ht.lawful.ordered id).imp (fun _ _ _ => trivial) fun _ _ h =>
    h.answered ht hun hid

def Starts (rules : List (Rule × Nat)) (n : Nat) (K : List (NodeId × Nat)) (p : Pass) : Task → Prop
  | .node r => Covers K [r] p ∧ Anchored p.graph p.visited r ∧
      (r ∉ p.visited → @LT.lt Int _ r n → AllOffered rules p r)
  | .operands id pos => Covers ((id, pos) :: K) [] p
  | .pending => Covers K [] p

def Achieves (p p' : Pass) : Task → Prop
  | .node r => r ∈ p'.visited ∧ (p.replaced.lookup r = none → p'.replaced.lookup r = none)
  | .operands _ _ => True
  | .pending => p'.pending = []

structure Arrives (rules : List (Rule × Nat)) (n : Nat) (K : List (NodeId × Nat)) (task : Task)
    (p p' : Pass) : Prop where
  tidy : Tidy rules n p'
  covers : Covers K [] p'
  follows : Follows n p p'
  achieves : Achieves p p' task

theorem Covers.weaken (h : Covers K [] p) (X : List NodeId) : Covers K X p := by
  refine ⟨h.frames, fun x hx y hy => ?_⟩
  rcases h.operand x hx y hy with hv | hp | hd | hd
  · exact .inl hv
  · exact .inr (.inl hp)
  · cases hd
  · exact .inr (.inr (.inr hd))

theorem anchored_of_slot {g : Graph} {V : List NodeId} {pos : Nat} (hx : x ∈ V)
    (hy : (g.inputsOf x)[pos]? = some y) : Anchored g V y :=
  .inr (.inl ⟨x, hx, List.mem_of_getElem? hy⟩)

section Tasks
variable {fuel pos : Nat} (ih : ∀ K task p, Tidy rules n p → Starts rules n K p task →
  Ends (descend rules fuel task) p (fun _ _ => True) fun _ p' => Arrives rules n K task p p')

include ih

theorem node_covers (ht : Tidy rules n p) (hs : Starts rules n K p (.node r)) :
    Ends (descend rules (fuel + 1) (.node r)) p (fun _ _ => True) fun _ p' =>
      Arrives rules n K (.node r) p p' := by
  obtain ⟨hcov, hanch, hoff⟩ := hs
  refine descend_node_ends (fun hv => ⟨ht, ⟨hcov.frames, fun x hx y hy => ?_⟩, .refl n p, hv, id⟩)
    (fun _ _ _ _ => trivial) fun hv p₁ hent m hm => ?_
  · rcases hcov.operand x hx y hy with hy | hy | hy | hy
    · exact .inl hy
    · exact .inr (.inl hy)
    · rw [List.mem_singleton.1 hy]
      exact .inl hv
    · exact .inr (.inr (.inr hy))
  · have hsub : p.visited ⊆ p₁.visited := by
      rw [hent.visited]
      exact List.subset_cons_self _ _
    have hself : r ∈ p₁.visited := by
      rw [hent.visited]
      exact List.mem_cons_self
    have hmark : ∀ {x}, Marked p₁ x → x = r ∨ Marked p x := by
      intro x hx
      unfold Marked at hx ⊢
      rw [hent.visited, hent.pending, hent.replaced, List.mem_cons] at hx
      exact or_assoc.1 hx
    have ht₁ : Tidy rules n p₁ := by
      refine ⟨hent.lawful ht.lawful, hent.graph.symm ▸ ht.grown, fun x hx => ?_, fun x hx => ?_,
        fun x hx hlt rule hr => ?_⟩
      · rw [hent.graph]
        rcases hmark hx with rfl | hx
        · exact (range_of_get? hm).2
        · exact ht.old x hx
      · rw [hent.graph]
        rcases hmark hx with rfl | hx
        · exact hanch.mono hsub
        · exact (ht.anchored x hx).mono hsub
      · rw [hent.offers]
        rw [hent.visited] at hx
        rcases List.mem_cons.1 hx with rfl | hx
        · exact hoff hv hlt rule hr
        · exact ht.offered x hx hlt rule hr
    have hcov₁ : Covers ((r, 0) :: K) [] p₁ := by
      refine ⟨fun f hf => ?_, fun x hx y hy => ?_⟩
      · rcases List.mem_cons.1 hf with rfl | hf
        · exact hself
        · exact hsub (hcov.frames f hf)
      · rw [hent.graph] at hy
        rw [hent.visited] at hx
        rcases List.mem_cons.1 hx with rfl | hx
        · obtain ⟨pos, hpos⟩ := List.mem_iff_getElem?.1 hy
          refine .inr (.inr (.inr ⟨_, List.mem_cons_self, pos, Nat.zero_le _, ?_⟩))
          rw [hent.graph]
          exact hpos
        · rcases hcov.operand x hx y hy with hy | hy | hy | ⟨f, hf, hslot⟩
          · exact .inl (hsub hy)
          · exact .inr (.inl (hent.pending.symm ▸ hy))
          · rw [List.mem_singleton.1 hy]
            exact .inl hself
          · rw [hent.graph]
            exact .inr (.inr (.inr ⟨f, List.mem_cons_of_mem _ hf, hslot⟩))
    have hfol : Follows n p p₁ := by
      refine ⟨hsub, ?_, ?_, fun x _ ha => ?_, fun x _ hl => ?_, fun x _ pos y hy => ?_⟩
      · rw [hent.offers]
        exact List.Subset.refl _
      · rw [hent.graph]
      · rw [hent.graph]
        exact ha.mono hsub
      · rw [hent.replaced]
        exact hl
      · rw [hent.graph] at hy
        exact .inl hy
    refine (ih K (.operands r 0) p₁ ht₁ hcov₁).mono fun _ p' harr => ?_
    refine ⟨harr.tidy, harr.covers, hfol.trans harr.follows, harr.follows.visited hself, fun hl => ?_⟩
    exact harr.follows.stands r hself (hent.replaced.symm ▸ hl)

theorem operands_covers (hrules : ∀ r ∈ rules, Standard r.1) (ht : Tidy rules n p)
    (hs : Starts rules n K p (.operands id pos)) :
    Ends (descend rules (fuel + 1) (.operands id pos)) p (fun _ _ => True) fun _ p' =>
      Arrives rules n K (.operands id pos) p p' := by
  have hcov : Covers ((id, pos) :: K) [] p := hs
  have hid : id ∈ p.visited := hcov.frames _ List.mem_cons_self
  -- Going on at the operand, when everything that was asked for has been visited.
  have hgo : ∀ {q}, Tidy rules n q → Covers ((id, pos) :: K) [] q → Follows n p q →
      (∀ next, (q.graph.inputsOf id)[pos]? = some next → next ∉ q.visited →
        @LT.lt Int _ next n → AllOffered rules q next) →
      GoesOn rules fuel id pos (fun _ _ => True)
        (fun _ p' => Arrives rules n K (.operands id pos) p p') q := by
    intro q htq hcovq hfol hoff
    refine ⟨fun _ _ => trivial, fun next hnext => ?_⟩
    have hcov' : Covers ((id, pos + 1) :: K) [next] q := by
      refine ⟨fun f hf => ?_, fun x hx y hy => ?_⟩
      · rcases List.mem_cons.1 hf with rfl | hf
        · exact hfol.visited hid
        · exact hcovq.frames f (List.mem_cons_of_mem _ hf)
      · rcases hcovq.operand x hx y hy with hy | hy | hy | ⟨f, hf, k, hle, hslot⟩
        · exact .inl hy
        · exact .inr (.inl hy)
        · cases hy
        · rcases List.mem_cons.1 hf with rfl | hf
          · by_cases hk : k = pos
            · rw [hk] at hslot
              have he : next = y := Option.some.inj (hnext.symm.trans hslot)
              exact .inr (.inr (.inl (List.mem_singleton.2 he.symm)))
            · have hlt : pos + 1 ≤ k := by
                have hle' : pos ≤ k := hle
                omega
              exact .inr (.inr (.inr ⟨_, List.mem_cons_self, k, hlt, hslot⟩))
          · exact .inr (.inr (.inr ⟨f, List.mem_cons_of_mem _ hf, k, hle, hslot⟩))
    refine (ih _ (.node next) q htq ⟨hcov', anchored_of_slot (hfol.visited hid) hnext,
      hoff next hnext⟩).mono fun _ q₁ harr => ?_
    refine (ih K (.operands id (pos + 1)) q₁ harr.tidy harr.covers).mono fun _ q₂ harr₂ => ?_
    exact ⟨harr₂.tidy, harr₂.covers, (hfol.trans harr.follows).trans harr₂.follows, trivial⟩
  refine descend_operands_ends (fun _ _ => trivial) (fun hnone => ?_) (fun child hpos hv => ?_)
    fun child hpos hv => ?_
  · refine ⟨ht, ⟨fun f hf => hcov.frames f (List.mem_cons_of_mem _ hf), fun x hx y hy => ?_⟩,
      .refl n p, trivial⟩
    rcases hcov.operand x hx y hy with hy | hy | hy | ⟨f, hf, k, hle, hslot⟩
    · exact .inl hy
    · exact .inr (.inl hy)
    · cases hy
    · rcases List.mem_cons.1 hf with rfl | hf
      · have hle' : pos ≤ k := hle
        have hslot' : (p.graph.inputsOf id)[k]? = some y := hslot
        have hlen := List.getElem?_eq_none_iff.1 hnone
        obtain ⟨hlt, -⟩ := List.getElem?_eq_some_iff.1 hslot'
        omega
      · exact .inr (.inr (.inr ⟨f, hf, k, hle, hslot⟩))
  · refine hgo ht hcov (.refl n p) fun next hnext hnv => absurd ?_ hnv
    rw [hpos] at hnext
    exact Option.some.inj hnext ▸ hv
  · refine (offer_answers hrules ht hv (anchored_of_slot hid hpos)).mono fun r p₁ hans =>
      ⟨fun _ _ => trivial, fun _ => ?_⟩
    have hcov₁ := hans.covers _ _ hcov (.inr ⟨_, List.mem_cons_self, pos, le_rfl, hpos⟩)
    refine (ih _ .pending p₁ hans.tidy hcov₁).mono fun _ p₂ harr => ?_
    refine hgo harr.tidy harr.covers (hans.follows.trans harr.follows) fun next hnext _ hlt => ?_
    rcases harr.follows.slots id (hans.follows.visited hid) pos next hnext with hslot | hle
    · rw [hans.slot id hid pos hpos] at hslot
      rw [← Option.some.inj hslot] at hlt ⊢
      exact fun rule hr => harr.follows.offers (hans.offered hlt rule hr)
    · omega

theorem pending_covers (hrules : ∀ r ∈ rules, Standard r.1) (ht : Tidy rules n p)
    (hs : Starts rules n K p .pending) :
    Ends (descend rules (fuel + 1) .pending) p (fun _ _ => True) fun _ p' =>
      Arrives rules n K .pending p p' := by
  have hcov : Covers K [] p := hs
  have htaken : ∀ {id rest}, p.pending = id :: rest → Tidy rules n { p with pending := rest } ∧
      Covers K [id] { p with pending := rest } ∧ Follows n p { p with pending := rest } := by
    intro id rest hpend
    have hmark : ∀ {x}, Marked { p with pending := rest } x → Marked p x := by
      rintro x (hx | hx | hx)
      · exact .inl hx
      · exact .inr (.inl (hpend ▸ List.mem_cons_of_mem id hx))
      · exact .inr (.inr hx)
    refine ⟨⟨⟨ht.lawful.ordered, ht.lawful.upward⟩, ht.grown, fun x hx => ht.old x (hmark hx),
      fun x hx => ht.anchored x (hmark hx), ht.offered⟩, ⟨hcov.frames, fun x hx y hy => ?_⟩, ?_⟩
    · rcases hcov.operand x hx y hy with hy | hy | hy | hy
      · exact .inl hy
      · rw [hpend] at hy
        rcases List.mem_cons.1 hy with rfl | hy
        · exact .inr (.inr (.inl List.mem_cons_self))
        · exact .inr (.inl hy)
      · cases hy
      · exact .inr (.inr (.inr hy))
    · exact ⟨List.Subset.refl _, List.Subset.refl _, le_rfl, fun _ _ h => h, fun _ _ h => h,
        fun _ _ _ _ h => .inl h⟩
  have hrest : ∀ {q}, Tidy rules n q → Covers K [] q → Follows n p q →
      Ends (descend rules fuel .pending) q (fun _ _ => True) fun _ p' =>
        Arrives rules n K .pending p p' := fun htq hcovq hfol =>
    (ih K .pending _ htq hcovq).mono fun _ p' harr =>
      ⟨harr.tidy, harr.covers, hfol.trans harr.follows, harr.achieves⟩
  refine descend_pending_ends (fun hnil => ⟨ht, hcov, .refl n p, hnil⟩) (fun _ _ _ _ _ => trivial)
    (fun id rest hpend hskip => ?_) fun id rest i hpend hv hi => ?_
  · obtain ⟨ht₁, hcov₁, hfol₁⟩ := htaken hpend
    refine hrest ht₁ ⟨hcov₁.frames, fun x hx y hy => ?_⟩ hfol₁
    rcases hcov₁.operand x hx y hy with hyv | hyp | hyx | hyd
    · exact .inl hyv
    · exact .inr (.inl hyp)
    · rw [List.mem_singleton.1 hyx] at hy ⊢
      rcases hskip with hv | hnone
      · exact .inl hv
      · obtain ⟨k, hk, hmem⟩ := ht₁.lawful.ordered.item_of_mem hy
        obtain ⟨l, hl⟩ := ht₁.lawful.ordered.closed hk _ hmem
        rw [hnone] at hl
        cases hl
    · exact .inr (.inr (.inr hyd))
  · obtain ⟨ht₁, hcov₁, hfol₁⟩ := htaken hpend
    have hanch := ht.anchored id (.inr (.inl (hpend ▸ List.mem_cons_self)))
    refine (offer_answers hrules ht₁ hv hanch).mono fun r p₁ hans => ?_
    have hcov₂ := hans.covers _ _ hcov₁ (.inl List.mem_cons_self)
    rw [List.map_singleton, if_pos rfl] at hcov₂
    refine (ih K (.node r) p₁ hans.tidy ⟨hcov₂, hans.anchored, fun _ => hans.offered⟩).mono
      fun _ p₂ harr => ?_
    exact hrest harr.tidy harr.covers ((hfol₁.trans hans.follows).trans harr.follows)

end Tasks

theorem descend_covers (hrules : ∀ r ∈ rules, Standard r.1) (fuel : Nat) (K : List (NodeId × Nat))
    (task : Task) (p : Pass) (ht : Tidy rules n p) (hs : Starts rules n K p task) :
    Ends (descend rules fuel task) p (fun _ _ => True) fun _ p' => Arrives rules n K task p p' := by
  induction fuel generalizing K task p with
  | zero => cases task <;> trivial
  | succ fuel ih =>
    cases task with
    | node r => exact node_covers ih ht hs
    | operands id pos => exact operands_covers ih hrules ht hs
    | pending => exact pending_covers ih hrules ht hs

structure Resting (rules : List (Rule × Nat)) (n : Nat) (p : Pass) : Prop where
  tidy : Tidy rules n p
  covers : Covers [] [] p
  idle : p.pending = []

theorem settle_covers (hrules : ∀ r ∈ rules, Standard r.1) (h : Resting rules n p)
    (ha : Anchored p.graph p.visited r) :
    Ends (settle rules r) p (fun _ _ => True) fun t p' =>
      Resting rules n p' ∧ Follows n p p' ∧ t ∈ p'.visited := by
  have hlast : p.replaced.lookup (p.latest r) = none := h.tidy.lawful.upward.settles r
  have hanch : Anchored p.graph p.visited (p.latest r) := by
    rcases Pass.latestFrom_mem (l := p.replaced) p.replaced.length r with he | ⟨k, hmem⟩
    · rw [Pass.latest, he]
      exact ha
    · exact h.tidy.anchored _ (.inr (.inr ⟨_, hmem, .inr rfl⟩))
  have hgo : ∀ {t q}, Tidy rules n q → Covers [] [t] q → Anchored q.graph q.visited t →
      (t ∉ q.visited → @LT.lt Int _ t n → AllOffered rules q t) → q.replaced.lookup t = none →
      Follows n p q → Descends rules (fun _ _ => True) (fun t p' =>
        Resting rules n p' ∧ Follows n p p' ∧ t ∈ p'.visited) t q := by
    intro t q htq hcov hat hoff hl hfol
    refine (descend_covers hrules _ [] (.node t) q htq ⟨hcov, hat, hoff⟩).mono fun _ q₁ harr => ?_
    refine (descend_covers hrules _ [] .pending q₁ harr.tidy harr.covers).mono fun _ q₂ harr₂ => ?_
    obtain ⟨hv, hstand⟩ := harr.achieves
    have hlat : q₂.latest t = t :=
      Pass.latestFrom_of_none (harr₂.follows.stands t hv (hstand hl)) _
    rw [hlat]
    exact ⟨⟨harr₂.tidy, harr₂.covers, harr₂.achieves⟩,
      (hfol.trans harr.follows).trans harr₂.follows, harr₂.follows.visited hv⟩
  refine settle_ends (fun hv => ?_) fun hv => ?_
  · exact hgo h.tidy (Covers.weaken h.covers _) hanch (fun hnv => absurd hv hnv) hlast (.refl n p)
  · refine (offer_answers hrules h.tidy hv hanch).mono fun t p₁ hans => ?_
    have hcov := hans.covers [] [p.latest r] (Covers.weaken h.covers _) (.inl List.mem_cons_self)
    rw [List.map_singleton, if_pos rfl] at hcov
    exact hgo hans.tidy hcov hans.anchored (fun _ => hans.offered) (hans.stands hlast) hans.follows

theorem run_covers {rules : List Rule} (hrules : ∀ r ∈ rules, Standard r) {roots : List NodeId}
    (h : Resting rules.zipIdx n p)
    (hroots : ∀ r ∈ roots, @LT.lt Int _ r p.graph.size ∧ Anchored p.graph p.visited r) :
    Ends (run rules roots) p (fun _ _ => True) fun newRoots p' =>
      Resting rules.zipIdx n p' ∧ ∀ t ∈ newRoots, t ∈ p'.visited := by
  have hzip : ∀ r ∈ rules.zipIdx, Standard r.1 := fun r hr =>
    hrules r.1 (List.fst_mem_of_mem_zipIdx hr)
  have hends := ends_mapM (E := fun _ _ => True) (f := settle rules.zipIdx) (l := roots)
    (I := fun q => Resting rules.zipIdx n q ∧
      ∀ r ∈ roots, @LT.lt Int _ r q.graph.size ∧ Anchored q.graph q.visited r)
    (R := fun t q => t ∈ q.visited) ⟨h, hroots⟩ fun r hr q hq =>
      (settle_covers hzip hq.1 (hq.2 r hr).2).mono fun t q' hq' => by
        obtain ⟨hrest, hfol, ht⟩ := hq'
        refine ⟨⟨hrest, fun r hr => ⟨?_, hfol.anchored r (hq.2 r hr).1 (hq.2 r hr).2⟩⟩, ht,
          fun _ hv => hfol.visited hv⟩
        have hlt := (hq.2 r hr).1
        have hle := hfol.size_le
        omega
  exact hends.mono fun newRoots p' hp' => ⟨hp'.1.1, hp'.2.1⟩

end PassM

theorem run_of_optimize {rules : List Rule} {validate : Bool} {g : Graph}
    {roots newRoots : List NodeId} (h : (optimize rules validate g roots).result = .ok newRoots) :
    PassM.run rules roots (.start g) = .ok newRoots (optimize rules validate g roots).pass := by
  unfold optimize at h ⊢
  cases hrun : PassM.run rules roots (.start g) with
  | error cause p =>
    rw [hrun] at h
    cases cause with
    | inRule rule node cause => cases cause <;> cases h
    | _ => cases h
  | ok found p =>
    rw [hrun] at h
    cases validate with
    | false =>
      cases h
      rfl
    | true =>
      cases hcheck : p.graph.check with
      | error cause => simp [hcheck] at h
      | ok u =>
        simp only [hcheck, if_true] at h ⊢
        cases h
        rfl

theorem anchored_of_parents {g : Graph} (hl : g.Linked) {m : Node} (hn : g.get? x = some m)
    (hp : m.parents = []) (V : List NodeId) : Anchored g V x := by
  refine .inl fun q hq => ?_
  rw [← hl.matched.mem_iff, parentsOf_eq hn, hp] at hq
  cases hq

abbrev DependsOn (g : Graph) : NodeId → NodeId → Prop :=
  Relation.ReflTransGen fun x y => y ∈ g.inputsOf x

theorem PassM.Resting.visited_of_dependsOn (h : PassM.Resting rules n p) (hx : x ∈ p.visited)
    (hy : DependsOn p.graph x y) : y ∈ p.visited := by
  induction hy with
  | refl => exact hx
  | tail _ hz ih =>
    rcases h.covers.operand _ ih _ hz with hv | hp | hd | ⟨f, hf, -⟩
    · exact hv
    · rw [h.idle] at hp
      cases hp
    · cases hd
    · cases hf

theorem resting_of_optimize {rules : List Rule} {g : Graph} {roots newRoots : List NodeId}
    {validate : Bool} (hrules : ∀ r ∈ rules, Standard r) (ho : g.Ordered)
    (hroots : ∀ r ∈ roots, ∃ n, g.get? r = some n ∧ n.retired = false ∧ n.parents = [])
    (hok : (optimize rules validate g roots).result = .ok newRoots) :
    PassM.Resting rules.zipIdx g.size (optimize rules validate g roots).pass ∧
      ∀ r ∈ newRoots, r ∈ (optimize rules validate g roots).pass.visited := by
  have hmark : ∀ x, ¬ Marked (.start g) x := by
    rintro x (hx | hx | ⟨kv, hkv, -⟩)
    · cases hx
    · cases hx
    · cases hkv
  have hstart : PassM.Resting rules.zipIdx g.size (.start g) :=
    ⟨⟨⟨ho, nofun⟩, le_rfl, fun x hx => absurd hx (hmark x), fun x hx => absurd hx (hmark x), nofun⟩,
      ⟨nofun, nofun⟩, rfl⟩
  have hanch : ∀ r ∈ roots, @LT.lt Int _ r g.size ∧ Anchored g [] r := fun r hr => by
    obtain ⟨m, hm, -, hp⟩ := hroots r hr
    exact ⟨(range_of_get? hm).2, anchored_of_parents ho.toLinked hm hp []⟩
  exact (ends_ok (run_of_optimize hok)).1 (PassM.run_covers hrules hstart hanch)

/-- After a pass everything below the new roots has been visited, and what was there before the pass
has been offered to all rules. -/
theorem optimize_covers {rules : List Rule} {g : Graph} {roots newRoots : List NodeId}
    {validate : Bool} (hrules : ∀ r ∈ rules, Standard r) (hc : g.check = .ok ())
    (hroots : ∀ r ∈ roots, ∃ n, g.get? r = some n ∧ n.retired = false ∧ n.parents = [])
    (hok : (optimize rules validate g roots).result = .ok newRoots) :
    ∀ r ∈ newRoots, ∀ x : Int, DependsOn (optimize rules validate g roots).pass.graph r x →
      x ∈ (optimize rules validate g roots).pass.visited ∧
      (x < (g.size : Int) → ∀ k < rules.length,
        ⟨k, x⟩ ∈ (optimize rules validate g roots).pass.offers) := by
  obtain ⟨hrest, hnew⟩ := resting_of_optimize hrules (check_eq_ok_iff_ordered.1 hc) hroots hok
  intro r hr x hx
  have hv := hrest.visited_of_dependsOn (hnew r hr) hx
  refine ⟨hv, fun hlt k hk => hrest.tidy.offered x hv hlt (rules[k], k) ?_⟩
  exact List.mem_zipIdx_iff_getElem?.2 (List.getElem?_eq_getElem hk)

theorem optimize_covers_writesAndPower : writesAndPower.check = .ok () ∧
    (optimize [Slicing.rule [.row], Factoring.rule] true writesAndPower [7]).result = .ok [7] ∧
    ∀ x : Int, DependsOn
      (optimize [Slicing.rule [.row], Factoring.rule] true writesAndPower [7]).pass.graph 7 x →
      x ∈ (optimize [Slicing.rule [.row], Factoring.rule] true writesAndPower [7]).pass.visited ∧
      (x < (writesAndPower.size : Int) → ∀ k < 2, ⟨k, x⟩ ∈
        (optimize [Slicing.rule [.row], Factoring.rule] true writesAndPower [7]).pass.offers) := by
  have hc : writesAndPower.check = .ok () := by decide +kernel
  have hok : (optimize [Slicing.rule [.row], Factoring.rule] true writesAndPower [7]).result =
      .ok [7] := by decide +kernel
  have hlive : (writesAndPower.get? 7).map (fun n => (n.retired, n.parents)) = some (false, []) := by
    decide +kernel
  refine ⟨hc, hok, optimize_covers ?_ hc ?_ hok 7 List.mem_cons_self⟩
  · intro r hr
    rcases List.mem_pair.1 hr with rfl | rfl
    · exact .inr ⟨_, rfl⟩
    · exact .inl rfl
  · intro r hr
    rw [List.mem_singleton.1 hr]
    obtain ⟨n, hn, he⟩ := Option.map_eq_some_iff.1 hlive
    exact ⟨n, hn, congrArg Prod.fst he, congrArg Prod.snd he⟩

end Optimizer
end LinearPlan
