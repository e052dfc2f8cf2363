import LinearPlan.Proofs.QuietPasses
import LinearPlan.Proofs.SettledRules

/-!
# Merging writes in one pass

A write can be merged with its target if that is a write to the same row, nothing else uses it, and
there is more than one row of more than one entry. On a settled graph these are the writes that the
rule merges. A merge leaves only such writes behind that could be merged before: the writes of the
chain have one row from then on, and a write above the chain meets a write to the same row, with the
same uses, as it did before. So a second pass over the result of a pass changes nothing.
-/
namespace LinearPlan

open Optimizer.Slicing (Axis)

namespace Dim

def Many (d : Dim) : Prop := ∃ n, d = .known n ∧ 1 < n

theorem many_ofInt {d : Int} : (ofInt d).Many ↔ 1 < d := by
  constructor
  · rintro ⟨n, hn, hlt⟩
    have heq := eq_of_ofInt hn
    omega
  · intro h
    exact ⟨d.toNat, ofInt_of_nonneg (by omega) (by omega), by omega⟩

theorem not_many_one : ¬ Many .one := by
  rintro ⟨n, h, -⟩
  cases h

end Dim

namespace Optimizer.Slicing.Axis

theorem across_matrix (axis : Axis) (s : Shape) :
    axis.across (.matrix (.ofInt s.rows) (.ofInt s.cols)) = .ofInt (axis.width s) := by
  cases axis <;> rfl

theorem along_matrix (axis : Axis) (s : Shape) :
    axis.along (.matrix (.ofInt s.rows) (.ofInt s.cols)) = .ofInt (axis.height s) := by
  cases axis <;> rfl

theorem eq_of_flag {axis axis' : Axis} (h : axis'.flag axis.flags = true) : axis' = axis := by
  cases axis <;> cases axis' <;> first | rfl | cases h

theorem two_le_lowerPos (axis : Axis) : 2 ≤ axis.lowerPos := by
  cases axis <;> decide

end Optimizer.Slicing.Axis

namespace Item
variable {i : Item} {old new y : NodeId} {pos : Nat}

def IsWrite (i : Item) : Prop := ∃ flags, i.op = .leftIndexing flags

theorem getElem?_subst : (i.subst old new).inputs[pos]? =
    i.inputs[pos]?.map fun y => if y = old then new else y :=
  List.getElem?_map

theorem exists_of_subst (h : (i.subst old new).inputs[pos]? = some y) :
    ∃ z, i.inputs[pos]? = some z ∧ y = if z = old then new else z := by
  rw [getElem?_subst] at h
  obtain ⟨z, hz, rfl⟩ := Option.map_eq_some_iff.1 h
  exact ⟨z, hz, rfl⟩

end Item

namespace Plan
variable {P : Plan} {axis : Axis} {index base x y : NodeId} {i : Item} {l : List NodeId}

def Mergeable (P : Plan) (axis : Axis) (x : NodeId) : Prop :=
  ∃ index y t i j, P.WriteAt axis index x y i ∧ P.WriteAt axis index y t j ∧ P.UsedBy y x ∧
    (axis.across i.profile).Many ∧ axis.along i.profile ≠ .one

def PlainBounds (P : Plan) : Prop :=
  ∀ ⦃x i pos y j⦄, P x = some i → i.IsWrite → 2 ≤ pos → i.inputs[pos]? = some y → P y = some j →
    ¬ j.IsWrite

theorem WriteAt.isWrite (h : P.WriteAt axis index x y i) : i.IsWrite := by
  obtain ⟨flags, hop, -⟩ := h.op
  exact ⟨flags, hop⟩

theorem PlainBounds.lower_ne (h : P.PlainBounds) (hw : P.WriteAt axis index x y i) {z : NodeId}
    {k : Item} (hz : P z = some k) (hk : k.IsWrite) : index ≠ z := by
  rintro rfl
  exact h hw.item hw.isWrite axis.two_le_lowerPos hw.lower hz hk

theorem WriteChain.next (h : P.WriteChain axis index x l base) (hlong : 2 ≤ l.length) :
    ∃ y t i j, P.WriteAt axis index x y i ∧ P.WriteAt axis index y t j ∧ P.UsedBy y x := by
  cases h with
  | last _ => simp at hlong
  | @step _ y _ i _ hw hl huse =>
    obtain ⟨t, j, hj⟩ := hl.writeAt hl.head_mem
    exact ⟨y, t, i, j, hw, hj, huse⟩

end Plan

namespace Merge
variable {m : Merge} {P P' : Plan} {axis : Axis} {c x y : NodeId} {i j k : Item}

theorem rewrite_bound {lower upper : NodeId} {pos : Nat} (hpos : 2 ≤ pos)
    (h : (m.rewrite c lower upper i).inputs[pos]? = some y) :
    y = lower ∨ y = upper ∨ i.inputs[pos]? = some y := by
  have hset : ∀ {l : List NodeId} {n : Nat} {v : NodeId}, (l.set n v)[pos]? = some y →
      y = v ∨ l[pos]? = some y := by
    intro l n v h
    rw [List.getElem?_set] at h
    split at h
    · split at h
      · exact .inl (Option.some.inj h).symm
      · cases h
    · exact .inr h
  rcases hset h with h | h
  · exact .inr (.inl h)
  rcases hset h with h | h
  · exact .inl h
  refine .inr (.inr ?_)
  split at h
  · rw [Item.retarget, List.getElem?_set_ne (by omega)] at h
    exact h
  · exact h

theorem Chained.top_isWrite (h : m.Chained P) : ∃ i, P m.top = some i ∧ i.IsWrite := by
  obtain ⟨t, i, hi⟩ := h.topAt
  exact ⟨i, hi.item, hi.isWrite⟩

theorem Chained.user_of_top (h : m.Chained P) (hP : P.Acyclic) (hx : P x = some i)
    (hmem : m.top ∈ i.inputs) : x ∉ m.chain := by
  obtain ⟨rank, hrank⟩ := hP
  intro hxc
  have hle := h.chain.rank_le hrank hxc
  have hlt := hrank hx hmem
  omega

namespace Result

/-- An old node is kept with the write of the row in place of the first write, or is a write of the
chain. -/
theorem old_cases (h : m.Result P P') (hm : m.Chained P) {x : Int} (hx : P' x = some j)
    (hlt : x < m.start) :
    (x ∉ m.chain ∧ ∃ i, P x = some i ∧ j = i.subst m.top m.written) ∨
      (x ∈ m.chain ∧ ∃ (i : Item) (lower upper : Int), P x = some i ∧
        j = m.rewrite x lower upper i ∧ P' lower = some (.literal 1) ∧
        P' upper = some (.literal 1)) := by
  by_cases hxc : x ∈ m.chain
  · obtain ⟨t, i, hi⟩ := hm.chain.writeAt hxc
    obtain ⟨lower, upper, hlower, hupper, hitem, -⟩ := h.done x hxc i hi.item
    refine .inr ⟨hxc, i, lower, upper, hi.item, Option.some.inj (hx.symm.trans hitem),
      h.bound lower hlower.1 hlower.2, h.bound upper hupper.1 hupper.2⟩
  · rw [h.kept x hlt hxc] at hx
    obtain ⟨i, hi, rfl⟩ := Option.map_eq_some_iff.1 hx
    exact .inl ⟨hxc, i, hi, rfl⟩

theorem op_eq (h : m.Result P P') (hm : m.Chained P) (hi : P x = some i) (hj : P' x = some j) :
    j.op = i.op := by
  rcases h.old_cases hm hj (hm.old hi) with ⟨-, k, hk, rfl⟩ | ⟨-, k, lower, upper, hk, rfl, -⟩
  · rw [Item.subst_op, Option.some.inj (hi.symm.trans hk)]
  · rw [rewrite_op, Option.some.inj (hi.symm.trans hk)]

theorem plainBounds (h : m.Result P P') (hm : m.Chained P) (hc : P.Closed) (hb : P.PlainBounds) :
    P'.PlainBounds := by
  intro x i pos y j hx hw hpos hy hj hjw
  -- An old bound keeps its operation, and the others are literals.
  have hold : ∀ {x i}, P x = some i → i.IsWrite → i.inputs[pos]? = some y → False := by
    intro x i hx hw hy
    obtain ⟨k, hk⟩ := hc hx y (List.mem_of_getElem? hy)
    refine hb hx hw hpos hy hk ?_
    rwa [Item.IsWrite, ← h.op_eq hm hk hj]
  have hlit : ∀ {n}, P' y = some (.literal n) → False := by
    intro n hn
    obtain ⟨flags, hop⟩ := hjw
    rw [Option.some.inj (hj.symm.trans hn)] at hop
    cases hop
  rcases lt_or_ge (x : Int) m.start with hlt | hnew
  · rcases h.old_cases hm hx hlt with ⟨-, k, hk, rfl⟩ | ⟨-, k, lower, upper, hk, rfl, hl, hu⟩
    · obtain ⟨z, hz, rfl⟩ := Item.exists_of_subst hy
      obtain ⟨t, ht, htw⟩ := hm.top_isWrite
      have hne : z ≠ m.top := fun he => hb hk hw hpos hz (he ▸ ht) htw
      rw [if_neg hne] at hold
      exact hold hk hw hz
    · rw [Item.IsWrite, rewrite_op] at hw
      rcases rewrite_bound hpos hy with rfl | rfl | hy
      · exact hlit hl
      · exact hlit hu
      · exact hold hk hw hy
  · rcases h.new_cases hx hnew with ⟨-, -, n, rfl⟩ | ⟨-, rfl⟩ | ⟨-, rfl⟩
    · obtain ⟨flags, hop⟩ := hw
      cases hop
    · obtain ⟨flags, hop⟩ := hw
      cases hop
    · obtain ⟨q, rfl⟩ : ∃ q, pos = q + 2 := ⟨pos - 2, by omega⟩
      rcases Axis.mem_whole.1 (List.mem_of_getElem? hy) with rfl | rfl | rfl
      · obtain ⟨k, hk⟩ := hm.bottomAt
        obtain ⟨b, hb'⟩ := hc hk.item m.index hk.lower_mem
        refine hb.lower_ne hk hb' ?_ rfl
        rwa [Item.IsWrite, ← h.op_eq hm hb' hj]
      · exact hlit h.one'
      · exact hlit h.last'

theorem not_mergeable_chain (h : m.Result P P') (hm : m.Chained P) (hx : x ∈ m.chain) :
    ¬ P'.Mergeable axis x := by
  rintro ⟨index, y, t, i, j, hw, -, -, hmany, hone⟩
  obtain ⟨t, k, hk⟩ := hm.chain.writeAt hx
  obtain ⟨lower, upper, -, -, hitem, -⟩ := h.done x hx k hk.item
  have hprofile : i.profile = m.axis.sliceProfile m.width := by
    rw [Option.some.inj (hw.item.symm.trans hitem)]
    rfl
  by_cases haxis : axis = m.axis
  · rw [hprofile, haxis, Axis.along_sliceProfile] at hone
    exact hone rfl
  · rw [hprofile, Axis.across_eq_along haxis, Axis.along_sliceProfile] at hmany
    exact Dim.not_many_one hmany

theorem usedBy_of_kept (h : m.Result P P') (hm : m.Chained P) (hP : P.Acyclic) (hb : P.PlainBounds)
    (hx : x ∉ m.chain) (hxs : @LT.lt Int _ x m.start) (hy : P y = some k) (hyw : k.IsWrite)
    (hyc : y ∉ m.chain) (huse : P'.UsedBy y x) : P.UsedBy y x := by
  intro p j pos hp hpos
  have htop : y ≠ m.top := fun he => hyc (he ▸ hm.top_mem)
  by_cases hpc : p ∈ m.chain
  · exfalso
    obtain ⟨t, i, hi⟩ := hm.chain.writeAt hpc
    obtain rfl : j = i := Option.some.inj (hp.symm.trans hi.item)
    obtain ⟨lower, upper, -, -, hitem, -⟩ := h.done p hpc j hp
    match pos, hpos with
    | 0, hpos =>
      rcases hm.chain.target_cases hP hm.last hpc hp with ⟨-, ht⟩ | ⟨-, z, hz, ht⟩
      · -- The base is used by the reading of the row.
        rw [hpos] at ht
        obtain rfl : y = m.base := Option.some.inj ht
        have hslice := (huse m.slice _ 0 h.slice rfl).1
        have hs : m.slice = m.start + 2 := rfl
        rw [hslice] at hs
        omega
      · rw [hpos] at ht
        exact hyc (Option.some.inj ht ▸ hz)
    | 1, hpos =>
      have hx' := (huse p _ 1 hitem ((m.rewrite_value p lower upper j).trans hpos)).1
      exact hx (hx' ▸ hpc)
    | pos + 2, hpos => exact hb hp hi.isWrite (by omega) hpos hy hyw
  · refine huse p _ pos (h.kept_of_not_mem hm hp hpc) ?_
    rw [Item.getElem?_subst, hpos, Option.map_some, if_neg htop]

theorem usedBy_of_top (h : m.Result P P') (hm : m.Chained P) (hP : P.Acyclic)
    (huse : P'.UsedBy m.written x) : P.UsedBy m.top x := by
  intro p j pos hp hpos
  have hpc := hm.user_of_top hP hp (List.mem_of_getElem? hpos)
  refine huse p _ pos (h.kept_of_not_mem hm hp hpc) ?_
  rw [Item.getElem?_subst, hpos, Option.map_some, if_pos rfl]

theorem mergeable_of_kept (h : m.Result P P') (hm : m.Chained P) (hc : P.Closed) (hP : P.Acyclic)
    (hb : P.PlainBounds) (hx : x ∉ m.chain) (hxs : @LT.lt Int _ x m.start)
    (hmerge : P'.Mergeable axis x) : P.Mergeable axis x := by
  obtain ⟨index, y, t, i, j, hwx, hwy, huse, hmany, hone⟩ := hmerge
  obtain ⟨b, htop, htopw⟩ := hm.top_isWrite
  obtain ⟨-, k, hk, rfl⟩ | ⟨hxc, -⟩ := h.old_cases hm hwx.item hxs
  swap
  · exact absurd hxc hx
  obtain ⟨z, hz, rfl⟩ := Item.exists_of_subst hwx.target
  obtain ⟨r, hr, hindex⟩ := Item.exists_of_subst hwx.lower
  have hw : P.WriteAt axis r x z k := ⟨hk, hwx.op, hz, hr⟩
  rw [if_neg (hb.lower_ne hw htop htopw)] at hindex
  subst hindex
  by_cases hzt : z = m.top
  · rw [if_pos hzt] at hwy huse
    -- The write of the row names the row of the chain, and has no other equal bounds.
    have hj : j = .writeWhole m.axis m.base m.top m.index m.resume (m.resume + 1) m.whole :=
      Option.some.inj (hwy.item.symm.trans h.written)
    obtain ⟨flags, hop, hflag⟩ := hwy.op
    rw [hj] at hop
    cases hop
    obtain rfl := Axis.eq_of_flag hflag
    have hlower := hwy.lower
    rw [hj] at hlower
    have hsame : m.index = index := by
      cases haxis : m.axis <;> rw [haxis] at hlower <;> exact Option.some.inj hlower
    obtain ⟨u, l, hl⟩ := hm.topAt
    rw [hzt] at hw
    exact ⟨index, m.top, u, k, l, hw, hsame ▸ hl, h.usedBy_of_top hm hP huse, hmany, hone⟩
  · rw [if_neg hzt] at hwy huse
    have hzc : z ∉ m.chain := hm.operand_not_mem hk hx hw.target_mem hzt
    obtain ⟨l, hl⟩ := hc hk z hw.target_mem
    have hj := Option.some.inj (hwy.item.symm.trans (h.kept_of_not_mem hm hl hzc))
    subst hj
    obtain ⟨u, hu, -⟩ := Item.exists_of_subst hwy.target
    obtain ⟨s, hs, hindex⟩ := Item.exists_of_subst hwy.lower
    have hwz : P.WriteAt axis s z u l := ⟨hl, hwy.op, hu, hs⟩
    rw [if_neg (hb.lower_ne hwz htop htopw)] at hindex
    subst hindex
    exact ⟨index, z, u, k, l, hw, hwz,
      h.usedBy_of_kept hm hP hb hx hxs hl hwz.isWrite hzc huse, hmany, hone⟩

end Result
end Merge

namespace Optimizer
open LinearPlan.Graph

theorem Refits.plan_eq {g g' : Graph} (h : Refits id g g') : g'.plan = g.plan := by
  funext y
  cases hy : g.plan y with
  | none =>
    have hw := congrFun h.resized.wires y
    rw [Plan.wires, Plan.wires, hy] at hw
    exact Option.map_eq_none_iff.1 hw
  | some i =>
    obtain ⟨j, hj, hop, hin⟩ := h.resized.item hy
    obtain ⟨n, hn, -, rfl⟩ := get?_of_plan hy
    obtain ⟨n', hn', -, rfl⟩ := get?_of_plan hj
    have hlook := h.look y
    rw [look_eq_some hn, look_eq_some hn'] at hlook
    have hshape : n'.shape = n.shape := Option.some.inj hlook
    have hop : n'.op = n.op := hop
    have hin : n'.inputs = n.inputs := hin
    rw [hj, Node.item, Node.item, hop, hin, hshape]

namespace Slicing
variable {g : Graph} {axis : Axis} {axes : List Axis} {index base x : NodeId} {l : List NodeId}
  {i : Item} {n : Node}

theorem profile_of_chain (hset : g.AllSettled id) (hl : g.plan.WriteChain axis index x l base)
    (hn : g.get? base = some n) (hi : g.plan x = some i) :
    i.profile = .matrix (.ofInt n.shape.rows) (.ofInt n.shape.cols) := by
  obtain ⟨k, hk, -, rfl⟩ := get?_of_plan hi
  have hlook := hset.look_chain Shape.respects_id hl (fun _ _ => not_false) hn
  rw [look_eq_some hk] at hlook
  have hshape : k.shape = n.shape.ofWrite := Option.some.inj hlook
  exact congrArg Shape.profile hshape

theorem Lone.not_mergeable (h : Lone g axis x) (hset : g.AllSettled id) :
    ¬ g.plan.Mergeable axis x := by
  rintro ⟨index, y, t, i, j, hx, hy, huse, hmany, hone⟩
  rcases h with ⟨index', y', i', hx', hno⟩ | ⟨index', l, base, n, hl, hn, hdims⟩
  · obtain rfl : i' = i := Option.some.inj (hx'.item.symm.trans hx.item)
    obtain rfl : y' = y := Option.some.inj (hx'.target.symm.trans hx.target)
    obtain rfl : index' = index := Option.some.inj (hx'.lower.symm.trans hx.lower)
    obtain ⟨k, hk⟩ := hset.linked.closed hy.item t hy.target_mem
    obtain ⟨m, hm, -⟩ := get?_of_plan hk
    have hprofile := profile_of_chain hset (.step hx (.last hy) huse) hm hx.item
    rw [hprofile, axis.across_matrix, Dim.many_ofInt] at hmany
    exact hno ⟨⟨t, j, m, hy, hm, hmany⟩, huse⟩
  · have hprofile := profile_of_chain hset hl hn hx.item
    rw [hprofile, axis.across_matrix, Dim.many_ofInt] at hmany
    rw [hprofile, axis.along_matrix, Ne, Dim.ofInt_eq_one] at hone
    rcases hdims with hdims | hdims
    · omega
    · exact hone hdims

theorem Planned.mergeable {p : Pass} {m : Merge} (h : Planned p axes x m n)
    (hset : p.graph.AllSettled id) : p.graph.plan.Mergeable m.axis x := by
  obtain ⟨y, t, i, j, hx, hy, huse⟩ := h.chained.chain.next h.chained.long
  have hprofile := profile_of_chain hset h.chained.chain h.measured.node hx.item
  rw [← h.top]
  refine ⟨m.index, y, t, i, j, hx, hy, huse, ?_, ?_⟩
  · rw [hprofile, m.axis.across_matrix, Dim.many_ofInt, h.measured.width]
    exact h.measured.wide
  · rw [hprofile, m.axis.along_matrix, Ne, Dim.ofInt_eq_one]
    exact h.height

structure Settles (g : Graph) : Prop where
  ordered : g.Ordered
  settled : g.AllSettled id
  bounds : g.plan.PlainBounds

def Unmergeable (axes : List Axis) (g : Graph) (x : NodeId) : Prop :=
  ∀ n, g.get? x = some n → n.op = .leftIndexing ⟨true, true⟩ →
    ∀ axis ∈ axes, n.retired = false ∧ ¬ g.plan.Mergeable axis x

theorem apply_of_unmergeable {p : Pass} (h : Settles p.graph) (hn : p.graph.get? x = some n)
    (hx : Unmergeable axes p.graph x) : apply axes x p = .ok none p := by
  by_cases hop : n.op = .leftIndexing ⟨true, true⟩
  · cases axes with
    | nil => exact apply_of_op_eq hn hop []
    | cons axis rest =>
      have hlive := (hx n hn hop axis List.mem_cons_self).1
      rcases apply_run h.ordered hn (fun _ => hlive) (axis :: rest) with
        ⟨hnone, -⟩ | ⟨-, m, k, -, hm, -⟩
      · exact hnone
      · exact absurd (hm.mergeable h.settled) (hx n hn hop m.axis hm.axis).2
  · exact apply_of_op_ne hn hop axes

theorem apply_refits {p : Pass} (h : Settles p.graph) (axes : List Axis) (x : NodeId) :
    Ends (apply axes x) p (fun _ _ => True) fun result p' =>
      result = none ∧ Unmergeable axes p.graph x ∨ result ≠ none ∧ ∃ m g₁, m.top = x ∧
        Rechained p.graph m g₁ ∧ Refits id g₁ p'.graph := by
  refine apply_steps h.ordered axes x (fun hlone => .inl ⟨rfl, fun n hn hop axis haxis => ?_⟩)
    (fun _ _ => trivial) fun {m n} hm => ?_
  · obtain ⟨hr, hl⟩ := hlone n hn hop axis haxis
    exact ⟨hr, hl.not_mergeable h.settled⟩
  · have hends := mergeChain_settled Shape.respects_id h.settled h.ordered hm.chained hm.start
      hm.measured hm.whole
    refine hends.mono ?_
    rintro written g' ⟨g₁, hre, hfit⟩ records
    exact .inr ⟨nofun, m, g₁, hm.top, hre, hfit⟩

theorem Rechained.unmergeable {m : Merge} {g₁ g' : Graph} (hre : Rechained g m g₁)
    (hfit : Refits id g₁ g') (h : Settles g)
    (hx : ∀ k, g.get? x = some k → x ≠ m.top → Unmergeable axes g x) : Unmergeable axes g' x := by
  intro n hn hop axis haxis
  have hm := hre.chained
  have hres : m.Result g.plan g'.plan := hfit.plan_eq ▸ hre.result
  have hlive : ∀ {i}, g'.plan x = some i → n.retired = false ∧ i.op = n.op := fun hi => by
    obtain ⟨k, hk, hr, rfl⟩ := get?_of_plan hi
    obtain rfl : k = n := Option.some.inj (hk.symm.trans hn)
    exact ⟨hr, rfl⟩
  rcases lt_or_ge x (g.size : Int) with hlt | hnew
  · by_cases hxc : x ∈ m.chain
    · obtain ⟨t, i, hi⟩ := hm.chain.writeAt hxc
      obtain ⟨lower, upper, -, -, hitem, -⟩ := hres.done x hxc i hi.item
      exact ⟨(hlive hitem).1, hres.not_mergeable_chain hm hxc⟩
    · obtain ⟨k, hk⟩ := get?_of_lt (range_of_get? hn).1 hlt
      have hkop : k.op = .leftIndexing ⟨true, true⟩ := by
        have hkeep := hfit.resized.ops x _ (hre.ops x k.op (by rw [opOf, core?_eq_some hk]; rfl))
        rw [opOf, core?_eq_some hn] at hkeep
        exact (Option.some.inj hkeep).symm.trans hop
      have hne : x ≠ m.top := fun he => hxc (he ▸ hm.top_mem)
      obtain ⟨hr, hno⟩ := hx k hk hne k hk hkop axis haxis
      have hkept := hres.kept_of_not_mem hm (plan_eq_some hk hr) hxc
      refine ⟨(hlive hkept).1, fun hmerge => hno ?_⟩
      exact hres.mergeable_of_kept hm h.ordered.closed h.ordered.acyclic h.bounds hxc
        (hre.start ▸ hlt) hmerge
  · -- No new node is a write to a single cell.
    exfalso
    have hle : @LE.le Int _ x m.written := by
      have hlt := (range_of_get? hn).2
      rw [hfit.resized.size, hre.size] at hlt
      exact Int.lt_add_one_iff.1 hlt
    have hnot : ∀ {i}, g'.plan x = some i → i.op ≠ .leftIndexing ⟨true, true⟩ → False :=
      fun hi hne => hne ((hlive hi).2.trans hop)
    rcases hres.new_items (hre.start ▸ hnew) hle with ⟨-, -, k, hk⟩ | ⟨-, hk⟩ | ⟨-, hk⟩
    · refine hnot hk fun he => ?_
      cases he
    · refine hnot hk fun he => ?_
      cases he
    · exact hnot hk fun he => PassM.flags_ne m.axis (Op.leftIndexing.inj he)

theorem rests (axes : List Axis) : Rests (rule axes) Settles (Unmergeable axes) where
  standard := .inr ⟨axes, rfl⟩
  ordered h := h.ordered
  quiet h hn hx p hp := by
    subst hp
    exact apply_of_unmergeable h hn hx
  apply {p} x h := by
    refine ((apply_ends h.ordered axes x).and_any (apply_refits h axes x)).imp
      (fun _ _ _ => trivial) fun result p' ⟨hans, hfits⟩ => ?_
    rcases hans.cases with ⟨rfl, rfl⟩ | ⟨root, rfl, hrew⟩ <;>
      rcases hfits with ⟨hnone, hx⟩ | ⟨hsome, m, g₁, rfl, hre, hfit⟩
    · exact .inl ⟨rfl, rfl, hx⟩
    · exact absurd rfl hsome
    · cases hnone
    · have hb : p'.graph.plan.PlainBounds := by
        rw [hfit.plan_eq]
        exact hre.result.plainBounds hre.chained h.ordered.closed h.bounds
      exact .inr ⟨root, rfl, hrew, ⟨hrew.ordered h.ordered, hfit.settled, hb⟩,
        fun x n _ hx => hre.unmergeable hfit h hx⟩

end Slicing
end Optimizer

def Op.bounds (op : Op) (inputs : List NodeId) : List NodeId :=
  match op with
  | .indexing _ => inputs.drop 1
  | .leftIndexing _ => inputs.drop 2
  | _ => []

namespace Graph
variable {g : Graph}

def ScalarBounds (g : Graph) : Prop :=
  ∀ x n y m, g.get? x = some n → y ∈ n.op.bounds n.inputs → g.get? y = some m →
    m.shape.isScalar = true

theorem scalarBounds_of_ids (h : ∀ x ∈ g.ids, ∀ n ∈ g.get? x, ∀ y ∈ n.op.bounds n.inputs,
    ∀ m ∈ g.get? y, m.shape.isScalar = true) : g.ScalarBounds :=
  fun x n y m hn hy hm => h x (mem_ids.2 (range_of_get? hn)) n hn y hy m hm

theorem ScalarBounds.plainBounds (h : g.ScalarBounds) (hset : g.AllSettled id) :
    g.plan.PlainBounds := by
  rintro x i pos y j hx ⟨flags, hop⟩ hpos hy hj ⟨flags', hop'⟩
  obtain ⟨n, hn, -, rfl⟩ := get?_of_plan hx
  obtain ⟨m, hm, -, rfl⟩ := get?_of_plan hj
  have hnop : n.op = .leftIndexing flags := hop
  have hbound : y ∈ n.op.bounds n.inputs := by
    rw [hnop]
    refine List.mem_iff_getElem?.2 ⟨pos - 2, List.getElem?_drop.trans ?_⟩
    rw [show 2 + (pos - 2) = pos by omega]
    exact hy
  have hscalar := h x n y m hn hbound hm
  obtain ⟨t, ht⟩ : ∃ t, m.item.inputs[0]? = some t := by
    have ha := hset.linked.arity_of_plan hj
    rw [hop'] at ha
    exact ⟨_, List.getElem?_eq_getElem (by rw [← Option.some.inj ha]; decide)⟩
  obtain ⟨k, hk⟩ := hset.linked.closed hj t (List.mem_of_getElem? ht)
  obtain ⟨b, hb, -⟩ := get?_of_plan hk
  have hlook := (hset.all y).look_write hset.linked hj hop' ht hb
  rw [look_eq_some hm] at hlook
  have hshape : m.shape = b.shape.ofWrite := Option.some.inj hlook
  rw [hshape] at hscalar
  cases hscalar

end Graph

namespace Optimizer
open LinearPlan.Graph

/-- After a pass that merges writes, a second one changes nothing. -/
theorem optimize_slicing_twice {g : Graph} {axes : List Axis} {roots newRoots : List NodeId}
    {validate : Bool} (hc : g.check = .ok ()) (hs : g.Refreshed) (hb : g.ScalarBounds)
    (hroots : ∀ r ∈ roots, ∃ n, g.get? r = some n ∧ n.retired = false ∧ n.parents = [])
    (hok : (optimize [Slicing.rule axes] validate g roots).result = .ok newRoots)
    (validate' : Bool) :
    (optimize [Slicing.rule axes] validate' (optimize [Slicing.rule axes] validate g roots).pass.graph
      newRoots).Unchanged (optimize [Slicing.rule axes] validate g roots).pass.graph newRoots := by
  have ho := check_eq_ok_iff_ordered.1 hc
  have hset : g.AllSettled id := ⟨ho.toLinked, fun x => .inr (hs.settledAt x)⟩
  exact (Slicing.rests axes).second_pass ⟨ho, hset, hb.plainBounds hset⟩ hroots hok validate'

def crossedWrites : Graph :=
  (Graph.empty "g").afterCalls [.matrix "A" 3 4 (-1), .literal (.ofInt 1), .literal (.ofInt 2),
    .literal (.ofInt 3), .leftIndexing ⟨true, true⟩ 0 1 2 2 1 1,
    .leftIndexing ⟨true, true⟩ 4 1 2 2 2 2, .leftIndexing ⟨true, true⟩ 5 1 1 1 3 3,
    .leftIndexing ⟨true, true⟩ 6 1 3 3 3 3, .write "B" 7]

theorem optimize_slicing_twice_crossedWrites : crossedWrites.check = .ok () ∧
    crossedWrites.Refreshed ∧ crossedWrites.ScalarBounds ∧
    (optimize [Slicing.rule [.row, .col]] true crossedWrites [8]).result = .ok [8] ∧
    (optimize [Slicing.rule [.row, .col]] true crossedWrites [8]).pass.stats.total = 2 ∧
    (optimize [Slicing.rule [.row, .col]] true
      (optimize [Slicing.rule [.row, .col]] true crossedWrites [8]).pass.graph [8]).Unchanged
      (optimize [Slicing.rule [.row, .col]] true crossedWrites [8]).pass.graph [8] := by
  have hc : crossedWrites.check = .ok () := by decide +kernel
  have hs : crossedWrites.Refreshed := refreshed_of_settled (by decide +kernel)
  have hb : crossedWrites.ScalarBounds := scalarBounds_of_ids (by decide +kernel)
  have hok : (optimize [Slicing.rule [.row, .col]] true crossedWrites [8]).result = .ok [8] := by
    decide +kernel
  have hlive : ∀ r ∈ [8], (crossedWrites.get? r).map (fun n => (n.retired, n.parents)) =
      some (false, []) := by decide +kernel
  refine ⟨hc, hs, hb, hok, by decide +kernel, optimize_slicing_twice hc hs hb (fun r hr => ?_) hok true⟩
  obtain ⟨n, hn, he⟩ := Option.map_eq_some_iff.1 (hlive r hr)
  exact ⟨n, hn, congrArg Prod.fst he, congrArg Prod.snd he⟩

end Optimizer
end LinearPlan
