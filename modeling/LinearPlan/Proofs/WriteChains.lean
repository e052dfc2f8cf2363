import LinearPlan.Optimizer.Slicing
import LinearPlan.Proofs.FactorStep

/-!
# Chains of writes

A chain of writes leads from a write to its target, if that is a write to the same row and has no
other use, and so on down to a base that is not part of the chain. All writes of a chain have the
dimensions of the base, and only the first one is used from outside.
-/
namespace LinearPlan

namespace Optimizer.Slicing.Axis

def across : Axis → Profile → Dim
  | .row, p => p.cols
  | .col, p => p.rows

def along : Axis → Profile → Dim
  | .row, p => p.rows
  | .col, p => p.cols

theorem ofInt_width (axis : Axis) {s : Shape} (h : s.Legal) :
    Dim.ofInt (axis.width s) = axis.across s.profile := by
  cases axis
  · exact h.cols_eq
  · exact h.rows_eq

theorem ofInt_height (axis : Axis) {s : Shape} (h : s.Legal) :
    Dim.ofInt (axis.height s) = axis.along s.profile := by
  cases axis
  · exact h.rows_eq
  · exact h.cols_eq

theorem across_eq_along {axis axis' : Axis} (h : axis ≠ axis') (p : Profile) :
    axis.across p = axis'.along p := by
  cases axis <;> cases axis' <;> first | rfl | exact absurd rfl h

end Optimizer.Slicing.Axis

open Optimizer.Slicing (Axis)

namespace Plan
variable {P : Plan} {axis : Axis} {index x y base : NodeId} {i j : Item} {l : List NodeId}

/-- A write along an axis, with known equal bounds there. -/
structure WriteAt (P : Plan) (axis : Axis) (index x target : NodeId) (i : Item) : Prop where
  item : P x = some i
  op : ∃ flags, i.op = .leftIndexing flags ∧ axis.flag flags = true
  target : i.inputs[0]? = some target
  lower : i.inputs[axis.lowerPos]? = some index

inductive WriteChain (P : Plan) (axis : Axis) (index : NodeId) :
    NodeId → List NodeId → NodeId → Prop
  | last {x base : NodeId} {i : Item} (h : P.WriteAt axis index x base i) :
      WriteChain P axis index x [x] base
  | step {x y base : NodeId} {i : Item} {l : List NodeId} (h : P.WriteAt axis index x y i)
      (hl : WriteChain P axis index y l base)
      (huse : ∀ p j pos, P p = some j → j.inputs[pos]? = some y → p = x ∧ pos = 0) :
      WriteChain P axis index x (x :: l) base

/-- Nothing uses a node but another one, as its first operand. -/
def UsedBy (P : Plan) (y x : NodeId) : Prop :=
  ∀ p j pos, P p = some j → j.inputs[pos]? = some y → p = x ∧ pos = 0

def WideAt (P : Plan) (axis : Axis) (index x : NodeId) : Prop :=
  ∃ t i k, P.WriteAt axis index x t i ∧ P t = some k ∧ axis.across k.profile ≠ .one

theorem target_cons {t : NodeId} (h : i.inputs[0]? = some t) : ∃ rest, i.inputs = t :: rest := by
  cases hi : i.inputs with
  | nil =>
    rw [hi] at h
    cases h
  | cons z rest =>
    rw [hi] at h
    cases h
    exact ⟨rest, rfl⟩

theorem WriteAt.target_mem (h : P.WriteAt axis index x y i) : y ∈ i.inputs :=
  List.mem_of_getElem? h.target

theorem WriteAt.lower_mem (h : P.WriteAt axis index x y i) : index ∈ i.inputs :=
  List.mem_of_getElem? h.lower

namespace WriteChain

theorem head_mem (h : P.WriteChain axis index x l base) : x ∈ l := by
  cases h <;> exact List.mem_cons_self

theorem writeAt (h : P.WriteChain axis index x l base) {c : NodeId} (hc : c ∈ l) :
    ∃ t i, P.WriteAt axis index c t i := by
  induction h with
  | last hw =>
    rw [List.mem_singleton.1 hc]
    exact ⟨_, _, hw⟩
  | step hw _ _ ih =>
    rcases List.mem_cons.1 hc with rfl | hc
    · exact ⟨_, _, hw⟩
    · exact ih hc

theorem op_of_mem (h : P.WriteChain axis index x l base) {c : NodeId} {i : Item} (hc : c ∈ l)
    (hi : P c = some i) : ∃ flags, i.op = .leftIndexing flags := by
  obtain ⟨t, j, hw⟩ := h.writeAt hc
  obtain ⟨flags, hop, -⟩ := hw.op
  cases hi.symm.trans hw.item
  exact ⟨flags, hop⟩

theorem exists_user (h : P.WriteChain axis index x l base) {c : NodeId} (hc : c ∈ l)
    (hne : c ≠ x) : ∃ p i, P p = some i ∧ c ∈ i.inputs := by
  induction h with
  | last => exact absurd (List.mem_singleton.1 hc) hne
  | @step x y base i l hw _ _ ih =>
    by_cases hcy : c = y
    · exact ⟨x, i, hw.item, hcy ▸ hw.target_mem⟩
    · exact ih ((List.mem_cons.1 hc).resolve_left hne) hcy

theorem getLast?_cons (h : P.WriteChain axis index y l base) (x : NodeId) :
    (x :: l).getLast? = l.getLast? := by
  cases h <;> exact List.getLast?_cons_cons

theorem bottom (h : P.WriteChain axis index x l base) :
    ∃ b i, l.getLast? = some b ∧ P.WriteAt axis index b base i := by
  induction h with
  | last hw => exact ⟨_, _, rfl, hw⟩
  | step _ hl _ ih =>
    obtain ⟨b, i, hb, hw⟩ := ih
    exact ⟨b, i, (hl.getLast?_cons _).trans hb, hw⟩

theorem rank_le {rank : NodeId → Nat} (hrank : P.Ranked rank)
    (h : P.WriteChain axis index x l base) {c : NodeId} (hc : c ∈ l) : rank c ≤ rank x := by
  induction h with
  | last _ => rw [List.mem_singleton.1 hc]
  | step hw _ _ ih =>
    rcases List.mem_cons.1 hc with rfl | hc
    · exact le_rfl
    · exact (ih hc).trans (hrank hw.item hw.target_mem).le

theorem mem_of_closed {S : NodeId → Prop}
    (hS : ∀ x i, S x → P x = some i → ∀ y ∈ i.inputs, S y)
    (h : P.WriteChain axis index x l base) (hx : S x) {c : NodeId} (hc : c ∈ l) : S c := by
  induction h with
  | last _ =>
    rw [List.mem_singleton.1 hc]
    exact hx
  | step hw _ _ ih =>
    rcases List.mem_cons.1 hc with rfl | hc
    · exact hx
    · exact ih (hS _ _ hx hw.item _ hw.target_mem) hc

theorem base_lt {rank : NodeId → Nat} (hrank : P.Ranked rank)
    (h : P.WriteChain axis index x l base) {c : NodeId} (hc : c ∈ l) : rank base < rank c := by
  induction h generalizing c with
  | last hw =>
    rw [List.mem_singleton.1 hc]
    exact hrank hw.item hw.target_mem
  | step hw hl _ ih =>
    rcases List.mem_cons.1 hc with rfl | hc
    · exact (ih hl.head_mem).trans (hrank hw.item hw.target_mem)
    · exact ih hc

theorem base_not_mem (hP : P.Acyclic) (h : P.WriteChain axis index x l base) : base ∉ l := by
  obtain ⟨rank, hrank⟩ := hP
  exact fun hb => Nat.lt_irrefl _ (h.base_lt hrank hb)

theorem nodup (hP : P.Acyclic) (h : P.WriteChain axis index x l base) : l.Nodup := by
  obtain ⟨rank, hrank⟩ := hP
  induction h with
  | last _ => exact List.nodup_singleton _
  | step hw hl _ ih =>
    refine List.nodup_cons.2 ⟨fun hx => ?_, ih⟩
    have hle := hl.rank_le hrank hx
    have hlt := hrank hw.item hw.target_mem
    omega

theorem target_cases (hP : P.Acyclic) (h : P.WriteChain axis index x l base) {b c : NodeId}
    (hl : l.getLast? = some b) (hc : c ∈ l) (hi : P c = some i) :
    (c = b ∧ i.inputs[0]? = some base) ∨ (c ≠ b ∧ ∃ y ∈ l, i.inputs[0]? = some y) := by
  have hnodup := h.nodup hP
  induction h with
  | last hw =>
    cases hl
    rw [List.mem_singleton.1 hc, hw.item] at hi
    cases hi
    exact .inl ⟨List.mem_singleton.1 hc, hw.target⟩
  | @step x y base k l hw htail _ ih =>
    rw [htail.getLast?_cons] at hl
    rw [List.nodup_cons] at hnodup
    rcases List.mem_cons.1 hc with rfl | hc
    · rw [hw.item] at hi
      cases hi
      refine .inr ⟨fun he => hnodup.1 (he ▸ List.mem_of_getLast? hl), y, ?_, hw.target⟩
      exact List.mem_cons_of_mem _ htail.head_mem
    · rcases ih hl hc hnodup.2 with hbase | ⟨hne, z, hz, ht⟩
      · exact .inl hbase
      · exact .inr ⟨hne, z, List.mem_cons_of_mem x hz, ht⟩

theorem second (hP : P.Acyclic) (h : P.WriteChain axis index x l base) (hlong : 2 ≤ l.length) :
    ∃ y i, P x = some i ∧ i.inputs[0]? = some y ∧ y ∈ l ∧ y ≠ x := by
  have hnodup := h.nodup hP
  cases h with
  | last _ => simp at hlong
  | @step _ y _ i l hw hl _ =>
    refine ⟨y, i, hw.item, hw.target, List.mem_cons_of_mem x hl.head_mem, fun he => ?_⟩
    exact (List.nodup_cons.1 hnodup).1 (he ▸ hl.head_mem)

theorem users (h : P.WriteChain axis index x l base) {c p : NodeId} {pos : Nat} (hc : c ∈ l)
    (hne : c ≠ x) (hp : P p = some j) (hpos : j.inputs[pos]? = some c) : p ∈ l ∧ pos = 0 := by
  induction h with
  | last _ => exact absurd (List.mem_singleton.1 hc) hne
  | @step x y base i l _ hl huse ih =>
    have hc := (List.mem_cons.1 hc).resolve_left hne
    by_cases hcy : c = y
    · obtain ⟨rfl, h0⟩ := huse p j pos hp (hcy ▸ hpos)
      exact ⟨List.mem_cons_self, h0⟩
    · exact ⟨List.mem_cons_of_mem x (ih hc hcy).1, (ih hc hcy).2⟩

end WriteChain

theorem WriteAt.profile_eq (hs : P.Sized) (h : P.WriteAt axis index x y i) (hy : P y = some j) :
    i.profile = .matrix j.profile.rows j.profile.cols := by
  obtain ⟨flags, hop, -⟩ := h.op
  have hsize := hs h.item
  obtain ⟨inputs, hin⟩ := target_cons h.target
  rw [hop, operands, hin, List.filterMap_cons, hy] at hsize
  exact (Option.some.inj hsize).symm

theorem WriteChain.profile_eq (hs : P.Sized) (hc : P.Closed)
    (h : P.WriteChain axis index x l base) {b : Item} (hb : P base = some b) {c : NodeId}
    (hcl : c ∈ l) (hi : P c = some i) : i.profile = .matrix b.profile.rows b.profile.cols := by
  induction h generalizing c i with
  | last hw =>
    rw [List.mem_singleton.1 hcl, hw.item] at hi
    cases hi
    exact hw.profile_eq hs hb
  | @step x y base k l hw hl _ ih =>
    rcases List.mem_cons.1 hcl with rfl | hcl
    · rw [hw.item] at hi
      cases hi
      obtain ⟨j, hj⟩ := hc hw.item y hw.target_mem
      have hp := ih hb hl.head_mem hj
      rw [hw.profile_eq hs hj, hp]
      rfl
    · exact ih hb hcl hi

end Plan

namespace Optimizer.Slicing
open LinearPlan.Graph
variable {g : Graph} {axis : Axis} {index x : NodeId} {n : Node}

theorem input_ok {pos : Nat} {y : NodeId} (h : n.inputs[pos]? = some y) :
    n.input x pos = .ok y := by
  simp [Node.input, Node.input?, h]

theorem eq_singleton {p : NodeId} {l : List NodeId} (h : p ∈ l) (hl : l.length ≤ 1) :
    l = [p] := by
  match l, h, hl with
  | [q], h, _ => rw [List.mem_singleton.1 h]

theorem first_of_count {y : NodeId} {l : List NodeId} {pos : Nat} (h0 : l[0]? = some y)
    (hcount : l.count y = 1) (hpos : l[pos]? = some y) : pos = 0 := by
  cases l with
  | nil => cases h0
  | cons z rest =>
    cases h0
    rw [List.count_cons_self] at hcount
    cases pos with
    | zero => rfl
    | succ k =>
      have hmem : y ∈ rest := List.mem_of_getElem? hpos
      have hpos := List.count_pos_iff.2 hmem
      omega

theorem single_use (hl : g.Linked) {p y : NodeId} {m k : Node} (hm : g.get? y = some m)
    (hone : m.parents.length ≤ 1) (hk : g.get? p = some k) (hp : k.inputs[0]? = some y) :
    g.plan.UsedBy y p := by
  have hin : y ∈ g.inputsOf p := inputsOf_eq hk ▸ List.mem_of_getElem? hp
  have hpar : g.parentsOf y = [p] :=
    eq_singleton (hl.matched.mem_iff.2 hin) (parentsOf_eq hm ▸ hone)
  intro q j pos hq hpos
  have hq' : y ∈ g.inputsOf q := inputsOf_of_plan hq ▸ List.mem_of_getElem? hpos
  have hqp : q = p := by
    have hmem := hl.matched.mem_iff.2 hq'
    rw [hpar] at hmem
    exact List.mem_singleton.1 hmem
  subst hqp
  refine ⟨rfl, first_of_count (y := y) (l := g.inputsOf q) ?_ ?_ ?_⟩
  · rw [inputsOf_eq hk, hp]
  · rw [← hl.matched, hpar, List.count_singleton_self]
  · rw [inputsOf_of_plan hq, hpos]

theorem count_le_one {y : NodeId} {l : List NodeId} (h : ∀ pos, l[pos]? = some y → pos = 0) :
    l.count y ≤ 1 := by
  cases l with
  | nil => simp
  | cons z rest =>
    have hrest : y ∉ rest := fun hmem => by
      obtain ⟨pos, hpos⟩ := List.mem_iff_getElem?.1 hmem
      cases h (pos + 1) hpos
    rw [List.count_cons, List.count_eq_zero.2 hrest]
    split <;> simp

theorem length_parents_le_one (hl : g.Linked) {p y : NodeId} {m : Node} (hm : g.get? y = some m)
    (huse : g.plan.UsedBy y p) : m.parents.length ≤ 1 := by
  have hat : ∀ q pos, (g.inputsOf q)[pos]? = some y → q = p ∧ pos = 0 := fun q pos hpos => by
    obtain ⟨k, hk, hr⟩ := hl.user_live (List.mem_of_getElem? hpos)
    have hq := plan_eq_some hk hr
    exact huse q _ pos hq (inputsOf_of_plan hq ▸ hpos)
  have hall : ∀ q ∈ m.parents, q = p := fun q hq => by
    obtain ⟨pos, hpos⟩ := List.mem_iff_getElem?.1 (hl.matched.mem_iff.1 (parentsOf_eq hm ▸ hq))
    exact (hat q pos hpos).1
  have hcount : m.parents.count p = m.parents.length :=
    List.count_eq_length.2 fun q hq => (hall q hq).symm
  calc m.parents.length = m.parents.count p := hcount.symm
    _ = (g.inputsOf p).count y := by rw [← parentsOf_eq hm, hl.matched]
    _ ≤ 1 := count_le_one fun pos hpos => (hat p pos hpos).2

/-- A chain goes on from a write to its target: that is a write to the same row, it has no other use,
and its rows have more than one entry. -/
structure Continues (g : Graph) (axis : Axis) (index x y : NodeId) : Prop where
  write : ∃ t i m, g.plan.WriteAt axis index y t i ∧ g.get? t = some m ∧ 1 < axis.width m.shape
  use : g.plan.UsedBy y x

theorem Continues.wideAt {y : NodeId} (h : Continues g axis index x y) (ht : g.Typed) :
    g.plan.WideAt axis index y := by
  obtain ⟨t, i, m, hw, hm, hwide⟩ := h.write
  obtain ⟨k, hk⟩ := ht.closed hw.item t hw.target_mem
  obtain ⟨m', hm', hr, rfl⟩ := get?_of_plan hk
  obtain rfl : m' = m := Option.some.inj (hm'.symm.trans hm)
  refine ⟨t, i, _, hw, hk, ?_⟩
  show axis.across m'.shape.profile ≠ _
  rw [← axis.ofInt_width (ht.legal_of_get? hm hr), Ne, Dim.ofInt_eq_one]
  omega

theorem continues_ok (h : g.Linked) {p y : NodeId} {k m : Node} (hk : g.get? p = some k)
    (hp : k.inputs[0]? = some y) (hm : g.get? y = some m) :
    continues g axis index y m = .ok false ∧ ¬ Continues g axis index p y ∨
      continues g axis index y m = .ok true ∧ Continues g axis index p y := by
  obtain ⟨m', hm', hmr⟩ := h.operand_live (inputsOf_eq hk ▸ List.mem_of_getElem? hp)
  obtain rfl : m' = m := Option.some.inj (hm'.symm.trans hm)
  have hy := plan_eq_some hm hmr
  unfold continues
  split
  · rename_i flags hop
    split
    · rename_i hcond
      refine .inl ⟨rfl, fun hgo => ?_⟩
      obtain ⟨t, i, -, hw, -⟩ := hgo.write
      obtain ⟨flags', hop', hflag⟩ := hw.op
      obtain rfl : m'.item = i := Option.some.inj (hy.symm.trans hw.item)
      obtain rfl : flags = flags' := Op.leftIndexing.inj (hop.symm.trans hop')
      have hone := length_parents_le_one h hm hgo.use
      rcases hcond with hlen | hflag'
      · omega
      · rw [hflag] at hflag'
        cases hflag'
    · rename_i hcond
      have hlen : m'.inputs.length = 6 := by
        have ha := h.arity_eq hm hmr
        rw [hop] at ha
        exact (Option.some.inj ha).symm
      obtain ⟨t, ht⟩ : ∃ t, m'.inputs[0]? = some t := ⟨_, List.getElem?_eq_getElem (by omega)⟩
      obtain ⟨lower, hlower⟩ : ∃ lower, m'.inputs[axis.lowerPos]? = some lower := by
        have hpos : axis.lowerPos < m'.inputs.length := by
          rw [hlen]
          cases axis <;> decide
        exact ⟨_, List.getElem?_eq_getElem hpos⟩
      have htin : t ∈ g.inputsOf y := inputsOf_eq hm ▸ List.mem_of_getElem? ht
      obtain ⟨tn, htn, -⟩ := h.operand_live htin
      have hin : m'.input y axis.lowerPos = .ok lower := input_ok hlower
      have hin0 : m'.input y 0 = .ok t := input_ok ht
      -- What the chain needs of its next write is what is compared.
      have hiff : Continues g axis index p y ↔ lower = index ∧ 1 < axis.width tn.shape := by
        constructor
        · intro hgo
          obtain ⟨t', i, n, hw, hn, hwide⟩ := hgo.write
          obtain rfl : m'.item = i := Option.some.inj (hy.symm.trans hw.item)
          obtain rfl : t = t' := Option.some.inj (ht.symm.trans hw.target)
          obtain rfl : tn = n := Option.some.inj (htn.symm.trans hn)
          exact ⟨Option.some.inj (hlower.symm.trans hw.lower), hwide⟩
        · rintro ⟨rfl, hwide⟩
          have hflag : axis.flag flags = true := by simpa using fun hf => hcond (.inr hf)
          exact ⟨⟨t, _, tn, ⟨hy, ⟨flags, hop, hflag⟩, ht, hlower⟩, htn, hwide⟩,
            single_use h hm (by omega) hk hp⟩
      rw [hin, hiff]
      show (if lower = index then (do let target ← g.node (← m'.input y 0)
                                      return decide (1 < axis.width target.shape))
        else (pure false : Except Fault Bool)) = _ ∧ _ ∨ (if lower = index then _ else _) = _ ∧ _
      by_cases hindex : lower = index
      · rw [if_pos hindex, hin0]
        show (g.node t >>= fun target => _) = _ ∧ _ ∨ (g.node t >>= fun target => _) = _ ∧ _
        rw [node_ok htn]
        show Except.ok (decide _) = _ ∧ _ ∨ Except.ok (decide _) = _ ∧ _
        by_cases hwide : 1 < axis.width tn.shape
        · exact .inr ⟨by rw [decide_eq_true hwide], hindex, hwide⟩
        · exact .inl ⟨by rw [decide_eq_false hwide], fun hgo => hwide hgo.2⟩
      · rw [if_neg hindex]
        exact .inl ⟨rfl, fun hgo => hindex hgo.1⟩
  · rename_i hop
    refine .inl ⟨rfl, fun hgo => ?_⟩
    obtain ⟨t, i, -, hw, -⟩ := hgo.write
    obtain ⟨flags, hop', -⟩ := hw.op
    obtain rfl : m'.item = i := Option.some.inj (hy.symm.trans hw.item)
    exact hop flags hop'

theorem chainBelow_ok (h : g.Linked) {rank : NodeId → Nat} (hrank : g.plan.Ranked rank)
    {fuel : Nat} {y : NodeId} {i : Item} (hw : g.plan.WriteAt axis index x y i)
    (hfuel : rank x < fuel) :
    ∃ l base, chainBelow g axis index fuel x = .ok l ∧
      g.plan.WriteChain axis index x (x :: l) base ∧ (l = [] → ¬ Continues g axis index x y) ∧
      (g.Typed → ∀ c ∈ l, g.plan.WideAt axis index c) := by
  induction fuel generalizing x y i with
  | zero => exact absurd hfuel (Nat.not_lt_zero _)
  | succ fuel ih =>
    obtain ⟨j, hj⟩ := h.closed hw.item y hw.target_mem
    obtain ⟨m, hm, -⟩ := get?_of_plan hj
    obtain ⟨n, hn, -, rfl⟩ := get?_of_plan hw.item
    have hin : n.input x 0 = .ok y := input_ok hw.target
    unfold chainBelow
    rw [node_ok hn]
    show ∃ l base, (n.input x 0 >>= fun next => _) = _ ∧ _
    rw [hin]
    show ∃ l base, (g.node y >>= fun m => _) = _ ∧ _
    rw [node_ok hm]
    show ∃ l base, (continues g axis index y m >>= fun b => _) = _ ∧ _
    rcases continues_ok h hn hw.target hm with ⟨hstop, hno⟩ | ⟨hgo, hnext⟩
    · rw [hstop]
      exact ⟨[], y, rfl, .last hw, fun _ => hno, fun _ => nofun⟩
    · have hlt := hrank hw.item hw.target_mem
      obtain ⟨t, i, -, hy, -⟩ := hnext.write
      obtain ⟨l, base, hrun, hl, -, hrest⟩ := ih hy (by omega)
      refine ⟨y :: l, base, ?_, .step hw hl hnext.use, nofun, fun ht => ?_⟩
      · rw [hgo]
        show (chainBelow g axis index fuel y >>= fun l => _) = _
        rw [hrun]
        rfl
      · exact List.forall_mem_cons.2 ⟨hnext.wideAt ht, hrest ht⟩

theorem indexOf_ok {y : NodeId} {i : Item} (hw : g.plan.WriteAt axis index x y i) :
    indexOf g axis x = .ok index := by
  obtain ⟨n, hn, -, rfl⟩ := get?_of_plan hw.item
  unfold indexOf
  rw [node_ok hn]
  exact input_ok hw.lower

theorem collectChain_ok (h : g.Ordered) {y : NodeId} {i : Item}
    (hw : g.plan.WriteAt axis index x y i) :
    ∃ l base, collectChain g axis x = .ok (x :: l) ∧
      g.plan.WriteChain axis index x (x :: l) base ∧ (l = [] → ¬ Continues g axis index x y) ∧
      (g.Typed → ∀ c ∈ l, g.plan.WideAt axis index c) := by
  obtain ⟨rank, hrank, hlt⟩ := exists_rank_lt_size h.acyclic h.closed
  obtain ⟨l, base, hrun, hl, hrest⟩ := chainBelow_ok h.toLinked hrank hw (hlt hw.item)
  refine ⟨l, base, ?_, hl, hrest⟩
  unfold collectChain
  rw [indexOf_ok hw]
  show (chainBelow g axis index g.size x >>= fun l => _) = _
  rw [hrun]
  rfl

end Optimizer.Slicing
end LinearPlan
