import LinearPlan.Proofs.SettledShapes
import LinearPlan.Proofs.StaleRules

/-!
# Shapes after a pass

A rule that replaces a node refreshes the users of the replacement and nothing above them. That is
enough where the replacement looks like the node that it replaces: the users are sized as before, and
so is all that is above. A merge of writes changes no shape at all. A product that is multiplied anew
keeps its type and its dimensions, but may get another bound on its non-zero entries, which nodes
further above do not learn about.
-/
namespace LinearPlan

def Shape.ofWrite (s : Shape) : Shape := ⟨.matrix, s.valueType, s.rows, s.cols, -1⟩

theorem Shape.Respects.ofWrite {view : Shape → Shape} (hv : Respects view) {s t : Shape}
    (h : view t = view s) : view t.ofWrite = view s.ofWrite := by
  have hlook : Node.Looks view ⟨.matMul, [], [], s, .standard, false⟩
      ⟨.matMul, [], [], t, .standard, false⟩ := ⟨h, rfl⟩
  have hsize : sizeFrom ⟨0, .matMul⟩ .initial (.leftIndexing ⟨true, true⟩)
      [⟨.matMul, [], [], s, .standard, false⟩] = .ok s.ofWrite := rfl
  obtain ⟨t', ht', hview⟩ := hv (.cons hlook .nil) rfl hsize
  cases ht'
  exact hview

namespace Graph
variable {g : Graph} {view : Shape → Shape} {D : NodeId → Prop} {x t : NodeId} {i : Item} {m : Node}

theorem sizedBy_write {flags : SliceFlags} (hx : g.plan x = some i) (hop : i.op = .leftIndexing flags)
    (ht : i.inputs[0]? = some t) : g.sizedBy x = [t] := by
  obtain ⟨rest, hin⟩ := Plan.target_cons ht
  rw [sizedBy_of_plan hx, hop, hin]
  rfl

theorem SettledAt.look_write {flags : SliceFlags} (h : g.SettledAt view x) (hl : g.Linked)
    (hx : g.plan x = some i) (hop : i.op = .leftIndexing flags) (ht : i.inputs[0]? = some t)
    (hm : g.get? t = some m) : g.look view x = some (view m.shape.ofWrite) := by
  obtain ⟨n, hn, hr, rfl⟩ := get?_of_plan hx
  obtain ⟨s, hs, hview⟩ := h n hn hr
  obtain ⟨rest, hin⟩ := Plan.target_cons ht
  have hnop : n.op = .leftIndexing flags := hop
  have hinputs : n.inputs = t :: rest := hin
  rw [sizeNode_eq (resolves_of_plan (hl.closed hx)) (hl.arity_eq hn hr), hnop, operands, hinputs,
    List.filterMap_cons_some (core?_eq_some hm)] at hs
  cases hs
  rw [look_eq_some hn, ← hview]
  rfl

theorem Spreads.chain (hD : g.Spreads D) {axis : Optimizer.Slicing.Axis} {index base c : NodeId}
    {l : List NodeId} (hw : g.plan.WriteChain axis index x l base) (hc : c ∈ l) (hDc : D c) :
    D x := by
  induction hw with
  | last hw => exact List.mem_singleton.1 hc ▸ hDc
  | @step x y base i l hw hl _ ih =>
    rcases List.mem_cons.1 hc with rfl | hc
    · exact hDc
    · refine hD.users ?_ (ih hc)
      obtain ⟨flags, hop, -⟩ := hw.op
      rw [sizedBy_write hw.item hop hw.target]
      exact List.mem_cons_self

theorem SettledBut.look_chain (h : g.SettledBut view D) (hv : Shape.Respects view)
    {axis : Optimizer.Slicing.Axis} {index base : NodeId} {l : List NodeId}
    (hw : g.plan.WriteChain axis index x l base) (hD : ∀ c ∈ l, ¬ D c)
    (hm : g.get? base = some m) : g.look view x = some (view m.shape.ofWrite) := by
  induction hw with
  | @last x _ _ hw =>
    obtain ⟨flags, hop, -⟩ := hw.op
    have hx := (h.settled x).resolve_left (hD x List.mem_cons_self)
    exact hx.look_write h.linked hw.item hop hw.target hm
  | @step x y base i l hw _ _ ih =>
    obtain ⟨flags, hop, -⟩ := hw.op
    obtain ⟨j, hj⟩ := h.linked.closed hw.item y hw.target_mem
    obtain ⟨k, hk, -, -⟩ := get?_of_plan hj
    have hx := (h.settled x).resolve_left (hD x List.mem_cons_self)
    have hy := ih (fun c hc => hD c (List.mem_cons_of_mem x hc)) hm
    rw [look_eq_some hk] at hy
    rw [hx.look_write h.linked hw.item hop hw.target hk]
    exact congrArg some (hv.ofWrite (s := m.shape.ofWrite) (Option.some.inj hy))

end Graph

namespace Optimizer.Slicing
open LinearPlan.Graph Edit
variable {g : Graph} {view : Shape → Shape} {D : NodeId → Prop} {axis : Axis}

theorem bounds_settled (hv : Shape.Respects view) (h : g.SettledBut view D) (base index : NodeId) :
    Ends (bounds axis base index) g anyFault fun _ g' => g'.SettledBut view D ∧ g.Retains g' := by
  refine (literal_settled hv h _).bind fun one g₁ h₁ => ?_
  refine (countNode_settled hv h₁.1 base _).bind fun last g₂ h₂ => ?_
  cases axis <;> exact ⟨h₂.1, h₁.2.trans h₂.2⟩

theorem readSlice_settled (hv : Shape.Respects view) (h : g.SettledBut view D)
    (base index : NodeId) : Ends (readSlice axis base index) g anyFault fun _ g' =>
      g'.SettledBut view D ∧ g.Retains g' := by
  refine (bounds_settled hv h base index).bind ?_
  rintro ⟨rl, ru, cl, cu⟩ g₁ ⟨h₁, hold⟩
  have hadd := addNode_settled hv h₁ (.indexing axis.flags) [base, rl, ru, cl, cu] nofun
  exact hadd.mono fun _ g₂ h₂ => ⟨h₂.1, hold.trans h₂.2⟩

theorem writeSlice_settled (hv : Shape.Respects view) (h : g.SettledBut view D)
    (base value index : NodeId) : Ends (writeSlice axis base value index) g anyFault fun _ g' =>
      g'.SettledBut view D ∧ g.Retains g' := by
  refine (bounds_settled hv h base index).bind ?_
  rintro ⟨rl, ru, cl, cu⟩ g₁ ⟨h₁, hold⟩
  have hadd := addNode_settled hv h₁ (.leftIndexing axis.flags) [base, value, rl, ru, cl, cu] nofun
  exact hadd.mono fun _ g₂ h₂ => ⟨h₂.1, hold.trans h₂.2⟩

theorem narrow_settled (hv : Shape.Respects view) {c : NodeId}
    (h : g.SettledBut view fun x => D x ∨ x = c) : Ends (narrow axis c) g anyFault fun _ g' =>
      g'.SettledBut view fun x => D x ∨ c ∈ g'.sizedBy x := by
  have hset : ∀ {g : Graph} (pos : Int) (child : NodeId),
      g.SettledBut view (fun x => D x ∨ x = c) → Ends (discard (replaceInput c pos child)) g anyFault
        fun _ g' => g'.SettledBut view fun x => D x ∨ x = c :=
    fun pos child h => (replaceInput_settled hv h (.inr rfl) pos child).discard
  refine (literal_settled hv h _).bind fun lower g₁ h₁ => ?_
  refine (hset _ _ h₁.1).bind fun _ g₂ h₂ => ?_
  refine (literal_settled hv h₂ _).bind fun upper g₃ h₃ => ?_
  refine (hset _ _ h₃.1).bind fun _ g₄ h₄ => ?_
  have hflag : Ends (axis.setFlag c) g₄ anyFault fun _ g' =>
      g'.SettledBut view fun x => D x ∨ x = c := by
    cases axis <;> exact setFlags_settled hv h₄ (.inr rfl) _
  refine hflag.bind fun _ g₅ h₅ => (refresh_settled hv h₅ c).mono fun _ g₆ h₆ => h₆.1.mono ?_
  exact fun x hx => hx.imp_left fun hx => hx.1.resolve_right hx.2

theorem Narrowed.old_use {g' : Graph} {l : List NodeId} {q : Profile} (h : Narrowed axis l q g g')
    (hlive : ∀ c ∈ l, ∃ i, g.plan c = some i) {y z : Int} (hy : y < (g.size : Int))
    (hmem : y ∈ g'.inputsOf z) : y ∈ g.inputsOf z := by
  obtain ⟨n, hn, hr⟩ := h.changes.linked.user_live hmem
  have hz := plan_eq_some hn hr
  rw [inputsOf_of_plan hz] at hmem
  by_cases hzl : z ∈ l
  · obtain ⟨i, hi⟩ := hlive z hzl
    obtain ⟨lower, upper, hlower, hupper, hitem, -⟩ := h.done z hzl i hi
    rw [hz] at hitem
    rw [Option.some.inj hitem] at hmem
    rw [inputsOf_of_plan hi]
    rcases Item.mem_narrow hmem with hmem | rfl | rfl
    · exact hmem
    · omega
    · omega
  · by_cases hzs : z < (g.size : Int)
    · rw [h.kept hzs hzl] at hz
      rw [inputsOf_of_plan hz]
      exact hmem
    · rw [h.fresh z (not_lt.1 hzs) (range_of_plan hz).2] at hz
      rw [← Option.some.inj hz] at hmem
      cases hmem

theorem narrowChain_settled (hv : Shape.Respects view) {P : Plan}
    {index x base bottom slice : NodeId} {l : List NodeId} {b : Item} {d e : Dim}
    (h : g.SettledBut view fun z => D z ∨ z = bottom) (hw : P.WriteChain axis index x l base)
    (hnodup : l.Nodup) (hlast : l.getLast? = some bottom) (hitem : ∀ c ∈ l, ∀ i, P c = some i →
      g.plan c = some (if c = bottom then i.retarget slice else i))
    (hb : g.plan slice = some b) (hm : b.profile = .matrix d e)
    (huse : ∀ c ∈ l, ∀ z, c ∈ g.inputsOf z → ∃ j, P z = some j ∧ c ∈ j.inputs) :
    Ends (l.reverse.forM (narrow axis)) g anyFault fun _ g' =>
      g'.SettledBut view fun z => D z ∨ x ∈ g'.sizedBy z := by
  induction hw with
  | @last x base i hw =>
    obtain rfl : x = bottom := Option.some.inj hlast
    exact (narrow_settled hv h).bind fun _ _ h' => h'
  | @step x y base i l hw hl hsole ih =>
    rw [List.nodup_cons] at hnodup
    rw [hl.getLast?_cons x] at hlast
    have htail : ∀ c ∈ l, c ∈ x :: l := fun c hc => List.mem_cons_of_mem x hc
    obtain ⟨g₁, hrun₁, hn₁⟩ := narrowChain_ok h.linked hl hnodup.2 hlast
      (fun c hc => hitem c (htail c hc)) hb hm
    have h₁ := (ends_ok hrun₁).1 (ih hnodup.2 hlast (fun c hc => hitem c (htail c hc))
      fun c hc => huse c (htail c hc))
    have hlive : ∀ c ∈ l, ∃ k, g.plan c = some k := fun c hc => by
      obtain ⟨t, k, hk⟩ := hl.writeAt hc
      exact ⟨_, hitem c (htail c hc) k hk.item⟩
    have hold : @LT.lt Int _ y g.size := by
      obtain ⟨k, hk⟩ := hlive y hl.head_mem
      exact (range_of_plan hk).2
    -- The next write has no user but this one.
    have h₁ : g₁.SettledBut view fun z => D z ∨ z = x := h₁.mono fun z => Or.imp_right fun hz => by
      obtain ⟨j, hj, hmem⟩ := huse y (htail y hl.head_mem) z
        (hn₁.old_use hlive hold (mem_inputsOf_of_sizedBy hz))
      obtain ⟨pos, hpos⟩ := List.mem_iff_getElem?.1 hmem
      exact (hsole z j pos hj hpos).1
    unfold Ends
    rw [List.reverse_cons, Edit.forM_append_ok hrun₁]
    exact (narrow_settled hv h₁).bind fun _ _ h' => h'

theorem Retargeted.old_use {g₂ : Graph} {m : Merge} (hr : Retargeted g m g₂) (h : g.Ordered)
    (hm : m.Chained g.plan) (hs : m.start = g.size) {c : NodeId} (hc : c ∈ m.chain) {z : Int}
    (hmem : c ∈ g₂.inputsOf z) : ∃ j, g.plan z = some j ∧ c ∈ j.inputs := by
  have hslice : m.slice = m.start + 2 := rfl
  have hsize := hr.size
  have hold : @LT.lt Int _ c m.start := hm.old_of_mem hc
  obtain ⟨n, hn, hlive⟩ := hr.changes.linked.user_live hmem
  have hz := plan_eq_some hn hlive
  rw [inputsOf_of_plan hz] at hmem
  by_cases hzs : z < m.start
  · by_cases hzb : z = m.bottom
    · obtain ⟨i, hi⟩ := hm.bottomAt
      have hitem := hr.item m.bottom hm.bottom_mem i hi.item
      rw [if_pos rfl, ← hzb, hz] at hitem
      rw [Option.some.inj hitem] at hmem
      refine ⟨i, hzb ▸ hi.item, ?_⟩
      rcases Item.mem_retarget hmem with hmem | he
      · exact hmem
      · omega
    · rw [hr.changes.plan_of_not_mem (by omega) (by simpa using hzb)] at hz
      exact ⟨_, hz, hmem⟩
  · exfalso
    have hlt := (range_of_plan hz).2
    by_cases h₀ : z = m.start
    · rw [h₀, hr.one] at hz
      rw [← Option.some.inj hz] at hmem
      cases hmem
    by_cases h₁ : z = m.start + 1
    · rw [h₁, hr.last] at hz
      rw [← Option.some.inj hz] at hmem
      cases hmem
    have h₂ : z = m.slice := by omega
    rw [h₂, hr.slice] at hz
    rw [← Option.some.inj hz] at hmem
    rcases Item.mem_readWhole.1 hmem with he | he | he | he
    · exact hm.chain.base_not_mem h.acyclic (he ▸ hc)
    · exact hm.index_not_mem h.acyclic (he ▸ hc)
    · omega
    · omega

theorem Detached.sizedBy_top {g₃ : Graph} {m : Merge} (hd : Detached g m g₃) (h : g.Ordered)
    (hm : m.Chained g.plan) (hs : m.start = g.size) {x : Int} (hx : m.top ∈ g₃.sizedBy x) :
    m.top ∈ g.sizedBy x := by
  have hmem := mem_inputsOf_of_sizedBy hx
  obtain ⟨k, hk, hkr⟩ := hd.changes.linked.user_live hmem
  have hx₃ := plan_eq_some hk hkr
  rw [inputsOf_of_plan hx₃] at hmem
  have hnot := mt (hd.top_not_mem h hm hx₃) (not_not.2 hmem)
  rw [not_or, not_le] at hnot
  rw [sizedBy_of_plan hx₃] at hx
  rw [hd.kept hs hnot.2 hnot.1] at hx₃
  rwa [sizedBy_of_plan hx₃]

end Optimizer.Slicing

namespace Optimizer
open LinearPlan.Graph

structure Seamless (view : Shape → Shape) (g : Graph) (id root : NodeId) (C : NodeId → Prop)
    (g' : Graph) : Prop where
  kept : ∀ {x i}, g.plan x = some i → ¬ C x → g'.look view x = g.look view x
  root : g'.look view root = g.look view id

variable {g g' : Graph} {view : Shape → Shape} {id root : NodeId} {C D : NodeId → Prop}

theorem Rework.settledBut (h : Rework g id root C g') (hv : Shape.Respects view) (ho : g.Ordered)
    (hset : g.SettledBut view D) (hD : g.Spreads D)
    (hsame : ¬ D id → Seamless view g id root C g')
    (hbut : g'.SettledBut view fun x => D x ∨ id ∈ g.sizedBy x) : g'.SettledBut view D := by
  refine ⟨hbut.linked, fun x => (em (D x)).imp_right fun hDx => ?_⟩
  rcases hbut.settled x with (hx | hx) | hx
  · exact absurd hx hDx
  · have hsame := hsame fun hid => hDx (hD.users hx hid)
    have hx := mem_inputsOf_of_sizedBy hx
    obtain ⟨n, hn, hr⟩ := ho.user_live hx
    have hp := plan_eq_some hn hr
    rw [inputsOf_of_plan hp] at hx
    have hC := h.user_not_changed ho hp hx
    refine ((hset.settled x).resolve_left hDx).subst hv ho.toLinked hbut.linked hp
      (h.kept_item hp hC) (hsame.kept hp hC) fun y hy => ?_
    have hy := mem_inputsOf_of_sizedBy hy
    rw [inputsOf_of_plan hp] at hy
    by_cases hyid : y = id
    · obtain ⟨k, hk, hop⟩ := h.op_of_changed h.id_changed
      obtain ⟨j, hj, hlit⟩ := h.root_literal
      rw [if_pos hyid, hyid]
      refine similar_of_look hk hj hsame.root (hlit.trans ?_)
      rcases hop with hop | ⟨flags, hop⟩
      · rw [Factoring.isMult_iff.1 hop]
        rfl
      · rw [hop]
        rfl
    · obtain ⟨k, hk⟩ := ho.closed hp y hy
      have hyC : ¬ C y := fun hyC => hC (h.users hyC hyid hp hy)
      rw [if_neg hyid]
      exact similar_of_look hk (h.kept_item hk hyC) (hsame.kept hk hyC) rfl
  · exact hx

structure Refits (view : Shape → Shape) (g g' : Graph) : Prop where
  resized : g.Resized g'
  look : ∀ x, g'.look view x = g.look view x
  settled : g'.AllSettled view

theorem refreshAll_refits (hv : Shape.Respects view) (hset : g.AllSettled view) {edges : List Edge}
    (hedges : ∀ e ∈ edges, ∃ i, g.plan e.parent = some i ∧ root ∈ i.inputs) :
    Ends (edges.forM fun e => Edit.refresh e.parent) g Edit.anyFault fun _ g' =>
      Refits view g g' := by
  have hres := (Edit.refreshAll_ends hset.linked hedges).and_any (Edit.refreshAll_seen hv hset edges)
  exact hres.imp (fun _ _ _ => trivial) fun _ g' ⟨hres, hset', hlook⟩ => ⟨hres, hlook, hset'⟩

namespace Slicing
variable {m : Merge} {n : Node}

theorem holds_of_retains {e : Edge} {y : NodeId} (hl : g.Linked) (hold : g.Retains g')
    (h : g.Holds e y) : g'.Holds e y ∧ g'.sizedBy e.parent = g.sizedBy e.parent := by
  obtain ⟨j, hj, -⟩ := Edit.user_of_holds hl h
  have hj' := hold.plan_eq hj
  obtain ⟨pos, hpos, hget⟩ := h
  refine ⟨⟨pos, hpos, ?_⟩, by rw [sizedBy_of_plan hj', sizedBy_of_plan hj]⟩
  rwa [inputsOf_of_plan hj', ← inputsOf_of_plan hj]

theorem Rechained.seamless (hre : Rechained g m g') (hv : Shape.Respects view) (h : g.Ordered)
    (hset : g.SettledBut view D) (hD : g.Spreads D) (hDtop : ¬ D m.top)
    (hb : Measured g m.axis m.base m.width n)
    (hbut : g'.SettledBut view fun x => D x ∨ m.top ∈ g.sizedBy x)
    (hkept : ∀ {x j}, g.plan x = some j → x ∉ m.chain → g'.look view x = g.look view x) :
    Seamless view g m.top m.written (· ∈ m.chain) g' := by
  have hchain : ∀ c ∈ m.chain, ¬ D c := fun c hc hDc => hDtop (hD.chain hre.chained.chain hc hDc)
  have hgone : ∀ i, g.plan m.written ≠ some i := fun i hi =>
    absurd (range_of_plan hi).2 (not_lt.2 (Rework.merge hre).root_new)
  have hnew : ¬ (D m.written ∨ m.top ∈ g.sizedBy m.written) := by
    rintro (hx | hx)
    · obtain ⟨i, hi⟩ := hD.live hx
      exact hgone i hi
    · obtain ⟨k, hk, hkr⟩ := h.user_live (mem_inputsOf_of_sizedBy hx)
      exact hgone _ (plan_eq_some hk hkr)
  have hbase := hkept hb.plan (hre.chained.chain.base_not_mem h.acyclic)
  rw [look_eq_some hb.node] at hbase
  obtain ⟨b, hcore, hview⟩ := Option.map_eq_some_iff.1 hbase
  obtain ⟨b, hb', rfl⟩ := get?_of_core? hcore
  have hwritten := ((hbut.settled m.written).resolve_left hnew).look_write hre.linked
    hre.result.written rfl rfl hb'
  refine ⟨hkept, ?_⟩
  rw [hwritten, hset.look_chain hv hre.chained.chain hchain hb.node]
  exact congrArg some (hv.ofWrite hview)

theorem mergeChain_settledBut (hv : Shape.Respects view) (hset : g.SettledBut view D)
    (hD : g.Spreads D) (h : g.Ordered) (hm : m.Chained g.plan) (hs : m.start = g.size)
    (hb : Measured g m.axis m.base m.width n)
    (hwhole : m.whole = .matrix (.ofInt n.shape.rows) (.ofInt n.shape.cols)) :
    ∃ (edges : List Edge) (g₅ : Graph),
      mergeChain m.axis m.top m.bottom m.base m.index m.chain g =
        (do edges.forM fun e => Edit.refresh e.parent
            return m.written) g₅ ∧
      Rechained g m g₅ ∧ (∀ e ∈ edges, ∃ i, g₅.plan e.parent = some i ∧ m.written ∈ i.inputs) ∧
      g₅.SettledBut view D := by
  obtain ⟨g₁, g₂, hrun₁, hrun₂, hr⟩ := retarget_ok h hm hs hb
  obtain ⟨g₃, hrun₃, hd⟩ := hr.detached h hm hs
  obtain ⟨edges, g₄, g₅, hedges, hrun₄, hrun₅, hre, -, hlive⟩ := attach_ok h hm hs hb hwhole hd
  have h₁ := (ends_ok hrun₁).1 (readSlice_settled hv hset m.base m.index)
  have hbut₁ : g₁.SettledBut view fun x => D x ∨ x = m.bottom := h₁.1.mono fun _ => .inl
  have h₂ := (ends_ok hrun₂).1 (Edit.replaceInput_settled hv hbut₁ (.inr rfl) 0 m.slice)
  have h₃ := (ends_ok hrun₃).1 (narrowChain_settled hv h₂ hm.chain (hm.chain.nodup h.acyclic)
    hm.last hr.item hr.slice (m.axis.sliceProfile_eq m.width).symm
    fun c hc z hz => hr.old_use h hm hs hc hz)
  obtain ⟨h₄, hold₄⟩ := (ends_ok hrun₄).1 (writeSlice_settled hv h₃ m.base m.top m.index)
  obtain ⟨t, i, hi⟩ := hm.topAt
  obtain ⟨lower, upper, -, -, htop, -⟩ := hd.done m.top hm.top_mem i hi.item
  have husers := ((ends_ok hedges).1 (Edit.parentEdges_users hd.changes.linked htop)).2
  have hedges₄ := fun e he => holds_of_retains hd.changes.linked hold₄ ((husers e).1 he)
  obtain ⟨h₅, hlook₅⟩ := (ends_ok hrun₅).1 (Edit.redirect_settled hv h₄
    (fun e he => (hedges₄ e he).1) (fun e he hx => .inr ((hedges₄ e he).2 ▸ hx)) m.written)
  have hbut : g₅.SettledBut view fun x => D x ∨ m.top ∈ g.sizedBy x :=
    h₅.mono fun x => Or.imp_right fun hx => hd.sizedBy_top h hm hs hx
  have hkept : ∀ {x j}, g.plan x = some j → x ∉ m.chain → g₅.look view x = g.look view x := by
    intro x j hx hxc
    have hx₃ := hd.kept hs (hs ▸ (range_of_plan hx).2) hxc
    rw [hlook₅, hold₄.look_eq (hx₃.trans hx)]
    exact look_of_core? (hd.changes.cores x (range_of_plan hx).2 hxc)
  exact ⟨edges, g₅, mergeChain_eq hrun₁ hrun₂ hrun₃ hedges hrun₄ hrun₅, hre, hlive,
    Rework.settledBut (.merge hre) hv h hset hD
      (fun hDtop => hre.seamless hv h hset hD hDtop hb hbut hkept) hbut⟩

theorem mergeChain_settled (hv : Shape.Respects view) (hset : g.AllSettled view) (h : g.Ordered)
    (hm : m.Chained g.plan) (hs : m.start = g.size) (hb : Measured g m.axis m.base m.width n)
    (hwhole : m.whole = .matrix (.ofInt n.shape.rows) (.ofInt n.shape.cols)) :
    Ends (mergeChain m.axis m.top m.bottom m.base m.index m.chain) g Edit.anyFault fun _ g' =>
      ∃ g₅, Rechained g m g₅ ∧ Refits view g₅ g' := by
  obtain ⟨edges, g₅, hrun, hre, hlive, hset₅⟩ :=
    mergeChain_settledBut hv hset ⟨False.elim, fun _ hx => hx⟩ h hm hs hb hwhole
  unfold Ends
  rw [hrun]
  exact (refreshAll_refits hv hset₅ hlive).bind fun _ g₆ hfit => ⟨g₅, hre, hfit⟩

end Slicing
end Optimizer
end LinearPlan
