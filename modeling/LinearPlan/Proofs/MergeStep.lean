import LinearPlan.Proofs.MergePlan

/-!
# Merging a chain of writes

Reading a row, making the writes of a chain writes to that row, and writing it back all succeed on a
graph with consistent edges and no cycles, and leave the plan of a merge. Shapes need not be right
for this: the nodes that a merge adds or changes can be sized whatever their operands are. On a sound
graph the users of the chain are sized as before, and the graph stays sound.
-/
namespace LinearPlan

open Optimizer.Slicing (Axis)

namespace Edit
open LinearPlan.Graph
variable {g : Graph} {axis : Axis}

theorem literal_changes (h : g.Linked) (n : Int) :
    ∃ g', literal (.ofInt n) g = .ok (g.size : Int) g' ∧ g'.size = g.size + 1 ∧
      Changes g [] (Function.update g.plan (g.size : Int) (some (.literal n))) g' :=
  addNode_changes (s := .ofLiteral (.ofInt n)) h nofun rfl rfl (Shape.legal_ofScalar _)

theorem refresh_write (h : g.Linked) {x t : NodeId} {i j : Item} {flags : SliceFlags} {r c : Dim}
    (hx : g.plan x = some i) (hop : i.op = .leftIndexing flags) (ht : i.inputs[0]? = some t)
    (hj : g.plan t = some j) (hm : j.profile = .matrix r c) :
    ∃ g', refresh x g = .ok () g' ∧ g'.size = g.size ∧
      Changes g [x] (Function.update g.plan x (some { i with profile := j.profile })) g' := by
  obtain ⟨n, hn, hr, rfl⟩ := get?_of_plan hx
  obtain ⟨m, hm', -, rfl⟩ := get?_of_plan hj
  obtain ⟨s, hs, hlegal, hp⟩ :=
    sizeNode_leftIndexing (x := x) (h.closed hx) (h.arity_eq hn hr) hop ht hm'
  have hshape : m.shape.profile = .matrix (.ofInt m.shape.rows) (.ofInt m.shape.cols) :=
    Shape.profile_of_isMatrix (Shape.isMatrix_iff.2 ⟨r, c, hm⟩)
  obtain ⟨g', hrun, hsize, hch⟩ := refresh_changes h hn hr hs hlegal
  rw [hp, ← hshape] at hch
  exact ⟨g', hrun, hsize, hch⟩

end Edit

namespace Optimizer.Slicing
open LinearPlan.Graph
variable {g : Graph} {axis : Axis}

theorem setFlag_ok {c : NodeId} {i : Item} {flags : SliceFlags} (hc : g.plan c = some i)
    (hop : i.op = .leftIndexing flags) (hflag : axis.flag flags = true) :
    axis.setFlag c g = .ok () g := by
  obtain ⟨n, hn, hr, rfl⟩ := get?_of_plan hc
  obtain ⟨row, col⟩ := flags
  cases axis <;> cases hflag <;> exact Edit.setFlags_same hn hr hop rfl

theorem narrow_ok (h : g.Linked) {c t : Int} {i j : Item} {flags : SliceFlags} {d e : Dim}
    (hc : g.plan c = some i) (hop : i.op = .leftIndexing flags) (hflag : axis.flag flags = true)
    (ht : i.inputs[0]? = some t) (hj : g.plan t = some j) (hm : j.profile = .matrix d e) :
    ∃ g', narrow axis c g = .ok () g' ∧ g'.size = g.size + 2 ∧ Edit.Changes g [c]
      (Function.update (Function.update (Function.update g.plan (g.size : Int) (some (.literal 1)))
        ((g.size : Int) + 1) (some (.literal 1))) c
        (some (i.narrow axis (g.size : Int) ((g.size : Int) + 1) j.profile))) g' := by
  have hcs := (range_of_plan hc).2
  have hts := (range_of_plan hj).2
  have hc₀ : c ≠ (g.size : Int) := by omega
  have hc₁ : c ≠ (g.size : Int) + 1 := by omega
  have ht₀ : t ≠ (g.size : Int) := by omega
  have ht₁ : t ≠ (g.size : Int) + 1 := by omega
  have htc : t ≠ c := by
    rintro rfl
    exact h.irreflexive t (inputsOf_of_plan hc ▸ List.mem_of_getElem? ht)
  have hlen : i.inputs.length = 6 := by
    have ha := h.arity_of_plan hc
    rw [hop] at ha
    exact (Option.some.inj ha).symm
  have hlower : axis.lowerPos < i.inputs.length := by
    rw [hlen]
    cases axis <;> decide
  have hupper : axis.upperPos < (i.inputs.set axis.lowerPos (g.size : Int)).length := by
    rw [List.length_set, hlen]
    cases axis <;> decide
  -- The lower bound.
  obtain ⟨g₁, hrun₁, hsize₁, hl₁⟩ := Edit.literal_changes h 1
  have hc₁' : g₁.plan c = some i := by rw [hl₁.plan_eq, Function.update_of_ne hc₀, hc]
  have hlit₁ : g₁.plan (g.size : Int) = some (.literal 1) := by
    rw [hl₁.plan_eq, Function.update_self]
  obtain ⟨g₂, hrun₂, hsize₂, hl₂⟩ := Edit.replaceInput_changes hl₁.linked hc₁' hlit₁ hc₀.symm
    (List.getElem?_eq_getElem hlower)
  -- The upper bound.
  obtain ⟨g₃, hrun₃, hsize₃, hl₃⟩ := Edit.literal_changes hl₂.linked 1
  have hid : (g₂.size : Int) = (g.size : Int) + 1 := by omega
  rw [hid] at hrun₃ hl₃
  have hc₃ : g₃.plan c = some { i with inputs := i.inputs.set axis.lowerPos (g.size : Int) } := by
    rw [hl₃.plan_eq, Function.update_of_ne hc₁, hl₂.plan_eq, Function.update_self]
  have hlit₃ : g₃.plan ((g.size : Int) + 1) = some (.literal 1) := by
    rw [hl₃.plan_eq, Function.update_self]
  obtain ⟨g₄, hrun₄, hsize₄, hl₄⟩ := Edit.replaceInput_changes hl₃.linked hc₃ hlit₃ hc₁.symm
    (List.getElem?_eq_getElem hupper)
  -- The flag is set already, and the size is that of the target.
  have hc₄ : g₄.plan c = some (i.narrow axis (g.size : Int) ((g.size : Int) + 1) i.profile) := by
    rw [hl₄.plan_eq, Function.update_self]
    rfl
  have hj₄ : g₄.plan t = some j := by
    rw [hl₄.plan_eq, Function.update_of_ne htc, hl₃.plan_eq, Function.update_of_ne ht₁,
      hl₂.plan_eq, Function.update_of_ne htc, hl₁.plan_eq, Function.update_of_ne ht₀, hj]
  have hflag₄ : axis.setFlag c g₄ = .ok () g₄ := setFlag_ok hc₄ hop hflag
  obtain ⟨g₅, hrun₅, hsize₅, hl₅⟩ :=
    Edit.refresh_write hl₄.linked hc₄ hop ((i.narrow_target ..).trans ht) hj₄ hm
  have hall := ((((hl₁.trans hl₂).trans hl₃).trans hl₄).trans hl₅).mono (k := [c]) (by simp)
  refine ⟨g₅, ?_, by omega, { hall with plan_eq := ?_ }⟩
  · unfold narrow
    rw [Edit.bind_ok hrun₁, Edit.bind_ok (Edit.discard_ok hrun₂), Edit.bind_ok hrun₃,
      Edit.bind_ok (Edit.discard_ok hrun₄), Edit.bind_ok hflag₄]
    exact hrun₅
  · rw [hl₅.plan_eq, hl₄.plan_eq, hl₃.plan_eq, hl₂.plan_eq, hl₁.plan_eq]
    funext x
    by_cases hx : x = c
    · subst hx
      rw [Function.update_self, Function.update_self]
      rfl
    · by_cases hx₁ : x = (g.size : Int) + 1
      · subst hx₁
        simp [hx]
      · simp [hx, hx₁]

structure Narrowed (axis : Axis) (l : List NodeId) (q : Profile) (g g' : Graph) : Prop where
  changes : Edit.Changes g l g'.plan g'
  size : g'.size = g.size + 2 * l.length
  fresh : ∀ x : Int, (g.size : Int) ≤ x → x < (g'.size : Int) → g'.plan x = some (.literal 1)
  done : ∀ c ∈ l, ∀ i, g.plan c = some i → ∃ lower upper : Int,
    ((g.size : Int) ≤ lower ∧ lower < (g'.size : Int)) ∧
    ((g.size : Int) ≤ upper ∧ upper < (g'.size : Int)) ∧
    g'.plan c = some (i.narrow axis lower upper q) ∧
    ∀ p j, g'.plan p = some j → lower ∈ j.inputs → p = c

theorem Narrowed.kept {g' : Graph} {l : List NodeId} {q : Profile} (h : Narrowed axis l q g g')
    {x : Int} (hx : x < (g.size : Int)) (hxl : x ∉ l) : g'.plan x = g.plan x :=
  h.changes.plan_of_not_mem hx hxl

theorem Narrowed.cons {g₁ g₂ : Graph} {l : List NodeId} {q : Profile} {x : Int} {i : Item}
    (h : g.Linked) (hl : Narrowed axis l q g g₁) (hx : g.plan x = some i) (hxl : x ∉ l)
    (hsize : g₂.size = g₁.size + 2) (hch : Edit.Changes g₁ [x]
      (Function.update (Function.update (Function.update g₁.plan (g₁.size : Int) (some (.literal 1)))
        ((g₁.size : Int) + 1) (some (.literal 1))) x
        (some (i.narrow axis (g₁.size : Int) ((g₁.size : Int) + 1) q))) g₂) :
    Narrowed axis (x :: l) q g g₂ := by
  have hxs := (range_of_plan hx).2
  have hsize₁ := hl.size
  have hplan : ∀ y : Int, y < (g₁.size : Int) → y ≠ x → g₂.plan y = g₁.plan y := by
    intro y hy hyx
    rw [hch.plan_eq, hch.plan_of_not_mem hy (by simpa using hyx)]
  have hself : g₂.plan x = some (i.narrow axis (g₁.size : Int) ((g₁.size : Int) + 1) q) := by
    rw [hch.plan_eq, Function.update_self]
  have hlit : ∀ y : Int, (g₁.size : Int) ≤ y → y < (g₂.size : Int) →
      g₂.plan y = some (.literal 1) := by
    intro y hlow hlt
    have hyx : y ≠ x := by omega
    rw [hch.plan_eq, Function.update_of_ne hyx]
    by_cases hy₁ : y = (g₁.size : Int) + 1
    · rw [hy₁, Function.update_self]
    · have hy₀ : y = (g₁.size : Int) := by omega
      rw [Function.update_of_ne hy₁, hy₀, Function.update_self]
  -- Who uses a node after the step: the new write, or who used it before.
  have huser : ∀ {p y : Int} {j : Item}, g₂.plan p = some j → y ∈ j.inputs →
      p = x ∧ (y < (g.size : Int) ∨ (g₁.size : Int) ≤ y) ∨ p ≠ x ∧ g₁.plan p = some j := by
    intro p y j hp hy
    by_cases hpx : p = x
    · refine .inl ⟨hpx, ?_⟩
      rw [hpx, hself] at hp
      cases hp
      rcases Item.mem_narrow hy with hy | rfl | rfl
      · exact .inl (h.operand_lt hx hy)
      · exact .inr le_rfl
      · exact .inr (by omega)
    · refine .inr ⟨hpx, ?_⟩
      by_cases hps : p < (g₁.size : Int)
      · rw [← hplan p hps hpx, hp]
      · rw [hlit p (not_lt.1 hps) (range_of_plan hp).2] at hp
        cases hp
        cases hy
  refine ⟨?_, by rw [List.length_cons]; omega, ?_, ?_⟩
  · have hall := (hl.changes.trans hch).mono (k := x :: l) fun y hy => by
      rcases List.mem_append.1 hy with hy | hy
      · exact List.mem_cons_of_mem x hy
      · exact List.mem_cons.2 (.inl (List.mem_singleton.1 hy))
    exact { hall with plan_eq := rfl }
  · intro y hlow hlt
    by_cases hy : y < (g₁.size : Int)
    · have hyx : y ≠ x := by omega
      rw [hplan y hy hyx, hl.fresh y hlow hy]
    · exact hlit y (not_lt.1 hy) hlt
  · intro c hc k hk
    rcases List.mem_cons.1 hc with rfl | hc
    · rw [hx] at hk
      cases hk
      refine ⟨_, _, ⟨?_, ?_⟩, ⟨?_, ?_⟩, hself, fun p j hp hy => ?_⟩
      · omega
      · omega
      · omega
      · omega
      · rcases huser hp hy with ⟨rfl, -⟩ | ⟨-, hp⟩
        · rfl
        · exact absurd (hl.changes.linked.operand_lt hp hy) (lt_irrefl _)
    · obtain ⟨lower, upper, hlower, hupper, hitem, huse⟩ := hl.done c hc k hk
      have hcs : (c : Int) < (g₁.size : Int) := (range_of_plan hitem).2
      have hcx : c ≠ x := fun he => hxl (he ▸ hc)
      refine ⟨lower, upper, ⟨hlower.1, by omega⟩, ⟨hupper.1, by omega⟩, ?_, fun p j hp hy => ?_⟩
      · rw [hplan c hcs hcx, hitem]
      · rcases huser hp hy with ⟨-, hy⟩ | ⟨-, hp⟩
        · omega
        · exact huse p j hp hy

theorem narrowChain_ok (h : g.Linked) {P : Plan} {index x base bottom slice : NodeId}
    {l : List NodeId} {b : Item} {d e : Dim} (hw : P.WriteChain axis index x l base)
    (hnodup : l.Nodup) (hlast : l.getLast? = some bottom) (hitem : ∀ c ∈ l, ∀ i, P c = some i →
      g.plan c = some (if c = bottom then i.retarget slice else i))
    (hb : g.plan slice = some b) (hm : b.profile = .matrix d e) :
    ∃ g', l.reverse.forM (narrow axis) g = .ok () g' ∧ Narrowed axis l b.profile g g' := by
  induction hw with
  | @last x base i hw =>
    obtain ⟨flags, hop, hflag⟩ := hw.op
    have hxb : x = bottom := Option.some.inj hlast
    have hx := hitem x List.mem_cons_self i hw.item
    rw [if_pos hxb] at hx
    obtain ⟨g', hrun, hsize, hch⟩ :=
      narrow_ok h hx hop hflag (Item.retarget_target hw.target) hb hm
    refine ⟨g', (Edit.forM_cons_ok hrun).trans Edit.forM_nil, ?_⟩
    have hnil : Narrowed axis [] b.profile g g := by
      refine ⟨⟨⟨h, rfl, fun _ _ hx => hx, id⟩, le_rfl, fun _ _ _ => rfl⟩, rfl, fun x hlow hlt => ?_,
        nofun⟩
      omega
    exact hnil.cons h hx List.not_mem_nil hsize hch
  | @step x y base i l hw hl _ ih =>
    rw [List.nodup_cons] at hnodup
    rw [hl.getLast?_cons x] at hlast
    obtain ⟨g₁, hrun₁, hn₁⟩ := ih hnodup.2 hlast fun c hc => hitem c (List.mem_cons_of_mem x hc)
    obtain ⟨flags, hop, hflag⟩ := hw.op
    have hxb : x ≠ bottom := fun he => hnodup.1 (he ▸ List.mem_of_getLast? hlast)
    have hx := hitem x List.mem_cons_self i hw.item
    rw [if_neg hxb] at hx
    obtain ⟨t, j, hj⟩ := hl.writeAt hl.head_mem
    have hjy := hitem y (List.mem_cons_of_mem x hl.head_mem) j hj.item
    obtain ⟨lower, upper, -, -, hy, -⟩ := hn₁.done y hl.head_mem _ hjy
    have hx₁ : g₁.plan x = some i := by
      rw [hn₁.kept (range_of_plan hx).2 hnodup.1, hx]
    obtain ⟨g₂, hrun₂, hsize₂, hch⟩ := narrow_ok hn₁.changes.linked hx₁ hop hflag hw.target hy hm
    refine ⟨g₂, ?_, hn₁.cons h hx hnodup.1 hsize₂ hch⟩
    rw [List.reverse_cons]
    exact (Edit.forM_append_ok hrun₁).trans ((Edit.forM_cons_ok hrun₂).trans Edit.forM_nil)

structure Measured (g : Graph) (axis : Axis) (base : NodeId) (w : Int) (n : Node) : Prop where
  node : g.get? base = some n
  live : n.retired = false
  width : axis.width n.shape = w
  wide : 1 < w

namespace Measured
variable {base : NodeId} {w : Int} {n : Node}

theorem plan (hb : Measured g axis base w n) : g.plan base = some n.item :=
  plan_eq_some hb.node hb.live

theorem of_core {g' : Graph} (hb : Measured g axis base w n) (hcore : g'.core? base = g.core? base) :
    ∃ n', Measured g' axis base w n' ∧ n'.shape = n.shape := by
  rw [core?_eq_some hb.node] at hcore
  obtain ⟨n', hn', he⟩ := get?_of_core? hcore
  have hshape : n'.core.shape = n.core.shape := congrArg Node.shape he
  have hretired : n'.core.retired = n.core.retired := congrArg Node.retired he
  have hwidth : axis.width n'.core.shape = w := hshape ▸ hb.width
  exact ⟨n', ⟨hn', hretired.trans hb.live, hwidth, hb.wide⟩, hshape⟩

end Measured

theorem countNode_ok (h : g.Linked) {base : NodeId} {w : Int} {n : Node}
    (hb : Measured g axis base w n) :
    ∃ g', Edit.countNode base axis.countsColumns g = .ok (g.size : Int) g' ∧
      g'.size = g.size + 1 ∧
      Edit.Changes g [] (Function.update g.plan (g.size : Int) (some (.literal w))) g' := by
  have hcount : (if axis.countsColumns then n.shape.cols else n.shape.rows) = w := by
    rw [← hb.width]
    cases axis <;> rfl
  have hwide := hb.wide
  obtain ⟨g', hrun, hsize, hl⟩ := Edit.literal_changes h w
  refine ⟨g', ?_, hsize, hl⟩
  unfold Edit.countNode
  rw [Edit.bind_ok (Edit.live_run hb.node hb.live)]
  simp only [hcount]
  rw [if_pos (by omega)]
  exact hrun

theorem bounds_ok (h : g.Linked) {base : NodeId} (index : NodeId) {w : Int} {n : Node}
    (hb : Measured g axis base w n) :
    ∃ g', g'.size = g.size + 2 ∧
      Edit.Changes g [] (Function.update (Function.update g.plan (g.size : Int) (some (.literal 1)))
        ((g.size : Int) + 1) (some (.literal w))) g' ∧
      ∀ {α : Type} (f : NodeId → NodeId → NodeId → NodeId → Edit α),
        (do let (rl, ru, cl, cu) ← bounds axis base index
            f rl ru cl cu) g = (match axis with
          | .row => f index index (g.size : Int) ((g.size : Int) + 1)
          | .col => f (g.size : Int) ((g.size : Int) + 1) index index) g' := by
  obtain ⟨g₁, hrun₁, hsize₁, hl₁⟩ := Edit.literal_changes h 1
  obtain ⟨n₁, hb₁, -⟩ := hb.of_core (hl₁.cores base (range_of_get? hb.node).2 List.not_mem_nil)
  obtain ⟨g₂, hrun₂, hsize₂, hl₂⟩ := countNode_ok hl₁.linked hb₁
  have hid : (g₁.size : Int) = (g.size : Int) + 1 := by omega
  rw [hid] at hrun₂ hl₂
  have hall := hl₁.trans hl₂
  rw [hl₁.plan_eq] at hall
  refine ⟨g₂, by omega, hall, ?_⟩
  intro α f
  have hbounds : bounds axis base index g = .ok (match axis with
      | .row => (index, index, (g.size : Int), (g.size : Int) + 1)
      | .col => ((g.size : Int), (g.size : Int) + 1, index, index)) g₂ := by
    unfold bounds
    rw [Edit.bind_ok hrun₁, Edit.bind_ok hrun₂]
    cases axis <;> rfl
  rw [Edit.bind_ok hbounds]
  cases axis <;> rfl

theorem plan_bounds {P P' : Plan} {s w : Int}
    (hP : P' = Function.update (Function.update P s (some (.literal 1))) (s + 1)
      (some (.literal w))) :
    P' s = some (.literal 1) ∧ P' (s + 1) = some (.literal w) ∧
      ∀ x : Int, x < s → P' x = P x := by
  have hs : s ≠ s + 1 := by omega
  refine ⟨?_, ?_, fun x hx => ?_⟩
  · rw [hP, Function.update_of_ne hs, Function.update_self]
  · rw [hP, Function.update_self]
  · have hx₀ : x ≠ s := by omega
    have hx₁ : x ≠ s + 1 := by omega
    rw [hP, Function.update_of_ne hx₁, Function.update_of_ne hx₀]

theorem addNode_above {g₁ : Graph} {P : Plan} {op : Op} {inputs : List NodeId} {s : Shape}
    (hl : Edit.Changes g [] P g₁) (hsize : g₁.size = g.size + 2)
    (hin : ∀ y ∈ inputs, ∃ i, g₁.plan y = some i) (ha : op.arity? = some inputs.length)
    (hs : g₁.sizeNode g₁.size (Edit.start g₁ op inputs) = .ok s) (hlegal : s.Legal) :
    ∃ g₂, Edit.addNode op inputs g₁ = .ok ((g.size : Int) + 2) g₂ ∧ g₂.size = g.size + 3 ∧
      Edit.Changes g []
        (Function.update P ((g.size : Int) + 2) (some ⟨op, inputs, s.profile⟩)) g₂ := by
  obtain ⟨g₂, hrun, hsize₂, hl₂⟩ := Edit.addNode_changes hl.linked hin ha hs hlegal
  have hid : (g₁.size : Int) = (g.size : Int) + 2 := by omega
  rw [hid] at hrun hl₂
  have hall := hl.trans hl₂
  rw [hl.plan_eq] at hall
  exact ⟨g₂, hrun, by omega, hall⟩

theorem readSlice_ok (h : g.Linked) {base index : NodeId} {k : Item} {w : Int} {n : Node}
    (hb : Measured g axis base w n) (hk : g.plan index = some k) :
    ∃ g', readSlice axis base index g = .ok ((g.size : Int) + 2) g' ∧ g'.size = g.size + 3 ∧
      Edit.Changes g [] (Function.update (Function.update (Function.update g.plan
        (g.size : Int) (some (.literal 1))) ((g.size : Int) + 1) (some (.literal w)))
        ((g.size : Int) + 2) (some (.readWhole axis base index (g.size : Int)
          ((g.size : Int) + 1) (axis.sliceProfile w)))) g' := by
  obtain ⟨g₁, hsize₁, hl₁, hrun⟩ := bounds_ok h index hb
  obtain ⟨hone, hlast, hold⟩ := plan_bounds hl₁.plan_eq
  have hb₁ := (hold base (range_of_plan hb.plan).2).trans hb.plan
  have hk₁ := (hold index (range_of_plan hk).2).trans hk
  have hin : ∀ y ∈ base :: axis.whole index (g.size : Int) ((g.size : Int) + 1),
      ∃ i, g₁.plan y = some i := by
    intro y hy
    rcases (Item.mem_readWhole (q := .scalar)).1 hy with rfl | rfl | rfl | rfl
    · exact ⟨_, hb₁⟩
    · exact ⟨_, hk₁⟩
    · exact ⟨_, hone⟩
    · exact ⟨_, hlast⟩
  have ha : (Op.indexing axis.flags).arity? =
      some (base :: axis.whole index (g.size : Int) ((g.size : Int) + 1)).length := by
    cases axis <;> rfl
  obtain ⟨s, hs, hlegal, hp⟩ := sizeNode_indexing (x := g₁.size)
    (n := Edit.start g₁ (.indexing axis.flags)
      (base :: axis.whole index (g.size : Int) ((g.size : Int) + 1))) hin ha rfl
  have hprof : s.profile = axis.sliceProfile w :=
    Option.some.inj (hp.symm.trans (Plan.sizeFrom_readWhole axis hb₁ hk₁ hone hlast _))
  obtain ⟨g₂, hrun₂, hsize₂, hl₂⟩ := addNode_above hl₁ hsize₁ hin ha hs hlegal
  rw [hprof] at hl₂
  refine ⟨g₂, ?_, hsize₂, hl₂⟩
  unfold readSlice
  rw [hrun]
  cases axis <;> exact hrun₂

theorem writeSlice_ok (h : g.Linked) {base value index : NodeId} {k v : Item} {w : Int} {n : Node}
    (hb : Measured g axis base w n) (hk : g.plan index = some k) (hv : g.plan value = some v) :
    ∃ g', writeSlice axis base value index g = .ok ((g.size : Int) + 2) g' ∧
      g'.size = g.size + 3 ∧
      Edit.Changes g [] (Function.update (Function.update (Function.update g.plan
        (g.size : Int) (some (.literal 1))) ((g.size : Int) + 1) (some (.literal w)))
        ((g.size : Int) + 2) (some (.writeWhole axis base value index (g.size : Int)
          ((g.size : Int) + 1) (.matrix (.ofInt n.shape.rows) (.ofInt n.shape.cols))))) g' := by
  obtain ⟨g₁, hsize₁, hl₁, hrun⟩ := bounds_ok h index hb
  obtain ⟨hone, hlast, hold⟩ := plan_bounds hl₁.plan_eq
  obtain ⟨n₁, hb₁, hshape⟩ :=
    hb.of_core (hl₁.cores base (range_of_get? hb.node).2 List.not_mem_nil)
  have hk₁ := (hold index (range_of_plan hk).2).trans hk
  have hv₁ := (hold value (range_of_plan hv).2).trans hv
  have hin : ∀ y ∈ base :: value :: axis.whole index (g.size : Int) ((g.size : Int) + 1),
      ∃ i, g₁.plan y = some i := by
    intro y hy
    rcases (Item.mem_writeWhole (q := .scalar)).1 hy with rfl | rfl | rfl | rfl | rfl
    · exact ⟨_, hb₁.plan⟩
    · exact ⟨_, hv₁⟩
    · exact ⟨_, hk₁⟩
    · exact ⟨_, hone⟩
    · exact ⟨_, hlast⟩
  have ha : (Op.leftIndexing axis.flags).arity? =
      some (base :: value :: axis.whole index (g.size : Int) ((g.size : Int) + 1)).length := by
    cases axis <;> rfl
  obtain ⟨s, hs, hlegal, hp⟩ := sizeNode_leftIndexing (x := g₁.size)
    (n := Edit.start g₁ (.leftIndexing axis.flags)
      (base :: value :: axis.whole index (g.size : Int) ((g.size : Int) + 1))) hin ha rfl rfl
    hb₁.node
  obtain ⟨g₂, hrun₂, hsize₂, hl₂⟩ := addNode_above hl₁ hsize₁ hin ha hs hlegal
  rw [hp, hshape] at hl₂
  refine ⟨g₂, ?_, hsize₂, hl₂⟩
  unfold writeSlice
  rw [hrun]
  cases axis <;> exact hrun₂

structure Detached (g : Graph) (m : Merge) (g' : Graph) : Prop where
  changes : Edit.Changes g m.chain g'.plan g'
  size : (g'.size : Int) = m.resume
  done : ∀ c ∈ m.chain, ∀ i, g.plan c = some i → ∃ lower upper : Int,
    (m.start + 3 ≤ lower ∧ lower < m.resume) ∧ (m.start + 3 ≤ upper ∧ upper < m.resume) ∧
    g'.plan c = some (m.rewrite c lower upper i) ∧
    ∀ p j, g'.plan p = some j → lower ∈ j.inputs → p = c
  bound : ∀ x : Int, m.start + 3 ≤ x → x < m.resume → g'.plan x = some (.literal 1)
  one : g'.plan m.start = some (.literal 1)
  last : g'.plan (m.start + 1) = some (.literal m.width)
  slice : g'.plan m.slice =
    some (.readWhole m.axis m.base m.index m.start (m.start + 1) m.profile)

structure Rechained (g : Graph) (m : Merge) (g' : Graph) : Prop where
  linked : g'.Linked
  ops : g.KeepsOps g'
  start : m.start = g.size
  size : (g'.size : Int) = m.written + 1
  chained : m.Chained g.plan
  result : m.Result g.plan g'.plan

theorem Rechained.ordered {g' : Graph} {m : Merge} (h : Rechained g m g') (ho : g.Ordered) :
    g'.Ordered :=
  ⟨h.linked, h.result.acyclic h.chained ho.closed ho.acyclic⟩

structure Merged (g : Graph) (m : Merge) (g' : Graph) : Prop extends Rechained g m g' where
  sound : g'.Sound
  applies : m.Applies g.plan

variable {m : Merge} {n : Node}

structure Retargeted (g : Graph) (m : Merge) (g' : Graph) : Prop where
  changes : Edit.Changes g [m.bottom] g'.plan g'
  size : (g'.size : Int) = m.start + 3
  item : ∀ c ∈ m.chain, ∀ i, g.plan c = some i →
    g'.plan c = some (if c = m.bottom then i.retarget m.slice else i)
  one : g'.plan m.start = some (.literal 1)
  last : g'.plan (m.start + 1) = some (.literal m.width)
  slice : g'.plan m.slice =
    some (.readWhole m.axis m.base m.index m.start (m.start + 1) m.profile)

theorem retarget_ok (h : g.Ordered) (hm : m.Chained g.plan) (hs : m.start = g.size)
    (hb : Measured g m.axis m.base m.width n) :
    ∃ g₁ g₂, readSlice m.axis m.base m.index g = .ok m.slice g₁ ∧
      Edit.replaceInput m.bottom 0 m.slice g₁ = .ok m.base g₂ ∧ Retargeted g m g₂ := by
  obtain ⟨i, hi⟩ := hm.bottomAt
  obtain ⟨k, hk⟩ := h.closed hi.item m.index hi.lower_mem
  have hslice : m.slice = m.start + 2 := rfl
  have hbot := hm.old_of_mem hm.bottom_mem
  have hsb : m.slice ≠ m.bottom := by omega
  obtain ⟨g₁, hrun₁, hsize₁, hl₁⟩ := readSlice_ok h.toLinked hb hk
  rw [← hs] at hrun₁ hl₁
  have hread : g₁.plan m.slice =
      some (.readWhole m.axis m.base m.index m.start (m.start + 1) m.profile) := by
    rw [hl₁.plan_eq]
    exact Function.update_self ..
  have hlit₁ : ∀ x : Int, x ≠ m.slice → g₁.plan x = Function.update (Function.update g.plan
      m.start (some (.literal 1))) (m.start + 1) (some (.literal m.width)) x := by
    intro x hx
    rw [hl₁.plan_eq]
    exact Function.update_of_ne hx ..
  obtain ⟨hone, hlast, hold⟩ := plan_bounds (P := g.plan) (s := m.start) (w := m.width) rfl
  have hold₁ : ∀ x : Int, x < m.start → g₁.plan x = g.plan x := fun x hx =>
    (hlit₁ x (by omega)).trans (hold x hx)
  obtain ⟨g₂, hrun₂, hsize₂, hl₂⟩ := Edit.replaceInput_changes hl₁.linked
    ((hold₁ _ hbot).trans hi.item) hread hsb hi.target
  have hplan₂ : ∀ x : Int, x ≠ m.bottom → g₂.plan x = g₁.plan x := fun x hx => by
    rw [hl₂.plan_eq, Function.update_of_ne hx]
  refine ⟨g₁, g₂, hrun₁, hrun₂, { hl₁.trans hl₂ with plan_eq := rfl }, by omega, ?_, ?_, ?_, ?_⟩
  · intro c hc j hj
    split
    · rename_i hcb
      rw [hcb, hi.item] at hj
      cases hj
      rw [hcb, hl₂.plan_eq, Function.update_self]
      rfl
    · rename_i hcb
      rw [hplan₂ c hcb, hold₁ c (hm.old_of_mem hc), hj]
  · rw [hplan₂ _ (by omega), hlit₁ _ (by omega), hone]
  · rw [hplan₂ _ (by omega), hlit₁ _ (by omega), hlast]
  · rw [hplan₂ _ hsb, hread]

theorem Retargeted.detached {g₂ : Graph} (h : g.Ordered) (hm : m.Chained g.plan)
    (hs : m.start = g.size) (hr : Retargeted g m g₂) :
    ∃ g₃, m.chain.reverse.forM (narrow m.axis) g₂ = .ok () g₃ ∧ Detached g m g₃ := by
  have hslice : m.slice = m.start + 2 := rfl
  have hresume : m.resume = m.start + 3 + 2 * m.chain.length := rfl
  have hsize₂ := hr.size
  have hq : m.profile = .matrix m.profile.rows m.profile.cols :=
    (m.axis.sliceProfile_eq m.width).symm
  obtain ⟨g₃, hrun₃, hn⟩ := narrowChain_ok hr.changes.linked hm.chain (hm.chain.nodup h.acyclic)
    hm.last hr.item hr.slice hq
  have hsize₃ := hn.size
  have hnew : ∀ x : Int, m.start ≤ x → x < m.start + 3 → g₃.plan x = g₂.plan x := fun x hx hlt =>
    hn.kept (by omega) fun hxc => absurd (hm.old_of_mem hxc) (not_lt.2 hx)
  have hall := (hr.changes.trans hn.changes).mono (k := m.chain) fun x hx => by
    rw [List.mem_append, List.mem_singleton] at hx
    rcases hx with rfl | hx
    · exact hm.bottom_mem
    · exact hx
  refine ⟨g₃, hrun₃, hall, by omega, ?_, ?_, ?_, ?_, ?_⟩
  · intro c hc j hj
    obtain ⟨lower, upper, hlower, hupper, hc₃, huse⟩ := hn.done c hc _ (hr.item c hc j hj)
    exact ⟨lower, upper, by omega, by omega, hc₃, huse⟩
  · exact fun x hx hlt => hn.fresh x (by omega) (by omega)
  · rw [hnew _ le_rfl (by omega), hr.one]
  · rw [hnew _ (by omega) (by omega), hr.last]
  · rw [hnew _ (by omega) (by omega), hr.slice]

namespace Detached
variable {g₃ g₄ : Graph}

theorem kept (hd : Detached g m g₃) (hs : m.start = g.size) {x : Int} (hx : x < m.start)
    (hxc : x ∉ m.chain) : g₃.plan x = g.plan x :=
  hd.changes.plan_of_not_mem (by omega) hxc

theorem new_cases (hd : Detached g m g₃) {x : Int} {i : Item} (hx : g₃.plan x = some i)
    (hs : m.start ≤ x) : (∃ n, i = .literal n) ∨
      i = .readWhole m.axis m.base m.index m.start (m.start + 1) m.profile := by
  have hlit : ∀ {n}, g₃.plan x = some (.literal n) → ∃ n, i = .literal n := fun {n} hn =>
    ⟨n, Option.some.inj (hx.symm.trans hn)⟩
  have hlt := (range_of_plan hx).2
  have hsize := hd.size
  have hslice : m.slice = m.start + 2 := rfl
  by_cases h₀ : x = m.slice
  · rw [h₀, hd.slice] at hx
    exact .inr (Option.some.inj hx).symm
  by_cases h₁ : x = m.start
  · exact .inl (hlit (h₁ ▸ hd.one))
  by_cases h₂ : x = m.start + 1
  · exact .inl (hlit (h₂ ▸ hd.last))
  exact .inl (hlit (hd.bound x (by omega) (by omega)))

theorem top_not_mem (hd : Detached g m g₃) (h : g.Ordered) (hm : m.Chained g.plan) {x : Int}
    {i : Item} (hx : g₃.plan x = some i) (hnew : x ∈ m.chain ∨ m.start ≤ x) : m.top ∉ i.inputs := by
  have htop := hm.old_of_mem hm.top_mem
  have hslice : m.slice = m.start + 2 := rfl
  intro hmem
  rcases hnew with hxc | hxs
  · obtain ⟨t, k, hk⟩ := hm.chain.writeAt hxc
    obtain ⟨lower, upper, hlower, hupper, hitem, -⟩ := hd.done x hxc k hk.item
    rw [hx] at hitem
    cases hitem
    have hold : m.top ∉ k.inputs := by
      obtain ⟨rank, hrank⟩ := h.acyclic
      intro hin
      have hle := hm.chain.rank_le hrank hxc
      have hlt := hrank hk.item hin
      omega
    rcases Merge.mem_rewrite hmem with hmem | ⟨-, he⟩ | he | he
    · exact hold hmem
    · omega
    · omega
    · omega
  · rcases hd.new_cases hx hxs with ⟨n, rfl⟩ | rfl
    · cases hmem
    · rcases Item.mem_readWhole.1 hmem with he | he | he | he
      · exact hm.chain.base_not_mem h.acyclic (he ▸ hm.top_mem)
      · exact hm.index_not_mem h.acyclic (he ▸ hm.top_mem)
      · omega
      · omega

theorem result (hd : Detached g m g₃) (h : g.Ordered) (hm : m.Chained g.plan)
    (hs : m.start = g.size) {P' : Plan}
    (hone : P' m.resume = some (.literal 1)) (hlast : P' (m.resume + 1) = some (.literal m.width))
    (hw : P' m.written =
      some (.writeWhole m.axis m.base m.top m.index m.resume (m.resume + 1) m.whole))
    (hold : ∀ x : Int, x < m.resume → P' x = (g₃.plan x).map (Item.subst m.top m.written))
    (hnone : ∀ x : Int, m.written < x → P' x = none) : m.Result g.plan P' := by
  have hslice : m.slice = m.start + 2 := rfl
  have hresume : m.resume = m.start + 3 + 2 * m.chain.length := rfl
  have hwritten : m.written = m.resume + 2 := rfl
  have htop := hm.old_of_mem hm.top_mem
  have hbase := hm.base_old h.closed
  have hsame : ∀ {x : Int} {i : Item}, x < m.resume → (x ∈ m.chain ∨ m.start ≤ x) →
      g₃.plan x = some i → P' x = some i := by
    intro x i hlt hnew hx
    rw [hold x hlt, hx, Option.map_some, Item.subst_of_not_mem (hd.top_not_mem h hm hx hnew)]
  refine ⟨?_, ?_, ?_, ?_, ?_, ?_, hone, hlast, hw, hnone⟩
  · intro x hx hxc
    rw [hold x (by omega), hd.kept hs hx hxc]
  · intro c hc i hi
    obtain ⟨lower, upper, hlower, hupper, hitem, huse⟩ := hd.done c hc i hi
    have hcs := hm.old_of_mem hc
    refine ⟨lower, upper, hlower, hupper, hsame (by omega) (.inl hc) hitem,
      fun (p : Int) j hp hmem => ?_⟩
    have hindex := hm.index_old h.closed
    by_cases hps : p < m.resume
    · rw [hold p hps] at hp
      obtain ⟨k, hk, rfl⟩ := Option.map_eq_some_iff.1 hp
      rcases Item.mem_subst.1 hmem with ⟨hmem, -⟩ | ⟨he, -⟩
      · exact huse p k hk hmem
      · omega
    · exfalso
      by_cases h₀ : p = m.resume
      · rw [h₀, hone] at hp
        cases hp
        cases hmem
      by_cases h₁ : p = m.resume + 1
      · rw [h₁, hlast] at hp
        cases hp
        cases hmem
      by_cases h₂ : p = m.written
      · rw [h₂, hw] at hp
        cases hp
        rcases Item.mem_writeWhole.1 hmem with he | he | he | he | he <;> omega
      rw [hnone p (by omega)] at hp
      cases hp
  · exact fun x hx hlt => hsame hlt (.inr (by omega)) (hd.bound x hx hlt)
  · exact hsame (by omega) (.inr le_rfl) hd.one
  · exact hsame (by omega) (.inr (by omega)) hd.last
  · exact hsame (by omega) (.inr (by omega)) hd.slice

theorem holds_top_iff (hd : Detached g m g₃) (hl : g₄.Linked)
    (hsize : (g₄.size : Int) = m.written + 1) (hone : g₄.plan m.resume = some (.literal 1))
    (hlast : g₄.plan (m.resume + 1) = some (.literal m.width))
    (hold : ∀ x : Int, x < m.resume → g₄.plan x = g₃.plan x) {e : Edge} :
    g₃.Holds e m.top ↔ g₄.Holds e m.top ∧ e.parent ≠ m.written := by
  have hsize₃ := hd.size
  have hwritten : m.written = m.resume + 2 := rfl
  have hnone : ∀ {x : Int}, m.resume ≤ x → m.top ∉ g₃.inputsOf x := fun hx hmem => by
    rw [hd.changes.linked.inputsOf_eq_plan, plan_eq_none_of_size_le (by omega)] at hmem
    cases hmem
  have hsame : ∀ {x : Int}, x < m.resume → g₄.inputsOf x = g₃.inputsOf x := fun hx => by
    rw [hl.inputsOf_eq_plan, hd.changes.linked.inputsOf_eq_plan, hold _ hx]
  have hold₄ : ∀ {x : Int}, m.top ∈ g₄.inputsOf x → x ≠ m.written → x < m.resume := by
    intro x hmem hne
    rw [hl.inputsOf_eq_plan] at hmem
    by_contra hge
    by_cases h₀ : x = m.resume
    · rw [h₀, hone] at hmem
      cases hmem
    by_cases h₁ : x = m.resume + 1
    · rw [h₁, hlast] at hmem
      cases hmem
    rw [plan_eq_none_of_size_le (by omega)] at hmem
    cases hmem
  constructor
  · rintro ⟨pos, hpos, hin⟩
    have hlt := not_le.1 fun hle => hnone hle (List.mem_of_getElem? hin)
    refine ⟨⟨pos, hpos, hsame hlt ▸ hin⟩, fun hp => ?_⟩
    rw [hp] at hlt
    omega
  · rintro ⟨⟨pos, hpos, hin⟩, hne⟩
    exact ⟨pos, hpos, hsame (hold₄ (List.mem_of_getElem? hin) hne) ▸ hin⟩

end Detached

theorem attach_ok {g₃ : Graph} (h : g.Ordered) (hm : m.Chained g.plan) (hs : m.start = g.size)
    (hb : Measured g m.axis m.base m.width n)
    (hwhole : m.whole = .matrix (.ofInt n.shape.rows) (.ofInt n.shape.cols))
    (hd : Detached g m g₃) :
    ∃ edges g₄ g₅, Edit.parentEdges m.top g₃ = .ok edges g₃ ∧
      writeSlice m.axis m.base m.top m.index g₃ = .ok m.written g₄ ∧
      Edit.redirect edges m.top m.written g₄ = .ok () g₅ ∧ Rechained g m g₅ ∧
      (g.Typed → g₅.Typed) ∧
      ∀ e ∈ edges, ∃ j, g₅.plan e.parent = some j ∧ m.written ∈ j.inputs := by
  obtain ⟨t, i, hi⟩ := hm.topAt
  obtain ⟨k, hk⟩ := h.closed hi.item m.index hi.lower_mem
  obtain ⟨lower, upper, -, -, htop, -⟩ := hd.done m.top hm.top_mem i hi.item
  have hresume : m.resume = m.start + 3 + 2 * m.chain.length := rfl
  have hwritten : m.written = m.resume + 2 := rfl
  have hsize₃ := hd.size
  obtain ⟨n₃, hb₃, hshape⟩ := hb.of_core
    (hd.changes.cores _ (range_of_get? hb.node).2 (hm.chain.base_not_mem h.acyclic))
  have hk₃ : g₃.plan m.index = some k := by
    rw [hd.kept hs (hm.index_old h.closed) (hm.index_not_mem h.acyclic), hk]
  obtain ⟨node, hnode, hr, -⟩ := get?_of_plan htop
  obtain ⟨edges, hedges, he⟩ := hd.changes.linked.parentEdges_ok hnode hr
  obtain ⟨g₄, hrun₄, hsize₄, hl₄⟩ := writeSlice_ok hd.changes.linked hb₃ hk₃ htop
  rw [hsize₃, hshape, ← hwhole] at hl₄
  rw [hsize₃] at hrun₄
  have hwrite : g₄.plan m.written = some (.writeWhole m.axis m.base m.top m.index m.resume
      (m.resume + 1) m.whole) := by
    rw [hl₄.plan_eq]
    exact Function.update_self ..
  obtain ⟨hone, hlast, hold⟩ := plan_bounds (P := g₃.plan) (s := m.resume) (w := m.width) rfl
  have hplan₄ : ∀ x : Int, x ≠ m.written → g₄.plan x = Function.update (Function.update g₃.plan
      m.resume (some (.literal 1))) (m.resume + 1) (some (.literal m.width)) x := by
    intro x hx
    rw [hl₄.plan_eq]
    exact Function.update_of_ne hx ..
  have hone₄ : g₄.plan m.resume = some (.literal 1) := (hplan₄ _ (by omega)).trans hone
  have hlast₄ : g₄.plan (m.resume + 1) = some (.literal m.width) :=
    (hplan₄ _ (by omega)).trans hlast
  have hold₄ : ∀ x : Int, x < m.resume → g₄.plan x = g₃.plan x := fun x hx =>
    (hplan₄ x (by omega)).trans (hold x hx)
  -- The edges were read before the new write was there.
  have he₄ : ∀ e, e ∈ edges ↔ g₄.Holds e m.top ∧ e.parent ≠ m.written := fun e =>
    (he e).trans (hd.holds_top_iff hl₄.linked (by omega) hone₄ hlast₄ hold₄)
  obtain ⟨g₅, hrun₅, hsize₅, hl₅⟩ := Edit.redirect_rewires hl₄.linked hwrite he₄
  have hplan₅ : ∀ x : Int, x ≠ m.written →
      g₅.plan x = (g₄.plan x).map (Item.subst m.top m.written) := by
    intro x hx
    rw [hl₅.plan_eq]
    exact if_neg hx
  have hresult : m.Result g.plan g₅.plan := by
    refine hd.result h hm hs ?_ ?_ ?_ ?_ ?_
    · rw [hplan₅ _ (by omega), hone₄]
      rfl
    · rw [hplan₅ _ (by omega), hlast₄]
      rfl
    · rw [hl₅.plan_eq]
      exact (if_pos rfl).trans hwrite
    · intro x hx
      rw [hplan₅ x (by omega), hold₄ x hx]
    · exact fun x hx => plan_eq_none_of_size_le (by omega)
  refine ⟨edges, g₄, g₅, Edit.read_ok hedges, hrun₄, hrun₅,
    ⟨hl₅.linked, hd.changes.ops.trans (hl₄.ops.trans hl₅.ops), hs, by omega, hm, hresult⟩,
    fun ht => hl₅.typed (hl₄.typed (hd.changes.typed ht)), fun e hmem => ?_⟩
  obtain ⟨j, hj, htop⟩ := Edit.user_of_holds hl₄.linked ((he₄ e).1 hmem).1
  have hj₅ := hplan₅ e.parent ((he₄ e).1 hmem).2
  rw [hj] at hj₅
  exact ⟨_, hj₅, Item.mem_subst.2 (.inr ⟨rfl, htop⟩)⟩

theorem mergeChain_eq {g₁ g₂ g₃ g₄ g₅ : Graph} {edges : List Edge} {r : Int}
    (h₁ : readSlice m.axis m.base m.index g = .ok m.slice g₁)
    (h₂ : Edit.replaceInput m.bottom 0 m.slice g₁ = .ok r g₂)
    (h₃ : m.chain.reverse.forM (narrow m.axis) g₂ = .ok () g₃)
    (hedges : Edit.parentEdges m.top g₃ = .ok edges g₃)
    (h₄ : writeSlice m.axis m.base m.top m.index g₃ = .ok m.written g₄)
    (h₅ : Edit.redirect edges m.top m.written g₄ = .ok () g₅) :
    mergeChain m.axis m.top m.bottom m.base m.index m.chain g =
      (do edges.forM fun e => Edit.refresh e.parent
          return m.written) g₅ := by
  unfold mergeChain
  rw [Edit.bind_ok h₁, Edit.bind_ok (Edit.discard_ok h₂), Edit.bind_ok h₃, Edit.bind_ok hedges,
    Edit.bind_ok h₄, Edit.bind_ok h₅]

theorem mergeChain_run (h : g.Ordered) (hm : m.Chained g.plan) (hs : m.start = g.size)
    (hb : Measured g m.axis m.base m.width n)
    (hwhole : m.whole = .matrix (.ofInt n.shape.rows) (.ofInt n.shape.cols)) :
    ∃ (edges : List Edge) (g₅ : Graph),
      mergeChain m.axis m.top m.bottom m.base m.index m.chain g =
        (do edges.forM fun e => Edit.refresh e.parent
            return m.written) g₅ ∧
      Rechained g m g₅ ∧ (g.Typed → g₅.Typed) ∧
      ∀ e ∈ edges, ∃ j, g₅.plan e.parent = some j ∧ m.written ∈ j.inputs := by
  obtain ⟨g₁, g₂, hrun₁, hrun₂, hr⟩ := retarget_ok h hm hs hb
  obtain ⟨g₃, hrun₃, hd⟩ := hr.detached h hm hs
  obtain ⟨edges, g₄, g₅, hedges, hrun₄, hrun₅, hre, htyped, hlive⟩ :=
    attach_ok h hm hs hb hwhole hd
  exact ⟨edges, g₅, mergeChain_eq hrun₁ hrun₂ hrun₃ hedges hrun₄ hrun₅, hre, htyped, hlive⟩

theorem mergeChain_ok (h : g.Sound) (ha : m.Applies g.plan) (hs : m.start = g.size)
    (hb : Measured g m.axis m.base m.width n) :
    ∃ g', mergeChain m.axis m.top m.bottom m.base m.index m.chain g = .ok m.written g' ∧
      Merged g m g' := by
  have hwhole : m.whole = .matrix (.ofInt n.shape.rows) (.ofInt n.shape.cols) := by
    obtain ⟨b, hbase, -, -, hwhole⟩ := ha.wide
    rw [hb.plan] at hbase
    cases hbase
    have hlegal := h.legal_of_get? hb.node hb.live
    rw [hwhole, hlegal.rows_eq, hlegal.cols_eq]
    rfl
  obtain ⟨edges, g₅, hrun, hre, htyped, hlive⟩ :=
    mergeChain_run h.ordered ha.toChained hs hb hwhole
  have hsized : g₅.plan.Sized := hre.result.sized ha h.sized h.closed h.acyclic
  obtain ⟨g₆, hrun₆, hsize₆, hl₆⟩ := Edit.forM_refresh_plan (f := Edge.parent) (l := edges)
    (htyped h.toTyped) fun e hmem => by
      obtain ⟨j, hj, -⟩ := hlive e hmem
      exact ⟨j, hj, hsized hj⟩
  have hsize := hre.size
  refine ⟨g₆, by rw [hrun, Edit.bind_ok hrun₆]; rfl, ⟨hl₆.typed.toLinked, hre.ops.trans hl₆.ops, hs,
    by omega, hre.chained, hl₆.plan_eq ▸ hre.result⟩, ⟨hl₆.typed, ?_, ?_⟩, ha⟩
  · exact hl₆.plan_eq ▸ hsized
  · exact hl₆.plan_eq ▸ (hre.ordered h.ordered).acyclic

structure Applied (p : Pass) (m : Merge) (p' : Pass) : Prop where
  step : Merged p.graph m p'.graph
  visited : p'.visited = p.visited
  pending : p'.pending = p.pending
  replaced : p'.replaced = p.replaced

theorem baseOf_ok (h : g.Linked) {index x base : NodeId} {i : Item}
    (hw : g.plan.WriteAt axis index x base i) :
    ∃ n, baseOf g x = .ok (base, n) ∧ g.get? base = some n ∧ n.retired = false := by
  obtain ⟨b, hb⟩ := h.closed hw.item base hw.target_mem
  obtain ⟨n, hn, hr, -⟩ := get?_of_plan hb
  obtain ⟨k, hk, -, rfl⟩ := get?_of_plan hw.item
  have hin : k.input x 0 = .ok base := input_ok hw.target
  refine ⟨n, ?_, hn, hr⟩
  unfold baseOf
  rw [node_ok hk]
  show (k.input x 0 >>= fun base => _) = _
  rw [hin]
  show (g.node base >>= fun n => _) = _
  rw [node_ok hn]
  rfl

structure Planned (p : Pass) (axes : List Axis) (x : NodeId) (m : Merge) (n : Node) : Prop where
  axis : m.axis ∈ axes
  top : m.top = x
  start : m.start = p.graph.size
  collected : collectChain p.graph m.axis x = .ok m.chain
  chained : m.Chained p.graph.plan
  measured : Measured p.graph m.axis m.base m.width n
  height : m.axis.height n.shape ≠ 1
  whole : m.whole = .matrix (.ofInt n.shape.rows) (.ofInt n.shape.cols)
  applies : p.graph.Typed → m.Applies p.graph.plan

def Merging (p : Pass) (axes : List Axis) (x : NodeId)
    (run : EStateM.Result Interruption Pass (Option NodeId)) : Prop :=
  ∃ (m : Merge) (n : Node) (summary : String), Planned p axes x m n ∧
    run = (do
      let written ← RuleM.edit (mergeChain m.axis m.top m.bottom m.base m.index m.chain)
      RuleM.record ruleName x written summary
      return some written : RuleM (Option NodeId)) p

def Lone (g : Graph) (axis : Axis) (x : NodeId) : Prop :=
  (∃ index y i, g.plan.WriteAt axis index x y i ∧ ¬ Continues g axis index x y) ∨
    ∃ index l base n, g.plan.WriteChain axis index x l base ∧ g.get? base = some n ∧
      (axis.width n.shape ≤ 1 ∨ axis.height n.shape = 1)

theorem mergeAt_run {p : Pass} (h : p.graph.Ordered) {index x y : NodeId} {i : Item}
    (hw : p.graph.plan.WriteAt axis index x y i) :
    mergeAt axis x p = .ok none p ∧ Lone p.graph axis x ∨
      Merging p [axis] x (mergeAt axis x p) := by
  obtain ⟨l, base, hchain, hl, hno, htargets⟩ := collectChain_ok h hw
  obtain ⟨bottom, k, hlast, hk⟩ := hl.bottom
  obtain ⟨n, hbase, hn, hr⟩ := baseOf_ok h.toLinked hk
  unfold mergeAt
  rw [RuleM.bind_ok (RuleM.read_ok hchain)]
  by_cases hlen : (x :: l).length < 2
  · rw [if_pos hlen]
    refine .inl ⟨rfl, .inl ⟨index, y, i, hw, hno (List.eq_nil_of_length_eq_zero ?_)⟩⟩
    rw [List.length_cons] at hlen
    omega
  rw [if_neg hlen, hlast]
  simp only [Option.getD_some]
  rw [RuleM.bind_ok (RuleM.read_ok hbase)]
  by_cases hdims : axis.width n.shape ≤ 1 ∨ axis.height n.shape = 1
  · simp only [if_pos hdims]
    exact .inl ⟨rfl, .inr ⟨index, x :: l, base, n, hl, hn, hdims⟩⟩
  simp only [if_neg hdims]
  rw [not_or, not_le] at hdims
  have hchained : Merge.Chained ⟨axis, index, base, bottom, x, x :: l, axis.width n.shape,
      .matrix (.ofInt n.shape.rows) (.ofInt n.shape.cols), p.graph.size⟩ p.graph.plan :=
    ⟨hl, hlast, not_lt.1 hlen, fun hx => (range_of_plan hx).2⟩
  rw [RuleM.bind_ok (RuleM.read_ok (indexOf_ok hw))]
  refine .inr ⟨_, n, _, ⟨List.mem_singleton_self axis, rfl, rfl, hchain, hchained, ⟨hn, hr, rfl, hdims.1⟩,
    hdims.2, rfl, fun ht => ?_⟩, rfl⟩
  have hlegal := ht.legal_of_get? hn hr
  refine ⟨hchained, hdims.1, ⟨n.item, plan_eq_some hn hr, (axis.ofInt_width hlegal).symm, ?_, ?_⟩,
    fun c hc hne => htargets ht c ((List.mem_cons.1 hc).resolve_left hne)⟩
  · show axis.along n.shape.profile ≠ .one
    rw [← axis.ofInt_height hlegal, Ne, Dim.ofInt_eq_one]
    exact hdims.2
  · show Profile.matrix _ _ = .matrix n.shape.profile.rows n.shape.profile.cols
    rw [hlegal.rows_eq, hlegal.cols_eq]

theorem writeAt_of_equal (h : g.Linked) {x : NodeId} {i : Item} (hx : g.plan x = some i)
    (hop : i.op = .leftIndexing ⟨true, true⟩) (axis : Axis) :
    ∃ index y, g.plan.WriteAt axis index x y i := by
  have hlen : i.inputs.length = 6 := by
    have harity := h.arity_of_plan hx
    rw [hop] at harity
    exact (Option.some.inj harity).symm
  have hpos : axis.lowerPos < i.inputs.length := by
    rw [hlen]
    cases axis <;> decide
  exact ⟨_, _, hx, ⟨_, hop, by cases axis <;> rfl⟩,
    List.getElem?_eq_getElem (by omega), List.getElem?_eq_getElem hpos⟩

theorem tryAxes_run {p : Pass} (h : p.graph.Ordered) {x : NodeId} {i : Item}
    (hx : p.graph.plan x = some i) (hop : i.op = .leftIndexing ⟨true, true⟩) (axes : List Axis) :
    tryAxes x axes p = .ok none p ∧ (∀ axis ∈ axes, Lone p.graph axis x) ∨
      Merging p axes x (tryAxes x axes p) := by
  induction axes with
  | nil => exact .inl ⟨rfl, nofun⟩
  | cons axis rest ih =>
    obtain ⟨index, y, hw⟩ := writeAt_of_equal h.toLinked hx hop axis
    unfold tryAxes
    rcases mergeAt_run h hw with ⟨hnone, hlone⟩ | ⟨m, n, summary, hm, hrun⟩
    · rw [RuleM.bind_ok hnone]
      refine ih.imp (fun hrest => ⟨hrest.1, List.forall_mem_cons.2 ⟨hlone, hrest.2⟩⟩) ?_
      rintro ⟨m, n, summary, hm, hrun⟩
      exact ⟨m, n, summary, { hm with axis := List.mem_cons_of_mem axis hm.axis }, hrun⟩
    · refine .inr ⟨m, n, summary, { hm with axis := List.mem_cons.2 (.inl ?_) }, ?_⟩
      · exact List.mem_singleton.1 hm.axis
      rw [RuleM.bind_congr hrun]
      simp only [bind_assoc, pure_bind]

theorem apply_of_op_ne {p : Pass} {x : NodeId} {n : Node} (hn : p.graph.get? x = some n)
    (hop : n.op ≠ .leftIndexing ⟨true, true⟩) (axes : List Axis) :
    apply axes x p = .ok none p := by
  unfold apply
  rw [RuleM.bind_ok (RuleM.read_ok (node_ok hn))]
  cases hn : n.op with
  | leftIndexing flags =>
    obtain ⟨row, col⟩ := flags
    cases row <;> cases col
    · rfl
    · rfl
    · rfl
    · exact absurd hn hop
  | _ => rfl

theorem apply_of_op_eq {p : Pass} {x : NodeId} {n : Node} (hn : p.graph.get? x = some n)
    (hop : n.op = .leftIndexing ⟨true, true⟩) (axes : List Axis) :
    apply axes x p = tryAxes x axes p := by
  unfold apply
  rw [RuleM.bind_ok (RuleM.read_ok (node_ok hn)), hop]

theorem apply_run {p : Pass} (h : p.graph.Ordered) {x : NodeId} {n : Node}
    (hn : p.graph.get? x = some n) (hr : n.op = .leftIndexing ⟨true, true⟩ → n.retired = false)
    (axes : List Axis) :
    apply axes x p = .ok none p ∧
        (n.op = .leftIndexing ⟨true, true⟩ → ∀ axis ∈ axes, Lone p.graph axis x) ∨
      n.op = .leftIndexing ⟨true, true⟩ ∧ Merging p axes x (apply axes x p) := by
  by_cases hop : n.op = .leftIndexing ⟨true, true⟩
  · rw [apply_of_op_eq hn hop axes]
    exact (tryAxes_run h (plan_eq_some hn (hr hop)) hop axes).imp
      (fun hnone => ⟨hnone.1, fun _ => hnone.2⟩) fun hm => ⟨hop, hm⟩
  · exact .inl ⟨apply_of_op_ne hn hop axes, fun h => absurd h hop⟩

theorem apply_cases {p : Pass} (h : p.graph.Sound) {x : NodeId} {n : Node}
    (hn : p.graph.get? x = some n) (hr : n.op = .leftIndexing ⟨true, true⟩ → n.retired = false)
    (axes : List Axis) :
    apply axes x p = .ok none p ∨ n.op = .leftIndexing ⟨true, true⟩ ∧
      ∃ m p', m.top = x ∧ apply axes x p = .ok (some m.written) p' ∧ Applied p m p' := by
  refine (apply_run h.ordered hn hr axes).imp And.left fun ⟨hop, hm⟩ => ⟨hop, ?_⟩
  obtain ⟨m, n, summary, hm, hrun⟩ := hm
  obtain ⟨g', hmerge, hstep⟩ := mergeChain_ok h (hm.applies h.toTyped) hm.start hm.measured
  rw [RuleM.bind_ok (RuleM.edit_ok hmerge)] at hrun
  exact ⟨m, _, hm.top, hrun, hstep, rfl, rfl, rfl⟩

end Optimizer.Slicing
end LinearPlan
