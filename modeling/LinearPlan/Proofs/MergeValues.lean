import LinearPlan.Proofs.ValuedSteps

/-!
# Values of a merged chain

All writes of a chain are to one line of the base. Each write of the merged chain has that line of
what the write had before, and the write in the place of the chain puts the line back into the base.
So it has the value that the chain had.
-/
namespace LinearPlan

namespace Optimizer.Slicing.Axis
open Eval

def arrange {β : Type} : Axis → β → β → β → β → β → β → List β
  | .row, t, u, a, b, c, d => [t, u, a, b, c, d]
  | .col, t, u, a, b, c, d => [t, u, c, d, a, b]

def other : Axis → Axis
  | .row => .col
  | .col => .row

variable {α : Type} [Element α] {axis : Axis} {t u v a b c d : Value α}

theorem honest_arrange {flags : SliceFlags} :
    (Op.leftIndexing flags).Honest (axis.arrange t u a b c d) ↔
      (axis.flag flags = true → a.index? = b.index?) ∧
        (axis.other.flag flags = true → c.index? = d.index?) := by
  cases axis with
  | row => rfl
  | col => exact and_comm

theorem arrange_of_length {axis : Axis} {l : List NodeId} {target lower : NodeId}
    (hlen : l.length = 6) (ht : l[0]? = some target) (hlo : l[axis.lowerPos]? = some lower) :
    ∃ source upper lower' upper', l = axis.arrange target source lower upper lower' upper' := by
  match l, hlen with
  | [_, source, _, y, z, w], _ =>
    cases ht
    cases axis with
    | row =>
      cases hlo
      exact ⟨source, y, z, w, rfl⟩
    | col =>
      cases hlo
      exact ⟨source, w, _, y, rfl⟩

theorem exists_line {node : NodeRef} (h : axis.writeValue node t u a b c d = .ok v) :
    ∃ r : Nat, a.index? = some ((r : Int) + 1) ∧ r < axis.lines t ∧ t.isScalar = false := by
  have hline : ∀ {l l' : Int} {n : Nat}, a.index? = some l → Inside l l' n →
      ∃ r : Nat, a.index? = some ((r : Int) + 1) ∧ r < n := by
    intro l l' n hl hin
    unfold Inside at hin
    exact ⟨(l - 1).toNat, by rw [hl]; congr 1; omega, by omega⟩
  cases axis with
  | row =>
    obtain ⟨rl, ru, cl, cu, hb, hw⟩ := writes_of_leftIndexing h
    obtain ⟨r, hr, hlt⟩ := hline hb.rowLower hw.rows
    exact ⟨r, hr, hlt, hw.target⟩
  | col =>
    obtain ⟨rl, ru, cl, cu, hb, hw⟩ := writes_of_leftIndexing h
    obtain ⟨r, hr, hlt⟩ := hline hb.colLower hw.cols
    exact ⟨r, hr, hlt, hw.target⟩

omit [Element α] in
theorem breadth_of_admits {p : Profile} {w : Int} (h : p.Admits v) (hv : v.isScalar = false)
    (hw : axis.across p = Dim.ofInt w) (hpos : 0 ≤ w) : w = axis.breadth v := by
  cases v with
  | scalar _ => cases hv
  | matrix m =>
    obtain ⟨r, c, rfl, hr, hc⟩ := h.matrix
    cases axis with
    | row =>
      have hc : (Dim.ofInt w).Admits m.cols := hw ▸ hc
      exact Dim.admits_ofInt.1 hc hpos
    | col =>
      have hr : (Dim.ofInt w).Admits m.rows := hw ▸ hr
      exact Dim.admits_ofInt.1 hr hpos

end Optimizer.Slicing.Axis

namespace Graph
open Optimizer.Slicing (Axis)
variable {α : Type} [Element α] {g : Graph} {inputs : Inputs α} {x : NodeId}
  {i : Item} {v : Value α} {axis : Axis}

structure Operands (g : Graph) (inputs : Inputs α) (a b c d : NodeId)
    (va vb vc vd : Value α) : Prop where
  lower : g.HasValue inputs a va
  upper : g.HasValue inputs b vb
  lower' : g.HasValue inputs c vc
  upper' : g.HasValue inputs d vd

theorem Operands.forall₂ {t u a b c d : NodeId} {vt vu va vb vc vd : Value α}
    (h : g.Operands inputs a b c d va vb vc vd) (ht : g.HasValue inputs t vt)
    (hu : g.HasValue inputs u vu) :
    List.Forall₂ (g.HasValue inputs) (axis.arrange t u a b c d) (axis.arrange vt vu va vb vc vd) := by
  obtain ⟨ha, hb, hc, hd⟩ := h
  cases axis with
  | row => exact .cons ht (.cons hu (.cons ha (.cons hb (.cons hc (.cons hd .nil)))))
  | col => exact .cons ht (.cons hu (.cons hc (.cons hd (.cons ha (.cons hb .nil)))))

theorem Operands.of_forall₂ {t u a b c d : NodeId} {vs : List (Value α)}
    (h : List.Forall₂ (g.HasValue inputs) (axis.arrange t u a b c d) vs) :
    ∃ vt vu va vb vc vd, vs = axis.arrange vt vu va vb vc vd ∧ g.HasValue inputs t vt ∧
      g.HasValue inputs u vu ∧ g.Operands inputs a b c d va vb vc vd := by
  cases axis <;> rcases h with _ | ⟨h1, _ | ⟨h2, _ | ⟨h3, _ | ⟨h4, _ | ⟨h5, _ | ⟨h6, _ | _⟩⟩⟩⟩⟩⟩
  · exact ⟨_, _, _, _, _, _, rfl, h1, h2, h3, h4, h5, h6⟩
  · exact ⟨_, _, _, _, _, _, rfl, h1, h2, h5, h6, h3, h4⟩

theorem hasValue_write (axis : Axis) {flags : SliceFlags} {t u a b c d : NodeId} (hx : g.plan x = some i)
    (hop : i.op = .leftIndexing flags) (hi : i.inputs = axis.arrange t u a b c d) :
    g.HasValue inputs x v ↔ ∃ vt vu va vb vc vd, g.HasValue inputs t vt ∧ g.HasValue inputs u vu ∧
      g.Operands inputs a b c d va vb vc vd ∧
      axis.writeValue ⟨x, .leftIndexing flags⟩ vt vu va vb vc vd = .ok v := by
  constructor
  · intro h
    obtain ⟨vs, s, hvs, -, happ⟩ := h.apply hx
    rw [hi] at hvs
    rw [hop] at happ
    obtain ⟨vt, vu, va, vb, vc, vd, rfl, ht, hu, hops⟩ := Operands.of_forall₂ hvs
    refine ⟨vt, vu, va, vb, vc, vd, ht, hu, hops, ?_⟩
    cases axis <;> exact happ
  · rintro ⟨vt, vu, va, vb, vc, vd, ht, hu, hops, h⟩
    obtain ⟨n, -, -, rfl⟩ := get?_of_plan hx
    refine hasValue_of_item (axis.arrange vt vu va vb vc vd) hx ?_ (s := n.shape) (fun _ => rfl) ?_
    · rw [hi]
      exact hops.forall₂ ht hu
    · rw [hop]
      cases axis <;> exact h

theorem hasValue_readWhole {base index one last : NodeId} {q : Profile} {vb vi v1 vl : Value α}
    (hx : g.plan x = some (.readWhole axis base index one last q)) (hb : g.HasValue inputs base vb)
    (hi : g.HasValue inputs index vi) (h1 : g.HasValue inputs one v1)
    (hl : g.HasValue inputs last vl)
    (h : axis.readValue ⟨x, .indexing axis.flags⟩ vb vi vi v1 vl = .ok v) :
    g.HasValue inputs x v := by
  obtain ⟨n, -, -, hn⟩ := get?_of_plan hx
  have hs : n.shape.profile = q := congrArg Item.profile hn
  cases axis with
  | row =>
    exact hasValue_of_item [vb, vi, vi, v1, vl] hx
      (.cons hb (.cons hi (.cons hi (.cons h1 (.cons hl .nil))))) (fun _ => hs) h
  | col =>
    exact hasValue_of_item [vb, v1, vl, vi, vi] hx
      (.cons hb (.cons h1 (.cons hl (.cons hi (.cons hi .nil))))) (fun _ => hs) h

end Graph

open Optimizer.Slicing (Axis)

/-- A write of a chain, before and after the chain is merged. -/
structure ChainWrite (m : Merge) (P P' : Plan) (c : NodeId) where
  item : Item
  flags : SliceFlags
  (target source upper lower' upper' newTarget lo hi : NodeId)
  before : P c = some item
  op : item.op = .leftIndexing flags
  flag : m.axis.flag flags = true
  inputs : item.inputs = m.axis.arrange target source m.index upper lower' upper'
  after : P' c = some (m.rewrite c lo hi item)
  newInputs : (m.rewrite c lo hi item).inputs = m.axis.arrange newTarget source lo hi lower' upper'
  lo_literal : m.start ≤ lo ∧ P' lo = some (.literal 1)
  hi_literal : m.start ≤ hi ∧ P' hi = some (.literal 1)
  outside : source ∉ m.chain ∧ lower' ∉ m.chain ∧ upper' ∉ m.chain
  targets : (target = m.base ∧ newTarget = m.slice) ∨ newTarget = target ∧ target ∈ m.chain

theorem Optimizer.Slicing.Axis.width_of_slice (axis : Axis) {w : Int} {n : Nat} (hw : 1 < w)
    (hl : w < 2 ^ 63) (he : (Number.ofInt w).toInt? = some w)
    (h : (axis.sliceProfile w).rows = .known n ∨ (axis.sliceProfile w).cols = .known n) :
    (n : Int) = w := by
  have hextent : Shape.extent false (some 1) (Number.ofInt w).toInt? = w := by
    rw [he]
    show (if w < 1 then (-1 : Int) else (w - 1 + 1).bmod (2 ^ 64)) = w
    rw [if_neg (by omega), Int.sub_add_cancel, Int.bmod_eq_of_le (by omega) (by omega)]
  have hknown : Dim.ofInt w = .known n := by
    rw [← hextent]
    cases axis with
    | row => exact h.resolve_left nofun
    | col => exact h.resolve_right nofun
  exact Dim.eq_of_ofInt hknown

/-- A literal can hold the numbers of rows and columns of each write among some nodes. -/
def Plan.ExactSizes (P : Plan) (D : NodeId → Prop) : Prop :=
  ∀ x i flags (n : Nat), D x → P x = some i → i.op = .leftIndexing flags →
    (i.profile.rows = .known n ∨ i.profile.cols = .known n) →
      (n : Int) < 2 ^ 63 ∧ (Number.ofInt n).toInt? = some (n : Int)

theorem Graph.Sound.profile_of_write {g : Graph} (hs : g.Sound) {axis : Axis}
    {index x t : NodeId} {i j : Item} (hw : g.plan.WriteAt axis index x t i)
    (hj : g.plan t = some j) : i.profile = .matrix j.profile.rows j.profile.cols := by
  obtain ⟨flags, hop, -⟩ := hw.op
  have hsize := hs.sized hw.item
  rw [Plan.sizeFrom_write hop hw.target hj] at hsize
  exact (Option.some.inj hsize).symm

namespace Optimizer.Slicing.Merged
open LinearPlan.Graph
variable {g g' : Graph} {m : Merge}

theorem chainWrite (h : Merged g m g') (hs : g.Sound) {c : NodeId} (hc : c ∈ m.chain) :
    Nonempty (ChainWrite m g.plan g'.plan c) := by
  have ha := h.applies
  obtain ⟨rank, hrank⟩ := hs.acyclic
  obtain ⟨target, i, hw⟩ := ha.chain.writeAt hc
  obtain ⟨flags, hop, hflag⟩ := hw.op
  have hlen : i.inputs.length = 6 := by
    have harity := hs.arity_of_plan hw.item
    rw [hop] at harity
    exact (Option.some.inj harity).symm
  obtain ⟨source, upper, lower', upper', hin⟩ := Axis.arrange_of_length hlen hw.target hw.lower
  obtain ⟨lo, hi, hlo, hhi, hafter, -⟩ := h.result.done c hc i hw.item
  -- A write of the chain is used as a target only.
  have hpos : ∀ pos y, i.inputs[pos]? = some y → pos ≠ 0 → y ∉ m.chain := by
    intro pos y hy hne hyc
    by_cases hyt : y = m.top
    · have hlt := hrank hw.item (List.mem_of_getElem? hy)
      have hle := ha.chain.rank_le hrank hc
      rw [hyt] at hlt
      omega
    · exact hne (ha.chain.users hyc hyt hw.item hy).2
  have hout : source ∉ m.chain ∧ lower' ∉ m.chain ∧ upper' ∉ m.chain := by
    have hne : m.axis.other.lowerPos ≠ 0 ∧ m.axis.other.upperPos ≠ 0 := by
      cases m.axis <;> decide
    rw [hin] at hpos
    exact ⟨hpos 1 source (by cases m.axis <;> rfl) (by decide),
      hpos m.axis.other.lowerPos lower' (by cases m.axis <;> rfl) hne.1,
      hpos m.axis.other.upperPos upper' (by cases m.axis <;> rfl) hne.2⟩
  have hrange : ∀ {y : Int}, (m.start + 3 ≤ y ∧ y < m.resume) →
      m.start ≤ y ∧ g'.plan y = some (.literal 1) := fun hy =>
    ⟨by omega, h.result.bound _ hy.1 hy.2⟩
  have hrewrite : ∀ t, (if c = m.bottom then i.retarget m.slice else i).inputs =
      m.axis.arrange t source m.index upper lower' upper' →
      (m.rewrite c lo hi i).inputs = m.axis.arrange t source lo hi lower' upper' := by
    intro t ht
    unfold Merge.rewrite Item.narrow
    rw [ht]
    cases m.axis <;> rfl
  rcases ha.chain.target_cases hs.acyclic ha.last hc hw.item with ⟨hb, ht⟩ | ⟨hb, y, hy, ht⟩
  · refine ⟨⟨i, flags, target, source, upper, lower', upper', m.slice, lo, hi, hw.item, hop, hflag,
      hin, hafter, hrewrite _ ?_, hrange hlo, hrange hhi, hout, .inl ⟨?_, rfl⟩⟩⟩
    · rw [if_pos hb, Item.retarget, hin]
      cases m.axis <;> rfl
    · exact Option.some.inj (hw.target.symm.trans ht)
  · refine ⟨⟨i, flags, target, source, upper, lower', upper', target, lo, hi, hw.item, hop, hflag,
      hin, hafter, hrewrite _ ?_, hrange hlo, hrange hhi, hout, .inr ⟨rfl, ?_⟩⟩⟩
    · rw [if_neg hb, hin]
    · rw [Option.some.inj (hw.target.symm.trans ht)]
      exact hy

theorem exact_width (h : Merged g m g') (hs : g.Sound) {D : NodeId → Prop}
    (he : g.plan.ExactSizes D) (hD : D m.bottom) :
    m.width < 2 ^ 63 ∧ (Number.ofInt m.width).toInt? = some m.width := by
  have hwidth := h.applies.width
  obtain ⟨i, hw⟩ := h.applies.bottomAt
  obtain ⟨flags, hop, -⟩ := hw.op
  obtain ⟨b, hb, hwide, -⟩ := h.applies.wide
  have hp := hs.profile_of_write hw hb
  rw [Dim.ofInt_of_nonneg (by omega) (by omega)] at hwide
  have hknown := he _ i flags m.width.toNat hD hw.item hop (by
    rw [hp]
    cases haxis : m.axis <;> rw [haxis] at hwide
    · exact .inr hwide
    · exact .inl hwide)
  rwa [Int.toNat_of_nonneg (by omega)] at hknown

variable {α : Type} [Element α] {inputs : Inputs α} {D : NodeId → Prop}
  {rank : NodeId → Nat} {r : Nat} {vb vi : Value α}

/-- The line of the base that a chain is about. -/
structure LineAt (g g' : Graph) (inputs : Inputs α) (m : Merge) (r : Nat)
    (vb vi : Value α) : Prop where
  base : g.HasValue inputs m.base vb ∧ g'.HasValue inputs m.base vb
  index : g.HasValue inputs m.index vi ∧ g'.HasValue inputs m.index vi
  value : vi.index? = some ((r : Int) + 1)
  line : r < m.axis.lines vb
  matrix : vb.isScalar = false
  width : m.width = m.axis.breadth vb
  exact : Element.toInt? (Element.ofInt m.width : α) = some m.width

theorem LineAt.breadth_pos (hl : LineAt g g' inputs m r vb vi) (h : m.Applies g.plan) :
    0 < m.axis.breadth vb := by
  have hw := h.width
  have he := hl.width
  omega

theorem carry_operand (h : Merged g m g') (hD : g.Valued inputs D) (hrank : g.plan.Ranked rank)
    (hcarry : ∀ y, rank y < rank m.top → Carries g g' inputs D (· ∈ m.chain) y) (hid : D m.top)
    {c y : NodeId} {i : Item} (hc : c ∈ m.chain) (hi : g.plan c = some i) (hy : y ∈ i.inputs)
    (hyc : y ∉ m.chain) {v : Value α} (hv : g.HasValue inputs y v) : g'.HasValue inputs y v := by
  have hDc : D c := h.applies.chain.mem_of_closed hD.closed hid hc
  exact hcarry y ((hrank hi hy).trans_le (h.applies.chain.rank_le hrank hc))
    (hD.closed c i hDc hi y hy) hyc v hv

def Part (g' : Graph) (m : Merge) (x : Int) : Prop :=
  x ∈ m.chain ∨ m.start ≤ x ∧ ∃ i, g'.plan x = some i

theorem part_new (h : Merged g m g') (hs : g.Sound) (hD : g.Valued inputs D) (hid : D m.top)
    {x : Int} {j : Item} (hx : m.start ≤ x) (hj : g'.plan x = some j) :
    (∀ y ∈ j.inputs, (D y ∧ y ∉ m.chain) ∨ Part g' m y) ∧ j.IsNumeric ∧
      ∀ vs, List.Forall₂ (g'.HasValue inputs) j.inputs vs → j.op.Honest vs := by
  have ha := h.applies
  have hresume : m.resume = m.start + 3 + 2 * m.chain.length := rfl
  obtain ⟨i, hw⟩ := ha.bottomAt
  have hDb : D m.bottom := ha.chain.mem_of_closed hD.closed hid ha.bottom_mem
  have hbase : D m.base ∧ m.base ∉ m.chain :=
    ⟨hD.closed _ _ hDb hw.item _ hw.target_mem, ha.chain.base_not_mem hs.acyclic⟩
  have hindex : D m.index ∧ m.index ∉ m.chain :=
    ⟨hD.closed _ _ hDb hw.item _ hw.lower_mem, ha.index_not_mem hs.acyclic⟩
  rcases h.result.new_cases hj hx with ⟨-, -, n, rfl⟩ | ⟨-, rfl⟩ | ⟨-, rfl⟩
  · exact ⟨nofun, nofun, fun _ _ => trivial⟩
  · refine ⟨fun y hy => ?_, nofun, fun vs hvs => ?_⟩
    · rcases Item.mem_readWhole.1 hy with rfl | rfl | rfl | rfl
      · exact .inl hbase
      · exact .inl hindex
      · exact .inr (.inr ⟨le_rfl, _, h.result.one⟩)
      · exact .inr (.inr ⟨by omega, _, h.result.last⟩)
    · cases haxis : m.axis <;> rw [haxis] at hvs <;>
        rcases hvs with _ | ⟨-, _ | ⟨h1, _ | ⟨h2, _ | ⟨h3, _ | ⟨h4, _ | _⟩⟩⟩⟩⟩
      · exact ⟨fun _ => by rw [h1.unique h2], nofun⟩
      · exact ⟨nofun, fun _ => by rw [h3.unique h4]⟩
  · refine ⟨fun y hy => ?_, nofun, fun vs hvs => ?_⟩
    · rcases Item.mem_writeWhole.1 hy with rfl | rfl | rfl | rfl | rfl
      · exact .inl hbase
      · exact .inr (.inl ha.top_mem)
      · exact .inl hindex
      · exact .inr (.inr ⟨by omega, _, h.result.one'⟩)
      · exact .inr (.inr ⟨by omega, _, h.result.last'⟩)
    · cases haxis : m.axis <;> rw [haxis] at hvs <;>
        rcases hvs with _ | ⟨-, _ | ⟨-, _ | ⟨h1, _ | ⟨h2, _ | ⟨h3, _ | ⟨h4, _ | _⟩⟩⟩⟩⟩⟩
      · exact ⟨fun _ => by rw [h1.unique h2], nofun⟩
      · exact ⟨nofun, fun _ => by rw [h3.unique h4]⟩

/-- A chain with values has a line, if the width of the base is read back as far as bases can have
it. -/
theorem exists_lineAt (h : Merged g m g') (hs : g.Sound) (hD : g.Valued inputs D)
    (hlit : g.ReadsLiterals α) {n : Nat} (hn : 1 < n) (hle : n ≤ 2 ^ 63)
    (hin : ∀ name u, inputs name = some u → u.Within n)
    (he : m.width < n → Element.toInt? (Element.ofInt m.width : α) = some m.width)
    (hrank : g.plan.Ranked rank)
    (hcarry : ∀ y, rank y < rank m.top → Carries g g' inputs D (· ∈ m.chain) y) (hid : D m.top) :
    ∃ r vb vi, LineAt g g' inputs m r vb vi := by
  have ha := h.applies
  obtain ⟨i, hw⟩ := ha.bottomAt
  have hDb : D m.bottom := ha.chain.mem_of_closed hD.closed hid ha.bottom_mem
  obtain ⟨cw⟩ := h.chainWrite hs ha.bottom_mem
  obtain ⟨v, hv⟩ := hD.value m.bottom hDb
  obtain ⟨vb, vu, vi, vh, vc, vd, hb, -, hops, hwrite⟩ :=
    (hasValue_write m.axis cw.before cw.op cw.inputs).1 hv
  have hbase : cw.target = m.base := by
    have ht := hw.target
    rw [← Option.some.inj (cw.before.symm.trans hw.item), cw.inputs] at ht
    cases haxis : m.axis <;> rw [haxis] at ht <;> exact Option.some.inj ht
  rw [hbase] at hb
  obtain ⟨r, hr, hlt, hmat⟩ := Axis.exists_line hwrite
  obtain ⟨b, hbi, hwide, -⟩ := ha.wide
  have hDbase : D m.base := hD.closed _ _ hDb hw.item _ hw.target_mem
  obtain ⟨hdesc, hwithin⟩ := hD.describes hs.sized hlit hn hle hin hb hDbase hbi
  have hwidth := Axis.breadth_of_admits hdesc.profile hmat hwide (by have := ha.width; omega)
  have hbelow : m.axis.breadth vb < n := by
    cases m.axis with
    | row => exact hwithin.2
    | col => exact hwithin.1
  refine ⟨r, vb, vi, ⟨hb, ?_⟩, ⟨hops.lower, ?_⟩, hr, hlt, hmat, hwidth, he (by omega)⟩
  · exact h.carry_operand hD hrank hcarry hid ha.bottom_mem hw.item hw.target_mem
      (ha.chain.base_not_mem hs.acyclic) hb
  · exact h.carry_operand hD hrank hcarry hid ha.bottom_mem hw.item hw.lower_mem
      (ha.index_not_mem hs.acyclic) hops.lower

theorem hasValue_literal_of_item (inputs : Inputs α) {x : NodeId} {n : Int}
    (hn : Element.toInt? (Element.ofInt n : α) = some n) (hx : g'.plan x = some (.literal n)) :
    ∃ v : Value α, g'.HasValue inputs x v ∧ v.index? = some n :=
  ⟨_, hasValue_literal hx rfl rfl, hn⟩

variable [IndexElement α]

theorem hasValue_one (inputs : Inputs α) {x : NodeId}
    (hx : g'.plan x = some (.literal 1)) : ∃ v : Value α, g'.HasValue inputs x v ∧ v.index? = some 1 :=
  hasValue_literal_of_item inputs (IndexElement.toInt?_ofInt (by decide)) hx

theorem slice_value (h : Merged g m g') (hl : LineAt g g' inputs m r vb vi) :
    ∃ w, g'.HasValue inputs m.slice w ∧ m.axis.IsLine vb r w := by
  obtain ⟨v1, h1, h1i⟩ := hasValue_one inputs h.result.one
  obtain ⟨vl, hlast, hli⟩ := hasValue_literal_of_item inputs hl.exact h.result.last
  rw [hl.width] at hli
  obtain ⟨w, hrun, hline⟩ := Axis.exists_readValue ⟨m.slice, .indexing m.axis.flags⟩
    hl.value hl.value h1i hli hl.matrix hl.line (hl.breadth_pos h.applies)
  exact ⟨w, hasValue_readWhole h.result.slice hl.base.2 hl.index.2 h1 hlast hrun, hline⟩

theorem chain_value (h : Merged g m g') (hs : g.Sound) (hD : g.Valued inputs D)
    (hrank : g.plan.Ranked rank)
    (hcarry : ∀ y, rank y < rank m.top → Carries g g' inputs D (· ∈ m.chain) y) (hid : D m.top)
    (hl : LineAt g g' inputs m r vb vi) {c : NodeId} (hc : c ∈ m.chain) :
    ∃ u w, g.HasValue inputs c u ∧ g'.HasValue inputs c w ∧ m.axis.SameOff r vb u ∧
      m.axis.IsLine u r w := by
  -- By induction on the rank, as the target of a write of the chain is below it.
  induction hk : rank c using Nat.strong_induction_on generalizing c with
  | _ k ih =>
    have hDc : D c := h.applies.chain.mem_of_closed hD.closed hid hc
    obtain ⟨cw⟩ := h.chainWrite hs hc
    obtain ⟨u, hu⟩ := hD.value c hDc
    obtain ⟨vt, vs, vi', vh, vc, vd, ht, hsrc, hops, hwrite⟩ :=
      (hasValue_write m.axis cw.before cw.op cw.inputs).1 hu
    obtain rfl := hl.index.1.unique hops.lower
    have hmem : ∀ {y}, y ∈ m.axis.arrange cw.target cw.source m.index cw.upper cw.lower' cw.upper' →
        y ∈ cw.item.inputs := fun hy => cw.inputs ▸ hy
    have hcarried : ∀ {y v}, y ∈ m.axis.arrange cw.target cw.source m.index cw.upper cw.lower'
        cw.upper' → y ∉ m.chain → g.HasValue inputs y v → g'.HasValue inputs y v :=
      fun hy hyc hv => h.carry_operand hD hrank hcarry hid hc cw.before (hmem hy) hyc hv
    have hflag : vi.index? = vh.index? := by
      have hall : List.Forall₂ (g.HasValue inputs) cw.item.inputs
          (m.axis.arrange vt vs vi vh vc vd) := by
        rw [cw.inputs]
        exact hops.forall₂ ht hsrc
      have hhonest := hD.honest c _ _ hDc cw.before hall
      rw [cw.op, Axis.honest_arrange] at hhonest
      exact hhonest.1 cw.flag
    obtain ⟨v1, h1, h1i⟩ := hasValue_one inputs cw.lo_literal.2
    obtain ⟨v1', h1', h1i'⟩ := hasValue_one inputs cw.hi_literal.2
    -- The target is the base or a write of the chain; its line is the slice, or that write.
    obtain ⟨w, hw, hsame, hline⟩ : ∃ w, g'.HasValue inputs cw.newTarget w ∧
        m.axis.SameOff r vb vt ∧ m.axis.IsLine vt r w := by
      rcases cw.targets with ⟨htgt, hnew⟩ | ⟨hnew, hchain⟩
      · rw [htgt] at ht
        obtain rfl := hl.base.1.unique ht
        obtain ⟨w, hw, hline⟩ := h.slice_value hl
        exact ⟨w, hnew ▸ hw, .refl _ _ hl.matrix, hline⟩
      · have hlt : rank cw.target < k := by
          rw [← hk]
          exact hrank cw.before (hmem (by cases m.axis <;> exact List.mem_cons_self))
        obtain ⟨u', w, hu', hw, hsame, hline⟩ := ih _ hlt hchain rfl
        obtain rfl := ht.unique hu'
        exact ⟨w, hnew ▸ hw, hsame, hline⟩
    obtain ⟨hoff, w', hrun, hline'⟩ := Axis.write_in_line
      ⟨c, .leftIndexing cw.flags⟩ hwrite hl.value (hflag ▸ hl.value) h1i h1i' hline
    refine ⟨u, w', hu, ?_, hsame.trans hoff, hline'⟩
    refine (hasValue_write m.axis cw.after ((m.rewrite_op ..).trans cw.op) cw.newInputs).2
      ⟨w, vs, v1, v1', vc, vd, hw, ?_, ⟨h1, h1', ?_, ?_⟩, hrun⟩
    · exact hcarried (by cases m.axis <;> simp [Axis.arrange]) cw.outside.1 hsrc
    · exact hcarried (by cases m.axis <;> simp [Axis.arrange]) cw.outside.2.1 hops.lower'
    · exact hcarried (by cases m.axis <;> simp [Axis.arrange]) cw.outside.2.2 hops.upper'

theorem root_value (h : Merged g m g') (hs : g.Sound) (hD : g.Valued inputs D)
    (hrank : g.plan.Ranked rank)
    (hcarry : ∀ y, rank y < rank m.top → Carries g g' inputs D (· ∈ m.chain) y) (hid : D m.top)
    (hl : LineAt g g' inputs m r vb vi) {v : Value α} (hv : g.HasValue inputs m.top v) :
    g'.HasValue inputs m.written v := by
  obtain ⟨u, w, hu, hw, hsame, hline⟩ :=
    h.chain_value hs hD hrank hcarry hid hl h.applies.top_mem
  obtain rfl := hu.unique hv
  obtain ⟨v1, h1, h1i⟩ := hasValue_one inputs h.result.one'
  obtain ⟨vl, hlast, hli⟩ := hasValue_literal_of_item inputs hl.exact h.result.last'
  rw [hl.width] at hli
  refine (hasValue_write m.axis h.result.written rfl (by cases m.axis <;> rfl)).2
    ⟨vb, w, vi, vi, v1, vl, hl.base.2, hw, ⟨hl.index.2, hl.index.2, h1, hlast⟩, ?_⟩
  exact Axis.write_back hsame hline hl.value hl.value h1i hli hl.line (hl.breadth_pos h.applies)

theorem part_chain (h : Merged g m g') (hs : g.Sound) (hD : g.Valued inputs D)
    (hcarry : ∀ y, Carries g g' inputs D (· ∈ m.chain) y) (hid : D m.top) {c : NodeId} {j : Item}
    (hc : c ∈ m.chain) (hj : g'.plan c = some j) :
    (∀ y ∈ j.inputs, (D y ∧ y ∉ m.chain) ∨ Part g' m y) ∧ j.IsNumeric ∧
      ∀ vs, List.Forall₂ (g'.HasValue inputs) j.inputs vs → j.op.Honest vs := by
  have hDc : D c := h.applies.chain.mem_of_closed hD.closed hid hc
  obtain ⟨cw⟩ := h.chainWrite hs hc
  have hout : ∀ {y}, y ∈ m.axis.arrange cw.target cw.source m.index cw.upper cw.lower' cw.upper' →
      y ∉ m.chain → D y ∧ y ∉ m.chain := fun hy hyc =>
    ⟨hD.closed c _ hDc cw.before _ (cw.inputs ▸ hy), hyc⟩
  have hsource := hout (by cases m.axis <;> simp [Axis.arrange]) cw.outside.1
  have hlower := hout (by cases m.axis <;> simp [Axis.arrange]) cw.outside.2.1
  have hupper := hout (by cases m.axis <;> simp [Axis.arrange]) cw.outside.2.2
  rw [cw.after] at hj
  cases hj
  have hop : (m.rewrite c cw.lo cw.hi cw.item).op = .leftIndexing cw.flags :=
    (m.rewrite_op ..).trans cw.op
  refine ⟨fun y hy => ?_, Item.isNumeric_of_op hop nofun, fun vs hvs => ?_⟩
  · have htarget : Part g' m cw.newTarget := by
      rcases cw.targets with ⟨-, hnew⟩ | ⟨hnew, hmem⟩
      · rw [hnew]
        exact .inr ⟨by unfold Merge.slice; omega, _, h.result.slice⟩
      · exact .inl (hnew ▸ hmem)
    have hy : y = cw.newTarget ∨ y = cw.source ∨ (y = cw.lo ∨ y = cw.hi) ∨ y = cw.lower' ∨
        y = cw.upper' := by
      rw [cw.newInputs] at hy
      cases haxis : m.axis <;> rw [haxis] at hy <;>
        simp only [Axis.arrange, List.mem_cons, List.not_mem_nil, or_false] at hy <;> tauto
    rcases hy with rfl | rfl | (rfl | rfl) | rfl | rfl
    · exact .inr htarget
    · exact .inl hsource
    · exact .inr (.inr ⟨cw.lo_literal.1, _, cw.lo_literal.2⟩)
    · exact .inr (.inr ⟨cw.hi_literal.1, _, cw.hi_literal.2⟩)
    · exact .inl hlower
    · exact .inl hupper
  · -- The bounds in the line are as before, and those along the axis are both one.
    obtain ⟨u, hu⟩ := hD.value c hDc
    obtain ⟨vt, vs', va, vb, vc, vd, ht, hsrc, hops, -⟩ :=
      (hasValue_write m.axis cw.before cw.op cw.inputs).1 hu
    have hall : List.Forall₂ (g.HasValue inputs) cw.item.inputs
        (m.axis.arrange vt vs' va vb vc vd) := by
      rw [cw.inputs]
      exact hops.forall₂ ht hsrc
    have hhonest := hD.honest c _ _ hDc cw.before hall
    rw [cw.op, Axis.honest_arrange] at hhonest
    obtain ⟨v1, h1, h1i⟩ := hasValue_one inputs cw.lo_literal.2
    obtain ⟨v1', h1', h1i'⟩ := hasValue_one inputs cw.hi_literal.2
    rw [cw.newInputs] at hvs
    obtain ⟨wt, ws, wa, wb, wc, wd, rfl, -, -, hops'⟩ := Operands.of_forall₂ hvs
    rw [hop, Axis.honest_arrange]
    constructor
    · intro _
      rw [hops'.lower.unique h1, hops'.upper.unique h1', h1i, h1i']
    · intro hf
      rw [hops'.lower'.unique (hcarry _ hlower.1 hlower.2 vc hops.lower'),
        hops'.upper'.unique (hcarry _ hupper.1 hupper.2 vd hops.upper')]
      exact hhonest.2 hf

theorem part_value (h : Merged g m g') (hs : g.Sound) (hD : g.Valued inputs D)
    (hrank : g.plan.Ranked rank)
    (hcarry : ∀ y, rank y < rank m.top → Carries g g' inputs D (· ∈ m.chain) y) (hid : D m.top)
    (hl : LineAt g g' inputs m r vb vi) {x : Int} (hx : Part g' m x) :
    ∃ v, g'.HasValue inputs x v := by
  rcases hx with hx | ⟨hx, i, hi⟩
  · obtain ⟨-, w, -, hw, -⟩ := h.chain_value hs hD hrank hcarry hid hl hx
    exact ⟨w, hw⟩
  · rcases h.result.new_cases hi hx with ⟨-, -, n, rfl⟩ | ⟨rfl, -⟩ | ⟨rfl, -⟩
    · exact ⟨_, hasValue_literal hi rfl rfl⟩
    · obtain ⟨w, hw, -⟩ := h.slice_value hl
      exact ⟨w, hw⟩
    · obtain ⟨v, hv⟩ := hD.value m.top hid
      exact ⟨v, h.root_value hs hD hrank hcarry hid hl hv⟩

theorem carries (h : Merged g m g') (hs : g.Sound) (hD : g.Valued inputs D)
    (hrank : g.plan.Ranked rank)
    (hline : (∀ y, rank y < rank m.top → Carries g g' inputs D (· ∈ m.chain) y) → D m.top →
      ∃ r vb vi, LineAt g g' inputs m r vb vi) :
    (∀ x, Carries g g' inputs D (· ∈ m.chain) x) ∧
      (D m.top → ∀ v, g.HasValue inputs m.top v → g'.HasValue inputs m.written v) := by
  have hvalue : (∀ y, rank y < rank m.top → Carries g g' inputs D (· ∈ m.chain) y) → D m.top →
      ∀ v, g.HasValue inputs m.top v → g'.HasValue inputs m.written v := by
    intro hcarry hid v hv
    obtain ⟨r, vb, vi, hl⟩ := hline hcarry hid
    exact h.root_value hs hD hrank hcarry hid hl hv
  have hcarry := (Rework.merge h.toRechained).carries hD.toEvaluated hrank hvalue
  exact ⟨hcarry, hvalue fun y _ => hcarry y⟩

end Optimizer.Slicing.Merged

end LinearPlan
