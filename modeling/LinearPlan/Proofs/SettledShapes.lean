import LinearPlan.Proofs.CallSequences
import LinearPlan.Proofs.Plans
import LinearPlan.Proofs.Postconditions
import LinearPlan.Proofs.Soundness

/-!
# Settled shapes

A node is settled when sizing it gives the shape that it has, up to a view of shapes that may forget
some of it. Sizing reads nothing but the shapes and the integral literals of the operands, so an edit
can unsettle a node only by changing it or the shape of an operand: replacing an operand unsettles
the user, and refreshing a node settles it and may unsettle its users. Adding nodes, moving uses of
others and retiring unsettle nothing.
-/
namespace LinearPlan

/-- A shape without its bound on the non-zero entries. Dimensions that are not known are alike. -/
def Shape.outline (s : Shape) : Shape :=
  { s with rows := max s.rows (-1), cols := max s.cols (-1), nnz := -1 }

structure Node.Looks (view : Shape → Shape) (m m' : Node) : Prop where
  shape : view m'.shape = view m.shape
  literal : m'.op.literalInt? = m.op.literalInt?

namespace Shape
variable {node : NodeRef} {own own' lhs rhs lhs' rhs' s : Shape} {op : Op} {ms ms' : List Node}

def Respects (view : Shape → Shape) : Prop :=
  ∀ ⦃node own own' op ms ms' s⦄, List.Forall₂ (Node.Looks view) ms ms' → view own' = view own →
    sizeFrom node own op ms = .ok s → ∃ s', sizeFrom node own' op ms' = .ok s' ∧ view s' = view s

theorem respects_id : Respects id := by
  intro node own own' op ms ms' s h hown hs
  obtain rfl : own' = own := hown
  refine ⟨s, ?_, rfl⟩
  rw [← hs]
  clear hs
  rcases h with _ | ⟨⟨sa, la⟩, _ | ⟨⟨sb, lb⟩, _ | ⟨⟨sc, lc⟩, _ | ⟨⟨sd, ld⟩, _ |
    ⟨⟨se, le⟩, _ | ⟨_, _⟩⟩⟩⟩⟩⟩
  all_goals cases op <;> simp_all [sizeFrom]

theorem ofInt_eq_iff_max {a b : Int} : Dim.ofInt a = Dim.ofInt b ↔ max a (-1) = max b (-1) := by
  constructor
  · intro h
    rcases lt_or_ge a 0 with ha | ha
    · have hb := Dim.ofInt_eq_any.1 (h ▸ Dim.ofInt_of_neg ha)
      omega
    · have hb : 0 ≤ b := not_lt.1 fun hb => absurd (Dim.ofInt_eq_any.1 (h ▸ Dim.ofInt_of_neg hb)) (by omega)
      rw [(Dim.ofInt_inj ha hb).1 h]
  · intro h
    rcases lt_or_ge a 0 with ha | ha
    · rw [Dim.ofInt_of_neg ha, Dim.ofInt_of_neg (show b < 0 by omega)]
    · rw [show a = b by omega]

theorem outline_eq_iff {s t : Shape} : s.outline = t.outline ↔
    s.dataType = t.dataType ∧ s.valueType = t.valueType ∧ Dim.ofInt s.rows = Dim.ofInt t.rows ∧
      Dim.ofInt s.cols = Dim.ofInt t.cols := by
  simp [outline, ofInt_eq_iff_max]

theorem broadcast?_outline {a a' b b' c : Int} (ha : Dim.ofInt a' = Dim.ofInt a)
    (hb : Dim.ofInt b' = Dim.ofInt b) (h : broadcast? a b = some c) :
    ∃ c', broadcast? a' b' = some c' ∧ Dim.ofInt c' = Dim.ofInt c := by
  have hc := Dim.ofInt_broadcast h
  cases h' : broadcast? a' b' with
  | none =>
    have hclash := Dim.clash_of_broadcast h'
    rw [ha, hb, ← hc] at hclash
    exact absurd hclash (Dim.ofInt_ne_clash c)
  | some c' => exact ⟨c', rfl, by rw [Dim.ofInt_broadcast h', ha, hb, hc]⟩

theorem ofBinary_outline {op : BinaryOp} {e : Option Int} (hl : lhs'.outline = lhs.outline)
    (hr : rhs'.outline = rhs.outline) (hs : ofBinary node op own lhs rhs e = .ok s) :
    ∃ s', ofBinary node op own' lhs' rhs' e = .ok s' ∧ s'.outline = s.outline := by
  obtain ⟨hld, hlv, hlr, hlc⟩ := outline_eq_iff.1 hl
  obtain ⟨hrd, hrv, hrr, hrc⟩ := outline_eq_iff.1 hr
  have hvt : binaryValueType op lhs' rhs' = binaryValueType op lhs rhs := by
    rw [binaryValueType, binaryValueType, hlv, hrv]
  have hlm : lhs'.isMatrix = lhs.isMatrix := by rw [isMatrix, isMatrix, hld]
  have hrm : rhs'.isMatrix = rhs.isMatrix := by rw [isMatrix, isMatrix, hrd]
  have hls : lhs'.isScalar = lhs.isScalar := by rw [isScalar, isScalar, hld]
  have hrs : rhs'.isScalar = rhs.isScalar := by rw [isScalar, isScalar, hrd]
  unfold ofBinary at hs ⊢
  simp only [hvt, hlm, hrm, hls, hrs, hld, hrd] at hs ⊢
  cases hlm' : lhs.isMatrix <;> cases hrm' : rhs.isMatrix <;>
    simp only [hlm', hrm', if_true, if_false, Bool.false_eq_true] at hs ⊢
  · cases hsc : lhs.isScalar && rhs.isScalar <;>
      simp only [hsc, if_true, if_false, Bool.false_eq_true] at hs ⊢ <;> cases hs <;>
      exact ⟨_, rfl, rfl⟩
  · cases hs
    exact ⟨_, rfl, outline_eq_iff.2 ⟨rfl, rfl, hrr, hrc⟩⟩
  · cases hs
    exact ⟨_, rfl, outline_eq_iff.2 ⟨rfl, rfl, hlr, hlc⟩⟩
  · cases hrows : broadcast? lhs.rows rhs.rows with
    | none =>
      rw [hrows] at hs
      cases hs
    | some r =>
      cases hcols : broadcast? lhs.cols rhs.cols with
      | none =>
        rw [hrows, hcols] at hs
        cases hs
      | some c =>
        obtain ⟨r', hr', hrd'⟩ := broadcast?_outline hlr hrr hrows
        obtain ⟨c', hc', hcd'⟩ := broadcast?_outline hlc hrc hcols
        rw [hrows, hcols] at hs
        cases hs
        rw [hr', hc']
        exact ⟨_, rfl, outline_eq_iff.2 ⟨rfl, rfl, hrd', hcd'⟩⟩

theorem ofMatMul_outline (hl : lhs'.outline = lhs.outline) (hr : rhs'.outline = rhs.outline)
    (hs : ofMatMul node lhs rhs = .ok s) :
    ∃ s', ofMatMul node lhs' rhs' = .ok s' ∧ s'.outline = s.outline := by
  obtain ⟨hld, -, hlr, hlc⟩ := outline_eq_iff.1 hl
  obtain ⟨hrd, -, hrr, hrc⟩ := outline_eq_iff.1 hr
  have hfit : (0 ≤ lhs'.cols ∧ 0 ≤ rhs'.rows ∧ lhs'.cols ≠ rhs'.rows) ↔
      (0 ≤ lhs.cols ∧ 0 ≤ rhs.rows ∧ lhs.cols ≠ rhs.rows) := by
    rw [ofInt_eq_iff_max] at hlc hrr
    omega
  unfold ofMatMul at hs ⊢
  rw [isMatrix, isMatrix, hld, hrd]
  rw [isMatrix, isMatrix] at hs
  simp only [hfit]
  split at hs
  · cases hs
  · rename_i hm
    rw [if_neg hm]
    split at hs
    · cases hs
    · rename_i hd
      cases hs
      rw [if_neg hd]
      exact ⟨_, rfl, outline_eq_iff.2 ⟨rfl, rfl, hlr, hrc⟩⟩

theorem respects_outline : Respects outline := by
  intro node own own' op ms ms' s h hown hs
  cases op with
  | data name =>
    cases hs
    exact ⟨own', rfl, hown⟩
  | literal value => exact ⟨s, hs, rfl⟩
  | unary op => exact ⟨s, hs, rfl⟩
  | unknown code => cases hs
  | write name =>
    cases h with
    | nil => cases hs
    | cons hx _ =>
      cases hs
      exact ⟨_, rfl, hx.shape⟩
  | binary op =>
    rcases h with _ | ⟨hx, _ | ⟨hy, _ | ⟨_, _⟩⟩⟩
    · cases hs
    · cases hs
    · rw [sizeFrom, hy.literal]
      exact ofBinary_outline hx.shape hy.shape hs
    · cases hs
  | matMul =>
    rcases h with _ | ⟨hx, _ | ⟨hy, _ | ⟨_, _⟩⟩⟩
    · cases hs
    · cases hs
    · rw [sizeFrom] at hs
      cases hm : ofMatMul node _ _ with
      | ok t =>
        rw [hm] at hs
        cases hs
        obtain ⟨s', hs', hview⟩ := ofMatMul_outline hx.shape hy.shape hm
        exact ⟨s', by rw [sizeFrom, hs']; rfl, hview⟩
      | error c =>
        rw [hm] at hs
        cases hs
    · cases hs
  | transpose =>
    rcases h with _ | ⟨hx, _ | ⟨_, _⟩⟩
    · cases hs
    · cases hs
      obtain ⟨hd, hv, hr, hc⟩ := outline_eq_iff.1 hx.shape
      exact ⟨_, rfl, outline_eq_iff.2 ⟨hd, hv, hc, hr⟩⟩
    · cases hs
  | indexing flags =>
    rcases h with _ | ⟨hx, _ | ⟨ha, _ | ⟨hb, _ | ⟨hc, _ | ⟨hd, _ | ⟨_, _⟩⟩⟩⟩⟩⟩
    case cons.cons.cons.cons.cons.nil =>
      cases hs
      obtain ⟨-, hv, -, -⟩ := outline_eq_iff.1 hx.shape
      refine ⟨_, rfl, outline_eq_iff.2 ⟨rfl, hv, ?_, ?_⟩⟩
      · show Dim.ofInt (extent _ _ _) = Dim.ofInt (extent _ _ _)
        rw [ha.literal, hb.literal]
      · show Dim.ofInt (extent _ _ _) = Dim.ofInt (extent _ _ _)
        rw [hc.literal, hd.literal]
    all_goals cases hs
  | leftIndexing flags =>
    cases h with
    | nil => cases hs
    | cons hx _ =>
      cases hs
      obtain ⟨-, hv, hr, hc⟩ := outline_eq_iff.1 hx.shape
      exact ⟨_, rfl, outline_eq_iff.2 ⟨rfl, hv, hr, hc⟩⟩
  | chain kind threads =>
    cases h with
    | nil => cases hs
    | cons hx _ =>
      cases hs
      obtain ⟨-, -, -, hc⟩ := outline_eq_iff.1 hx.shape
      exact ⟨_, rfl, outline_eq_iff.2 ⟨rfl, rfl, hc, rfl⟩⟩

theorem ofBinary_again {op : BinaryOp} {e : Option Int}
    (h : ofBinary node op own lhs rhs e = .ok s) : ofBinary node op own' lhs rhs e = .ok s := by
  unfold ofBinary at h ⊢
  cases hl : lhs.isMatrix <;> cases hr : rhs.isMatrix <;>
    simp only [hl, hr, if_true, if_false, Bool.false_eq_true] at h ⊢
  case true.true =>
    cases hrows : broadcast? lhs.rows rhs.rows with
    | none =>
      rw [hrows] at h
      cases h
    | some r =>
      cases hcols : broadcast? lhs.cols rhs.cols with
      | none =>
        rw [hrows, hcols] at h
        cases h
      | some c =>
        rw [hrows, hcols] at h
        exact h
  all_goals exact h

theorem sizeFrom_again (h : sizeFrom node own op ms = .ok s) : sizeFrom node s op ms = .ok s := by
  unfold sizeFrom at h ⊢
  split at h
  case h_5 op lhs rhs => exact ofBinary_again h
  case h_6 lhs rhs =>
    cases hm : ofMatMul node lhs.shape rhs.shape with
    | ok t =>
      rw [hm] at h
      exact h
    | error c =>
      rw [hm] at h
      cases h
  case h_11 => cases h
  all_goals first | rfl | exact h

end Shape

/-- The operands that the size of a node depends on. A write has the size of its target. -/
def Op.sizing (op : Op) (inputs : List NodeId) : List NodeId :=
  match op with
  | .leftIndexing _ => inputs.take 1
  | _ => inputs

theorem Op.exists_sizing_eq_take (op : Op) (k : Nat) :
    ∃ r, ∀ inputs : List NodeId, inputs.length = k → op.sizing inputs = inputs.take r := by
  unfold sizing
  split
  · exact ⟨1, fun _ _ => rfl⟩
  · exact ⟨k, fun inputs hk => by rw [← hk, List.take_length]⟩

theorem Op.mem_of_mem_sizing {op : Op} {inputs : List NodeId} {y : NodeId}
    (hy : y ∈ op.sizing inputs) : y ∈ inputs := by
  obtain ⟨r, hr⟩ := op.exists_sizing_eq_take inputs.length
  exact List.mem_of_mem_take (hr inputs rfl ▸ hy)

theorem Op.sizing_map (op : Op) (inputs : List NodeId) (f : NodeId → NodeId) :
    op.sizing (inputs.map f) = (op.sizing inputs).map f := by
  unfold sizing
  split
  · exact (List.map_take ..).symm
  · rfl

structure Node.SizedAlike (n n' : Node) : Prop where
  op : n'.op = n.op
  sizing : n.op.sizing n'.inputs = n.op.sizing n.inputs
  retired : n'.retired = n.retired

theorem Node.SizedAlike.of_eq {n n' : Node} (h : n' = n) : n.SizedAlike n' :=
  h ▸ ⟨rfl, rfl, rfl⟩

namespace Graph
variable {g g' : Graph} {view : Shape → Shape} {x c : NodeId} {n n' : Node} {D D' : NodeId → Prop}

def sizedBy (g : Graph) (x : NodeId) : List NodeId :=
  ((g.get? x).map fun n => n.op.sizing n.inputs).getD []

theorem sizedBy_eq (hn : g.get? x = some n) : g.sizedBy x = n.op.sizing n.inputs := by
  rw [sizedBy, hn]
  rfl

theorem sizedBy_of_plan {i : Item} (hx : g.plan x = some i) : g.sizedBy x = i.op.sizing i.inputs := by
  obtain ⟨n, hn, -, rfl⟩ := get?_of_plan hx
  exact sizedBy_eq hn

theorem mem_inputsOf_of_sizedBy {y : NodeId} (hy : y ∈ g.sizedBy x) : y ∈ g.inputsOf x := by
  cases hx : g.get? x with
  | none => simp [sizedBy, hx] at hy
  | some n =>
    rw [sizedBy_eq hx] at hy
    rw [inputsOf_eq hx]
    exact Op.mem_of_mem_sizing hy

theorem sizeNode_eq_sizing (hres : g.Resolves n) (ha : n.op.arity? = some n.inputs.length) :
    g.sizeNode x n = Shape.sizeFrom ⟨x, n.op⟩ n.shape n.op
      ((n.op.sizing n.inputs).filterMap g.core?) := by
  rw [sizeNode_eq hres ha, operands]
  unfold Op.sizing
  split
  · rename_i flags hop
    rw [hop] at ha
    obtain ⟨t, rest, hin⟩ := List.exists_cons_of_length_eq_add_one (Option.some.inj ha).symm
    obtain ⟨m, hm⟩ := hres t (hin ▸ List.mem_cons_self)
    rw [hop, hin, List.filterMap_cons_some hm, List.take_succ_cons, List.filterMap_cons_some hm]
    rfl
  · rfl

def SettledAt (view : Shape → Shape) (g : Graph) (x : NodeId) : Prop :=
  ∀ n, g.get? x = some n → n.retired = false → ∃ s, g.sizeNode x n = .ok s ∧ view s = view n.shape

def Similar (view : Shape → Shape) (g g' : Graph) (y y' : NodeId) : Prop :=
  ∃ m m', g.core? y = some m ∧ g'.core? y' = some m' ∧ m.Looks view m'

theorem similar_of_core? {m : Node} (hm : g.core? x = some m) (h : g'.core? x = some m) :
    Similar view g g' x x :=
  ⟨m, m, hm, h, rfl, rfl⟩

theorem forall₂_looks {l l' : List NodeId} (h : List.Forall₂ (Similar view g g') l l') :
    List.Forall₂ (Node.Looks view) (l.filterMap g.core?) (l'.filterMap g'.core?) := by
  induction h with
  | nil => exact .nil
  | cons hy _ ih =>
    obtain ⟨m, m', hm, hm', hlook⟩ := hy
    rw [List.filterMap_cons_some hm, List.filterMap_cons_some hm']
    exact .cons hlook ih

theorem SettledAt.transfer (h : g.SettledAt view x) (hv : Shape.Respects view) (hl : g.Linked)
    (hl' : g'.Linked) (hn : g.get? x = some n) (hr : n.retired = false)
    (hn' : g'.get? x = some n') (hr' : n'.retired = false) (hop : n'.op = n.op)
    (hshape : view n'.shape = view n.shape)
    (hin : List.Forall₂ (Similar view g g') (n.op.sizing n.inputs) (n.op.sizing n'.inputs)) :
    g'.SettledAt view x := by
  intro k hk _
  obtain rfl : n' = k := Option.some.inj (hn'.symm.trans hk)
  obtain ⟨s, hs, hview⟩ := h n hn hr
  have hres := resolves_of_plan (hl.closed (plan_eq_some hn hr))
  have hres' := resolves_of_plan (hl'.closed (plan_eq_some hn' hr'))
  rw [sizeNode_eq_sizing hres (hl.arity_eq hn hr)] at hs
  obtain ⟨s', hs', hview'⟩ := hv (forall₂_looks hin) hshape hs
  refine ⟨s', ?_, hview'.trans (hview.trans hshape.symm)⟩
  rw [sizeNode_eq_sizing hres' (hl'.arity_eq hn' hr'), hop]
  exact hs'

theorem SettledAt.of_core? (h : g.SettledAt view x) (hv : Shape.Respects view) (hl : g.Linked)
    (hl' : g'.Linked) (hx : g'.core? x = g.core? x)
    (hin : ∀ y ∈ g.sizedBy x, Similar view g g' y y) : g'.SettledAt view x := by
  intro n' hn' hr'
  rw [core?_eq_some hn'] at hx
  obtain ⟨n, hn, hcore⟩ := get?_of_core? hx.symm
  have hr : n.retired = false := (congrArg Node.retired hcore).trans hr'
  have hinputs : n'.inputs = n.inputs := (congrArg Node.inputs hcore).symm
  refine h.transfer hv hl hl' hn hr hn' hr' (congrArg Node.op hcore).symm
    (congrArg (view ∘ Node.shape) hcore).symm ?_ n' hn' hr'
  rw [hinputs]
  exact List.forall₂_same.2 fun y hy => hin y (sizedBy_eq hn ▸ hy)

theorem settledAt_of_sizeNode (hl : g'.Linked) (hn' : g'.get? x = some n') (hr' : n'.retired = false)
    (hop : n'.op = n.op) (hinputs : n'.inputs = n.inputs)
    (hold : ∀ y ∈ n.inputs, g'.core? y = g.core? y) (hs : g.sizeNode x n = .ok n'.shape) :
    g'.SettledAt view x := by
  intro k hk _
  obtain rfl : n' = k := Option.some.inj (hn'.symm.trans hk)
  have ha := hl.arity_eq hn' hr'
  have hres' : g'.Resolves n' := resolves_of_plan (hl.closed (plan_eq_some hn' hr'))
  have hres : g.Resolves n := fun y hy => by
    obtain ⟨m, hm⟩ := hres' y (hinputs ▸ hy)
    exact ⟨m, hold y hy ▸ hm⟩
  rw [sizeNode_eq hres (hinputs ▸ hop ▸ ha)] at hs
  refine ⟨n'.shape, ?_, rfl⟩
  rw [sizeNode_eq hres' ha, hop, operands, hinputs, List.filterMap_congr hold]
  exact Shape.sizeFrom_again hs

theorem Linked.settledAt_resize {s : Shape} (h : g.Linked) (hn : g.get? c = some n)
    (hr : n.retired = false) (hs : g.sizeNode c n = .ok s) :
    (g.modify c fun m => { m with shape := s }).SettledAt view c := by
  have hn' : (g.modify c fun m => { m with shape := s }).get? c = some { n with shape := s } := by
    rw [get?_modify, hn]
    simp
  refine settledAt_of_sizeNode (n := n) (h.setShape c s) hn' hr rfl rfl (fun y hy => ?_) hs
  have hyc : y ≠ c := fun he => h.irreflexive c (inputsOf_eq hn ▸ he ▸ hy)
  rw [core?, core?, get?_modify_of_ne _ _ hyc]

theorem SettledAt.refresh_eq (h : g.SettledAt view x) (hn : g.get? x = some n)
    (hr : n.retired = false) : ∃ s, view s = view n.shape ∧
      Edit.refresh x g = .ok () (g.modify x fun m => { m with shape := s }) := by
  obtain ⟨s, hs, hview⟩ := h n hn hr
  exact ⟨s, hview, Edit.refresh_ok hn hr hs⟩

theorem Refreshed.settledAt (h : g.Refreshed) (x : NodeId) : g.SettledAt id x :=
  fun n hn hr => ⟨n.shape, h.sizeNode_eq hn hr, rfl⟩

theorem SettledAt.refresh_id (h : g.SettledAt id x) (hn : g.get? x = some n)
    (hr : n.retired = false) : Edit.refresh x g = .ok () g := by
  obtain ⟨s, rfl, hrun⟩ := h.refresh_eq hn hr
  rw [hrun, modify_eq_self hn rfl]

theorem SettledAt.outline (h : g.SettledAt id x) : g.SettledAt Shape.outline x := by
  intro n hn hr
  obtain ⟨s, hs, hview⟩ := h n hn hr
  exact ⟨s, hs, congrArg Shape.outline hview⟩

/-- All nodes are settled, except for those of a set. -/
structure SettledBut (view : Shape → Shape) (D : NodeId → Prop) (g : Graph) : Prop where
  linked : g.Linked
  settled : ∀ x, D x ∨ g.SettledAt view x

namespace SettledBut

theorem all (h : g.SettledBut view fun _ => False) (x : NodeId) : g.SettledAt view x :=
  (h.settled x).resolve_left id

theorem mono (h : g.SettledBut view D) (hD : ∀ x, D x → D' x) : g.SettledBut view D' :=
  ⟨h.linked, fun x => (h.settled x).imp_left (hD x)⟩

theorem maps {f : NodeId → Node → Node} (h : g.SettledBut view D) (hv : Shape.Respects view)
    (hl : g'.Linked) (hm : g.Maps f g') (hlook : ∀ x n, g.core? x = some n → n.Looks view (f x n))
    (hsame : ∀ x n, g.core? x = some n → D x ∨ (f x n).retired = true ∨ n.SizedAlike (f x n)) :
    g'.SettledBut view D := by
  refine ⟨hl, fun x => ?_⟩
  refine (em (D x)).imp_right fun hD n' hn' hr' => ?_
  obtain ⟨n, hn, hcore⟩ := hm.get?_rev hn'
  have hx := core?_eq_some hn
  have hlive : (f x n.core).retired = false := (congrArg Node.retired hcore).symm.trans hr'
  have halike := ((hsame x n.core hx).resolve_left hD).resolve_left (by rw [hlive]; nofun)
  have hsizing : n.op.sizing n'.inputs = n.op.sizing n.inputs :=
    (congrArg (fun m : Node => n.op.sizing m.inputs) hcore).trans halike.sizing
  refine ((h.settled x).resolve_left hD).transfer hv h.linked hl hn (halike.retired.symm.trans hlive)
    hn' hr' ((congrArg Node.op hcore).trans halike.op)
    ((congrArg (view ∘ Node.shape) hcore).trans (hlook x _ hx).shape) ?_ n' hn' hr'
  rw [hsizing]
  refine List.forall₂_same.2 fun y hy => ?_
  obtain ⟨m, hmc, -⟩ := h.linked.operand (mem_inputsOf_of_sizedBy (sizedBy_eq hn ▸ hy))
  exact ⟨m, f y m, hmc, by rw [hm.core, hmc]; rfl, hlook y m hmc⟩

theorem appends {op : Op} {inputs : List NodeId} {s : Shape} (h : g.SettledBut view D)
    (hv : Shape.Respects view) (hl : g'.Linked)
    (happ : g.Appends { Edit.start g op inputs with shape := s } g')
    (hs : g.sizeNode g.size (Edit.start g op inputs) = .ok s) : g'.SettledBut view D := by
  refine ⟨hl, fun x => ?_⟩
  by_cases hx : x = (g.size : Int)
  · right
    obtain ⟨n', hn', hcore⟩ := happ.get?_self
    have hshape : n'.shape = s := congrArg Node.shape hcore
    have hop : n'.op = op := congrArg Node.op hcore
    have hinputs : n'.inputs = inputs := congrArg Node.inputs hcore
    have hr' : n'.retired = false := congrArg Node.retired hcore
    rw [hx]
    rw [← hshape] at hs
    refine settledAt_of_sizeNode (n := Edit.start g op inputs) hl hn' hr' hop hinputs
      (fun y hy => happ.core_of_ne fun he => hl.irreflexive g.size ?_) hs
    rw [inputsOf_eq hn', hinputs]
    exact he ▸ hy
  · refine (h.settled x).imp_right fun hset => ?_
    refine hset.of_core? hv h.linked hl (happ.core_of_ne hx) fun y hy => ?_
    obtain ⟨m, hm, -⟩ := h.linked.operand (mem_inputsOf_of_sizedBy hy)
    exact similar_of_core? hm (happ.core_of_some hm)

theorem resize {s : Shape} (h : g.SettledBut view D) (hv : Shape.Respects view)
    (hn : g.get? c = some n) (hr : n.retired = false) (hs : g.sizeNode c n = .ok s) :
    (g.modify c fun m => { m with shape := s }).SettledBut view
      fun x => (D x ∧ x ≠ c) ∨ c ∈ g.sizedBy x := by
  have hl := h.linked.setShape c s
  have hmaps := maps_modify g c (f := fun m => { m with shape := s }) fun _ => rfl
  have hold : ∀ {y}, y ≠ c → (g.modify c fun m => { m with shape := s }).core? y = g.core? y := by
    intro y hy
    rw [hmaps.core]
    simp [hy]
  refine ⟨hl, fun x => ?_⟩
  by_cases hx : x = c
  · rw [hx]
    exact .inr (h.linked.settledAt_resize hn hr hs)
  · by_cases hc : c ∈ g.sizedBy x
    · exact .inl (.inr hc)
    · refine (h.settled x).imp (fun hD => .inl ⟨hD, hx⟩) fun hset => ?_
      refine hset.of_core? hv h.linked hl (hold hx) fun y hy => ?_
      obtain ⟨m, hm, -⟩ := h.linked.operand (mem_inputsOf_of_sizedBy hy)
      exact similar_of_core? hm ((hold fun he => hc (he ▸ hy)).trans hm)

end SettledBut

structure Spreads (g : Graph) (D : NodeId → Prop) : Prop where
  live : ∀ {x}, D x → ∃ i, g.plan x = some i
  users : ∀ {x y}, y ∈ g.sizedBy x → D y → D x

abbrev AllSettled (view : Shape → Shape) (g : Graph) : Prop := g.SettledBut view fun _ => False

def look (view : Shape → Shape) (g : Graph) (x : NodeId) : Option Shape :=
  (g.core? x).map fun n => view n.shape

theorem look_eq_some (hn : g.get? x = some n) : g.look view x = some (view n.shape) := by
  rw [look, core?_eq_some hn]
  rfl

theorem look_of_core? {y : NodeId} (h : g'.core? y = g.core? x) : g'.look view y = g.look view x := by
  rw [look, look, h]

theorem Maps.look_eq {f : NodeId → Node → Node} (h : g.Maps f g')
    (hf : ∀ x n, g.core? x = some n → view (f x n).shape = view n.shape) (x : NodeId) :
    g'.look view x = g.look view x := by
  rw [look, look, h.core]
  cases hx : g.core? x with
  | none => rfl
  | some n => exact congrArg some (hf x n hx)

def Retains (g g' : Graph) : Prop := ∀ x n, g.core? x = some n → g'.core? x = some n

theorem Retains.trans {g'' : Graph} (h : g.Retains g') (h' : g'.Retains g'') : g.Retains g'' :=
  fun x n hx => h' x n (h x n hx)

theorem Retains.plan_eq (h : g.Retains g') {i : Item} (hx : g.plan x = some i) :
    g'.plan x = some i := by
  obtain ⟨n, hn, -, -⟩ := get?_of_plan hx
  rw [plan, h x _ (core?_eq_some hn), ← hx, plan, core?_eq_some hn]

theorem Retains.look_eq (h : g.Retains g') {i : Item} (hx : g.plan x = some i) :
    g'.look view x = g.look view x := by
  obtain ⟨n, hn, -, -⟩ := get?_of_plan hx
  rw [look, look, h x _ (core?_eq_some hn), core?_eq_some hn]

theorem similar_of_look {y y' : NodeId} {i i' : Item} (hy : g.plan y = some i)
    (hy' : g'.plan y' = some i') (hlook : g'.look view y' = g.look view y)
    (hlit : i'.op.literalInt? = i.op.literalInt?) : Similar view g g' y y' := by
  obtain ⟨m, hm, -, rfl⟩ := get?_of_plan hy
  obtain ⟨m', hm', -, rfl⟩ := get?_of_plan hy'
  rw [look_eq_some hm, look_eq_some hm'] at hlook
  exact ⟨_, _, core?_eq_some hm, core?_eq_some hm', Option.some.inj hlook, hlit⟩

theorem SettledAt.subst {old new : NodeId} {i : Item} (h : g.SettledAt view x)
    (hv : Shape.Respects view) (hl : g.Linked) (hl' : g'.Linked) (hx : g.plan x = some i)
    (hx' : g'.plan x = some (i.subst old new)) (hlook : g'.look view x = g.look view x)
    (hin : ∀ y ∈ g.sizedBy x, Similar view g g' y (if y = old then new else y)) :
    g'.SettledAt view x := by
  obtain ⟨n, hn, hr, rfl⟩ := get?_of_plan hx
  obtain ⟨n', hn', hr', hitem⟩ := get?_of_plan hx'
  rw [look_eq_some hn, look_eq_some hn'] at hlook
  have hinputs : n'.inputs = n.inputs.map fun y => if y = old then new else y :=
    congrArg Item.inputs hitem
  refine h.transfer hv hl hl' hn hr hn' hr' (congrArg Item.op hitem) (Option.some.inj hlook) ?_
  rw [hinputs, Op.sizing_map, List.forall₂_map_right_iff]
  exact List.forall₂_same.2 fun y hy => hin y (sizedBy_eq hn ▸ hy)

end Graph

namespace Edit
open LinearPlan.Graph
variable {g : Graph} {view : Shape → Shape} {D : NodeId → Prop}

abbrev anyFault : Fault → Graph → Prop := fun _ _ => True

theorem addNode_settled (hv : Shape.Respects view) (h : g.SettledBut view D) (op : Op)
    (inputs : List NodeId) (ha : needsArity op = false → op.arity? = some inputs.length) :
    Ends (addNode op inputs) g anyFault fun _ g' => g'.SettledBut view D ∧ g.Retains g' := by
  rcases addNode_cases h.linked op inputs ha with ⟨fault, hf⟩ | ⟨s, g', hok, hl', happ, hs⟩
  · exact (ends_error hf).2 trivial
  · exact (ends_ok hok).2 ⟨h.appends hv hl' happ hs, fun x n hx => happ.core_of_some hx⟩

theorem literal_settled (hv : Shape.Respects view) (h : g.SettledBut view D) (value : Number) :
    Ends (literal value) g anyFault fun _ g' => g'.SettledBut view D ∧ g.Retains g' :=
  addNode_settled hv h _ _ fun _ => rfl

theorem countNode_settled (hv : Shape.Respects view) (h : g.SettledBut view D) (x : NodeId)
    (columns : Bool) :
    Ends (countNode x columns) g anyFault fun _ g' => g'.SettledBut view D ∧ g.Retains g' := by
  refine Ends.bind (P := fun _ g' => g' = g) (ends_read (fun _ _ => rfl) fun _ _ => trivial) ?_
  rintro n g' rfl
  dsimp only
  generalize (if columns then n.shape.cols else n.shape.rows) = count
  split
  · exact literal_settled hv h _
  · generalize (if columns then UnaryOp.ncol else .nrow) = op
    unfold unary
    split
    · exact trivial
    · exact addNode_settled hv h _ _ fun hop => nomatch hop

theorem replaceInput_settled (hv : Shape.Respects view) (h : g.SettledBut view D) {parent : NodeId}
    (hD : D parent) (pos : Int) (child : NodeId) :
    Ends (replaceInput parent pos child) g anyFault fun _ g' => g'.SettledBut view D := by
  rcases replaceInput_cases h.linked parent pos child with ⟨fault, hf⟩ | ⟨old, g', hok, hl', k, hm⟩
  · exact (ends_error hf).2 trivial
  · refine (ends_ok hok).2 (h.maps hv hl' hm (fun x n _ => ?_) fun x n _ => ?_)
    · split <;> exact ⟨rfl, rfl⟩
    · by_cases hx : x = parent
      · exact .inl (hx ▸ hD)
      · exact .inr (.inr (.of_eq (if_neg hx)))

theorem setFlags_settled (hv : Shape.Respects view) (h : g.SettledBut view D) {x : NodeId}
    (hD : D x) (f : SliceFlags → SliceFlags) :
    Ends (setFlags x f) g anyFault fun _ g' => g'.SettledBut view D := by
  rcases live_cases x g with ⟨fault, hf⟩ | ⟨n, hn, hr, hrun⟩
  · have hrun : setFlags x f g = .error fault g := bind_error hf
    exact (ends_error hrun).2 trivial
  · have hl := keeps_setFlags x f g h.linked
    have hset : ∀ op, n.op.literalInt? = none → op.literalInt? = none →
        setFlags x f g = .ok () (g.modify x fun m => { m with op := op }) →
        Ends (setFlags x f) g anyFault fun _ g' => g'.SettledBut view D := by
      intro op hold hnew hok
      have hm := maps_modify g x (f := fun m => { m with op := op }) fun _ => rfl
      refine (ends_ok hok).2 (h.maps hv (finish_ok hok ▸ hl) hm (fun y m hy => ?_) fun y m _ => ?_)
      · by_cases hyx : y = x
        · rw [hyx, core?_eq_some hn] at hy
          cases hy
          exact ⟨by simp [hyx], by simp [hyx, hold, hnew]⟩
        · rw [if_neg hyx]
          exact ⟨rfl, rfl⟩
      · by_cases hyx : y = x
        · exact .inl (hyx ▸ hD)
        · exact .inr (.inr (.of_eq (if_neg hyx)))
    have hflags : setFlags x f g = _ := bind_ok hrun
    cases hop : n.op with
    | indexing flags =>
      rw [hop] at hflags
      exact hset (.indexing (f flags)) (by rw [hop]; rfl) rfl hflags
    | leftIndexing flags =>
      rw [hop] at hflags
      exact hset (.leftIndexing (f flags)) (by rw [hop]; rfl) rfl hflags
    | _ =>
      rw [hop] at hflags
      exact (ends_error hflags).2 trivial

theorem refresh_settled (hv : Shape.Respects view) (h : g.SettledBut view D) (c : NodeId) :
    Ends (refresh c) g anyFault fun _ g' => g'.SettledBut view
      (fun x => (D x ∧ x ≠ c) ∨ c ∈ g'.sizedBy x) ∧ ∀ x, g'.sizedBy x = g.sizedBy x := by
  rcases live_cases c g with ⟨fault, hf⟩ | ⟨n, hn, hr, -⟩
  · have hrun : refresh c g = .error fault g := bind_error hf
    exact (ends_error hrun).2 trivial
  · cases hs : g.sizeNode c n with
    | error fault => exact (ends_error (refresh_error hn hr hs)).2 trivial
    | ok s =>
      have hin : ∀ x, (g.modify c fun m => { m with shape := s }).sizedBy x = g.sizedBy x := by
        intro x
        rw [sizedBy, sizedBy, get?_modify, Option.map_map]
        congr 2
        funext m
        by_cases hxc : x = c <;> simp [hxc]
      refine (ends_ok (refresh_ok hn hr hs)).2 ⟨(h.resize hv hn hr hs).mono fun x hx => ?_, hin⟩
      rw [hin]
      exact hx

theorem reassign_sizedAlike {edges : List Edge} {x old : NodeId} {n : Node}
    (hcore : g.core? x = some n) (hedges : ∀ e ∈ edges, g.Holds e old)
    (hold : ∀ e ∈ edges, e.parent = x → old ∉ g.sizedBy x) (replacement : NodeId) :
    n.SizedAlike { n with inputs := reassign edges x replacement n.inputs } := by
  obtain ⟨n, hn, rfl⟩ := get?_of_core? hcore
  obtain ⟨r, hr⟩ := n.op.exists_sizing_eq_take n.inputs.length
  refine ⟨rfl, ?_, rfl⟩
  have hlen : (reassign edges x replacement n.inputs).length = n.inputs.length :=
    List.length_mapIdx ..
  show n.op.sizing (reassign edges x replacement n.inputs) = n.op.sizing n.inputs
  rw [sizedBy_eq hn, hr _ rfl] at hold
  rw [hr _ hlen, hr _ rfl]
  apply List.ext_getElem?
  intro pos
  rw [List.getElem?_take, List.getElem?_take]
  split
  · rename_i hpos
    have hnot : Edge.mk x pos ∉ edges := fun he => by
      obtain ⟨k, hk, hget⟩ := hedges _ he
      obtain rfl : pos = k := Int.ofNat.inj hk
      rw [inputsOf_eq hn] at hget
      refine hold _ he rfl (List.mem_of_getElem? (i := pos) ?_)
      rw [List.getElem?_take, if_pos hpos]
      exact hget
    simp [reassign, hnot]
  · rfl

theorem redirect_settled (hv : Shape.Respects view) (h : g.SettledBut view D) {edges : List Edge}
    {old : NodeId} (hedges : ∀ e ∈ edges, g.Holds e old)
    (hD : ∀ e ∈ edges, old ∈ g.sizedBy e.parent → D e.parent) (replacement : NodeId) :
    Ends (redirect edges old replacement) g anyFault fun _ g' =>
      g'.SettledBut view D ∧ ∀ x, g'.look view x = g.look view x := by
  rcases redirect_cases h.linked edges old replacement with ⟨fault, hf⟩ | ⟨g', hok, hl', hm⟩
  · exact (ends_error hf).2 trivial
  · refine (ends_ok hok).2 ⟨h.maps hv hl' hm (fun x n _ => ⟨rfl, rfl⟩) fun x n hx => ?_,
      hm.look_eq fun x n _ => rfl⟩
    by_cases hDx : D x
    · exact .inl hDx
    · refine .inr (.inr (reassign_sizedAlike hx hedges (fun e he hp hold => hDx ?_) replacement))
      rw [← hp] at hold ⊢
      exact hD e he hold

theorem parentEdges_users (h : g.Linked) {x : NodeId} {i : Item} (hx : g.plan x = some i) :
    Ends (parentEdges x) g anyFault fun edges g' => g' = g ∧ ∀ e, e ∈ edges ↔ g.Holds e x := by
  obtain ⟨n, hn, hr, -⟩ := get?_of_plan hx
  obtain ⟨edges, hedges, he⟩ := h.parentEdges_ok hn hr
  exact (ends_ok (read_ok hedges)).2 ⟨rfl, he⟩

theorem redirectParents_settled (hv : Shape.Respects view) (h : g.SettledBut view D) {old : NodeId}
    {i : Item} (hold : g.plan old = some i) (hD : ∀ x, old ∈ g.sizedBy x → D x)
    (replacement : NodeId) :
    Ends (redirectParents old replacement) g anyFault fun edges g' => (∀ e, e ∈ edges ↔ g.Holds e old) ∧
      g'.SettledBut view D ∧ ∀ x, g'.look view x = g.look view x := by
  refine (parentEdges_users h.linked hold).bind ?_
  rintro edges g' ⟨rfl, hedges⟩
  exact (redirect_settled hv h (fun e he => (hedges e).1 he) (fun e _ => hD e.parent)
    replacement).bind fun _ _ h => ⟨hedges, h⟩

theorem retireAll_settled (hv : Shape.Respects view) (h : g.SettledBut view D) (ids : List NodeId) :
    Ends (retireAll ids) g anyFault fun _ g' =>
      g'.SettledBut view D ∧ ∀ x, g'.look view x = g.look view x := by
  rcases retireAll_cases h.linked ids with ⟨fault, hf⟩ | ⟨g', hok, hl', hm⟩
  · exact (ends_error hf).2 trivial
  · refine (ends_ok hok).2 ⟨h.maps hv hl' hm (fun x n _ => ?_) fun x n _ => ?_,
      hm.look_eq fun x n _ => ?_⟩
    · split <;> exact ⟨rfl, rfl⟩
    · split
      · exact .inr (.inl rfl)
      · exact .inr (.inr (.of_eq rfl))
    · split <;> rfl

theorem refresh_seen (hv : Shape.Respects view) (h : g.SettledBut view D) {c : NodeId}
    (hc : ¬ D c) : Ends (refresh c) g anyFault fun _ g' => g'.SettledBut view D ∧
      ∀ x, g'.look view x = g.look view x := by
  rcases live_cases c g with ⟨fault, hf⟩ | ⟨n, hn, hr, -⟩
  · have hrun : refresh c g = .error fault g := bind_error hf
    exact (ends_error hrun).2 trivial
  obtain ⟨s, hs, hview⟩ := (h.settled c).resolve_left hc n hn hr
  have hm := maps_modify g c (f := fun m => { m with shape := s }) fun _ => rfl
  have hshape : ∀ x m, g.core? x = some m →
      view (if x = c then { m with shape := s } else m).shape = view m.shape := by
    intro x m hx
    split
    · rename_i hxc
      rw [hxc, core?_eq_some hn] at hx
      cases hx
      exact hview
    · rfl
  have hall : g.SettledBut view fun x => D x ∨ x = c := h.mono fun _ => .inl
  have hbut := hall.maps hv (h.linked.setShape c s) hm
    (fun x m hx => ⟨hshape x m hx, by split <;> rfl⟩) fun x m _ => by
      by_cases hxc : x = c
      · exact .inl (.inr hxc)
      · exact .inr (.inr (.of_eq (if_neg hxc)))
  refine (ends_ok (refresh_ok hn hr hs)).2 ⟨⟨hbut.linked, fun x => ?_⟩, hm.look_eq hshape⟩
  rcases hbut.settled x with (hx | rfl) | hx
  · exact .inl hx
  · exact .inr (h.linked.settledAt_resize hn hr hs)
  · exact .inr hx

theorem refreshAll_seen (hv : Shape.Respects view) (h : g.AllSettled view) (edges : List Edge) :
    Ends (edges.forM fun e => refresh e.parent) g anyFault fun _ g' =>
      g'.AllSettled view ∧ ∀ x, g'.look view x = g.look view x := by
  refine ends_forM (I := fun g' : Graph => g'.AllSettled view ∧ ∀ x, g'.look view x = g.look view x)
    ⟨h, fun _ => rfl⟩ fun e _ g₁ hg₁ => ?_
  exact (refresh_seen hv hg₁.1 id).mono fun _ g₂ hg₂ =>
    ⟨hg₂.1, fun x => (hg₂.2 x).trans (hg₁.2 x)⟩

theorem refreshAll_settles (hv : Shape.Respects view) {S : NodeId → Prop} {edges : List Edge}
    (h : g.SettledBut view fun x => D x ∨ S x ∧ ∃ e ∈ edges, e.parent = x)
    (hD : ∀ x y, y ∈ g.sizedBy x → D y ∨ S y → D x) :
    Ends (edges.forM fun e => refresh e.parent) g anyFault fun _ g' => g'.SettledBut view D := by
  induction edges generalizing g with
  | nil => exact h.mono fun x hx => hx.resolve_right (by simp)
  | cons e rest ih =>
    have hsized := refresh_settled hv h e.parent
    by_cases hc : D e.parent ∨ S e.parent
    -- The users of the node may get unsettled, but these are left out anyway.
    · refine hsized.bind fun _ g₁ ⟨h₁, hin⟩ => ih (h₁.mono fun x hx => ?_) fun x y hy => ?_
      · rcases hx with ⟨hx | ⟨hS, e', he', rfl⟩, hne⟩ | hx
        · exact .inl hx
        · rcases List.mem_cons.1 he' with rfl | he'
          · exact absurd rfl hne
          · exact .inr ⟨hS, e', he', rfl⟩
        · exact .inl (hD x _ (hin x ▸ hx) hc)
      · exact hD x y (hin x ▸ hy)
    -- The node is settled, so that its users see no change.
    · rw [not_or] at hc
      have hseen := refresh_seen hv h fun hx => hx.elim hc.1 fun hx => hc.2 hx.1
      refine (hseen.and hsized).bind fun _ g₁ ⟨h₁, _, hin⟩ => ih (h₁.1.mono fun x hx => ?_) ?_
      · refine hx.imp_right fun ⟨hS, e', he', hx⟩ => ⟨hS, e', ?_, hx⟩
        refine (List.mem_cons.1 he').resolve_left fun he => hc.2 ?_
        rw [← he, hx]
        exact hS
      · exact fun x y hy => hD x y (hin x ▸ hy)

end Edit
end LinearPlan
