import LinearPlan.Proofs.SettledRules

/-!
# Shapes of new products

The new nodes of a product are settled when they are added, and moving the uses of the old product
unsettles its users only. If the graph is sound then the new product has the type and the dimensions
of the old one, and it consists of integers if and only if the old one did.
-/
namespace LinearPlan

theorem Number.isSome_toInt?_ofInt (n : Int) : (ofInt n).toInt?.isSome = true := by
  unfold ofInt
  split
  · rfl
  · simp [toInt?]

namespace Shape
variable {node : NodeRef} {own lhs rhs s t : Shape} {op : BinaryOp} {e : Option Int}

theorem ofBinary_valueType (h : ofBinary node op own lhs rhs e = .ok s) :
    s.valueType = binaryValueType op lhs rhs := by
  unfold ofBinary at h
  cases hl : lhs.isMatrix <;> cases hr : rhs.isMatrix <;>
    simp only [hl, hr, if_true, if_false, Bool.false_eq_true] at h
  · split at h <;> cases h <;> rfl
  · cases h
    rfl
  · cases h
    rfl
  · split at h
    · cases h
    · split at h <;> cases h
      rfl

theorem binaryValueType_eq_int64_iff (h : op ≠ .div) : binaryValueType op lhs rhs = .int64 ↔
    lhs.valueType = .int64 ∧ rhs.valueType = .int64 := by
  unfold binaryValueType
  split <;> simp_all

theorem Legal.outline_eq (hs : s.Legal) (ht : t.Legal) (hp : s.profile = t.profile)
    (hv : s.valueType = t.valueType) : s.outline = t.outline := by
  have hm : s.isMatrix = t.isMatrix := by
    rw [Bool.eq_iff_iff, isMatrix_iff, isMatrix_iff, hp]
  have hc : s.isScalar = t.isScalar := by
    rw [Bool.eq_iff_iff, isScalar_iff, isScalar_iff, hp]
  have hd : s.dataType = t.dataType := by
    cases htm : t.isMatrix with
    | true => exact (eq_of_beq (hm.trans htm)).trans (eq_of_beq htm).symm
    | false =>
      cases htc : t.isScalar with
      | true => exact (eq_of_beq (hc.trans htc)).trans (eq_of_beq htc).symm
      | false =>
        -- The profile of what is neither a matrix nor a scalar is its type.
        rw [profile_of_not (hm.trans htm) (hc.trans htc), profile_of_not htm htc] at hp
        rw [(hs.other (hm.trans htm) (hc.trans htc)).2, (ht.other htm htc).2, Profile.other.inj hp]
  refine outline_eq_iff.2 ⟨hd, hv, ?_, ?_⟩
  · rw [hs.rows_eq, ht.rows_eq, hp]
  · rw [hs.cols_eq, ht.cols_eq, hp]

end Shape

theorem Plan.Factors.mono {P P' : Plan} {x : NodeId} {m : Multiset NodeId} (h : P.Factors x m)
    (hP : P'.Extends P) : P'.Factors x m := by
  induction h with
  | leaf hx hm => exact .leaf (hP hx) hm
  | product hx hm hi _ _ iha ihb => exact .product (hP hx) hm hi iha ihb

namespace Graph
variable {g : Graph} {view : Shape → Shape} {x a b : NodeId} {i : Item}

def IsInt (g : Graph) (x : NodeId) : Prop := ∃ n, g.get? x = some n ∧ n.shape.valueType = .int64

theorem isInt_iff {n : Node} (hn : g.get? x = some n) : g.IsInt x ↔ n.shape.valueType = .int64 := by
  constructor
  · rintro ⟨m, hm, hv⟩
    rw [Option.some.inj (hn.symm.trans hm)]
    exact hv
  · exact fun hv => ⟨n, hn, hv⟩

theorem valueType_eq {n m : Node} {y : NodeId} (hn : g.get? x = some n) (hm : g.get? y = some m)
    (h : g.IsInt x ↔ g.IsInt y) : n.shape.valueType = m.shape.valueType := by
  rw [isInt_iff hn, isInt_iff hm] at h
  cases hx : n.shape.valueType <;> cases hy : m.shape.valueType <;> simp_all

theorem SettledAt.ofBinary {op : BinaryOp} (h : g.SettledAt view x) (hl : g.Linked)
    (hx : g.plan x = some i) (hop : i.op = .binary op) (hi : i.inputs = [a, b]) :
    ∃ n na nb s, g.get? x = some n ∧ g.get? a = some na ∧ na.retired = false ∧
      g.get? b = some nb ∧ nb.retired = false ∧ Shape.ofBinary ⟨x, n.op⟩ op n.shape na.shape nb.shape
        nb.op.literalInt? = .ok s ∧ view s = view n.shape := by
  obtain ⟨n, hn, hr, rfl⟩ := get?_of_plan hx
  obtain ⟨s, hs, hview⟩ := h n hn hr
  have hnop : n.op = .binary op := hop
  have hinputs : n.inputs = [a, b] := hi
  obtain ⟨ia, hia⟩ := hl.closed hx a (hi ▸ List.mem_cons_self)
  obtain ⟨ib, hib⟩ := hl.closed hx b (hi ▸ List.mem_cons_of_mem a List.mem_cons_self)
  obtain ⟨na, hna, hra, -⟩ := get?_of_plan hia
  obtain ⟨nb, hnb, hrb, -⟩ := get?_of_plan hib
  refine ⟨n, na, nb, s, hn, hna, hra, hnb, hrb, ?_, hview⟩
  rw [sizeNode_eq (resolves_of_plan (hl.closed hx)) (hl.arity_eq hn hr), hnop, operands, hinputs,
    List.filterMap_cons_some (core?_eq_some hna),
    List.filterMap_cons_some (core?_eq_some hnb)] at hs
  rw [hnop]
  exact hs

theorem SettledAt.isInt_binary {op : BinaryOp} (h : g.SettledAt Shape.outline x) (hl : g.Linked)
    (hx : g.plan x = some i) (hop : i.op = .binary op) (hdiv : op ≠ .div) (hi : i.inputs = [a, b]) :
    g.IsInt x ↔ g.IsInt a ∧ g.IsInt b := by
  obtain ⟨n, na, nb, s, hn, hna, -, hnb, -, hs, hview⟩ := h.ofBinary hl hx hop hi
  have hv := Shape.ofBinary_valueType hs
  rw [(Shape.outline_eq_iff.1 hview).2.1] at hv
  rw [isInt_iff hn, isInt_iff hna, isInt_iff hnb, hv]
  exact Shape.binaryValueType_eq_int64_iff hdiv

theorem SettledAt.isInt_literal {v : Int} (h : g.SettledAt Shape.outline x) (hl : g.Linked)
    (hx : g.plan x = some i) (hop : i.op = .literal (.ofInt v)) : g.IsInt x := by
  obtain ⟨n, hn, hr, rfl⟩ := get?_of_plan hx
  obtain ⟨s, hs, hview⟩ := h n hn hr
  have hnop : n.op = .literal (.ofInt v) := hop
  rw [sizeNode_eq (resolves_of_plan (hl.closed hx)) (hl.arity_eq hn hr), hnop] at hs
  cases hs
  refine (isInt_iff hn).2 ((Shape.outline_eq_iff.1 hview).2.1.symm.trans ?_)
  show (if _ then ValueType.int64 else .float64) = _
  rw [if_pos (Number.isSome_toInt?_ofInt v)]

variable {M m : Multiset NodeId} {s : Int}

theorem isInt_factors (h : g.AllSettled Shape.outline) (hf : g.plan.Factors x m) :
    g.IsInt x ↔ ∀ y ∈ m, g.IsInt y := by
  induction hf with
  | leaf => simp
  | @product x a b i m m' hx hm hi _ _ iha ihb =>
    rw [(h.all x).isInt_binary h.linked hx (Optimizer.Factoring.isMult_iff.1 hm) nofun hi, iha, ihb]
    simp [or_imp, forall_and]

theorem isInt_built (h : g.AllSettled Shape.outline) (hb : g.plan.Built s M x m) :
    g.IsInt x ↔ ∀ y ∈ m, g.IsInt y := by
  induction hb with
  | leaf => simp
  | @power x e leaf i j k hx hs hop hi hleaf hls he hes hj hn =>
    rw [(h.all x).isInt_binary h.linked hx hop nofun hi,
      and_iff_left ((h.all e).isInt_literal h.linked he hj)]
    refine ⟨fun hint y hy => Multiset.eq_of_mem_replicate hy ▸ hint, fun hint => hint leaf ?_⟩
    exact Multiset.mem_replicate.2 ⟨by omega, rfl⟩
  | @product x a b i m m' hx hs hop hi _ _ _ iha ihb =>
    rw [(h.all x).isInt_binary h.linked hx hop nofun hi, iha, ihb]
    simp [or_imp, forall_and]

end Graph

namespace Optimizer
open LinearPlan.Graph

namespace Factoring
variable {g g₁ g₂ g₃ : Graph} {view : Shape → Shape} {D : NodeId → Prop} {I : Graph → Prop}
  {E E' : Fault → Graph → Prop} {M : Multiset NodeId} {op : Op} {inputs : List NodeId}
  {id root : NodeId} {t : Tree} {edges : List Edge}

structure Settling (I : Graph → Prop) (view : Shape → Shape) (D : NodeId → Prop) (g₀ g : Graph) :
    Prop where
  inv : I g
  settled : g.SettledBut view D
  retains : g₀.Retains g

theorem Stage.imp {I' : Graph → Prop} (h : Stage I g M g₁) (hI : I g₁ → I' g₁) : Stage I' g M g₁ :=
  ⟨hI h.inv, h.ops, h.size_le, h.old, h.fresh, h.terms⟩

theorem Adding.settled (h : Adding I E g₁ op inputs) (hv : Shape.Respects view)
    (hs : Settling I view D g g₁) (ha : needsArity op = false → op.arity? = some inputs.length) :
    Adding (Settling I view D g) E g₁ op inputs := by
  refine (h.and_any (Edit.addNode_settled hv hs.settled op inputs ha)).mono ?_
  rintro x g₂ ⟨⟨hx, hI, hadds⟩, hset, hret⟩
  exact ⟨hx, ⟨hI, hset, hs.retains.trans hret⟩, hadds⟩

theorem Builds.settled (hB : Builds I E E' g M) (hv : Shape.Respects view) :
    Builds (Settling I view D g) E E' g M where
  item := hB.item
  literal h := (hB.literal (h.imp Settling.inv)).settled hv h.inv fun _ => rfl
  pow h hmem he := (hB.pow (h.imp Settling.inv) hmem he).settled hv h.inv nofun
  mult h ha hb hle := (hB.mult (h.imp Settling.inv) ha hb hle).settled hv h.inv nofun
  undo := hB.undo

theorem Prepared.imp {I' : Graph → Prop} (h : Prepared I g id t M root g₁) (hI : I g₁ → I' g₁) :
    Prepared I' g id t M root g₁ :=
  ⟨h.ordered, h.linked, h.collected, h.repeated, h.inner, h.stage.imp hI, h.built⟩

namespace Replacing

theorem sizedBy_old (h : Replacing I g id t M root edges g₁ g₂ g₃) {x : NodeId}
    (hx : id ∈ g₁.sizedBy x) : id ∈ g.sizedBy x := by
  have hmem := mem_inputsOf_of_sizedBy hx
  obtain ⟨n, hn, hr⟩ := h.prepared.linked.user_live hmem
  have hp := plan_eq_some hn hr
  rw [inputsOf_of_plan hp] at hmem
  rcases lt_or_ge (x : Int) g.size with hlt | hnew
  · rw [sizedBy_of_plan hp] at hx
    rw [h.prepared.stage.old x hlt] at hp
    rwa [sizedBy_of_plan hp]
  · obtain ⟨j, hj, hf⟩ := h.prepared.stage.fresh x hnew (range_of_plan hp).2
    rw [hp] at hj
    cases hj
    exact absurd hmem (h.prepared.not_mem_fresh hf)

theorem settled (h : Replacing (Settling I view D g) g id t M root edges g₁ g₂ g₃)
    (hv : Shape.Respects view) :
    g₃.SettledBut view (fun x => D x ∨ id ∈ g.sizedBy x) ∧
      (∀ x, g₃.look view x = g₁.look view x) ∧ ∀ e, e ∈ edges ↔ g₁.Holds e id := by
  obtain ⟨i, hi, -⟩ := h.prepared.inside.product
  have hbut : g₁.SettledBut view fun x => D x ∨ id ∈ g.sizedBy x :=
    h.prepared.stage.inv.settled.mono fun _ => .inl
  obtain ⟨hedges, h₂, hlook₂⟩ := (ends_ok h.moved).1 (Edit.redirectParents_settled hv hbut
    (h.prepared.stage.extends hi) (fun x hx => .inr (h.sizedBy_old hx)) root)
  obtain ⟨h₃, hlook₃⟩ := (ends_ok h.retired).1 (Edit.retireAll_settled hv h₂ t.interior)
  exact ⟨h₃, fun x => (hlook₃ x).trans (hlook₂ x), hedges⟩

end Replacing

theorem Prepared.outline_eq (h : Prepared (Settling Sound Shape.outline (fun _ => False) g) g id t M
    root g₁) (hs : g.Sound) : g₁.look Shape.outline root = g₁.look Shape.outline id := by
  have hinv := h.stage.inv
  obtain ⟨i, j, hi, hj, halike⟩ := (h.imp Settling.inv).alike hs
  obtain ⟨n, hn, hr, rfl⟩ := get?_of_plan hi
  obtain ⟨k, hk, hkr, rfl⟩ := get?_of_plan hj
  -- All that the profile does not show is whether the values are integers.
  have hfactors : g₁.plan.Factors id M := h.collected.factors.mono h.stage.extends
  have hint : g₁.IsInt root ↔ g₁.IsInt id := by
    rw [isInt_built hinv.settled h.built, isInt_factors hinv.settled hfactors]
  have hlegal := fun {x : NodeId} {n : Node} => hinv.inv.legal_of_get? (x := x) (n := n)
  rw [look_eq_some hn, look_eq_some hk]
  exact congrArg some ((hlegal hk hkr).outline_eq (hlegal hn hr) halike.profile.symm
    (valueType_eq hk hn hint))

theorem Replacing.outline (h : Replacing (Settling Sound Shape.outline (fun _ => False) g) g id t M
    root edges g₁ g₂ g₃) (hs : g.Sound) (hset : g.AllSettled Shape.outline) :
    g₃.AllSettled Shape.outline := by
  obtain ⟨hbut, hlook, -⟩ := h.settled Shape.respects_outline
  have hold := h.prepared.stage.inv.retains
  obtain ⟨i, hi, -⟩ := h.prepared.inside.product
  have hsame : Seamless Shape.outline g id root (g.plan.Inside id) g₃ := by
    refine ⟨fun hx _ => (hlook _).trans (hold.look_eq hx), ?_⟩
    rw [hlook, h.prepared.outline_eq hs, hold.look_eq hi]
  exact Rework.settledBut (.factor h.refactored) Shape.respects_outline hs.ordered hset
    ⟨False.elim, fun _ hx => hx⟩ (fun _ => hsame) hbut

theorem factor_outline {p : Pass} (hs : p.graph.Sound) (hset : p.graph.AllSettled Shape.outline)
    (hc : Collected p.graph id t M) (hf : t.isFactorable p.graph = true) :
    Ends (factor id t) p (fun _ _ => True) fun _ p' => p'.graph.AllSettled Shape.outline := by
  have hB := (builds_sound (hc.factorable hs)).settled (D := fun _ => False) Shape.respects_outline
  refine factor_steps hs.ordered (fun hI => hI.inv.toLinked) hB ⟨hs, hset, fun _ _ hx => hx⟩ hc hf
    (fun _ _ _ => trivial) fun hstep _ _ _ => ?_
  exact (refreshAll_refits Shape.respects_outline (hstep.outline hs hset) hstep.users).mono
    fun _ _ hfit _ => hfit.settled

end Factoring

theorem Standard.apply_outline {r : Rule} (hr : Standard r) {p : Pass} (hs : p.graph.Sound)
    (hset : p.graph.AllSettled Shape.outline) (id : NodeId) :
    Ends (r.apply id) p (fun _ _ => True) fun _ p' =>
      p'.graph.Sound ∧ p'.graph.AllSettled Shape.outline := by
  rcases hr with rfl | ⟨axes, rfl⟩
  · refine Factoring.apply_steps hs.ordered id (fun _ => ⟨hs, hset⟩) (fun _ _ => trivial)
      fun hc hf => ?_
    obtain ⟨root, p', hrun, happ⟩ := Factoring.factor_ok hs hc hf
    have hset' := (ends_ok hrun).1 (Factoring.factor_outline hs hset hc hf)
    exact (ends_ok hrun).2 ⟨happ.step.sound, hset'⟩
  · refine Slicing.apply_steps hs.ordered axes id (fun _ => ⟨hs, hset⟩) (fun _ _ => trivial)
      fun {m n} hm => ?_
    obtain ⟨g', hrun, hstep⟩ :=
      Slicing.mergeChain_ok hs (hm.applies hs.toTyped) hm.start hm.measured
    obtain ⟨g₅, -, hfit⟩ := (ends_ok hrun).1 (Slicing.mergeChain_settled Shape.respects_outline hset
      hs.ordered hm.chained hm.start hm.measured hm.whole)
    exact (ends_ok hrun).2 fun _ => ⟨hstep.sound, hfit.settled⟩

end Optimizer
end LinearPlan
