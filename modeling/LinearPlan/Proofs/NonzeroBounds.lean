import LinearPlan.Proofs.ProductValues
import LinearPlan.Proofs.ValueShapes
import Mathlib.Data.Fintype.Prod

/-!
# Bounds on non-zero entries

The shape of a matrix may have a bound on its non-zero entries. Where zeros absorb, the entries that
a product or a power can keep from being zero are those of its operands, so a bound is handed on from
operands to results.

A product takes its bound from the operands that have the size of the result. Sizes are compared as
they are stored, and two unknown dimensions count as equal: an operand that is repeated along such a
dimension has more non-zero entries in the result than it has itself. Bounds are right for all values
that keep clear of this.
-/
namespace LinearPlan

/-- Elements whose zeros absorb other factors and stay under positive integral exponents. -/
class ZeroElement (α : Type) [Element α] : Prop where
  isZero_mul_left {a : α} (h : Element.isZero a = true) (b : α) :
    Element.isZero (Element.mul a b) = true
  isZero_mul_right (a : α) {b : α} (h : Element.isZero b = true) :
    Element.isZero (Element.mul a b) = true
  isZero_pow {a b : α} {n : Int} (h : Element.isZero a = true) (hb : Element.toInt? b = some n)
    (hn : 0 < n) : Element.isZero (Element.pow a b) = true

instance : ZeroElement Int where
  isZero_mul_left {a} h b := by
    obtain rfl : a = 0 := eq_of_beq h
    show ((0 : Int) * b == 0) = true
    simp
  isZero_mul_right a {b} h := by
    obtain rfl : b = 0 := eq_of_beq h
    show (a * (0 : Int) == 0) = true
    simp
  isZero_pow {a b n} h hb hn := by
    obtain rfl : a = 0 := eq_of_beq h
    obtain rfl : b = n := Option.some.inj hb
    show ((0 : Int) ^ b.toNat == 0) = true
    rw [zero_pow (by omega)]
    rfl

namespace Matrix
variable {α : Type} [Element α]

def nonzeros (m : Matrix α) : Nat :=
  (Finset.univ.filter fun c : Fin m.rows × Fin m.cols =>
    Element.isZero (m.get c.1 c.2) = false).card

/-- A matrix has at most as many non-zero entries as another one, if its cells are cells of the other
one and zeros stay. -/
theorem nonzeros_le {a b : Matrix α} (cell : Fin a.rows × Fin a.cols → Fin b.rows × Fin b.cols)
    (hcell : Function.Injective cell)
    (h : ∀ i j, Element.isZero (b.get (cell (i, j)).1 (cell (i, j)).2) = true →
      Element.isZero (a.get i j) = true) : a.nonzeros ≤ b.nonzeros := by
  refine Finset.card_le_card_of_injOn cell (fun c hc => ?_) hcell.injOn
  have ha : Element.isZero (a.get c.1 c.2) = false := (Finset.mem_filter.1 hc).2
  have hb : Element.isZero (b.get (cell c).1 (cell c).2) = false := by
    refine Bool.eq_false_iff.2 fun hb => ?_
    rw [h c.1 c.2 hb] at ha
    cases ha
  exact Finset.mem_filter.2 ⟨Finset.mem_univ _, hb⟩

theorem nonzeros_transpose_le (m : Matrix α) : m.transpose.nonzeros ≤ m.nonzeros :=
  nonzeros_le Prod.swap Prod.swap_injective fun i j hm =>
    (congrArg Element.isZero (get_transpose m i j)).trans hm

omit [Element α] in
theorem element?_get (m : Matrix α) (i : Fin m.rows) (j : Fin m.cols) :
    (Value.matrix m).element? i j = some (m.get i j) := by
  rw [Value.element?_matrix i.pos j.pos]
  simp only [cyclic, Nat.mod_eq_of_lt i.isLt, Nat.mod_eq_of_lt j.isLt]

end Matrix

/-- The number of non-zero entries; a scalar has no entries. -/
def Value.nonzeros {α : Type} [Element α] : Value α → Nat
  | .scalar _ => 0
  | .matrix m => m.nonzeros

theorem Value.nonzeros_le {α : Type} [Element α] {v w : Value α} (hdims : v.dims? = w.dims?)
    (h : ∀ i j x y, w.element? i j = some x → v.element? i j = some y →
      Element.isZero x = true → Element.isZero y = true) : v.nonzeros ≤ w.nonzeros := by
  cases v with
  | scalar a => exact Nat.zero_le _
  | matrix a =>
    cases w with
    | scalar b => cases hdims
    | matrix b =>
      obtain ⟨hr, hc⟩ := Prod.mk.inj (Option.some.inj hdims)
      refine Matrix.nonzeros_le (Prod.map (Fin.cast hr) (Fin.cast hc))
        ((Fin.cast_injective hr).prodMap (Fin.cast_injective hc)) fun i j hb => ?_
      exact h i j _ _ (b.element?_get (i.cast hr) (j.cast hc)) (a.element?_get i j) hb

namespace Shape

def Bounds {α : Type} [Element α] (s : Shape) (v : Value α) : Prop :=
  0 ≤ s.nnz → (v.nonzeros : Int) ≤ s.nnz

def Spans {α : Type} (s t : Shape) (m k : Matrix α) : Prop :=
  (s.rows < 0 → t.rows < 0 → k.rows = m.rows ∨ k.rows = 1) ∧
    (s.cols < 0 → t.cols < 0 → k.cols = m.cols ∨ k.cols = 1)

theorem isFull_iff {rows cols : Int} {s : Shape} : s.isFull rows cols = true ↔
    s.isMatrix = true ∧ s.rows = rows ∧ s.cols = cols := by
  simp [isFull, and_assoc]

theorem multNnz_eq {rows cols : Int} {lhs rhs : Shape} (h : 0 ≤ multNnz rows cols lhs rhs) :
    ∃ s, (s = lhs ∨ s = rhs) ∧ isFull rows cols s = true ∧ s.nnz = multNnz rows cols lhs rhs := by
  unfold multNnz at h ⊢
  cases hl : isFull rows cols lhs <;> cases hr : isFull rows cols rhs <;>
    simp only [List.filter_cons, List.filter_nil, hl, hr, if_true, if_false, Bool.false_eq_true] at h ⊢
  · omega
  · refine ⟨rhs, .inr rfl, hr, ?_⟩
    split at h <;> omega
  · refine ⟨lhs, .inl rfl, hl, ?_⟩
    split at h <;> omega
  · split at h
    · omega
    · rcases min_choice lhs.nnz rhs.nnz with hmin | hmin
      · exact ⟨lhs, .inl rfl, hl, by omega⟩
      · exact ⟨rhs, .inr rfl, hr, by omega⟩

/-- An operand with a dimension of the result is not repeated along it, unless the dimension is known
of neither operand. -/
theorem dim_of_full {a b d : Int} {m n k : Nat} (hd : broadcast? a b = some d)
    (hk : Matrix.commonDim? m n = some k) (ha : 0 ≤ a → a = m) (hb : 0 ≤ b → b = n) :
    (a = d → (a < 0 → b < 0 → n = m ∨ n = 1) → k = m) ∧
      (b = d → (b < 0 → a < 0 → m = n ∨ m = 1) → k = n) := by
  unfold broadcast? at hd
  unfold Matrix.commonDim? at hk
  grind

theorem ofBinary_inv {node : NodeRef} {op : BinaryOp} {own lhs rhs s : Shape} {e : Option Int}
    (h : ofBinary node op own lhs rhs e = .ok s) (hs : 0 ≤ s.nnz) :
    s.nnz = binaryNnz op s.rows s.cols lhs rhs e ∧ (lhs.isMatrix = true → rhs.isMatrix = true →
      broadcast? lhs.rows rhs.rows = some s.rows ∧ broadcast? lhs.cols rhs.cols = some s.cols) := by
  unfold ofBinary at h
  dsimp only at h
  split at h
  · split at h
    · split at h
      · cases h
      · rename_i hrows
        split at h
        · cases h
        · rename_i hcols
          cases h
          exact ⟨rfl, fun _ _ => ⟨hrows, hcols⟩⟩
    · rename_i hr
      cases h
      exact ⟨rfl, fun _ h => absurd h hr⟩
  · rename_i hl
    split at h
    · cases h
      exact ⟨rfl, fun h _ => absurd h hl⟩
    · split at h <;> cases h <;> cases hs

theorem exists_matrix_of_admits {α : Type} {s : Shape} {v : Value α} (hs : s.isMatrix = true)
    (h : s.profile.Admits v) : ∃ m, v = .matrix m := by
  rw [profile_of_isMatrix hs] at h
  cases v with
  | scalar a => cases h
  | matrix m => exact ⟨m, rfl⟩

theorem isMatrix_of_admits {α : Type} {s : Shape} {m : Matrix α} (h : s.profile.Admits (.matrix m)) :
    s.isMatrix = true := by
  obtain ⟨r, c, hp, -⟩ := h.matrix
  exact isMatrix_iff.2 ⟨r, c, hp⟩

end Shape

structure Shape.Fits {α : Type} [Element α] (s : Shape) (v : Value α) : Prop where
  legal : s.Legal
  admits : s.profile.Admits v
  bounds : s.Bounds v

namespace Eval
variable {α : Type} [Element α] {node ref : NodeRef} {lhs rhs own s : Shape} {op : BinaryOp}
  {f : α → α → α} {a b v : Value α} {e : Option Int}

theorem dims_of_full (hs : Shape.ofBinary ref op own lhs rhs e = .ok s) (hnn : 0 ≤ s.nnz)
    (ha : lhs.Fits a) (hb : rhs.Fits b) (h : elementwise node f a b = .ok v)
    (hspan : ∀ m k, a = .matrix m → b = .matrix k →
      (lhs.isFull s.rows s.cols = true → lhs.Spans rhs m k) ∧
        (rhs.isFull s.rows s.cols = true → rhs.Spans lhs k m)) :
    (lhs.isFull s.rows s.cols = true → v.dims? = a.dims?) ∧
      (rhs.isFull s.rows s.cols = true → v.dims? = b.dims?) := by
  obtain ⟨-, hdims⟩ := Shape.ofBinary_inv hs hnn
  obtain ⟨hfit, -⟩ := entry_elementwise h
  cases a with
  | scalar a =>
    refine ⟨fun hl => ?_, fun _ => (Value.Fits.symm hfit).eq⟩
    obtain ⟨m, hm⟩ := Shape.exists_matrix_of_admits (Shape.isFull_iff.1 hl).1 ha.admits
    cases hm
  | matrix m =>
    cases b with
    | scalar b =>
      refine ⟨fun _ => hfit.eq, fun hr => ?_⟩
      obtain ⟨k, hk⟩ := Shape.exists_matrix_of_admits (Shape.isFull_iff.1 hr).1 hb.admits
      cases hk
    | matrix k =>
      obtain ⟨w, rfl, hwr, hwc⟩ := zip_dims h
      obtain ⟨hbr, hbc⟩ := hdims (Shape.isMatrix_of_admits ha.admits)
        (Shape.isMatrix_of_admits hb.admits)
      have hda := Shape.dims_of_admits ha.legal ha.admits
      have hdb := Shape.dims_of_admits hb.legal hb.admits
      have hrows := Shape.dim_of_full hbr hwr hda.1 hdb.1
      have hcols := Shape.dim_of_full hbc hwc hda.2 hdb.2
      obtain ⟨hleft, hright⟩ := hspan m k rfl rfl
      refine ⟨fun hl => ?_, fun hr => ?_⟩
      · obtain ⟨-, hr, hc⟩ := Shape.isFull_iff.1 hl
        exact congrArg some (Prod.ext (hrows.1 hr (hleft hl).1) (hcols.1 hc (hleft hl).2))
      · obtain ⟨-, hr', hc⟩ := Shape.isFull_iff.1 hr
        exact congrArg some (Prod.ext (hrows.2 hr' (hright hr).1) (hcols.2 hc (hright hr).2))

variable [ZeroElement α]

theorem bounds_mult (hs : Shape.ofBinary ref .mult own lhs rhs e = .ok s) (ha : lhs.Fits a)
    (hb : rhs.Fits b) (hspan : 0 ≤ s.nnz → ∀ m k, a = .matrix m → b = .matrix k →
      (lhs.isFull s.rows s.cols = true → lhs.Spans rhs m k) ∧
        (rhs.isFull s.rows s.cols = true → rhs.Spans lhs k m))
    (h : elementwise node Element.mul a b = .ok v) : s.Bounds v := by
  intro hnn
  obtain ⟨hnnz, -⟩ := Shape.ofBinary_inv hs hnn
  obtain ⟨hleft, hright⟩ := dims_of_full hs hnn ha hb h (hspan hnn)
  obtain ⟨-, hentry⟩ := entry_elementwise h
  obtain ⟨t, rfl | rfl, hfull, ht⟩ := Shape.multNnz_eq (hnnz ▸ hnn)
  · have hle : v.nonzeros ≤ a.nonzeros := by
      refine Value.nonzeros_le (hleft hfull) fun i j x y hx hy hzero => ?_
      rw [hentry, hx] at hy
      obtain ⟨_, z, hx', -, rfl⟩ := Option.map₂_eq_some_iff.1 hy
      cases hx'
      exact ZeroElement.isZero_mul_left hzero z
    have hnnz : s.nnz = t.nnz := hnnz.trans ht.symm
    have hm := ha.bounds (hnnz ▸ hnn)
    omega
  · have hle : v.nonzeros ≤ b.nonzeros := by
      refine Value.nonzeros_le (hright hfull) fun i j x y hx hy hzero => ?_
      rw [hentry, hx] at hy
      obtain ⟨z, _, -, hx', rfl⟩ := Option.map₂_eq_some_iff.1 hy
      cases hx'
      exact ZeroElement.isZero_mul_right z hzero
    have hnnz : s.nnz = t.nnz := hnnz.trans ht.symm
    have hk := hb.bounds (hnnz ▸ hnn)
    omega

theorem bounds_pow (hs : Shape.ofBinary ref .pow own lhs rhs e = .ok s) (ha : lhs.Fits a)
    (he : ∀ n, e = some n → b.index? = some n) (h : elementwise node Element.pow a b = .ok v) :
    s.Bounds v := by
  intro hnn
  obtain ⟨hnnz, -⟩ := Shape.ofBinary_inv hs hnn
  obtain ⟨hfit, hentry⟩ := entry_elementwise h
  cases e with
  | none =>
    simp only [Shape.binaryNnz, Shape.powNnz] at hnnz
    omega
  | some n =>
    by_cases hpos : 0 < n ∧ lhs.isMatrix = true
    · simp only [Shape.binaryNnz, Shape.powNnz, if_pos hpos] at hnnz
      have hread := he n rfl
      cases b with
      | matrix k => cases hread
      | scalar b =>
        have hle : v.nonzeros ≤ a.nonzeros := by
          refine Value.nonzeros_le hfit.eq fun i j x y hx hy hzero => ?_
          rw [hentry, hx] at hy
          cases hy
          exact ZeroElement.isZero_pow hzero hread hpos.1
        have hm := ha.bounds (hnnz ▸ hnn)
        omega
    · simp only [Shape.binaryNnz, Shape.powNnz, if_neg hpos] at hnnz
      omega

theorem bounds_apply {inputs : Inputs α} {x : NodeId} {op : Op} {ms : List Node}
    {vs : List (Value α)} (hs : Shape.sizeFrom ref own op ms = .ok s)
    (hdata : op = .data op.name → inputs op.name = some v → own.Bounds v)
    (hvs : List.Forall₂ (fun m u => m.shape.Fits u ∧ m.item.Describes u) ms vs)
    (hspan : op = .binary .mult → 0 ≤ s.nnz → ∀ lhs rhs m k, ms = [lhs, rhs] →
      vs = [.matrix m, .matrix k] →
      (lhs.shape.isFull s.rows s.cols = true → lhs.shape.Spans rhs.shape m k) ∧
        (rhs.shape.isFull s.rows s.cols = true → rhs.shape.Spans lhs.shape k m))
    (h : apply inputs ⟨x, op⟩ own vs = .ok v) : s.Bounds v := by
  have hunknown : s.nnz = -1 → s.Bounds v := fun hnnz hnn => by omega
  cases op with
  | data name =>
    cases hs
    exact hdata rfl (eq_some_of_data h)
  | literal value =>
    cases hs
    exact hunknown rfl
  | write name =>
    rcases hvs with _ | ⟨hx, -⟩
    · cases hs
    · cases hs
      cases h
      exact hx.1.bounds
  | unary op =>
    cases hs
    exact hunknown rfl
  | binary op =>
    rcases hvs with _ | ⟨ha, _ | ⟨hb, _ | _⟩⟩
    · cases hs
    · cases hs
    · obtain ⟨f, hf, hv⟩ := binary_eq_ok_iff.1 h
      cases op with
      | mult =>
        cases hf
        refine bounds_mult hs ha.1 hb.1 (fun hnn m k hm hk => ?_) hv
        subst hm hk
        exact hspan rfl hnn _ _ m k rfl rfl
      | pow =>
        cases hf
        exact bounds_pow hs ha.1 hb.2.literal hv
      | _ =>
        intro hnn
        have hnnz := (Shape.ofBinary_inv hs hnn).1
        simp only [Shape.binaryNnz] at hnnz
        omega
    · cases hs
  | matMul =>
    rcases hvs with _ | ⟨ha, _ | ⟨hb, _ | _⟩⟩
    all_goals try cases hs
    simp only [Shape.sizeFrom, Shape.ofMatMul] at hs
    split at hs
    · cases hs
    · split at hs
      · cases hs
      · cases hs
        exact hunknown rfl
  | transpose =>
    rcases hvs with _ | ⟨hx, _ | _⟩
    · cases hs
    · rename_i m u
      cases hs
      cases h
      cases u with
      | scalar a => exact hx.1.bounds
      | matrix k => exact fun hnn => (Int.ofNat_le.2 k.nonzeros_transpose_le).trans (hx.1.bounds hnn)
    · cases hs
  | indexing flags =>
    rcases hvs with _ | ⟨-, _ | ⟨-, _ | ⟨-, _ | ⟨-, _ | ⟨-, _ | _⟩⟩⟩⟩⟩
    all_goals try cases hs
    exact hunknown rfl
  | leftIndexing flags =>
    rcases hvs with _ | _
    · cases hs
    · cases hs
      exact hunknown rfl
  | chain kind threads =>
    rcases hvs with _ | _
    · cases hs
    · cases hs
      exact hunknown rfl
  | unknown code => cases hs

end Eval

namespace Graph
variable {α : Type} [Element α] {g : Graph} {inputs : Inputs α}
  {x : NodeId} {n : Node} {v : Value α}

/-- The matrices given for variables keep to the bounds that are declared. -/
def Bounded (g : Graph) (inputs : Inputs α) : Prop :=
  ∀ x n v, g.get? x = some n → n.retired = false → n.op = .data n.op.name →
    inputs n.op.name = some v → n.shape.Bounds v

/-- Where a product has a bound, an operand with the size of the product is not repeated along a
dimension that is known of neither operand. -/
def Unrepeated (g : Graph) (inputs : Inputs α) : Prop :=
  ∀ x n a b m k, g.get? x = some n → n.retired = false → n.op = .binary .mult → 0 ≤ n.shape.nnz →
    g.operands n = [a, b] → List.Forall₂ (g.HasValue inputs) n.inputs [.matrix m, .matrix k] →
    (a.shape.isFull n.shape.rows n.shape.cols = true → a.shape.Spans b.shape m k) ∧
      (b.shape.isFull n.shape.rows n.shape.cols = true → b.shape.Spans a.shape k m)

theorem Refreshed.sizeFrom_ok (hs : g.Refreshed) (hn : g.get? x = some n) (hr : n.retired = false)
    (hres : g.Resolves n) :
    Shape.sizeFrom ⟨x, n.op⟩ n.shape n.op (g.operands n) = .ok n.shape := by
  have hsize := hs.sizeNode_eq hn hr
  cases hop : needsArity n.op with
  | true => rwa [Graph.sizeNode_eq hres (arity_of_sizeNode hsize hop)] at hsize
  | false =>
    rw [sizeNode, hop] at hsize
    unfold sizeOperands at hsize
    cases hnop : n.op with
    | data name => rfl
    | literal value =>
      rw [hnop] at hsize
      exact hsize
    | _ =>
      rw [hnop] at hop
      cases hop

section Zeros
variable [ZeroElement α]

theorem fits_of_hasValue (hs : g.Refreshed) (hd : g.Numeric) (hl : g.ReadsLiterals α)
    (hh : g.Honest inputs) (hin : ∀ name u, inputs name = some u → u.Within (2 ^ 63))
    (hb : g.Bounded inputs) (hu : g.Unrepeated inputs) (h : g.HasValue inputs x v) :
    ∀ n, g.get? x = some n → n.shape.Fits v := by
  refine h.induct (motive := fun x v => ∀ n, g.get? x = some n → n.shape.Fits v)
    fun {x n vs v} hn hr hval hvs happ => ?_
  intro n' hn'
  rw [hn] at hn'
  cases hn'
  have hdescribes : ∀ {y m u}, g.HasValue inputs y u → g.get? y = some m →
      m.shape.Legal ∧ m.item.Describes u := fun hy hm => by
    obtain ⟨hlegal, hdesc, -⟩ := describes_of_hasValue hs hd hl hh hin hy _ hm
    exact ⟨hlegal, hdesc⟩
  have hops : List.Forall₂ (fun m u => m.shape.Fits u ∧ m.item.Describes u) (g.operands n) vs :=
    forall₂_operands hval (List.Forall₂.mp (fun y u hyval hy m hm =>
      ⟨hy m hm, (hdescribes hyval hm).2⟩) hval hvs)
  have hres := resolves_of_hasValue hval
  obtain ⟨hlegal, hdesc⟩ := hdescribes (hasValue_iff.2 ⟨n, vs, hn, hr, hval, happ⟩) hn
  refine ⟨hlegal, hdesc.profile, Eval.bounds_apply (hs.sizeFrom_ok hn hr hres)
    (hb x n v hn hr) hops (fun hop hnn a b m k hab hmk => ?_) happ⟩
  exact hu x n a b m k hn hr hop hnn hab (hmk ▸ hval)

/-- The bound of a matrix node is right, unless a product repeats an operand along a dimension that is
known of neither operand and takes its bound for that of the product. -/
theorem nonzeros_le_nnz (hs : g.Refreshed) (hd : g.Numeric) (hl : g.ReadsLiterals α)
    (hh : g.Honest inputs) (hin : ∀ name u, inputs name = some u → u.Within (2 ^ 63))
    (hb : g.Bounded inputs) (hu : g.Unrepeated inputs) (hx : g.get? x = some n)
    (ht : n.shape.dataType = .matrix) (hn : 0 ≤ n.shape.nnz)
    (h : g.evaluate inputs [x] = .ok [v]) :
    ∃ m, v = .matrix m ∧ (m.nonzeros : Int) ≤ n.shape.nnz := by
  obtain ⟨hv, -⟩ := List.forall₂_cons.1 (hasValue_of_evaluate h)
  have hfits := fits_of_hasValue hs hd hl hh hin hb hu hv n hx
  obtain ⟨m, rfl⟩ := Shape.exists_matrix_of_admits (by rw [Shape.isMatrix, ht]; rfl) hfits.admits
  exact ⟨m, rfl, hfits.bounds hn⟩

end Zeros

theorem bounded_of_ids (h : ∀ x ∈ g.ids, ∀ n ∈ g.get? x, n.op = .data n.op.name →
    ∀ v ∈ inputs n.op.name, 0 ≤ n.shape.nnz → (v.nonzeros : Int) ≤ n.shape.nnz) : g.Bounded inputs :=
  fun x n v hn _ hop hv => h x (mem_ids.2 (range_of_get? hn)) n hn hop v hv

def sameDims : Except (EvalFault α) (List (Value α)) → Bool
  | .ok [a, b] => decide (a.dims? = b.dims?)
  | _ => true

theorem unrepeated_of_sameDims (ha : g.plan.Acyclic) (h : ∀ x ∈ g.ids, ∀ n ∈ g.get? x,
    n.op = .binary .mult → sameDims (g.evaluate inputs n.inputs) = true) : g.Unrepeated inputs := by
  intro x n a b m k hn _ hop _ _ hval
  have hdims := h x (mem_ids.2 (range_of_get? hn)) n hn hop
  rw [(evaluate_eq_ok_iff ha).2 hval] at hdims
  obtain ⟨hr, hc⟩ := Prod.mk.inj (Option.some.inj (of_decide_eq_true hdims))
  exact ⟨fun _ => ⟨fun _ _ => .inl hr.symm, fun _ _ => .inl hc.symm⟩,
    fun _ => ⟨fun _ _ => .inl hr, fun _ _ => .inl hc⟩⟩

theorem readsLiterals_int (h : ∀ x ∈ g.ids, ∀ n ∈ g.get? x, n.op.kind = .literal →
    n.op.literalInt?.isSome = true) : g.ReadsLiterals Int := by
  intro x n value hn hop
  have hsome := h x (mem_ids.2 (range_of_get? hn)) n hn (by rw [hop]; rfl)
  rw [hop] at hsome
  obtain ⟨k, hk⟩ := Option.isSome_iff_exists.1 hsome
  have hk : value.toInt? = some k := hk
  show some (value.toInt?.getD 0) = value.toInt?
  rw [hk, Option.getD_some]

def scaledSquare : Graph :=
  (Graph.empty "g").afterCalls [.matrix "A" (-1) 3 2, .matrix "B" (-1) 3 4, .literal (.ofInt 2),
    .binary .pow 0 2, .mult 3 1, .transpose 4]

def scaledSquareInputs : Inputs Int where
  lookup name :=
    if name = "A" then some (.matrix (.ofFn 2 3 fun i j => if i.val = j.val then 3 else 0))
    else if name = "B" then some (.matrix (.ofFn 2 3 fun i j => i.val * (j.val + 1) + j.val % 2))
    else none
  processors := 4

theorem nonzeros_le_nnz_scaledSquare :
    scaledSquare.Bounded scaledSquareInputs ∧ scaledSquare.Unrepeated scaledSquareInputs ∧
    (scaledSquare.get? 5).map (fun n => (n.shape.dataType, n.shape.nnz)) = some (.matrix, 2) ∧
    scaledSquare.evaluate scaledSquareInputs [5] =
      .ok [.matrix (.ofFn 3 2 fun i j => if i.val = 1 ∧ j.val = 1 then 27 else 0)] ∧
    (Matrix.ofFn 3 2 fun i j => if i.val = 1 ∧ j.val = 1 then (27 : Int) else 0).nonzeros ≤ 2 := by
  have hcheck : scaledSquare.check = .ok () := by decide +kernel
  have hin : ∀ name u, scaledSquareInputs name = some u → u.Within (2 ^ 63) :=
    Value.within_of_ite (by decide) (by decide)
  have hbounded : scaledSquare.Bounded scaledSquareInputs := bounded_of_ids (by decide +kernel)
  have hdims : scaledSquare.Unrepeated scaledSquareInputs :=
    unrepeated_of_sameDims (check_eq_ok_iff.1 hcheck).2 (by decide +kernel)
  have hval : scaledSquare.evaluate scaledSquareInputs [5] =
      .ok [.matrix (.ofFn 3 2 fun i j => if i.val = 1 ∧ j.val = 1 then 27 else 0)] := by
    decide +kernel
  have hshape : (scaledSquare.get? 5).map (fun n => (n.shape.dataType, n.shape.nnz)) =
      some (.matrix, 2) := by decide +kernel
  obtain ⟨n, hn, hs⟩ := Option.map_eq_some_iff.1 hshape
  obtain ⟨ht, hnnz⟩ := Prod.mk.inj hs
  obtain ⟨m, hm, hle⟩ := nonzeros_le_nnz (refreshed_of_settled (by decide +kernel))
    (numeric_of_ids (by decide +kernel)) (readsLiterals_int (by decide +kernel))
    (honest_of_sameBounds (by decide +kernel)) hin hbounded hdims hn ht (by omega) hval
  cases hm
  exact ⟨hbounded, hdims, hshape, hval, by omega⟩

def looseProduct : Graph :=
  (Graph.empty "g").afterCalls [.matrix "A" (-1) 3 2, .matrix "B" (-1) 3 3, .mult 0 1]

def looseProductInputs : Inputs Int where
  lookup name :=
    if name = "A" then some (.matrix (.ofFn 1 3 fun _ j => if j.val = 2 then 0 else 1))
    else if name = "B" then some (.matrix (.ofFn 3 3 fun _ j => if j.val = 0 then 1 else 0))
    else none
  processors := 4

/-- A row that is repeated: the product has more non-zero entries than its bound, which is that of the
row. -/
theorem nonzeros_exceed_nnz : looseProduct.check = .ok () ∧ looseProduct.Refreshed ∧
    looseProduct.Numeric ∧ looseProduct.ReadsLiterals Int ∧ looseProduct.Honest looseProductInputs ∧
    (∀ name u, looseProductInputs name = some u → u.Within (2 ^ 63)) ∧
    looseProduct.Bounded looseProductInputs ∧
    (looseProduct.get? 2).map (fun n => (n.shape.dataType, n.shape.nnz)) = some (.matrix, 2) ∧
    looseProduct.evaluate looseProductInputs [2] =
      .ok [.matrix (.ofFn 3 3 fun _ j => if j.val = 0 then 1 else 0)] ∧
    (Matrix.ofFn 3 3 fun _ j => if j.val = 0 then (1 : Int) else 0).nonzeros = 3 :=
  ⟨by decide +kernel, refreshed_of_settled (by decide +kernel), numeric_of_ids (by decide +kernel),
    readsLiterals_int (by decide +kernel), honest_of_sameBounds (by decide +kernel),
    Value.within_of_ite (by decide) (by decide), bounded_of_ids (by decide +kernel),
    by decide +kernel, by decide +kernel, by decide +kernel⟩

end Graph
end LinearPlan
