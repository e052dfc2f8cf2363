import LinearPlan.Proofs.Refreshing
import LinearPlan.Proofs.ValueShapes

/-!
# What sizing rejects

An element-wise operation or a matrix product is not added if its operands do not go together as far
as their dimensions are known. Sizing and evaluation test this on their own: sizing on dimensions some
of which are not known, evaluation on those of the values. Since values fit the shapes of their nodes,
dimensions that clash in the shapes clash in the values, and what is rejected could not have been
evaluated.
-/
namespace LinearPlan

theorem Outcome.exists_error {ε α : Type} {outcome : Except ε α} (h : ∀ a, outcome ≠ .ok a) :
    ∃ e, outcome = .error e := by
  cases outcome with
  | ok a => exact absurd rfl (h a)
  | error e => exact ⟨e, rfl⟩

namespace Shape
variable {lhs rhs : Shape}

theorem broadcast?_eq_none_iff {a b : Int} :
    broadcast? a b = none ↔ (0 ≤ a ∧ 0 ≤ b) ∧ a ≠ b ∧ a ≠ 1 ∧ b ≠ 1 := by
  unfold broadcast?
  constructor
  · intro h
    split_ifs at h
    omega
  · rintro ⟨⟨ha, hb⟩, hne, ha1, hb1⟩
    rw [if_neg hne, if_neg (by omega), if_neg ha1, if_neg hb1, if_neg (by omega), if_neg (by omega)]

/-- Two operands of a matrix product that do not go together: one of them is no matrix, or the columns
of the one and the rows of the other are known and differ. -/
def Mismatch (lhs rhs : Shape) : Prop :=
  ¬ (lhs.isMatrix = true ∧ rhs.isMatrix = true) ∨
    (0 ≤ lhs.cols ∧ 0 ≤ rhs.rows) ∧ lhs.cols ≠ rhs.rows

theorem ofMatMul_fails_iff (node : NodeRef) :
    (∃ fault, ofMatMul node lhs rhs = .error fault) ↔ lhs.Mismatch rhs := by
  unfold ofMatMul Mismatch
  cases hl : lhs.isMatrix <;> cases hr : rhs.isMatrix <;>
    simp only [Bool.not_false, Bool.not_true, Bool.or_false, Bool.or_true, Bool.or_self, if_true,
      Bool.false_eq_true, if_false, Except.error.injEq, exists_eq', and_self, and_false, false_and,
      not_false_eq_true, not_true_eq_false, true_or, false_or]
  split
  · rename_i h
    exact ⟨fun _ => ⟨⟨h.1, h.2.1⟩, h.2.2⟩, fun _ => ⟨_, rfl⟩⟩
  · rename_i h
    simp only [reduceCtorEq, exists_false, false_iff]
    exact fun hd => h ⟨hd.1.1, hd.1.2, hd.2⟩

end Shape

theorem Matrix.commonDim?_eq_none {a b : Nat} (hne : a ≠ b) (ha : a ≠ 1) (hb : b ≠ 1) :
    commonDim? a b = none := by
  unfold commonDim?
  rw [if_neg (by omega), if_neg ha]

namespace Edit
open LinearPlan.Graph
variable {g : Graph} {l r : NodeId} {a b : Node}

theorem addNode_fails_iff {op : Op} {inputs : List NodeId}
    (hin : ∀ y ∈ inputs, ∃ m, g.get? y = some m ∧ m.retired = false)
    (ha : op.arity? = some inputs.length) :
    (∃ fault g', addNode op inputs g = .error fault g') ↔
      ∃ fault, g.sizeNode g.size (start g op inputs) = .error fault := by
  cases hs : g.sizeNode g.size (start g op inputs) with
  | ok s => simp [addNode_eq hin ha hs]
  | error fault =>
    simp only [Except.error.injEq, exists_eq', iff_true]
    obtain ⟨cause, g', hrun⟩ := undoing_fails (truncate g.size)
      (refresh_error (get?_attach_start hin) rfl ((sizeNode_attach hin ha).trans hs))
    exact ⟨cause, g', (addNode_run op hin).trans (bind_error hrun)⟩

section Operands
variable (hl : g.get? l = some a) (hal : a.retired = false) (hr : g.get? r = some b)
  (hbl : b.retired = false)
include hl hal hr hbl

theorem live_pair : ∀ y ∈ [l, r], ∃ m, g.get? y = some m ∧ m.retired = false := by
  intro y hy
  rcases List.mem_cons.1 hy with rfl | hy
  · exact ⟨a, hl, hal⟩
  · rw [List.mem_singleton.1 hy]
    exact ⟨b, hr, hbl⟩

theorem sizeNode_start_pair {op : Op} (ha : op.arity? = some 2) :
    g.sizeNode g.size (start g op [l, r]) =
      Shape.sizeFrom ⟨g.size, op⟩ .initial op [a.core, b.core] := by
  have hres : g.Resolves (start g op [l, r]) := fun y hy => by
    obtain ⟨m, hm, -⟩ := live_pair hl hal hr hbl y hy
    exact ⟨m.core, core?_eq_some hm⟩
  have hops : g.operands (start g op [l, r]) = [a.core, b.core] := by
    show [l, r].filterMap g.core? = _
    rw [List.filterMap_cons_some (core?_eq_some hl), List.filterMap_cons_some (core?_eq_some hr)]
    rfl
  rw [sizeNode_eq hres ha, hops]
  rfl

theorem binary_fails_iff {op : BinaryOp} :
    (∃ fault g', binary op l r g = .error fault g') ↔ op = .absent ∨ a.shape.Clash b.shape := by
  unfold binary
  by_cases hop : op = .absent
  · simp only [hop, true_or, iff_true]
    exact ⟨_, _, rfl⟩
  · rw [if_neg hop, addNode_fails_iff (live_pair hl hal hr hbl) rfl,
      sizeNode_start_pair hl hal hr hbl rfl]
    simp only [hop, false_or]
    show (∃ fault, Shape.ofBinary _ op _ a.shape b.shape _ = .error fault) ↔ _
    by_cases hc : a.shape.Clash b.shape
    · obtain ⟨cause, hf⟩ := Shape.ofBinary_of_clash ⟨g.size, .binary op⟩ op .initial
        b.op.literalInt? hc
      exact ⟨fun _ => hc, fun _ => ⟨_, hf⟩⟩
    · obtain ⟨s, hs⟩ := Shape.ofBinary_of_not_clash ⟨g.size, .binary op⟩ op .initial
        b.op.literalInt? hc
      refine ⟨fun ⟨fault, hf⟩ => ?_, fun h => absurd h hc⟩
      cases hs.symm.trans hf

theorem matMul_fails_iff :
    (∃ fault g', matMul l r g = .error fault g') ↔ a.shape.Mismatch b.shape := by
  unfold matMul
  rw [addNode_fails_iff (live_pair hl hal hr hbl) rfl, sizeNode_start_pair hl hal hr hbl rfl,
    ← Shape.ofMatMul_fails_iff ⟨g.size, .matMul⟩]
  show (∃ fault, (Shape.ofMatMul _ a.shape b.shape).mapError _ = .error fault) ↔ _
  cases Shape.ofMatMul ⟨g.size, .matMul⟩ a.shape b.shape <;> simp [Except.mapError]

end Operands
end Edit

namespace Eval
variable {α : Type} [Element α] {node : NodeRef} {lhs rhs : Shape} {u v w : Value α}

omit [Element α] in
theorem eq_matrix_of_admits {s : Shape} (hs : s.isMatrix = true) (h : s.profile.Admits u) :
    ∃ m, u = .matrix m ∧ (0 ≤ s.rows → s.rows = m.rows) ∧ (0 ≤ s.cols → s.cols = m.cols) := by
  rw [Shape.profile_of_isMatrix hs] at h
  cases u with
  | scalar a => cases h
  | matrix m => exact ⟨m, rfl, Dim.admits_ofInt.1 h.1, Dim.admits_ofInt.1 h.2⟩

theorem not_clash_of_binary {op : BinaryOp} (hu : lhs.profile.Admits u) (hv : rhs.profile.Admits v)
    (h : binary node op u v = .ok w) : ¬ lhs.Clash rhs := by
  rintro ⟨hl, hr, hdims⟩
  obtain ⟨a, rfl, har, hac⟩ := eq_matrix_of_admits hl hu
  obtain ⟨b, rfl, hbr, hbc⟩ := eq_matrix_of_admits hr hv
  obtain ⟨f, -, hf⟩ := binary_eq_ok_iff.1 h
  obtain ⟨m, -, hrows, hcols⟩ := zip_dims hf
  rw [Shape.broadcast?_eq_none_iff, Shape.broadcast?_eq_none_iff] at hdims
  rcases hdims with ⟨⟨h0, h0'⟩, hd⟩ | ⟨⟨h0, h0'⟩, hd⟩
  · rw [Matrix.commonDim?_eq_none (by have := har h0; have := hbr h0'; omega)
      (by have := har h0; omega) (by have := hbr h0'; omega)] at hrows
    cases hrows
  · rw [Matrix.commonDim?_eq_none (by have := hac h0; have := hbc h0'; omega)
      (by have := hac h0; omega) (by have := hbc h0'; omega)] at hcols
    cases hcols

theorem not_mismatch_of_matMul (hu : lhs.profile.Admits u) (hv : rhs.profile.Admits v)
    (h : matMul node u v = .ok w) : ¬ lhs.Mismatch rhs := by
  simp only [matMul, Outcome.bind_eq_ok_iff, asMatrix_eq_ok_iff] at h
  obtain ⟨a, rfl, b, rfl, h⟩ := h
  obtain ⟨_, _, hpl, -⟩ := hu.matrix
  obtain ⟨_, _, hpr, -⟩ := hv.matrix
  have hl : lhs.isMatrix = true := Shape.isMatrix_iff.2 ⟨_, _, hpl⟩
  have hr : rhs.isMatrix = true := Shape.isMatrix_iff.2 ⟨_, _, hpr⟩
  rintro (hm | ⟨⟨h0, h0'⟩, hne⟩)
  · exact hm ⟨hl, hr⟩
  · obtain ⟨_, ha, -, hac⟩ := eq_matrix_of_admits hl hu
    obtain ⟨_, hb, hbr, -⟩ := eq_matrix_of_admits hr hv
    cases ha
    cases hb
    split at h
    · rename_i hinner
      have := hac h0
      have := hbr h0'
      omega
    · cases h

end Eval

namespace Graph
variable {α : Type} [Element α] {g : Graph} {inputs : Inputs α} {l r : NodeId}
  {u v : Value α}

/-- An element-wise operation or a matrix product that is not added because of its operands fails on
all values that these operands can have. -/
theorem rejected_operations_fail (hs : g.Refreshed) (hd : g.Numeric) (hlit : g.ReadsLiterals α)
    (hh : g.Honest inputs) (hin : ∀ name u, inputs name = some u → u.Within (2 ^ 63))
    (hu : g.evaluate inputs [l] = .ok [u]) (hv : g.evaluate inputs [r] = .ok [v]) :
    (∀ op fault g', Edit.binary op l r g = .error fault g' →
      ∀ x s, ∃ e, Eval.apply inputs ⟨x, .binary op⟩ s [u, v] = .error e) ∧
    ∀ fault g', Edit.matMul l r g = .error fault g' →
      ∀ x s, ∃ e, Eval.apply inputs ⟨x, .matMul⟩ s [u, v] = .error e := by
  have hval : ∀ {y : NodeId} {w : Value α}, g.evaluate inputs [y] = .ok [w] →
      ∃ n, g.get? y = some n ∧ n.retired = false ∧ n.shape.profile.Admits w := by
    intro y w hw
    rcases hasValue_of_evaluate hw with _ | ⟨hw, -⟩
    obtain ⟨n, -, hn, hr, -⟩ := hasValue_iff.1 hw
    exact ⟨n, hn, hr, (describes_of_hasValue hs hd hlit hh hin hw n hn).2.1.profile⟩
  obtain ⟨a, ha, hal, hau⟩ := hval hu
  obtain ⟨b, hb, hbl, hbv⟩ := hval hv
  refine ⟨fun op fault g' hf x s => Outcome.exists_error fun w hw => ?_,
    fun fault g' hf x s => Outcome.exists_error fun w hw => ?_⟩
  · rcases (Edit.binary_fails_iff ha hal hb hbl).1 ⟨fault, g', hf⟩ with rfl | hc
    · cases hw
    · exact Eval.not_clash_of_binary hau hbv hw hc
  · exact Eval.not_mismatch_of_matMul hau hbv hw
      ((Edit.matMul_fails_iff ha hal hb hbl).1 ⟨fault, g', hf⟩)

/-- Two rows of a matrix whose number of rows is not known, and the transpose of one whose number of
rows is not known either. -/
def slicedRows : Graph :=
  (Graph.empty "g").afterCalls [.matrix "A" (-1) 3 (-1), .matrix "B" (-1) 5 (-1),
    .literal (.ofInt 1), .literal (.ofInt 2), .literal (.ofInt 3),
    .indexing ⟨false, false⟩ 0 2 3 2 4, .transpose 1]

def slicedRowsInputs : Inputs (Option Int) where
  lookup name :=
    if name = "A" then some (.matrix (.ofFn 4 3 fun i j => some (i - j)))
    else if name = "B" then some (.matrix (.ofFn 2 5 fun i j => some (i + j)))
    else none
  processors := 4

theorem rejected_operations_fail_slicedRows :
    slicedRows.Refreshed ∧
    slicedRows.evaluate slicedRowsInputs [5] = .ok [.matrix (.ofFn 2 3 fun i j => some (i - j))] ∧
    slicedRows.evaluate slicedRowsInputs [6] = .ok [.matrix (.ofFn 5 2 fun i j => some (j + i))] ∧
    (failure? (Edit.binary .plus 5 6) slicedRows).isSome = true ∧
    (failure? (Edit.matMul 5 6) slicedRows).isSome = true ∧
    ∀ x s, (∃ e, Eval.apply slicedRowsInputs ⟨x, .binary .plus⟩ s
        [.matrix (.ofFn 2 3 fun i j => some (i - j)), .matrix (.ofFn 5 2 fun i j => some (j + i))] =
          .error e) ∧
      ∃ e, Eval.apply slicedRowsInputs ⟨x, .matMul⟩ s
        [.matrix (.ofFn 2 3 fun i j => some (i - j)), .matrix (.ofFn 5 2 fun i j => some (j + i))] =
          .error e := by
  have hsettled : slicedRows.Refreshed := refreshed_of_settled (by decide +kernel)
  have hnumeric : slicedRows.Numeric := numeric_of_ids (by decide +kernel)
  have hhonest : slicedRows.Honest slicedRowsInputs := honest_of_sameBounds (by decide +kernel)
  have hl : slicedRows.evaluate slicedRowsInputs [5] =
      .ok [.matrix (.ofFn 2 3 fun i j => some (i - j))] := by decide +kernel
  have hr : slicedRows.evaluate slicedRowsInputs [6] =
      .ok [.matrix (.ofFn 5 2 fun i j => some (j + i))] := by decide +kernel
  have hb : (failure? (Edit.binary .plus 5 6) slicedRows).isSome = true := by decide +kernel
  have hm : (failure? (Edit.matMul 5 6) slicedRows).isSome = true := by decide +kernel
  obtain ⟨gb, hgb⟩ := Option.isSome_iff_exists.1 hb
  obtain ⟨gm, hgm⟩ := Option.isSome_iff_exists.1 hm
  obtain ⟨fb, hgb⟩ := error_of_failure? hgb
  obtain ⟨fm, hgm⟩ := error_of_failure? hgm
  obtain ⟨hbinary, hmatMul⟩ := rejected_operations_fail hsettled hnumeric (fun _ _ _ _ _ => rfl)
    hhonest (Value.within_of_ite (by decide) (by decide)) hl hr
  exact ⟨hsettled, hl, hr, hb, hm, fun x s => ⟨hbinary _ fb gb hgb x s, hmatMul fm gm hgm x s⟩⟩

end Graph
end LinearPlan
