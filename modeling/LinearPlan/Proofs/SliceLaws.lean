import LinearPlan.Proofs.ExactArithmetic
import LinearPlan.Proofs.SliceValues

/-!
# Laws of slices

Reading and writing the cells of a range obey the laws of a lens: what has been written is read, writing
back what was read changes nothing, and of two writes to a range the second one counts. Writes to ranges
without a common cell commute, and a write keeps all cells outside of its range. A scalar stands for a
block of equal entries.

Ranges count from one and include both ends. Reads and writes fail at a scalar target, if the bounds do
not select cells of the target, and if a matrix of another size than that of the range is written.
-/
namespace LinearPlan

theorem Value.ext_cell? {α : Type} {v w : Value α} (hv : v.isScalar = false) (hw : w.isScalar = false)
    (hr : v.rows = w.rows) (hc : v.cols = w.cols)
    (h : ∀ i j, i < v.rows → j < v.cols → v.cell? i j = w.cell? i j) : v = w := by
  cases v with
  | scalar _ => cases hv
  | matrix m =>
    cases w with
    | scalar _ => cases hw
    | matrix n =>
      have hr : m.rows = n.rows := hr
      have hc : m.cols = n.cols := hc
      refine congrArg _ (Matrix.ext_get? hr hc fun i j => ?_)
      by_cases hin : i < m.rows ∧ j < m.cols
      · exact h i j hin.1 hin.2
      · rw [Matrix.get?_eq_none hin, Matrix.get?_eq_none]
        rwa [← hr, ← hc]

namespace Eval
variable {α : Type}

structure CellRange where
  rowLower : Int
  rowUpper : Int
  colLower : Int
  colUpper : Int
deriving DecidableEq

namespace CellRange
variable {r s : CellRange} {rows cols : Nat} {V : Value α}

def height (r : CellRange) : Nat := (r.rowUpper - r.rowLower + 1).toNat

def width (r : CellRange) : Nat := (r.colUpper - r.colLower + 1).toNat

def Empty (r : CellRange) : Prop := r.rowUpper < r.rowLower ∨ r.colUpper < r.colLower

def Outside (r : CellRange) (rows cols : Nat) : Prop :=
  (r.rowLower < 1 ∨ rows < r.rowUpper) ∨ r.colLower < 1 ∨ cols < r.colUpper

def Within (r : CellRange) (rows cols : Nat) : Prop := ¬ r.Empty ∧ ¬ r.Outside rows cols

/-- The cell at a position, counted from zero, lies in the range. -/
def Covers (r : CellRange) (i j : Nat) : Prop :=
  (r.rowLower ≤ i + 1 ∧ i + 1 ≤ r.rowUpper) ∧ r.colLower ≤ j + 1 ∧ j + 1 ≤ r.colUpper

def Disjoint (r s : CellRange) : Prop := ∀ i j, r.Covers i j → ¬ s.Covers i j

/-- A value that can be written: a scalar, or a matrix of the size of the range. -/
def Fits (r : CellRange) (V : Value α) : Prop :=
  V.isScalar = true ∨ V.rows = r.height ∧ V.cols = r.width

def spread (r : CellRange) : Value α → Value α
  | .scalar a => .matrix (.ofFn r.height r.width fun _ _ => a)
  | .matrix m => .matrix m

instance (r : CellRange) (rows cols : Nat) : Decidable (r.Within rows cols) :=
  inferInstanceAs (Decidable (¬ (_ ∨ _) ∧ ¬ ((_ ∨ _) ∨ _ ∨ _)))

instance (r : CellRange) (V : Value α) : Decidable (r.Fits V) :=
  inferInstanceAs (Decidable (_ ∨ _ ∧ _))

theorem within_iff : r.Within rows cols ↔
    Inside r.rowLower r.rowUpper rows ∧ Inside r.colLower r.colUpper cols := by
  unfold Within Empty Outside Inside
  omega

theorem Fits.spread (h : r.Fits V) : (r.spread V).isScalar = false ∧ (r.spread V).rows = r.height ∧
    (r.spread V).cols = r.width ∧
    ∀ i j, i < r.height → j < r.width → (r.spread V).cell? i j = V.cell? i j := by
  cases V with
  | scalar a => exact ⟨rfl, rfl, rfl, fun i j hi hj => Matrix.get?_ofFn ⟨hi, hj⟩⟩
  | matrix m =>
    rcases h with h | h
    · cases h
    · exact ⟨rfl, h.1, h.2, fun _ _ _ _ => rfl⟩

end CellRange

structure SliceBounds (α : Type) where
  rowLower : Value α
  rowUpper : Value α
  colLower : Value α
  colUpper : Value α

namespace SliceBounds
variable [Element α] {b b' : SliceBounds α} {r r' : CellRange} {node node' : NodeRef}
  {t u v w V V' : Value α}

def toList (b : SliceBounds α) : List (Value α) := [b.rowLower, b.rowUpper, b.colLower, b.colUpper]

def range? (b : SliceBounds α) : Option CellRange := do
  return ⟨← b.rowLower.index?, ← b.rowUpper.index?, ← b.colLower.index?, ← b.colUpper.index?⟩

def read (b : SliceBounds α) (node : NodeRef) (t : Value α) : Except (EvalFault α) (Value α) :=
  indexing node t b.rowLower b.rowUpper b.colLower b.colUpper

def write (b : SliceBounds α) (node : NodeRef) (t V : Value α) : Except (EvalFault α) (Value α) :=
  leftIndexing node t V b.rowLower b.rowUpper b.colLower b.colUpper

theorem range?_eq_some_iff : b.range? = some r ↔ Bounds b.rowLower b.rowUpper b.colLower b.colUpper
    r.rowLower r.rowUpper r.colLower r.colUpper := by
  obtain ⟨rl, ru, cl, cu⟩ := r
  simp only [range?, Option.bind_eq_bind, Option.bind_eq_some_iff, Option.pure_def,
    Option.some.injEq, CellRange.mk.injEq]
  constructor
  · rintro ⟨_, hrl, _, hru, _, hcl, _, hcu, rfl, rfl, rfl, rfl⟩
    exact ⟨hrl, hru, hcl, hcu⟩
  · rintro ⟨hrl, hru, hcl, hcu⟩
    exact ⟨rl, hrl, ru, hru, cl, hcl, cu, hcu, rfl, rfl, rfl, rfl⟩

theorem range?_eq_none_iff : b.range? = none ↔ ∃ v ∈ b.toList, v.index? = none := by
  cases hrl : b.rowLower.index? <;> cases hru : b.rowUpper.index? <;>
    cases hcl : b.colLower.index? <;> cases hcu : b.colUpper.index? <;>
      simp [range?, toList, hrl, hru, hcl, hcu]

theorem read_eq_ok (h : b.read node t = .ok v) : ∃ r, b.range? = some r ∧ r.Within t.rows t.cols ∧
    Reads t v r.rowLower r.rowUpper r.colLower r.colUpper := by
  obtain ⟨rl, ru, cl, cu, hb, hread⟩ := reads_of_indexing h
  exact ⟨⟨rl, ru, cl, cu⟩, range?_eq_some_iff.2 hb,
    CellRange.within_iff.2 ⟨hread.rows, hread.cols⟩, hread⟩

theorem write_eq_ok (h : b.write node t V = .ok v) : ∃ r, b.range? = some r ∧
    r.Within t.rows t.cols ∧ r.Fits V ∧
    Writes t V v r.rowLower r.rowUpper r.colLower r.colUpper := by
  obtain ⟨rl, ru, cl, cu, hb, hwrite⟩ := writes_of_leftIndexing h
  exact ⟨⟨rl, ru, cl, cu⟩, range?_eq_some_iff.2 hb,
    CellRange.within_iff.2 ⟨hwrite.rows, hwrite.cols⟩, hwrite.source, hwrite⟩

section Inside
variable (hb : b.range? = some r) (ht : t.isScalar = false) (hr : r.Within t.rows t.cols)
include hb ht hr

theorem exists_read (node : NodeRef) : ∃ v, b.read node t = .ok v ∧
    Reads t v r.rowLower r.rowUpper r.colLower r.colUpper := by
  obtain ⟨hrows, hcols⟩ := CellRange.within_iff.1 hr
  obtain ⟨v, hv⟩ := exists_indexing node (range?_eq_some_iff.1 hb) ht hrows hcols
  obtain ⟨r', hb', -, hread⟩ := read_eq_ok hv
  obtain rfl := Option.some.inj (hb.symm.trans hb')
  exact ⟨v, hv, hread⟩

theorem exists_write (node : NodeRef) (hV : r.Fits V) : ∃ v, b.write node t V = .ok v ∧
    Writes t V v r.rowLower r.rowUpper r.colLower r.colUpper := by
  obtain ⟨hrows, hcols⟩ := CellRange.within_iff.1 hr
  obtain ⟨v, hv⟩ : ∃ v, b.write node t V = .ok v :=
    exists_leftIndexing (range?_eq_some_iff.1 hb) ht hrows hcols hV
  obtain ⟨r', hb', -, -, hwrite⟩ := write_eq_ok hv
  obtain rfl := Option.some.inj (hb.symm.trans hb')
  exact ⟨v, hv, hwrite⟩

end Inside

def Misplaced (b : SliceBounds α) (t : Value α) : Prop :=
  (∃ v ∈ b.toList, v.index? = none) ∨
    ∃ r, b.range? = some r ∧ (r.Empty ∨ r.Outside t.rows t.cols)

theorem misplaced_or_within (b : SliceBounds α) (t : Value α) :
    b.Misplaced t ∨ ∃ r, b.range? = some r ∧ r.Within t.rows t.cols := by
  cases hb : b.range? with
  | none => exact .inl (.inl (range?_eq_none_iff.1 hb))
  | some r =>
    by_cases hr : r.Within t.rows t.cols
    · exact .inr ⟨r, rfl, hr⟩
    · exact .inl (.inr ⟨r, hb, or_iff_not_and_not.2 hr⟩)

theorem not_misplaced (hb : b.range? = some r) (hr : r.Within t.rows t.cols) : ¬ b.Misplaced t := by
  rintro (hnone | ⟨s, hs, hout⟩)
  · rw [range?_eq_none_iff.2 hnone] at hb
    cases hb
  · obtain rfl := Option.some.inj (hb.symm.trans hs)
    exact hout.elim hr.1 hr.2

theorem read_fails_iff : (∃ e, b.read node t = .error e) ↔ t.isScalar = true ∨ b.Misplaced t := by
  constructor
  · rintro ⟨e, he⟩
    cases ht : t.isScalar with
    | true => exact .inl rfl
    | false =>
      rcases misplaced_or_within b t with hm | ⟨r, hb, hr⟩
      · exact .inr hm
      · obtain ⟨v, hv, -⟩ := exists_read hb ht hr node
        rw [he] at hv
        cases hv
  · intro h
    cases hrun : b.read node t with
    | error e => exact ⟨e, rfl⟩
    | ok v =>
      obtain ⟨r, hb, hr, hread⟩ := read_eq_ok hrun
      rcases h with ht | hm
      · rw [hread.target] at ht
        cases ht
      · exact absurd hm (not_misplaced hb hr)

theorem write_fails_iff : (∃ e, b.write node t V = .error e) ↔
    t.isScalar = true ∨ b.Misplaced t ∨ ∃ r, b.range? = some r ∧ ¬ r.Fits V := by
  constructor
  · rintro ⟨e, he⟩
    cases ht : t.isScalar with
    | true => exact .inl rfl
    | false =>
      rcases misplaced_or_within b t with hm | ⟨r, hb, hr⟩
      · exact .inr (.inl hm)
      · refine .inr (.inr ⟨r, hb, fun hV => ?_⟩)
        obtain ⟨v, hv, -⟩ := exists_write hb ht hr node hV
        rw [he] at hv
        cases hv
  · intro h
    cases hrun : b.write node t V with
    | error e => exact ⟨e, rfl⟩
    | ok v =>
      obtain ⟨r, hb, hr, hV, hwrite⟩ := write_eq_ok hrun
      rcases h with ht | hm | ⟨s, hs, hnot⟩
      · rw [hwrite.target] at ht
        cases ht
      · exact absurd hm (not_misplaced hb hr)
      · obtain rfl := Option.some.inj (hb.symm.trans hs)
        exact absurd hV hnot

omit [Element α] in
theorem writes_covered (h : Writes t V v r.rowLower r.rowUpper r.colLower r.colUpper) {i j : Nat}
    (hc : r.Covers i j) :
    v.cell? i j = V.cell? (i + 1 - r.rowLower).toNat (j + 1 - r.colLower).toNat :=
  (h.cell i j).trans (if_pos hc)

omit [Element α] in
theorem writes_uncovered (h : Writes t V v r.rowLower r.rowUpper r.colLower r.colUpper) {i j : Nat}
    (hc : ¬ r.Covers i j) : v.cell? i j = t.cell? i j :=
  (h.cell i j).trans (if_neg hc)

section Laws
variable (hb : b.range? = some r) (ht : t.isScalar = false) (hr : r.Within t.rows t.cols)
include hb ht hr

theorem read_write (hV : r.Fits V) :
    (b.write node t V >>= b.read node') = .ok (r.spread V) := by
  obtain ⟨v, hv, hwrite⟩ := exists_write hb ht hr node hV
  obtain ⟨w, hw, hread⟩ := exists_read hb hwrite.result
    (by rw [hwrite.height, hwrite.width]; exact hr) node'
  obtain ⟨hmatrix, hrows, hcols, hcell⟩ := hV.spread
  refine Outcome.bind_eq_ok_iff.2 ⟨v, hv, hw.trans (congrArg _ ?_)⟩
  refine Value.ext_cell? hread.result hmatrix (hread.height.trans hrows.symm)
    (hread.width.trans hcols.symm) fun i j hi hj => ?_
  have hih : i < r.height := hi.trans_eq hread.height
  have hjw : j < r.width := hj.trans_eq hread.width
  rw [hcell i j hih hjw]
  obtain ⟨hin, hjn⟩ := CellRange.within_iff.1 hr
  unfold Inside at hin hjn
  unfold CellRange.height at hih
  unfold CellRange.width at hjw
  have hcov : r.Covers ((r.rowLower - 1).toNat + i) ((r.colLower - 1).toNat + j) := by
    unfold CellRange.Covers
    omega
  have hrow : (((r.rowLower - 1).toNat + i : Nat) + 1 - r.rowLower).toNat = i := by omega
  have hcol : (((r.colLower - 1).toNat + j : Nat) + 1 - r.colLower).toNat = j := by omega
  rw [hread.cell i j hi hj, writes_covered hwrite hcov, hrow, hcol]

theorem write_read : (b.read node t >>= b.write node' t) = .ok t := by
  obtain ⟨v, hv, hread⟩ := exists_read hb ht hr node
  obtain ⟨w, hw, hwrite⟩ := exists_write hb ht hr node' (.inr ⟨hread.height, hread.width⟩)
  refine Outcome.bind_eq_ok_iff.2 ⟨v, hv, hw.trans (congrArg _ ?_)⟩
  refine Value.ext_cell? hwrite.result ht hwrite.height hwrite.width fun i j _ _ => ?_
  by_cases hcov : r.Covers i j
  · have hheight := hread.height
    have hwidth := hread.width
    rw [writes_covered hwrite hcov]
    obtain ⟨hin, hjn⟩ := CellRange.within_iff.1 hr
    unfold Inside at hin hjn
    unfold CellRange.Covers at hcov
    rw [hread.cell _ _ (by omega) (by omega)]
    congr 1 <;> omega
  · exact writes_uncovered hwrite hcov

theorem write_write (hV : r.Fits V) (hV' : r.Fits V') :
    (b.write node t V >>= fun v => b.write node' v V') = b.write node' t V' := by
  obtain ⟨v, hv, hwrite⟩ := exists_write hb ht hr node hV
  obtain ⟨w, hw, hwrite'⟩ := exists_write hb ht hr node' hV'
  obtain ⟨w', hw', hwrite''⟩ := exists_write hb hwrite.result
    (by rw [hwrite.height, hwrite.width]; exact hr) node' hV'
  rw [hw]
  refine Outcome.bind_eq_ok_iff.2 ⟨v, hv, hw'.trans (congrArg _ ?_)⟩
  refine Value.ext_cell? hwrite''.result hwrite'.result (hwrite''.height.trans ?_)
    (hwrite''.width.trans ?_) fun i j _ _ => ?_
  · exact hwrite.height.trans hwrite'.height.symm
  · exact hwrite.width.trans hwrite'.width.symm
  · by_cases hcov : r.Covers i j
    · rw [writes_covered hwrite'' hcov, writes_covered hwrite' hcov]
    · rw [writes_uncovered hwrite'' hcov, writes_uncovered hwrite hcov, writes_uncovered hwrite' hcov]

theorem write_comm (hb' : b'.range? = some r') (hr' : r'.Within t.rows t.cols) (hd : r.Disjoint r')
    (hV : r.Fits V) (hV' : r'.Fits V') :
    ∃ w, (b.write node t V >>= fun v => b'.write node' v V') = .ok w ∧
      (b'.write node' t V' >>= fun v => b.write node v V) = .ok w := by
  obtain ⟨v, hv, hwrite⟩ := exists_write hb ht hr node hV
  obtain ⟨v', hv', hwrite'⟩ := exists_write hb' ht hr' node' hV'
  obtain ⟨w, hw, hsecond⟩ := exists_write hb' hwrite.result
    (by rw [hwrite.height, hwrite.width]; exact hr') node' hV'
  obtain ⟨w', hw', hsecond'⟩ := exists_write hb hwrite'.result
    (by rw [hwrite'.height, hwrite'.width]; exact hr) node hV
  have heq : w' = w := by
    refine Value.ext_cell? hsecond'.result hsecond.result ?_ ?_ fun i j _ _ => ?_
    · rw [hsecond'.height, hwrite'.height, hsecond.height, hwrite.height]
    · rw [hsecond'.width, hwrite'.width, hsecond.width, hwrite.width]
    · by_cases hcov : r.Covers i j
      · rw [writes_covered hsecond' hcov, writes_uncovered hsecond (hd i j hcov),
          writes_covered hwrite hcov]
      · rw [writes_uncovered hsecond' hcov]
        by_cases hcov' : r'.Covers i j
        · rw [writes_covered hwrite' hcov', writes_covered hsecond hcov']
        · rw [writes_uncovered hwrite' hcov', writes_uncovered hsecond hcov',
            writes_uncovered hwrite hcov]
  exact ⟨w, Outcome.bind_eq_ok_iff.2 ⟨v, hv, hw⟩, Outcome.bind_eq_ok_iff.2 ⟨v', hv', heq ▸ hw'⟩⟩

theorem write_frame (node : NodeRef) (hV : r.Fits V) :
    ∃ v, b.write node t V = .ok v ∧ v.isScalar = false ∧ v.rows = t.rows ∧ v.cols = t.cols ∧
      ∀ i j, ¬ r.Covers i j → v.cell? i j = t.cell? i j := by
  obtain ⟨v, hv, hwrite⟩ := exists_write hb ht hr node hV
  exact ⟨v, hv, hwrite.result, hwrite.height, hwrite.width, fun i j => writes_uncovered hwrite⟩

end Laws
end SliceBounds

/-- Slices of a matrix `X` form a lens, for every range inside of it and all values that fit; and reads
and writes fail in the cases listed and in no others. -/
theorem slices_form_lens [Element α] (X : Matrix α) (b : SliceBounds α) (node node' : NodeRef) :
    (∀ r, b.range? = some r → r.Within X.rows X.cols →
      (∀ V, r.Fits V → (b.write node (.matrix X) V >>= b.read node') = .ok (r.spread V)) ∧
      (b.read node (.matrix X) >>= b.write node' (.matrix X)) = .ok (.matrix X) ∧
      (∀ V V', r.Fits V → r.Fits V' →
        (b.write node (.matrix X) V >>= fun Y => b.write node' Y V') =
          b.write node' (.matrix X) V') ∧
      (∀ (b' : SliceBounds α) r' V V', b'.range? = some r' → r'.Within X.rows X.cols →
        r.Disjoint r' → r.Fits V → r'.Fits V' → ∃ Z,
          (b.write node (.matrix X) V >>= fun Y => b'.write node' Y V') = .ok Z ∧
          (b'.write node' (.matrix X) V' >>= fun Y => b.write node Y V) = .ok Z) ∧
      ∀ V, r.Fits V → ∃ Y : Matrix α, b.write node (.matrix X) V = .ok (.matrix Y) ∧
        Y.rows = X.rows ∧ Y.cols = X.cols ∧ ∀ i j, ¬ r.Covers i j → Y.get? i j = X.get? i j) ∧
    ∀ t : Value α,
      ((∃ e, b.read node t = .error e) ↔ t.isScalar = true ∨ (∃ v ∈ b.toList, v.index? = none) ∨
        ∃ r, b.range? = some r ∧ (r.Empty ∨ r.Outside t.rows t.cols)) ∧
      ∀ V, (∃ e, b.write node t V = .error e) ↔ t.isScalar = true ∨
        ((∃ v ∈ b.toList, v.index? = none) ∨
          ∃ r, b.range? = some r ∧ (r.Empty ∨ r.Outside t.rows t.cols)) ∨
        ∃ r, b.range? = some r ∧ V.isScalar = false ∧ ¬ (V.rows = r.height ∧ V.cols = r.width) := by
  refine ⟨fun r hb hr => ⟨fun V hV => ?_, ?_, fun V V' hV hV' => ?_,
    fun b' r' V V' hb' hr' hd hV hV' => ?_, fun V hV => ?_⟩, fun t => ⟨?_, fun V => ?_⟩⟩
  · exact SliceBounds.read_write hb rfl hr hV
  · exact SliceBounds.write_read hb rfl hr
  · exact SliceBounds.write_write hb rfl hr hV hV'
  · exact SliceBounds.write_comm hb rfl hr hb' hr' hd hV hV'
  · obtain ⟨v, hv, hmatrix, hrows, hcols, hcell⟩ :=
      SliceBounds.write_frame (t := .matrix X) hb rfl hr node hV
    cases v with
    | scalar _ => cases hmatrix
    | matrix Y => exact ⟨Y, hv, hrows, hcols, hcell⟩
  · exact SliceBounds.read_fails_iff
  · rw [SliceBounds.write_fails_iff]
    simp only [CellRange.Fits, not_or, Bool.not_eq_true]
    rfl

def threeRows : Matrix Int := .ofFn 3 3 fun i j => 3 * i + j

def lastCells : SliceBounds Int := ⟨.scalar 2, .scalar 3, .scalar 3, .scalar 3⟩

def firstRow : SliceBounds Int := ⟨.scalar 1, .scalar 1, .scalar 1, .scalar 3⟩

theorem slices_form_lens_lastCells :
    lastCells.range? = some ⟨2, 3, 3, 3⟩ ∧
      (lastCells.write ⟨7, .unknown 0⟩ (.matrix threeRows) (.scalar 5) >>=
        lastCells.read ⟨8, .unknown 0⟩) = .ok (.matrix (.ofFn 2 1 fun _ _ => 5)) ∧
      (lastCells.read ⟨7, .unknown 0⟩ (.matrix threeRows) >>=
        lastCells.write ⟨8, .unknown 0⟩ (.matrix threeRows)) = .ok (.matrix threeRows) ∧
      (∃ Z, (lastCells.write ⟨7, .unknown 0⟩ (.matrix threeRows) (.matrix (.ofFn 2 1 fun i _ => i)) >>=
          fun Y => firstRow.write ⟨8, .unknown 0⟩ Y (.scalar 9)) = .ok Z ∧
        (firstRow.write ⟨8, .unknown 0⟩ (.matrix threeRows) (.scalar 9) >>=
          fun Y => lastCells.write ⟨7, .unknown 0⟩ Y (.matrix (.ofFn 2 1 fun i _ => i))) = .ok Z) ∧
      ∃ e, lastCells.write ⟨7, .unknown 0⟩ (.matrix threeRows) (.matrix (.ofFn 1 2 fun _ _ => 0)) =
        .error e := by
  have hb : lastCells.range? = some ⟨2, 3, 3, 3⟩ := rfl
  have hb' : firstRow.range? = some ⟨1, 1, 1, 3⟩ := rfl
  obtain ⟨hlaws, hfails⟩ :=
    slices_form_lens threeRows lastCells ⟨7, .unknown 0⟩ ⟨8, .unknown 0⟩
  obtain ⟨hread, hback, -, hcomm, -⟩ := hlaws _ hb (by decide)
  refine ⟨hb, hread (.scalar 5) (.inl rfl), hback, ?_, ?_⟩
  · refine hcomm firstRow _ _ (.scalar 9) hb' (by decide) (fun i j h h' => ?_) (.inr ⟨rfl, rfl⟩)
      (.inl rfl)
    unfold CellRange.Covers at h h'
    dsimp only at h h'
    omega
  · exact ((hfails _).2 _).2 (.inr (.inr ⟨_, hb, rfl, by decide⟩))

end Eval
end LinearPlan
