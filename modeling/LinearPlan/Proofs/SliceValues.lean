import LinearPlan.Optimizer.Slicing
import LinearPlan.Proofs.Slices

/-!
# Values of slice writes

What reading and writing slices does to the cells of a matrix. A write to one row can be made in that
row alone: the row is read, the cells are written into it, and the row is written back. Rows and
columns are treated alike, by an axis that tells lines from positions in a line.
-/
namespace LinearPlan

namespace Matrix
variable {α : Type}

def get? (m : Matrix α) (i j : Nat) : Option α :=
  if h : i < m.rows ∧ j < m.cols then some (m.get ⟨i, h.1⟩ ⟨j, h.2⟩) else none

theorem get?_eq_none {m : Matrix α} {i j : Nat} (h : ¬ (i < m.rows ∧ j < m.cols)) :
    m.get? i j = none := dif_neg h

theorem get?_ofFn {rows cols : Nat} {f : Fin rows → Fin cols → α} {i j : Nat}
    (h : i < rows ∧ j < cols) : (ofFn rows cols f).get? i j = some (f ⟨i, h.1⟩ ⟨j, h.2⟩) :=
  (dif_pos h).trans (congrArg some (get_ofFn ..))

theorem get?_read (m : Matrix α) (b : Block m.rows m.cols) {i j : Nat}
    (h : i < b.height ∧ j < b.width) : (m.read b).get? i j = m.get? (b.top + i) (b.left + j) := by
  have hr := b.top_add_height_le
  have hc := b.left_add_width_le
  have hin : b.top + i < m.rows ∧ b.left + j < m.cols := ⟨by omega, by omega⟩
  rw [read, get?_ofFn h, get?, dif_pos hin]
  rfl

theorem get?_write (m : Matrix α) (b : Block m.rows m.cols) (f : Fin b.height → Fin b.width → α)
    {i j : Nat} : (m.write b f).get? i j =
      if h : b.Covers i j then some (f ⟨i - b.top, by unfold Block.Covers at h; omega⟩
        ⟨j - b.left, by unfold Block.Covers at h; omega⟩) else m.get? i j := by
  by_cases hin : i < m.rows ∧ j < m.cols
  · rw [write, get?_ofFn hin]
    by_cases h : b.Covers i j
    · simp only [h, dif_pos]
    · simp only [h, dif_neg, not_false_iff, get?, hin, and_self, dif_pos]
  · have hc : ¬ b.Covers i j := fun h => by
      have hr := b.top_add_height_le
      have hc := b.left_add_width_le
      unfold Block.Covers at h
      omega
    rw [dif_neg hc, get?_eq_none hin]
    exact dif_neg hin

theorem ext_get? {m n : Matrix α} (hr : m.rows = n.rows) (hc : m.cols = n.cols)
    (h : ∀ i j, m.get? i j = n.get? i j) : m = n := by
  refine ext_get hr hc fun i j => ?_
  have hij := h i j
  rw [get?, get?, dif_pos ⟨i.isLt, j.isLt⟩, dif_pos ⟨hr ▸ i.isLt, hc ▸ j.isLt⟩] at hij
  exact Option.some.inj hij

end Matrix

namespace Value
variable {α : Type}

def cell? : Value α → Nat → Nat → Option α
  | .scalar a, _, _ => some a
  | .matrix m, i, j => m.get? i j

end Value

namespace Eval
variable {α : Type} [Element α] {node : NodeRef} {t u v a b c d : Value α} {rl ru cl cu : Int}

structure Reads (t v : Value α) (rl ru cl cu : Int) : Prop where
  target : t.isScalar = false
  rows : Inside rl ru t.rows
  cols : Inside cl cu t.cols
  result : v.isScalar = false
  height : v.rows = (ru - rl + 1).toNat
  width : v.cols = (cu - cl + 1).toNat
  cell : ∀ i j : Nat, i < v.rows → j < v.cols →
    v.cell? i j = t.cell? ((rl - 1).toNat + i) ((cl - 1).toNat + j)

structure Writes (t u v : Value α) (rl ru cl cu : Int) : Prop where
  target : t.isScalar = false
  rows : Inside rl ru t.rows
  cols : Inside cl cu t.cols
  source : u.isScalar = true ∨ u.rows = (ru - rl + 1).toNat ∧ u.cols = (cu - cl + 1).toNat
  result : v.isScalar = false
  height : v.rows = t.rows
  width : v.cols = t.cols
  cell : ∀ i j : Nat, v.cell? i j =
    if (rl ≤ i + 1 ∧ i + 1 ≤ ru) ∧ cl ≤ j + 1 ∧ j + 1 ≤ cu then
      u.cell? (i + 1 - rl).toNat (j + 1 - cl).toNat
    else t.cell? i j

structure Bounds (a b c d : Value α) (rl ru cl cu : Int) : Prop where
  rowLower : a.index? = some rl
  rowUpper : b.index? = some ru
  colLower : c.index? = some cl
  colUpper : d.index? = some cu

theorem reads_of_indexing (h : indexing node t a b c d = .ok v) :
    ∃ rl ru cl cu, Bounds a b c d rl ru cl cu ∧ Reads t v rl ru cl cu := by
  obtain ⟨m, blk, rfl, hblk, rfl⟩ := indexing_eq_ok_iff.1 h
  obtain ⟨rl, ru, cl, cu, ⟨hrl, hru, hcl, hcu⟩, hblk⟩ := blockOf_eq_ok_iff.1 hblk
  obtain ⟨⟨hrows, hcols⟩, htop, hleft, hheight, hwidth⟩ := block_eq_ok_iff.1 hblk
  refine ⟨rl, ru, cl, cu, ⟨hrl, hru, hcl, hcu⟩, rfl, hrows, hcols, rfl, hheight, hwidth, ?_⟩
  intro i j hi hj
  rw [← htop, ← hleft]
  exact m.get?_read blk ⟨hi, hj⟩

theorem exists_indexing (node : NodeRef) (hb : Bounds a b c d rl ru cl cu) (ht : t.isScalar = false)
    (hr : Inside rl ru t.rows) (hc : Inside cl cu t.cols) :
    ∃ v, indexing node t a b c d = .ok v := by
  cases t with
  | scalar _ => cases ht
  | matrix m =>
    obtain ⟨blk, hblk⟩ : ∃ blk, (block node m.rows m.cols rl ru cl cu : Except (EvalFault α) _) =
        .ok blk := ⟨_, dif_pos ⟨hr, hc⟩⟩
    exact ⟨_, indexing_eq_ok_iff.2 ⟨m, blk, rfl, blockOf_eq_ok_iff.2 ⟨rl, ru, cl, cu,
      ⟨hb.rowLower, hb.rowUpper, hb.colLower, hb.colUpper⟩, hblk⟩, rfl⟩⟩

omit [Element α] in
theorem cell?_writeBlock {m : Matrix α} {blk : Matrix.Block m.rows m.cols}
    (h : writeBlock node m blk u = .ok v) :
    (u.isScalar = true ∨ u.rows = blk.height ∧ u.cols = blk.width) ∧ ∃ m', v = .matrix m' ∧
      m'.rows = m.rows ∧ m'.cols = m.cols ∧ ∀ i j : Nat, m'.get? i j =
        if blk.Covers i j then u.cell? (i - blk.top) (j - blk.left) else m.get? i j := by
  cases u with
  | scalar a =>
    cases h
    refine ⟨.inl rfl, _, rfl, rfl, rfl, fun i j => ?_⟩
    rw [Matrix.get?_write]
    split <;> rfl
  | matrix n =>
    unfold writeBlock at h
    dsimp only at h
    split at h
    · rename_i hdims
      cases h
      refine ⟨.inr hdims, _, rfl, rfl, rfl, fun i j => ?_⟩
      rw [Matrix.get?_write]
      split
      · rename_i hcov
        have hin : i - blk.top < n.rows ∧ j - blk.left < n.cols := by
          unfold Matrix.Block.Covers at hcov
          omega
        show _ = n.get? _ _
        rw [Matrix.get?, dif_pos hin]
        rfl
      · rfl
    · cases h

theorem writes_of_leftIndexing (h : leftIndexing node t u a b c d = .ok v) :
    ∃ rl ru cl cu, Bounds a b c d rl ru cl cu ∧ Writes t u v rl ru cl cu := by
  obtain ⟨m, blk, rfl, hblk, hwrite⟩ := leftIndexing_eq_ok_iff.1 h
  obtain ⟨rl, ru, cl, cu, ⟨hrl, hru, hcl, hcu⟩, hblk⟩ := blockOf_eq_ok_iff.1 hblk
  obtain ⟨⟨hrows, hcols⟩, htop, hleft, hheight, hwidth⟩ := block_eq_ok_iff.1 hblk
  obtain ⟨hfit, m', rfl, hr, hc, hcell⟩ := cell?_writeBlock hwrite
  rw [hheight, hwidth] at hfit
  refine ⟨rl, ru, cl, cu, ⟨hrl, hru, hcl, hcu⟩, rfl, hrows, hcols, hfit, rfl, hr, hc, ?_⟩
  intro i j
  have hcov : blk.Covers i j ↔ (rl ≤ i + 1 ∧ (i : Int) + 1 ≤ ru) ∧ cl ≤ j + 1 ∧ (j : Int) + 1 ≤ cu := by
    unfold Matrix.Block.Covers
    unfold Inside at hrows hcols
    omega
  have hi : (i + 1 - rl).toNat = i - blk.top := by
    unfold Inside at hrows
    omega
  have hj : (j + 1 - cl).toNat = j - blk.left := by
    unfold Inside at hcols
    omega
  show m'.get? i j = _
  simp only [hcell i j, hcov, hi, hj]
  rfl

theorem exists_leftIndexing (hb : Bounds a b c d rl ru cl cu) (ht : t.isScalar = false)
    (hr : Inside rl ru t.rows) (hc : Inside cl cu t.cols)
    (hu : u.isScalar = true ∨ u.rows = (ru - rl + 1).toNat ∧ u.cols = (cu - cl + 1).toNat) :
    ∃ v, leftIndexing node t u a b c d = .ok v := by
  cases t with
  | scalar _ => cases ht
  | matrix m =>
    obtain ⟨blk, hblk⟩ : ∃ blk, (block node m.rows m.cols rl ru cl cu : Except (EvalFault α) _) =
        .ok blk := ⟨_, dif_pos ⟨hr, hc⟩⟩
    obtain ⟨-, -, -, hheight, hwidth⟩ := block_eq_ok_iff.1 hblk
    obtain ⟨v, hv⟩ : ∃ v, writeBlock node m blk u = .ok v := by
      cases u with
      | scalar a => exact ⟨_, rfl⟩
      | matrix n =>
        rcases hu with hu | hu
        · cases hu
        · rw [← hheight, ← hwidth] at hu
          exact ⟨_, dif_pos hu⟩
    exact ⟨v, leftIndexing_eq_ok_iff.2 ⟨m, blk, rfl, blockOf_eq_ok_iff.2 ⟨rl, ru, cl, cu,
      ⟨hb.rowLower, hb.rowUpper, hb.colLower, hb.colUpper⟩, hblk⟩, hv⟩⟩

end Eval

namespace Optimizer.Slicing.Axis
open Eval
variable {α : Type}

def lines : Axis → Value α → Nat
  | .row, v => v.rows
  | .col, v => v.cols

def breadth : Axis → Value α → Nat
  | .row, v => v.cols
  | .col, v => v.rows

def cellAt? : Axis → Value α → Nat → Nat → Option α
  | .row, v, i, j => v.cell? i j
  | .col, v, i, j => v.cell? j i

theorem cellAt?_eq_none (axis : Axis) {v : Value α} (hv : v.isScalar = false) {i j : Nat}
    (h : ¬ (i < axis.lines v ∧ j < axis.breadth v)) : axis.cellAt? v i j = none := by
  cases v with
  | scalar _ => cases hv
  | matrix m =>
    cases axis with
    | row => exact Matrix.get?_eq_none h
    | col => exact Matrix.get?_eq_none (fun h' => h h'.symm)

theorem ext_cellAt? (axis : Axis) {v w : Value α} (hv : v.isScalar = false)
    (hw : w.isScalar = false) (hl : axis.lines v = axis.lines w)
    (hb : axis.breadth v = axis.breadth w) (h : ∀ i j, axis.cellAt? v i j = axis.cellAt? w i j) :
    v = w := by
  cases v with
  | scalar _ => cases hv
  | matrix m =>
    cases w with
    | scalar _ => cases hw
    | matrix n =>
      cases axis with
      | row => exact congrArg _ (Matrix.ext_get? hl hb h)
      | col => exact congrArg _ (Matrix.ext_get? hb hl fun i j => h j i)

structure IsLine (axis : Axis) (t : Value α) (r : Nat) (w : Value α) : Prop where
  matrix : w.isScalar = false
  lines : axis.lines w = 1
  breadth : axis.breadth w = axis.breadth t
  cell : ∀ j, axis.cellAt? w 0 j = axis.cellAt? t r j

/-- Two matrices that differ in one line at most. -/
structure SameOff (axis : Axis) (r : Nat) (t v : Value α) : Prop where
  target : t.isScalar = false
  result : v.isScalar = false
  lines : axis.lines v = axis.lines t
  breadth : axis.breadth v = axis.breadth t
  cell : ∀ i j, i ≠ r → axis.cellAt? v i j = axis.cellAt? t i j

theorem SameOff.refl (axis : Axis) (r : Nat) {t : Value α} (ht : t.isScalar = false) :
    axis.SameOff r t t := ⟨ht, ht, rfl, rfl, fun _ _ _ => rfl⟩

theorem SameOff.trans {axis : Axis} {r : Nat} {t u v : Value α} (h : axis.SameOff r t u)
    (h' : axis.SameOff r u v) : axis.SameOff r t v :=
  ⟨h.target, h'.result, h'.lines.trans h.lines, h'.breadth.trans h.breadth,
    fun i j hi => (h'.cell i j hi).trans (h.cell i j hi)⟩

variable [Element α] {axis : Axis} {node : NodeRef} {t u v a b c d : Value α} {r : Nat}

def readValue (axis : Axis) (node : NodeRef) (t a b c d : Value α) : Except (EvalFault α) (Value α) :=
  match axis with
  | .row => indexing node t a b c d
  | .col => indexing node t c d a b

def writeValue (axis : Axis) (node : NodeRef) (t u a b c d : Value α) :
    Except (EvalFault α) (Value α) :=
  match axis with
  | .row => leftIndexing node t u a b c d
  | .col => leftIndexing node t u c d a b

structure WritesLine (axis : Axis) (t u v : Value α) (r : Nat) (lo hi : Int) : Prop where
  target : t.isScalar = false
  line : r < axis.lines t
  inside : Inside lo hi (axis.breadth t)
  source : u.isScalar = true ∨ axis.lines u = 1 ∧ axis.breadth u = (hi - lo + 1).toNat
  result : v.isScalar = false
  lines : axis.lines v = axis.lines t
  breadth : axis.breadth v = axis.breadth t
  cell : ∀ i j : Nat, axis.cellAt? v i j =
    if i = r ∧ lo ≤ j + 1 ∧ j + 1 ≤ hi then axis.cellAt? u 0 (j + 1 - lo).toNat
    else axis.cellAt? t i j

theorem writesLine_of_writeValue (h : axis.writeValue node t u a b c d = .ok v)
    (ha : a.index? = some ((r : Int) + 1)) (hb : b.index? = some ((r : Int) + 1)) :
    ∃ lo hi, c.index? = some lo ∧ d.index? = some hi ∧ axis.WritesLine t u v r lo hi := by
  have hiff : ∀ {i : Nat}, ((r : Int) + 1 ≤ i + 1 ∧ (i : Int) + 1 ≤ r + 1) ↔ i = r := by omega
  have hzero : ∀ {i : Nat}, i = r → ((i : Int) + 1 - (r + 1)).toNat = 0 := by omega
  cases axis with
  | row =>
    obtain ⟨rl, ru, lo, hi, hbd, hw⟩ := writes_of_leftIndexing h
    obtain rfl := Option.some.inj (hbd.rowLower.symm.trans ha)
    obtain rfl := Option.some.inj (hbd.rowUpper.symm.trans hb)
    refine ⟨lo, hi, hbd.colLower, hbd.colUpper, hw.target, ?_, hw.cols, ?_, hw.result, hw.height,
      hw.width, fun i j => ?_⟩
    · have hin := hw.rows
      unfold Inside at hin
      show r < t.rows
      omega
    · have hone : ((r : Int) + 1 - (r + 1) + 1).toNat = 1 := by omega
      have hsrc := hw.source
      rw [hone] at hsrc
      exact hsrc
    · show v.cell? i j = _
      rw [hw.cell i j]
      simp only [hiff]
      split
      · rename_i hin
        rw [hzero hin.1]
        rfl
      · rfl
  | col =>
    obtain ⟨lo, hi, cl, cu, hbd, hw⟩ := writes_of_leftIndexing h
    obtain rfl := Option.some.inj (hbd.colLower.symm.trans ha)
    obtain rfl := Option.some.inj (hbd.colUpper.symm.trans hb)
    refine ⟨lo, hi, hbd.rowLower, hbd.rowUpper, hw.target, ?_, hw.rows, ?_, hw.result, hw.width,
      hw.height, fun i j => ?_⟩
    · have hin := hw.cols
      unfold Inside at hin
      show r < t.cols
      omega
    · have hone : ((r : Int) + 1 - (r + 1) + 1).toNat = 1 := by omega
      have hsrc := hw.source
      rw [hone] at hsrc
      exact hsrc.imp_right And.symm
    · show v.cell? j i = _
      rw [hw.cell j i]
      simp only [hiff, and_comm (b := i = r)]
      split
      · rename_i hin
        rw [hzero hin.1]
        rfl
      · rfl

theorem exists_writeValue (node : NodeRef) {lo hi : Int} (ha : a.index? = some ((r : Int) + 1))
    (hb : b.index? = some ((r : Int) + 1)) (hc : c.index? = some lo) (hd : d.index? = some hi)
    (ht : t.isScalar = false) (hr : r < axis.lines t) (hin : Inside lo hi (axis.breadth t))
    (hu : u.isScalar = true ∨ axis.lines u = 1 ∧ axis.breadth u = (hi - lo + 1).toNat) :
    ∃ v, axis.writeValue node t u a b c d = .ok v := by
  have hone : ((r : Int) + 1 - (r + 1) + 1).toNat = 1 := by omega
  have hline : Inside (r + 1) (r + 1) (axis.lines t) := by
    unfold Inside
    omega
  cases axis with
  | row =>
    refine exists_leftIndexing ⟨ha, hb, hc, hd⟩ ht hline hin ?_
    rw [hone]
    exact hu
  | col =>
    refine exists_leftIndexing ⟨hc, hd, ha, hb⟩ ht hin hline ?_
    rw [hone]
    exact hu.imp_right And.symm

theorem exists_readValue (node : NodeRef) (ha : a.index? = some ((r : Int) + 1)) (hb : b.index? = some ((r : Int) + 1))
    (hc : c.index? = some 1) (hd : d.index? = some (axis.breadth t : Int)) (ht : t.isScalar = false)
    (hr : r < axis.lines t) (hpos : 0 < axis.breadth t) :
    ∃ w, axis.readValue node t a b c d = .ok w ∧ axis.IsLine t r w := by
  have hone : ((r : Int) + 1 - (r + 1) + 1).toNat = 1 := by omega
  have hall : ∀ n : Nat, ((n : Int) - 1 + 1).toNat = n := by omega
  have hfrom : ((r : Int) + 1 - 1).toNat + 0 = r := by omega
  have hline : Inside (r + 1) (r + 1) (axis.lines t) := by
    unfold Inside
    omega
  have hwhole : Inside 1 (axis.breadth t) (axis.breadth t) := by
    unfold Inside
    omega
  cases axis with
  | row =>
    obtain ⟨w, hw⟩ := exists_indexing node ⟨ha, hb, hc, hd⟩ ht hline hwhole
    obtain ⟨rl, ru, cl, cu, hbd, hread⟩ := reads_of_indexing hw
    obtain rfl := Option.some.inj (hbd.rowLower.symm.trans ha)
    obtain rfl := Option.some.inj (hbd.rowUpper.symm.trans hb)
    obtain rfl := Option.some.inj (hbd.colLower.symm.trans hc)
    obtain rfl := Option.some.inj (hbd.colUpper.symm.trans hd)
    have hheight : w.rows = 1 := hread.height.trans hone
    have hwidth : w.cols = t.cols := hread.width.trans (hall _)
    refine ⟨w, hw, hread.result, hheight, hwidth, fun j => ?_⟩
    by_cases hj : j < t.cols
    · refine (hread.cell 0 j (by omega) (by omega)).trans ?_
      rw [hfrom]
      show t.cell? r _ = t.cell? r j
      congr 1
      omega
    · rw [cellAt?_eq_none .row hread.result fun h => hj (hwidth ▸ h.2),
        cellAt?_eq_none .row ht fun h => hj h.2]
  | col =>
    obtain ⟨w, hw⟩ := exists_indexing node ⟨hc, hd, ha, hb⟩ ht hwhole hline
    obtain ⟨rl, ru, cl, cu, hbd, hread⟩ := reads_of_indexing hw
    obtain rfl := Option.some.inj (hbd.colLower.symm.trans ha)
    obtain rfl := Option.some.inj (hbd.colUpper.symm.trans hb)
    obtain rfl := Option.some.inj (hbd.rowLower.symm.trans hc)
    obtain rfl := Option.some.inj (hbd.rowUpper.symm.trans hd)
    have hwidth : w.cols = 1 := hread.width.trans hone
    have hheight : w.rows = t.rows := hread.height.trans (hall _)
    refine ⟨w, hw, hread.result, hwidth, hheight, fun j => ?_⟩
    by_cases hj : j < t.rows
    · refine (hread.cell j 0 (by omega) (by omega)).trans ?_
      rw [hfrom]
      show t.cell? _ r = t.cell? j r
      congr 1
      omega
    · rw [cellAt?_eq_none .col hread.result fun h => hj (hheight ▸ h.2),
        cellAt?_eq_none .col ht fun h => hj h.2]

theorem write_in_line (node' : NodeRef) {w one one' : Value α} (h : axis.writeValue node t u a b c d = .ok v)
    (ha : a.index? = some ((r : Int) + 1)) (hb : b.index? = some ((r : Int) + 1)) (h1 : one.index? = some 1)
    (h1' : one'.index? = some 1) (hw : axis.IsLine t r w) :
    axis.SameOff r t v ∧
      ∃ w', axis.writeValue node' w u one one' c d = .ok w' ∧ axis.IsLine v r w' := by
  obtain ⟨lo, hi, hc, hd, hwr⟩ := writesLine_of_writeValue h ha hb
  refine ⟨⟨hwr.target, hwr.result, hwr.lines, hwr.breadth, fun i j hi => ?_⟩, ?_⟩
  · rw [hwr.cell i j, if_neg fun hin => hi hin.1]
  · obtain ⟨w', hw'⟩ := exists_writeValue node' (r := 0) h1 h1' hc hd hw.matrix
      (by rw [hw.lines]; exact Nat.one_pos) (hw.breadth ▸ hwr.inside) hwr.source
    obtain ⟨lo', hi', hc', hd', hwr'⟩ := writesLine_of_writeValue hw' (r := 0) h1 h1'
    obtain rfl := Option.some.inj (hc.symm.trans hc')
    obtain rfl := Option.some.inj (hd.symm.trans hd')
    refine ⟨w', hw', hwr'.result, hwr'.lines.trans hw.lines, ?_, fun j => ?_⟩
    · rw [hwr'.breadth, hw.breadth, hwr.breadth]
    · rw [hwr'.cell 0 j, hwr.cell r j, hw.cell j]
      simp only [true_and]

theorem write_back {w : Value α} (hs : axis.SameOff r t v) (hw : axis.IsLine v r w)
    (ha : a.index? = some ((r : Int) + 1)) (hb : b.index? = some ((r : Int) + 1)) (hc : c.index? = some 1)
    (hd : d.index? = some (axis.breadth t : Int)) (hr : r < axis.lines t) (hpos : 0 < axis.breadth t) :
    axis.writeValue node t w a b c d = .ok v := by
  have hwhole : Inside 1 (axis.breadth t) (axis.breadth t) := by
    unfold Inside
    omega
  have hsource : w.isScalar = true ∨
      axis.lines w = 1 ∧ axis.breadth w = ((axis.breadth t : Int) - 1 + 1).toNat := by
    refine .inr ⟨hw.lines, ?_⟩
    rw [hw.breadth, hs.breadth]
    omega
  obtain ⟨v', hv'⟩ := exists_writeValue node ha hb hc hd hs.target hr hwhole hsource
  obtain ⟨lo, hi, hc', hd', hwr⟩ := writesLine_of_writeValue hv' ha hb
  obtain rfl := Option.some.inj (hc.symm.trans hc')
  obtain rfl := Option.some.inj (hd.symm.trans hd')
  rw [hv', axis.ext_cellAt? hwr.result hs.result (hwr.lines.trans hs.lines.symm)
    (hwr.breadth.trans hs.breadth.symm) fun i j => ?_]
  rw [hwr.cell i j]
  split
  · rename_i hin
    rw [hin.1, ← hw.cell]
    congr 1
    omega
  · rename_i hout
    by_cases hi : i = r
    · -- A position behind the end of the line.
      have hj : ¬ j < axis.breadth t := by omega
      rw [axis.cellAt?_eq_none hs.target fun h => hj h.2,
        axis.cellAt?_eq_none hs.result fun h => hj (hs.breadth ▸ h.2)]
    · exact (hs.cell i j hi).symm

end Optimizer.Slicing.Axis

end LinearPlan
