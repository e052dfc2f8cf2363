import LinearPlan.Proofs.Evaluation

/-!
# Slices of values

The bounds of a slice are values that stand for integers. An operation on a slice succeeds when the
bounds lie inside the matrix, and then depends on nothing but the integers they stand for.
-/
namespace LinearPlan

namespace Value
variable {α : Type} [Element α]

/-- The integer that a value stands for as a bound. -/
def index? : Value α → Option Int
  | .scalar a => Element.toInt? a
  | .matrix _ => none

end Value

namespace Eval
variable {α : Type} [Element α] {node : NodeRef}

omit [Element α] in
theorem asMatrix_eq_ok_iff {v : Value α} {m : Matrix α} : asMatrix node v = .ok m ↔ v = .matrix m := by
  cases v <;> simp [asMatrix]

omit [Element α] in
theorem nonempty_eq_ok_iff {m : Matrix α} {v : Value α} :
    nonempty m = .ok v ↔ (m.rows ≠ 0 ∧ m.cols ≠ 0) ∧ v = .matrix m := by
  unfold nonempty
  by_cases h : m.rows = 0 ∨ m.cols = 0
  · have hne : ¬ (m.rows ≠ 0 ∧ m.cols ≠ 0) := by omega
    simp [h, hne]
  · simp [not_or.1 h, eq_comm]

theorem bound_eq_ok_iff {v : Value α} {n : Int} : bound node v = .ok n ↔ v.index? = some n := by
  cases v with
  | matrix m => simp [bound, Value.index?]
  | scalar a =>
    simp only [bound, Value.index?]
    cases Element.toInt? a <;> simp

def Inside (lower upper : Int) (n : Nat) : Prop := 1 ≤ lower ∧ lower ≤ upper ∧ upper ≤ n

omit [Element α] in
theorem block_eq_ok_iff {rows cols : Nat} {rl ru cl cu : Int} {b : Matrix.Block rows cols} :
    (block node rows cols rl ru cl cu : Except (EvalFault α) _) = .ok b ↔
      (Inside rl ru rows ∧ Inside cl cu cols) ∧ b.top = (rl - 1).toNat ∧ b.left = (cl - 1).toNat ∧
        b.height = (ru - rl + 1).toNat ∧ b.width = (cu - cl + 1).toNat := by
  unfold block Inside
  split
  · rename_i h
    simp only [Except.ok.injEq]
    constructor
    · rintro rfl
      exact ⟨h, rfl, rfl, rfl, rfl⟩
    · rintro ⟨-, htop, hleft, hheight, hwidth⟩
      cases b
      simp_all
  · simp_all

theorem blockOf_eq_ok_iff {rows cols : Nat} {a b c d : Value α} {blk : Matrix.Block rows cols} :
    blockOf node rows cols a b c d = .ok blk ↔ ∃ rl ru cl cu, (a.index? = some rl ∧
      b.index? = some ru ∧ c.index? = some cl ∧ d.index? = some cu) ∧
      (block node rows cols rl ru cl cu : Except (EvalFault α) _) = .ok blk := by
  simp only [blockOf, Outcome.bind_eq_ok_iff, bound_eq_ok_iff]
  constructor
  · rintro ⟨rl, hrl, ru, hru, cl, hcl, cu, hcu, h⟩
    exact ⟨rl, ru, cl, cu, ⟨hrl, hru, hcl, hcu⟩, h⟩
  · rintro ⟨rl, ru, cl, cu, ⟨hrl, hru, hcl, hcu⟩, h⟩
    exact ⟨rl, hrl, ru, hru, cl, hcl, cu, hcu, h⟩

theorem indexing_eq_ok_iff {t a b c d v : Value α} :
    indexing node t a b c d = .ok v ↔ ∃ m blk, t = .matrix m ∧
      blockOf node m.rows m.cols a b c d = .ok blk ∧ v = .matrix (m.read blk) := by
  simp only [indexing, Outcome.bind_eq_ok_iff, asMatrix_eq_ok_iff]
  constructor
  · rintro ⟨m, hm, blk, hblk, h⟩
    exact ⟨m, blk, hm, hblk, (Except.ok.inj h).symm⟩
  · rintro ⟨m, blk, hm, hblk, rfl⟩
    exact ⟨m, hm, blk, hblk, rfl⟩

theorem leftIndexing_eq_ok_iff {t u a b c d v : Value α} :
    leftIndexing node t u a b c d = .ok v ↔ ∃ m blk, t = .matrix m ∧
      blockOf node m.rows m.cols a b c d = .ok blk ∧ writeBlock node m blk u = .ok v := by
  simp only [leftIndexing, Outcome.bind_eq_ok_iff, asMatrix_eq_ok_iff]
  constructor
  · rintro ⟨m, hm, blk, hblk, h⟩
    exact ⟨m, blk, hm, hblk, h⟩
  · rintro ⟨m, blk, hm, hblk, h⟩
    exact ⟨m, hm, blk, hblk, h⟩

omit [Element α] in
theorem writeBlock_dims {m : Matrix α} {b : Matrix.Block m.rows m.cols} {u v : Value α}
    (h : writeBlock node m b u = .ok v) : ∃ m', v = .matrix m' ∧ m'.rows = m.rows ∧ m'.cols = m.cols := by
  unfold writeBlock at h
  cases u with
  | scalar a =>
    cases h
    exact ⟨_, rfl, rfl, rfl⟩
  | matrix n =>
    dsimp only at h
    split at h
    · cases h
      exact ⟨_, rfl, rfl, rfl⟩
    · cases h

end Eval
end LinearPlan
