import LinearPlan.Chain.Kernel
import Mathlib.Algebra.Order.Floor.Semiring
import Mathlib.Data.Rat.Floor

/-!
# Blocks of rows

The rows of a matrix are cut into blocks of one size, a block for each worker. The size is rounded up,
so the last blocks may begin behind the last row and are skipped. The other blocks come first, and one
after the other they are all rows, from the first to the last.
-/
namespace LinearPlan.Chain

variable {rows workers : Nat}

theorem numBlocks_pos (rows workers : Nat) : 0 < numBlocks rows workers := by
  unfold numBlocks
  omega

theorem numBlocks_eq_min (hrows : 1 ≤ rows) (hworkers : 1 ≤ workers) :
    numBlocks rows workers = min workers rows := by
  unfold numBlocks
  omega

theorem div_round_up {n : Nat} (hn : 0 < n) (m : Nat) :
    (m + n - 1) / n = ⌈(m : ℚ) / (n : ℚ)⌉₊ := by
  apply eq_of_forall_ge_iff
  intro c
  have hpos : (0 : ℚ) < n := by exact_mod_cast hn
  rw [Nat.ceil_le, div_le_iff₀ hpos, ← Nat.lt_succ_iff, Nat.div_lt_iff_lt_mul hn, Nat.succ_mul]
  norm_cast
  omega

theorem le_numBlocks_mul_blockSize (rows workers : Nat) :
    rows ≤ numBlocks rows workers * blockSize rows workers := by
  have hpos := numBlocks_pos rows workers
  unfold blockSize
  generalize numBlocks rows workers = n at *
  have hmod := Nat.div_add_mod (rows + n - 1) n
  have hlt := Nat.mod_lt (rows + n - 1) hpos
  omega

theorem blockSize_pos (hrows : 1 ≤ rows) (workers : Nat) : 0 < blockSize rows workers := by
  have hle := le_numBlocks_mul_blockSize rows workers
  by_contra hzero
  rw [Nat.eq_zero_of_not_pos hzero] at hle
  omega

theorem snd_le_of_mem_blocks {r : Nat × Nat} (hr : r ∈ blocks rows workers) : r.2 ≤ rows := by
  obtain ⟨b, -, rfl⟩ := List.mem_map.1 hr
  exact Nat.min_le_right _ _

theorem flatMap_range_take {β : Type} (l : List β) (size n : Nat) :
    (List.range n).flatMap (fun b => (l.drop (b * size)).take size) = l.take (n * size) := by
  induction n with
  | zero => simp
  | succ n ih =>
    rw [List.range_succ, List.flatMap_append, ih, Nat.succ_mul, List.take_add]
    simp

theorem flatMap_blocks {β : Type} (l : List β) (workers : Nat) :
    (blocks l.length workers).flatMap (fun r => (l.drop r.1).take (r.2 - r.1)) = l := by
  have hblock (b : Nat) : (l.drop (b * blockSize l.length workers)).take
      (min (b * blockSize l.length workers + blockSize l.length workers) l.length -
        b * blockSize l.length workers) =
      (l.drop (b * blockSize l.length workers)).take (blockSize l.length workers) := by
    rw [List.take_eq_take_iff, List.length_drop]
    omega
  rw [blocks, List.flatMap_map]
  simp only [hblock]
  rw [flatMap_range_take, List.take_of_length_le (le_numBlocks_mul_blockSize _ _)]

def numWorked (rows workers : Nat) : Nat :=
  (rows + blockSize rows workers - 1) / blockSize rows workers

theorem lt_numWorked_iff (hrows : 1 ≤ rows) (workers : Nat) {b : Nat} :
    b < numWorked rows workers ↔ b * blockSize rows workers < rows := by
  have hpos := blockSize_pos hrows workers
  unfold numWorked
  rw [← Nat.succ_le_iff, Nat.le_div_iff_mul_le hpos, Nat.succ_mul]
  omega

theorem numWorked_le (hrows : 1 ≤ rows) (workers : Nat) :
    numWorked rows workers ≤ numBlocks rows workers := by
  by_contra hlt
  have hstart := (lt_numWorked_iff hrows workers).1 (not_le.1 hlt)
  exact absurd (le_numBlocks_mul_blockSize rows workers) (not_le.2 hstart)

theorem blocks_split (hrows : 1 ≤ rows) (workers : Nat) :
    ∃ worked skipped, blocks rows workers = worked ++ skipped ∧ (∀ r ∈ worked, r.1 < r.2) ∧
      ∀ r ∈ skipped, r.2 ≤ r.1 := by
  have hpos := blockSize_pos hrows workers
  obtain ⟨k, hk⟩ := Nat.exists_eq_add_of_le (numWorked_le hrows workers)
  unfold blocks
  rw [hk, List.range_add, List.map_append]
  refine ⟨_, _, rfl, fun r hr => ?_, fun r hr => ?_⟩
  · obtain ⟨b, hb, rfl⟩ := List.mem_map.1 hr
    have hstart := (lt_numWorked_iff hrows workers).1 (List.mem_range.1 hb)
    exact lt_min (Nat.lt_add_of_pos_right hpos) hstart
  · obtain ⟨b, hb, rfl⟩ := List.mem_map.1 hr
    obtain ⟨i, -, rfl⟩ := List.mem_map.1 hb
    have hbehind : ¬ numWorked rows workers + i < numWorked rows workers := by omega
    rw [lt_numWorked_iff hrows, Nat.not_lt] at hbehind
    exact (Nat.min_le_right _ _).trans hbehind

theorem take_drop_range {start stop : Nat} (h : stop ≤ rows) :
    ((List.range rows).drop start).take (stop - start) = List.range' start (stop - start) := by
  rw [List.range_eq_range', List.drop_range', List.take_range'_of_length_ge (by omega)]
  simp

/-- The blocks with rows come first, the blocks without are skipped, no block goes beyond the last row,
and the rows of the blocks are all rows in their order, each of them once. -/
theorem blocks_partition_rows (rows workers : Nat) (hrows : 1 ≤ rows) (hworkers : 1 ≤ workers) :
    numBlocks rows workers = min workers rows ∧
    blockSize rows workers = ⌈(rows : ℚ) / (min workers rows : ℕ)⌉₊ ∧
    (∀ r ∈ blocks rows workers, r.2 ≤ rows) ∧
    ∃ worked skipped, blocks rows workers = worked ++ skipped ∧
      (∀ r ∈ worked, r.1 < r.2) ∧ (∀ r ∈ skipped, r.2 ≤ r.1) ∧
      worked.flatMap (fun r => List.range' r.1 (r.2 - r.1)) = List.range rows ∧
      ∀ (β : Type) (l : List β), l.length = rows →
        worked.flatMap (fun r => (l.drop r.1).take (r.2 - r.1)) = l ∧
        ∀ r ∈ skipped, (l.drop r.1).take (r.2 - r.1) = [] := by
  obtain ⟨worked, skipped, hsplit, hworked, hskipped⟩ := blocks_split hrows workers
  have hnone : ∀ (β : Type) (l : List β), ∀ r ∈ skipped, (l.drop r.1).take (r.2 - r.1) = [] := by
    intro β l r hr
    rw [Nat.sub_eq_zero_of_le (hskipped r hr), List.take_zero]
  have hall : ∀ (β : Type) (l : List β), l.length = rows →
      worked.flatMap (fun r => (l.drop r.1).take (r.2 - r.1)) = l := by
    rintro β l rfl
    have hblocks := flatMap_blocks l workers
    rwa [hsplit, List.flatMap_append, List.flatMap_eq_nil_iff.2 (hnone β l), List.append_nil]
      at hblocks
  have hsize : blockSize rows workers = ⌈(rows : ℚ) / (numBlocks rows workers : ℕ)⌉₊ :=
    div_round_up (numBlocks_pos rows workers) rows
  rw [numBlocks_eq_min hrows hworkers] at hsize
  refine ⟨numBlocks_eq_min hrows hworkers, hsize, fun r => snd_le_of_mem_blocks, worked, skipped,
    hsplit, hworked, hskipped, ?_, fun β l hl => ⟨hall β l hl, hnone β l⟩⟩
  rw [← hall Nat (List.range rows) List.length_range]
  apply List.flatMap_congr
  intro r hr
  have hle : r.2 ≤ rows := snd_le_of_mem_blocks (hsplit ▸ List.mem_append_left skipped hr)
  exact (take_drop_range hle).symm

theorem blocks_partition_rows_ten :
    blocks 10 7 = [(0, 2), (2, 4), (4, 6), (6, 8), (8, 10)] ++ [(10, 10), (12, 10)] ∧
      numBlocks 10 7 = 7 ∧ blockSize 10 7 = ⌈(10 : ℚ) / (7 : ℕ)⌉₊ ∧
      ∃ worked skipped, blocks 10 7 = worked ++ skipped ∧ (∀ r ∈ worked, r.1 < r.2) ∧
        (∀ r ∈ skipped, r.2 ≤ r.1) ∧
        worked.flatMap (fun r => List.range' r.1 (r.2 - r.1)) = List.range 10 := by
  obtain ⟨hnum, hsize, -, worked, skipped, hsplit, hworked, hskipped, hrows, -⟩ :=
    blocks_partition_rows 10 7 (by decide) (by decide)
  exact ⟨by decide, hnum, by exact_mod_cast hsize, worked, skipped, hsplit, hworked, hskipped, hrows⟩

end LinearPlan.Chain
