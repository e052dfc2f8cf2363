import LinearPlan.Optimizer.Factoring
import LinearPlan.Proofs.Edits
import Mathlib.Data.List.Sort
import Mathlib.Data.Prod.Lex

/-!
# The order of the leaves

Leaves are compared by a key: their class, their density if the class counts it, and their id. The
order is that of the keys, so it is total and only a leaf itself compares as equal. Leaves in any
order are sorted to the same list, by any way to sort.
-/
namespace LinearPlan

namespace Graph
variable {g : Graph} {x : NodeId} {n : Node}

def shapeOf (g : Graph) (x : NodeId) : Shape := ((g.get? x).map Node.shape).getD .initial

theorem shapeOf_eq (hn : g.get? x = some n) : g.shapeOf x = n.shape := by
  rw [shapeOf, hn]
  rfl

end Graph

def Shape.group (s : Shape) : Nat :=
  if s.isScalar then 0 else if s.isColVector then 1 else if s.isRowVector then 2
  else if s.isMatrix then 3 else 4

namespace Optimizer.Factoring
open LinearPlan.Graph
variable {g : Graph} {a b c : NodeId} {leaves : List NodeId}

theorem TermClass.rank_injective : Function.Injective TermClass.rank := by
  intro c d h
  cases c <;> cases d <;> first | rfl | cases h

theorem TermClass.compare_rank {c d : TermClass} : compare c.rank d.rank = .eq ↔ c = d := by
  rw [compare_eq_iff_eq, TermClass.rank_injective.eq_iff]

def leafKey (a : NodeId × Shape) : Nat ×ₗ Int ×ₗ Int :=
  toLex ((classify a.2).rank, toLex (if (classify a.2).byDensity then -a.2.nnz else 0, a.1))

theorem compare_neg_neg (m n : Int) : compare (-m) (-n) = compare n m := by
  simp only [compare, compareOfLessAndEq]
  split_ifs <;> first | rfl | omega

theorem compareLeaves_eq_compare (a b : NodeId × Shape) :
    compareLeaves a b = compare (leafKey a) (leafKey b) := by
  have hkey : compare (leafKey a) (leafKey b) =
      (compare (classify a.2).rank (classify b.2).rank).then
        ((compare (if (classify a.2).byDensity then -a.2.nnz else 0)
          (if (classify b.2).byDensity then -b.2.nnz else 0)).then (compare a.1 b.1)) := rfl
  rw [hkey, compareLeaves]
  -- Densities are looked at only if the classes are the same.
  by_cases hc : classify a.2 = classify b.2
  · rw [hc]
    cases hd : (classify b.2).byDensity with
    | true => simp [compare_neg_neg]
    | false => simp
  · cases hr : compare (classify a.2).rank (classify b.2).rank with
    | eq => exact absurd (TermClass.compare_rank.1 hr) hc
    | lt => rfl
    | gt => rfl

def compareNodes (g : Graph) (a b : NodeId) : Ordering :=
  compareLeaves (a, g.shapeOf a) (b, g.shapeOf b)

def nodeKey (g : Graph) (a : NodeId) : Nat ×ₗ Int ×ₗ Int := leafKey (a, g.shapeOf a)

theorem nodeKey_injective (g : Graph) : Function.Injective (nodeKey g) := fun _ _ h =>
  congrArg (fun k : Nat ×ₗ Int ×ₗ Int => (ofLex (ofLex k).2).2) h

theorem compareNodes_eq (g : Graph) (a b : NodeId) :
    compareNodes g a b = compare (nodeKey g a) (nodeKey g b) := compareLeaves_eq_compare _ _

theorem compareNodes_eq_lt : compareNodes g a b = .lt ↔ nodeKey g a < nodeKey g b := by
  rw [compareNodes_eq, compare_lt_iff_lt]

theorem compareNodes_eq_eq : compareNodes g a b = .eq ↔ a = b := by
  rw [compareNodes_eq, compare_eq_iff_eq, (nodeKey_injective g).eq_iff]

theorem compareNodes_ne_gt : compareNodes g a b ≠ .gt ↔ nodeKey g a ≤ nodeKey g b := by
  rw [compareNodes_eq, compare_le_iff_le]

theorem compareNodes_lt_trans (hab : compareNodes g a b = .lt) (hbc : compareNodes g b c = .lt) :
    compareNodes g a c = .lt :=
  compareNodes_eq_lt.2 ((compareNodes_eq_lt.1 hab).trans (compareNodes_eq_lt.1 hbc))

theorem compareNodes_swap (g : Graph) (a b : NodeId) :
    compareNodes g b a = (compareNodes g a b).swap := by
  rw [compareNodes_eq, compareNodes_eq]
  exact Std.OrientedCmp.eq_swap

theorem group_eq (s : Shape) : s.group = min (classify s).rank 4 := by
  unfold Shape.group Shape.isScalar Shape.isColVector Shape.isRowVector Shape.isMatrix classify
  cases s.dataType <;> simp [TermClass.rank]
  split_ifs <;> rfl

/-- A factor stands before another one: its group is no later, and among matrices of one group it
has no fewer entries. A count that is not known is negative, and so comes last. -/
structure Before (g : Graph) (a b : NodeId) : Prop where
  group : (g.shapeOf a).group ≤ (g.shapeOf b).group
  density : (g.shapeOf a).group = (g.shapeOf b).group → (g.shapeOf a).isMatrix = true →
    (g.shapeOf b).nnz ≤ (g.shapeOf a).nnz

theorem classify_of_isMatrix {s : Shape} (h : s.isMatrix = true) :
    (classify s).byDensity = true ∧ (classify s).rank < 4 := by
  unfold classify
  rw [show s.dataType = .matrix from eq_of_beq h]
  split_ifs <;> decide

theorem before_of_nodeKey (h : nodeKey g a ≤ nodeKey g b) : Before g a b := by
  obtain ⟨hrank, hnext⟩ := Prod.Lex.toLex_le_toLex'.1 h
  replace hrank : (classify (g.shapeOf a)).rank ≤ (classify (g.shapeOf b)).rank := hrank
  refine ⟨?_, fun hgroup hm => ?_⟩
  · rw [group_eq, group_eq]
    omega
  · obtain ⟨hdense, hlt⟩ := classify_of_isMatrix hm
    rw [group_eq, group_eq] at hgroup
    have hclass : classify (g.shapeOf a) = classify (g.shapeOf b) :=
      TermClass.rank_injective (by omega)
    have hkey := (Prod.Lex.toLex_le_toLex'.1 (hnext (congrArg TermClass.rank hclass))).1
    simp only [← hclass, hdense, if_true] at hkey
    omega

theorem precedes_ok (ha : ∃ n, g.get? a = some n) (hb : ∃ n, g.get? b = some n) :
    precedes g a b = .ok (decide (nodeKey g a < nodeKey g b)) := by
  obtain ⟨m, hm⟩ := ha
  obtain ⟨n, hn⟩ := hb
  unfold precedes
  rw [node_ok hm, node_ok hn]
  show Except.ok (compareLeaves (a, m.shape) (b, n.shape) == .lt) = _
  rw [← shapeOf_eq hm, ← shapeOf_eq hn]
  refine congrArg Except.ok ?_
  rw [Bool.eq_iff_iff, beq_iff_eq, decide_eq_true_eq]
  exact compareNodes_eq_lt

theorem insertLeaf_ok {leaf : NodeId} {l : List NodeId} (hleaf : ∃ n, g.get? leaf = some n)
    (hl : ∀ y ∈ l, ∃ n, g.get? y = some n)
    (hs : l.Pairwise fun a b => nodeKey g b ≤ nodeKey g a) :
    ∃ l', insertLeaf g leaf l = .ok l' ∧ l'.Perm (leaf :: l) ∧
      l'.Pairwise fun a b => nodeKey g b ≤ nodeKey g a := by
  induction l with
  | nil => exact ⟨_, rfl, .refl _, List.pairwise_singleton _ _⟩
  | cons last rest ih =>
    have hrest := List.pairwise_cons.1 hs
    obtain ⟨l', hrun, hperm, hsorted⟩ :=
      ih (fun y hy => hl y (List.mem_cons_of_mem last hy)) hrest.2
    unfold insertLeaf
    rw [precedes_ok hleaf (hl last List.mem_cons_self)]
    by_cases hlt : nodeKey g leaf < nodeKey g last
    · refine ⟨last :: l', ?_, (hperm.cons last).trans (.swap leaf last rest), ?_⟩
      · show (if decide (nodeKey g leaf < nodeKey g last) = true then
          insertLeaf g leaf rest >>= fun l => pure (last :: l) else _) = _
        rw [if_pos (decide_eq_true hlt), hrun]
        rfl
      · refine List.pairwise_cons.2 ⟨fun y hy => ?_, hsorted⟩
        rcases List.mem_cons.1 (hperm.mem_iff.1 hy) with rfl | hy
        · exact hlt.le
        · exact hrest.1 y hy
    · refine ⟨leaf :: last :: rest, ?_, .refl _, ?_⟩
      · show (if decide (nodeKey g leaf < nodeKey g last) = true then _ else
          pure (leaf :: last :: rest)) = _
        rw [if_neg (by simpa using hlt)]
        rfl
      · refine List.pairwise_cons.2 ⟨fun y hy => ?_, hs⟩
        rcases List.mem_cons.1 hy with rfl | hy
        · exact not_lt.1 hlt
        · exact (hrest.1 y hy).trans (not_lt.1 hlt)

theorem sortLeaves_sorted (h : ∀ y ∈ leaves, ∃ n, g.get? y = some n) :
    ∃ l, sortLeaves g leaves = .ok l ∧ l.Perm leaves ∧
      l.Pairwise fun a b => nodeKey g a ≤ nodeKey g b := by
  have hfold : ∀ acc : List NodeId, (∀ y ∈ acc, ∃ n, g.get? y = some n) →
      (acc.Pairwise fun a b => nodeKey g b ≤ nodeKey g a) →
      ∃ l, leaves.foldlM (fun sorted leaf => insertLeaf g leaf sorted) acc = .ok l ∧
        l.Perm (leaves ++ acc) ∧ l.Pairwise fun a b => nodeKey g b ≤ nodeKey g a := by
    induction leaves with
    | nil => exact fun acc _ hs => ⟨acc, rfl, .refl _, hs⟩
    | cons leaf leaves ih =>
      intro acc hacc hs
      have hleaf := h leaf List.mem_cons_self
      obtain ⟨acc', hrun, hperm, hs'⟩ := insertLeaf_ok hleaf hacc hs
      have hacc' : ∀ y ∈ acc', ∃ n, g.get? y = some n := fun y hy =>
        (List.mem_cons.1 (hperm.mem_iff.1 hy)).elim (fun he => he ▸ hleaf) (hacc y)
      obtain ⟨l, hl, hlperm, hls⟩ :=
        ih (fun y hy => h y (List.mem_cons_of_mem leaf hy)) acc' hacc' hs'
      refine ⟨l, ?_, hlperm.trans ((hperm.append_left leaves).trans List.perm_middle), hls⟩
      rw [List.foldlM_cons, hrun]
      exact hl
  obtain ⟨l, hrun, hperm, hs⟩ := hfold [] (fun y hy => absurd hy List.not_mem_nil) List.Pairwise.nil
  refine ⟨l.reverse, ?_, (l.reverse_perm).trans (by simpa using hperm), List.pairwise_reverse.2 hs⟩
  unfold sortLeaves
  rw [hrun]
  rfl

theorem sorted_unique {l l' : List NodeId} (h : l.Pairwise fun a b => nodeKey g a ≤ nodeKey g b)
    (h' : l'.Pairwise fun a b => nodeKey g a ≤ nodeKey g b) (hperm : l.Perm l') : l = l' :=
  List.Perm.eq_of_pairwise (fun _ _ _ _ hab hba => nodeKey_injective g (le_antisymm hab hba)) h h'
    hperm

theorem sortLeaves_eq {l : List NodeId} (h : ∀ y ∈ leaves, ∃ n, g.get? y = some n)
    (hperm : l.Perm leaves) (hs : l.Pairwise fun a b => nodeKey g a ≤ nodeKey g b) :
    sortLeaves g leaves = .ok l := by
  obtain ⟨l', hrun, hperm', hs'⟩ := sortLeaves_sorted h
  rw [hrun, sorted_unique hs' hs (hperm'.trans hperm.symm)]

theorem exists_sorted (h : ∀ y ∈ leaves, ∃ n, g.get? y = some n) :
    ∃ sorted : List NodeId, sorted.Perm leaves ∧ sorted.Pairwise (Before g) ∧
      ∀ l : List NodeId, l.Perm leaves → sortLeaves g l = .ok sorted ∧
        (l.Pairwise (fun a b => compareNodes g a b ≠ .gt) → l = sorted) := by
  obtain ⟨sorted, -, hperm, hs⟩ := sortLeaves_sorted h
  refine ⟨sorted, hperm, hs.imp before_of_nodeKey, fun l hl => ⟨?_, fun hle => ?_⟩⟩
  · exact sortLeaves_eq (fun y hy => h y (hl.mem_iff.1 hy)) (hperm.trans hl.symm) hs
  · exact sorted_unique (hle.imp compareNodes_ne_gt.1) hs (hl.trans hperm.symm)

end Optimizer.Factoring
end LinearPlan
