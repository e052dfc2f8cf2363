import LinearPlan.Proofs.DepthFirst
import LinearPlan.Proofs.PlainEvaluation
import LinearPlan.Proofs.Unfoldings
import Mathlib.Data.Set.Card

/-!
# Paths through products

A path goes down from a node through products only. It is given by the position, among the operands,
at which it goes on from each product. Unfolding some nodes meets every node below them once for each
path that leads there, so the tree of a product has the products that can be reached, and counts for
every other node the paths to it.
-/
namespace LinearPlan

namespace Graph

def isProduct (g : Graph) (x : NodeId) : Bool := (g.get? x).any fun n => n.op.isMult

/-- The node to which a path leads. -/
def pathEnd? (g : Graph) : NodeId → List Nat → Option NodeId
  | x, [] => some x
  | x, pos :: path =>
    if g.isProduct x then (g.inputsOf x)[pos]?.bind fun y => g.pathEnd? y path else none

def pathEndAmong? (g : Graph) (todo : List NodeId) : List Nat → Option NodeId
  | [] => none
  | pos :: path => todo[pos]?.bind fun y => g.pathEnd? y path

def paths (g : Graph) (x z : NodeId) : Set (List Nat) := {path | g.pathEnd? x path = some z}

def pathsAmong (g : Graph) (todo : List NodeId) (z : NodeId) : Set (List Nat) :=
  {path | g.pathEndAmong? todo path = some z}

variable {g : Graph} {x y z : NodeId} {n : Node} {rest : List NodeId}

theorem isProduct_eq (hn : g.get? x = some n) : g.isProduct x = n.op.isMult := by
  simp [isProduct, hn]

theorem exists_of_isProduct (h : g.isProduct x = true) :
    ∃ n, g.get? x = some n ∧ n.op.isMult = true :=
  (Option.any_eq_true ..).1 h

theorem paths_of_product (hx : g.isProduct x = true) (hz : x ≠ z) :
    g.paths x z = g.pathsAmong (g.inputsOf x) z := by
  ext path
  cases path with
  | nil => simp [paths, pathsAmong, pathEnd?, pathEndAmong?, hz]
  | cons pos path => simp [paths, pathsAmong, pathEnd?, pathEndAmong?, hx]

theorem paths_of_leaf (hx : g.isProduct x = false) :
    g.paths x z = if x = z then {[]} else ∅ := by
  ext path
  cases path with
  | nil => by_cases hz : x = z <;> simp [paths, pathEnd?, hz]
  | cons pos path =>
    have hnone : path.cons pos ∉ g.paths x z := by simp [paths, pathEnd?, hx]
    by_cases hz : x = z
    · rw [if_pos hz]
      simpa using hnone
    · rw [if_neg hz]
      simpa using hnone

theorem nil_mem_paths (x : NodeId) : [] ∈ g.paths x x := rfl

theorem pathsAmong_nil (z : NodeId) : g.pathsAmong [] z = ∅ := by
  ext path
  cases path <;> simp [pathsAmong, pathEndAmong?]

theorem stepAside_injective : Function.Injective stepAside := by
  intro a b h
  cases a <;> cases b <;> simp_all [stepAside]

theorem pathsAmong_cons : g.pathsAmong (y :: rest) z =
    (0 :: ·) '' g.paths y z ∪ stepAside '' g.pathsAmong rest z := by
  ext path
  constructor
  · intro h
    cases path with
    | nil => cases h
    | cons pos path =>
      cases pos with
      | zero => exact .inl ⟨path, h, rfl⟩
      | succ pos => exact .inr ⟨pos :: path, h, rfl⟩
  · rintro (⟨path, h, rfl⟩ | ⟨way, h, rfl⟩)
    · exact h
    · cases way with
      | nil => cases h
      | cons pos path => exact h

theorem encard_pathsAmong_cons : (g.pathsAmong (y :: rest) z).encard =
    (g.paths y z).encard + (g.pathsAmong rest z).encard := by
  have hdisjoint : Disjoint ((0 :: ·) '' g.paths y z) (stepAside '' g.pathsAmong rest z) := by
    rw [Set.disjoint_left]
    rintro - ⟨path, -, rfl⟩ ⟨way, -, h⟩
    cases way <;> simp [stepAside] at h
  rw [pathsAmong_cons, Set.encard_union_eq hdisjoint, List.cons_injective.encard_image,
    stepAside_injective.encard_image]

theorem nonempty_pathsAmong_cons : (g.pathsAmong (y :: rest) z).Nonempty ↔
    (g.paths y z).Nonempty ∨ (g.pathsAmong rest z).Nonempty := by
  rw [pathsAmong_cons, Set.union_nonempty, Set.image_nonempty, Set.image_nonempty]

end Graph

namespace Optimizer.Factoring
open LinearPlan.Graph
variable {g : Graph} {todo products leaves : List NodeId} {z : NodeId}

theorem Unfolds.count_leaves (hu : Unfolds g todo products leaves) (hz : g.isProduct z = false) :
    (leaves.count z : ℕ∞) = (g.pathsAmong todo z).encard := by
  induction hu with
  | nil => simp [pathsAmong_nil]
  | @leaf x n rest products leaves hn hm _ ih =>
    have hx : g.isProduct x = false := (isProduct_eq hn).trans hm
    rw [encard_pathsAmong_cons, ← ih, paths_of_leaf hx, List.count_cons]
    by_cases hxz : x = z <;> simp [hxz, add_comm]
  | @product x n rest inner leaves products leaves' hn hm _ _ ihb iha =>
    have hx : g.isProduct x = true := (isProduct_eq hn).trans hm
    have hne : x ≠ z := by
      rintro rfl
      simp [hx] at hz
    rw [encard_pathsAmong_cons, ← iha, paths_of_product hx hne, inputsOf_eq hn, ← ihb,
      List.count_append]
    exact Nat.cast_add _ _

theorem Unfolds.mem_products_iff (hu : Unfolds g todo products leaves)
    (hz : g.isProduct z = true) : z ∈ products ↔ (g.pathsAmong todo z).Nonempty := by
  induction hu with
  | nil => simp [pathsAmong_nil]
  | @leaf x n rest products leaves hn hm _ ih =>
    have hx : g.isProduct x = false := (isProduct_eq hn).trans hm
    have hne : x ≠ z := by
      rintro rfl
      simp [hx] at hz
    simp [nonempty_pathsAmong_cons, paths_of_leaf hx, hne, ih]
  | @product x n rest inner leaves products leaves' hn hm _ _ ihb iha =>
    have hx : g.isProduct x = true := (isProduct_eq hn).trans hm
    rw [nonempty_pathsAmong_cons, List.mem_cons, List.mem_append, ihb, iha, ← or_assoc]
    by_cases hne : x = z
    · subst hne
      simp [show (g.paths x x).Nonempty from ⟨[], nil_mem_paths x⟩]
    · rw [paths_of_product hx hne, inputsOf_eq hn]
      simp [Ne.symm hne]

theorem Unfolds.isProduct_of_mem (hu : Unfolds g todo products leaves) :
    ∀ x ∈ products, g.isProduct x = true := by
  induction hu with
  | nil => simp
  | leaf _ _ _ ih => exact ih
  | product hn hm _ _ ihb iha =>
    exact List.forall_mem_cons.2 ⟨(isProduct_eq hn).trans hm, List.forall_mem_append.2 ⟨ihb, iha⟩⟩

theorem Unfolds.mem_products_iff_paths (hu : Unfolds g todo products leaves) :
    z ∈ products ↔ g.isProduct z = true ∧ (g.pathsAmong todo z).Nonempty := by
  constructor
  · intro hz
    have hproduct := hu.isProduct_of_mem z hz
    exact ⟨hproduct, (hu.mem_products_iff hproduct).1 hz⟩
  · rintro ⟨hproduct, hpath⟩
    exact (hu.mem_products_iff hproduct).2 hpath

theorem Unfolds.not_mem_leaves (hu : Unfolds g todo products leaves)
    (hz : g.isProduct z = true) : z ∉ leaves := by
  intro hmem
  obtain ⟨n, hn, hleaf⟩ := hu.mem_leaves z hmem
  simp [isProduct_eq hn, hleaf] at hz

/-- Collecting the tree of a product comes to its end in every graph without cycles. The tree has the
products that can be reached through products, and each other node as often as a path leads to it. -/
theorem collect_counts_paths (g : Graph) (hg : g.OperandsExist) (hc : g.CycleFree) (root : NodeId)
    (hroot : g.isProduct root = true) :
    ∃ t, collect g root = .ok t ∧ t.interior.Nodup ∧ t.interior.head? = some root ∧
      (∀ x, x ∈ t.interior ↔ g.isProduct x = true ∧ ∃ path, g.pathEnd? root path = some x) ∧
      (∀ x, x ∈ t.members ↔ x ∈ t.interior) ∧
      ∀ x, (t.leaves.count x : ℕ∞) =
        if g.isProduct x then 0 else {path | g.pathEnd? root path = some x}.encard := by
  obtain ⟨n, hn, hm⟩ := exists_of_isProduct hroot
  obtain ⟨depth, hfalls, hsize⟩ := hc.exists_depth hg
  obtain ⟨t, ht⟩ := collect_total hfalls (fun _ _ => hg.exists_node) hn (hsize root)
  obtain ⟨n', products, leaves, hn', hu, rfl⟩ := unfolds_of_collect ht
  cases hn.symm.trans hn'
  rw [gather_empty] at ht
  have hwhole : Unfolds g [root] (root :: products) leaves := by
    simpa using Unfolds.product hn hm hu .nil
  have hreach : ∀ x, (g.pathsAmong [root] x).Nonempty ↔ ∃ path, g.pathEnd? root path = some x := by
    intro x
    rw [nonempty_pathsAmong_cons, pathsAmong_nil]
    simp [Set.Nonempty, paths]
  refine ⟨_, ht, nodup_eraseDups _, by rw [List.eraseDups_cons]; rfl, fun x => ?_,
    fun x => List.mem_reverse, fun x => ?_⟩
  · rw [List.mem_eraseDups, ← hreach]
    exact hwhole.mem_products_iff_paths
  · rw [Tally.count_ofList]
    cases hx : g.isProduct x with
    | true => simp [List.count_eq_zero_of_not_mem (hwhole.not_mem_leaves hx)]
    | false =>
      rw [hwhole.count_leaves hx, encard_pathsAmong_cons, pathsAmong_nil, Set.encard_empty, add_zero]
      rfl

def sharedFactor : Graph :=
  (Graph.empty "g").afterCalls [.matrix "A" 2 2 (-1), .matrix "B" 2 2 (-1), .mult 1 0, .mult 2 2,
    .mult 3 1]

theorem collect_counts_paths_sharedFactor :
    sharedFactor.OperandsExist ∧ sharedFactor.CycleFree ∧ sharedFactor.isProduct 4 = true ∧
      collect sharedFactor 4 = .ok ⟨[4, 3, 2], [2, 3, 4], ⟨[(1, 3), (0, 2)], [1, 0]⟩⟩ ∧
      (∀ x, x ∈ [4, 3, 2] ↔
        sharedFactor.isProduct x = true ∧ ∃ path, sharedFactor.pathEnd? 4 path = some x) ∧
      {path | sharedFactor.pathEnd? 4 path = some 1}.encard = 3 := by
  have hoperands : sharedFactor.OperandsExist := by decide +kernel
  have hacyclic : sharedFactor.CycleFree := hoperands.cycleFree_of_check (by decide +kernel)
  have hroot : sharedFactor.isProduct 4 = true := by decide +kernel
  have heval : collect sharedFactor 4 =
      .ok ⟨[4, 3, 2], [2, 3, 4], ⟨[(1, 3), (0, 2)], [1, 0]⟩⟩ := by decide +kernel
  have hleaf : sharedFactor.isProduct 1 = false := by decide +kernel
  obtain ⟨t, ht, -, -, hinterior, -, hcount⟩ :=
    collect_counts_paths sharedFactor hoperands hacyclic 4 hroot
  cases heval.symm.trans ht
  have hpaths := hcount 1
  rw [hleaf] at hpaths
  exact ⟨hoperands, hacyclic, hroot, heval, hinterior, hpaths.symm⟩

end Optimizer.Factoring
end LinearPlan
