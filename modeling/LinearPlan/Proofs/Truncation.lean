import LinearPlan.Proofs.EdgeConsistency

/-!
# Cutting a graph back

Cutting discards the nodes from an id on, the last one first: each of them is taken out of the
parents of its operands and its slot is emptied. `Graph.upTo` is the graph that is meant to be left:
the nodes before the id, with the entries of discarded nodes taken out of their parents and the others
in their order.

A slot is empty as soon as its node is discarded. A node with an operand that comes after it, and was
discarded before it, therefore cannot be discarded any more (`Graph.Descending` excludes that). Such
operands come from replacing operands; new nodes have earlier ones only. Cutting then stops at the last
such node (`Graph.StopsAt`), and the slots emptied so far stay behind the nodes of the graph.
-/
namespace LinearPlan

namespace Graph
variable {g : Graph}

/-- The nodes before an id, with what is left of their parents. -/
def upTo (g : Graph) (size : Nat) : Graph :=
  { g with nodes := (g.nodes.extract 0 size).map fun n =>
      { n with parents := n.parents.filter fun p => decide (p < (size : Int)) } }

/-- No node before an id has operands from there on. The id may be the first one that is free. -/
def Severable (g : Graph) (size : Int) : Prop :=
  0 ≤ size ∧ size ≤ g.size ∧ ∀ p c : Int, p < size → c ∈ g.inputsOf p → c < size

/-- No node from an id on has operands that come after it. -/
def Descending (g : Graph) (size : Int) : Prop :=
  ∀ x c : Int, size ≤ x → c ∈ g.inputsOf x → c ≤ x

/-- The last node with an operand that comes after it. The first such operand is `c`, which follows the
operands `done`. -/
structure StopsAt (g : Graph) (x : Nat) (done : List NodeId) (c : NodeId) : Prop where
  operands : ∃ rest, g.inputsOf x = done ++ c :: rest
  earlier : ∀ y ∈ done, y ≤ (x : Int)
  later : (x : Int) < c
  last : g.Descending ((x + 1 : Nat) : Int)

theorem get?_upTo (g : Graph) (size : Nat) (x : Int) :
    (g.upTo size).get? x = if x < size then (g.get? x).map fun n =>
      { n with parents := n.parents.filter fun p => decide (p < (size : Int)) } else none := by
  unfold get? upTo
  by_cases h0 : 0 ≤ x
  · rw [if_pos h0, if_pos h0, Array.getElem?_map, Array.getElem?_extract, Nat.zero_add]
    by_cases hx : x < size
    · rw [if_pos hx]
      split
      · rfl
      · rw [Array.getElem?_eq_none (by omega)]
    · rw [if_neg hx, if_neg (by omega)]
      rfl
  · rw [if_neg h0, if_neg h0]
    exact (ite_self _).symm

theorem size_upTo {size : Nat} (h : size ≤ g.size) : (g.upTo size).size = size := by
  unfold Graph.size at h
  simp [Graph.size, upTo, h]

theorem parentsOf_upTo (g : Graph) {size : Nat} {x : Int} (hx : x < size) :
    (g.upTo size).parentsOf x = (g.parentsOf x).filter fun p => decide (p < (size : Int)) := by
  rw [parentsOf_eq_getD, get?_upTo, if_pos hx, parentsOf_eq_getD]
  cases g.get? x <;> rfl

theorem core?_upTo (g : Graph) (size : Nat) (x : Int) :
    (g.upTo size).core? x = if x < size then g.core? x else none := by
  rw [core?, get?_upTo]
  split
  · rw [Option.map_map]
    rfl
  · rfl

theorem inputsOf_upTo (g : Graph) (size : Nat) (x : Int) :
    (g.upTo size).inputsOf x = if x < size then g.inputsOf x else [] := by
  rw [inputsOf_eq_core, core?_upTo, inputsOf_eq_core]
  split <;> rfl

theorem count_filter_lt (l : List NodeId) (size : Nat) (p : Int) :
    (l.filter fun p => decide (p < (size : Int))).count p = if p < size then l.count p else 0 := by
  by_cases hp : p < (size : Int)
  · rw [if_pos hp]
    exact List.count_filter (decide_eq_true hp)
  · rw [if_neg hp, List.count_eq_zero]
    exact fun hmem => hp (of_decide_eq_true (List.mem_filter.1 hmem).2)

theorem Matched.operand_range (h : g.Matched) {p c : Int} (hc : c ∈ g.inputsOf p) :
    0 ≤ c ∧ c < (g.size : Int) := by
  obtain ⟨n, hn, -⟩ := exists_of_mem_parentsOf (h.mem_iff.2 hc)
  exact range_of_get? hn

theorem Matched.parent_range (h : g.Matched) {p c : Int} (hp : p ∈ g.parentsOf c) :
    0 ≤ p ∧ p < (g.size : Int) := by
  obtain ⟨n, hn, -⟩ := exists_of_mem_inputsOf (h.mem_iff.1 hp)
  exact range_of_get? hn

theorem StopsAt.lt_size {x : Nat} {done : List NodeId} {c : NodeId} (h : g.StopsAt x done c)
    (hm : g.Matched) : x + 1 < g.size := by
  obtain ⟨rest, hin⟩ := h.operands
  have hlater := h.later
  have hrange := (hm.operand_range (p := x) (c := c) (by rw [hin]; simp)).2
  omega

theorem Matched.upTo_size (h : g.Matched) : g.upTo g.size = g := by
  refine ext_get? rfl fun x => ?_
  rw [get?_upTo]
  cases hx : g.get? x with
  | none => exact ite_self _
  | some n =>
    have hall : n.parents.filter (fun p => decide (p < (g.size : Int))) = n.parents :=
      List.filter_eq_self.2 fun p hp =>
        decide_eq_true (h.parent_range (parentsOf_eq hx ▸ hp)).2
    rw [if_pos (range_of_get? hx).2, Option.map_some, hall]

theorem Matched.upTo (h : g.Matched) {size : Nat} (hs : g.Severable size) :
    (g.upTo size).Matched := by
  intro p c
  have hpc := h p c
  rw [inputsOf_upTo]
  by_cases hc : c < (size : Int)
  · rw [parentsOf_upTo g hc, count_filter_lt, hpc]
    split <;> rfl
  · have hnone : (g.upTo size).get? c = none := by rw [get?_upTo, if_neg hc]
    rw [(edges_of_get?_none hnone).2, List.count_nil, eq_comm, List.count_eq_zero]
    intro hmem
    split at hmem
    · exact hc (hs.2.2 p c ‹_› hmem)
    · cases hmem

theorem Linked.upTo (h : g.Linked) {size : Nat} (hs : g.Severable size) : (g.upTo size).Linked := by
  have hback : ∀ {x : Int} {n}, (g.upTo size).core? x = some n → g.core? x = some n := by
    intro x n hx
    rw [core?_upTo] at hx
    split at hx
    · exact hx
    · cases hx
  have hin : ∀ {x c : Int}, c ∈ (g.upTo size).inputsOf x → x < size ∧ c ∈ g.inputsOf x := by
    intro x c hc
    rw [inputsOf_upTo] at hc
    split at hc
    · exact ⟨‹_›, hc⟩
    · cases hc
  refine ⟨⟨fun p hp => h.irreflexive p (hin hp).2, fun hc => ?_, fun hx => h.inputs_nil (hback hx),
    fun hx => h.arity (hback hx)⟩, h.matched.upTo hs⟩
  obtain ⟨hp, hc⟩ := hin hc
  obtain ⟨n, hn, hr⟩ := h.operand hc
  exact ⟨n, by rw [core?_upTo, if_pos (hs.2.2 _ _ hp hc), hn], hr⟩

theorem mem_ids {x : Int} : x ∈ g.ids ↔ 0 ≤ x ∧ x < (g.size : Int) := by
  simp only [ids, List.mem_map, List.mem_range]
  constructor
  · rintro ⟨k, hk, rfl⟩
    exact ⟨Int.natCast_nonneg k, Int.ofNat_lt.2 hk⟩
  · rintro ⟨h0, hlt⟩
    exact ⟨x.toNat, (Int.toNat_lt h0).2 hlt, Int.toNat_of_nonneg h0⟩

theorem mem_drop_ids {k : Nat} {y : Int} :
    y ∈ g.ids.drop k ↔ (k : Int) ≤ y ∧ y < (g.size : Int) := by
  rw [ids, ← List.map_drop, List.range_eq_range', List.drop_range', List.mem_map]
  simp only [List.mem_range'_1, Int.ofNat_eq_natCast]
  constructor
  · rintro ⟨j, hj, rfl⟩
    omega
  · intro hy
    exact ⟨y.toNat, by omega, by omega⟩

theorem mem_ids_of_operand {p c : Int} (hc : c ∈ g.inputsOf p) : p ∈ g.ids := by
  obtain ⟨n, hn, -⟩ := exists_of_mem_inputsOf hc
  exact mem_ids.2 (range_of_get? hn)

instance (g : Graph) (size : Int) : Decidable (g.Severable size) :=
  decidable_of_iff
    (0 ≤ size ∧ size ≤ g.size ∧ ∀ p ∈ g.ids, p < size → ∀ c ∈ g.inputsOf p, c < size) <|
    and_congr_right' <| and_congr_right'
      ⟨fun h p c hp hc => h p (mem_ids_of_operand hc) hp c hc, fun h p _ hp c hc => h p c hp hc⟩

instance (g : Graph) (size : Int) : Decidable (g.Descending size) :=
  decidable_of_iff (∀ x ∈ g.ids, size ≤ x → ∀ c ∈ g.inputsOf x, c ≤ x)
    ⟨fun h x c hx hc => h x (mem_ids_of_operand hc) hx c hc, fun h x _ hx c hc => h x c hx hc⟩

theorem diff_replicate_count (l : List NodeId) (p : NodeId) :
    l.diff (List.replicate (l.count p) p) = l.filter (· ≠ p) := by
  induction l with
  | nil => simp
  | cons a l ih =>
    by_cases ha : a = p
    · subst ha
      rw [List.count_cons_self, List.replicate_succ, List.diff_cons, List.erase_cons_head, ih]
      simp
    · have hnot : a ∉ List.replicate (l.count p) p := fun hmem => ha (List.eq_of_mem_replicate hmem)
      rw [List.count_cons_of_ne ha, List.cons_diff_of_not_mem hnot, ih]
      simp [ha]

theorem diff_filter_lt (l : List NodeId) (k : Nat) :
    (l.filter fun p => decide (p < ((k + 1 : Nat) : Int))).diff (List.replicate
      ((l.filter fun p => decide (p < ((k + 1 : Nat) : Int))).count (k : Int)) (k : Int)) =
        l.filter fun p => decide (p < (k : Int)) := by
  rw [diff_replicate_count, List.filter_filter]
  refine List.filter_congr fun (p : Int) _ => ?_
  have hp : (¬ p = (k : Int) ∧ p < ((k + 1 : Nat) : Int)) ↔ p < (k : Int) := by omega
  rw [Bool.eq_iff_iff]
  simpa only [Bool.and_eq_true, decide_eq_true_iff] using hp

end Graph

namespace Edit
open LinearPlan.Graph
variable {g : Graph}

theorem detach_dangling {id c : NodeId} {done rest : List NodeId}
    (h : ∀ x, done.count x ≤ (g.parentsOf x).count id) (hc : g.get? c = none) :
    detach id (done ++ c :: rest) g = .error (.dangling c) (g.dropParents id done) := by
  have hgone : (g.dropParents id done).get? c = none := by rw [get?_dropParents, hc, Option.map_none]
  have hdrop : dropParent c id (g.dropParents id done) =
      .error (.dangling c) (g.dropParents id done) :=
    bind_error (read_error (by rw [Graph.follow, hgone]))
  exact (forM_append_ok (detach_ok h)).trans (bind_error hdrop)

theorem last_upTo {k : Nat} {n : Node} (hn : g.get? (k : Int) = some n) :
    ((g.upTo (k + 1)).size : Int) - 1 = k ∧ (g.upTo (k + 1)).get? (k : Int) =
      some { n with parents := n.parents.filter fun p => decide (p < ((k + 1 : Nat) : Int)) } := by
  have hlt := (range_of_get? hn).2
  constructor
  · rw [size_upTo (by omega)]
    omega
  · rw [get?_upTo, if_pos (by omega), hn]
    rfl

section Last
variable {k : Nat} {n : Node} (hm : g.Matched) (hn : g.get? (k : Int) = some n)
include hm hn

theorem count_parents_upTo {x : Int} (hx : x < (k + 1 : Nat)) :
    ((g.upTo (k + 1)).parentsOf x).count (k : Int) = n.inputs.count x := by
  rw [parentsOf_upTo g hx, count_filter_lt, if_pos (by omega), hm, inputsOf_eq hn]

theorem emptyLast_upTo (hc : ∀ c ∈ n.inputs, c ≤ (k : Int)) :
    emptyLast (g.upTo (k + 1)) = .ok () (g.upTo k) := by
  obtain ⟨hid, hlast⟩ := last_upTo hn
  have hcount : ∀ {x : Int}, x < (k + 1 : Nat) →
      ((g.upTo (k + 1)).parentsOf x).count (k : Int) = n.inputs.count x := count_parents_upTo hm hn
  have hentry : ∀ x, n.inputs.count x ≤ ((g.upTo (k + 1)).parentsOf x).count (k : Int) := fun x => by
    by_cases hx : x ∈ n.inputs
    · rw [hcount (Int.lt_of_le_of_lt (hc x hx) (by omega))]
    · rw [List.count_eq_zero.2 hx]
      exact Nat.zero_le _
  unfold emptyLast
  rw [bind_ok get_apply, hid, bind_ok (follow_run hlast), bind_ok (detach_ok hentry)]
  show EStateM.Result.ok () _ = _
  congr 1
  refine ext_get? (name_dropParents ..) fun (x : Int) => ?_
  rw [get?_pop, size_dropParents, hid, get?_dropParents, get?_upTo, get?_upTo]
  by_cases hx : x < (k : Int)
  · rw [if_neg (by omega), if_pos (by omega), if_pos hx, Option.map_map]
    cases hget : g.get? x with
    | none => rfl
    | some m =>
      have hentries := hcount (x := x) (by omega)
      rw [parentsOf_upTo g (by omega), parentsOf_eq hget] at hentries
      simp only [Option.map_some, Function.comp_apply, ← hentries, diff_filter_lt]
  · rw [if_neg hx]
    split
    · rfl
    · rw [if_neg (by omega)]
      rfl

theorem emptyLast_dangling {done rest : List NodeId} {c : Int} (hin : n.inputs = done ++ c :: rest)
    (hdone : ∀ y ∈ done, y ≤ (k : Int)) (hc : (k : Int) < c) :
    emptyLast (g.upTo (k + 1)) = .error (.dangling c) ((g.upTo (k + 1)).dropParents k done) := by
  obtain ⟨hid, hlast⟩ := last_upTo hn
  have hentry : ∀ x, done.count x ≤ ((g.upTo (k + 1)).parentsOf x).count (k : Int) := fun x => by
    by_cases hx : x ∈ done
    · rw [count_parents_upTo hm hn (Int.lt_of_le_of_lt (hdone x hx) (by omega)), hin,
        List.count_append]
      exact Nat.le_add_right _ _
    · rw [List.count_eq_zero.2 hx]
      exact Nat.zero_le _
  have hgone : (g.upTo (k + 1)).get? c = none := by rw [get?_upTo, if_neg (by omega)]
  unfold emptyLast
  rw [bind_ok get_apply, hid, bind_ok (follow_run hlast)]
  exact bind_error ((congrArg (detach (k : Int) · _) hin).trans (detach_dangling hentry hgone))

end Last

theorem discardLast_ok {g' : Graph} (emptied : Nat) (h : emptyLast g = .ok () g') :
    discardLast emptied g = .ok () g' := by
  rw [discardLast, EStateM.adaptExcept, h]

theorem discardLast_error {fault : Fault} {g' : Graph} (emptied : Nat)
    (h : emptyLast g = .error fault g') : discardLast emptied g = .error (.halted emptied fault) g' := by
  rw [discardLast, EStateM.adaptExcept, h]

section Run
variable (hm : g.Matched)
include hm

theorem forM_discardLast_upTo {k : Nat} (j : Nat) (hsize : k + j ≤ g.size) (hd : g.Descending k) :
    (List.range j).forM discardLast (g.upTo (k + j)) = .ok () (g.upTo k) := by
  induction j generalizing k with
  | zero => rfl
  | succ j ih =>
    obtain ⟨n, hn⟩ := get?_of_lt (g := g) (x := k) (by omega) (by omega)
    have hrest := ih (k := k + 1) (by omega) fun x c hx => hd x c (by omega)
    have hlast := emptyLast_upTo hm hn fun c hc => hd k c le_rfl (inputsOf_eq hn ▸ hc)
    rw [List.range_succ, show k + (j + 1) = k + 1 + j by omega, forM_append_ok hrest]
    exact forM_cons_ok (discardLast_ok j hlast)

omit hm in
theorem exists_stopsAt {k : Nat} (j : Nat) (hsize : k + j = g.size) (hd : ¬ g.Descending k) :
    ∃ x done c, k ≤ x ∧ g.StopsAt x done c := by
  induction j generalizing k with
  | zero =>
    refine absurd (fun x c hx hc => ?_) hd
    obtain ⟨n, hn, -⟩ := exists_of_mem_inputsOf hc
    have hlt := (range_of_get? hn).2
    omega
  | succ j ih =>
    by_cases hrest : g.Descending ((k + 1 : Nat) : Int)
    · cases hfind : (g.inputsOf k).find? fun c : NodeId => decide ((k : Int) < c) with
      | none =>
        refine absurd (fun x c hx hc => ?_) hd
        rcases eq_or_lt_of_le hx with rfl | hx
        · simpa using List.find?_eq_none.1 hfind c hc
        · exact hrest x c (by omega) hc
      | some c =>
        obtain ⟨hc, done, rest, hin, hdone⟩ := List.find?_eq_some_iff_append.1 hfind
        exact ⟨k, done, c, le_rfl, ⟨rest, hin⟩, fun y hy => by simpa using hdone y hy,
          of_decide_eq_true hc, hrest⟩
    · obtain ⟨x, done, c, hle, hstop⟩ := ih (k := k + 1) (by omega) hrest
      exact ⟨x, done, c, by omega, hstop⟩

theorem forM_discardLast_halts {k x : Nat} {done : List NodeId} {c : NodeId} (hle : k ≤ x)
    (h : g.StopsAt x done c) :
    (List.range (g.size - k)).forM discardLast g =
      .error (.halted (g.size - (x + 1)) (.dangling c)) ((g.upTo (x + 1)).dropParents x done) := by
  have hlt := h.lt_size hm
  obtain ⟨rest, hin⟩ := h.operands
  obtain ⟨n, hn⟩ := get?_of_lt (g := g) (x := x) (by omega) (by omega)
  -- The nodes after it are discarded.
  have hlater := forM_discardLast_upTo hm (k := x + 1) (g.size - (x + 1)) (by omega) h.last
  rw [show x + 1 + (g.size - (x + 1)) = g.size by omega, hm.upTo_size] at hlater
  have hstop := emptyLast_dangling hm hn ((inputsOf_eq hn).symm.trans hin) h.earlier h.later
  rw [show g.size - k = g.size - (x + 1) + (x - k + 1) by omega, List.range_add,
    forM_append_ok hlater, List.range_succ_eq_map]
  exact bind_error (discardLast_error _ hstop)

end Run

theorem requireUnused_ok {size : Nat} {x : NodeId} {n : Node} (hn : g.get? x = some n)
    (hp : ∀ p ∈ n.parents, ¬ p < (size : Int)) : requireUnused size x g = .ok () g := by
  unfold requireUnused
  rw [bind_ok (follow_run hn), List.find?_eq_none.2 fun p hmem => by simpa using hp p hmem]
  rfl

theorem requireUnused_cases (size : Nat) (x : NodeId) :
    (∃ fault, requireUnused size x g = .error fault g) ∨
      requireUnused size x g = .ok () g ∧ ∀ p ∈ g.parentsOf x, ¬ p < (size : Int) := by
  rcases read_cases (·.follow x) g with ⟨fault, hf⟩ | ⟨n, hn, -⟩
  · exact .inl ⟨fault, bind_error hf⟩
  have hget : g.get? x = some n := follow_eq_ok_iff.1 hn
  rw [parentsOf_eq hget]
  cases hp : n.parents.find? fun p => decide (p < (size : Int)) with
  | none =>
    have hall : ∀ p ∈ n.parents, ¬ p < (size : Int) := fun p hmem => by
      simpa using List.find?_eq_none.1 hp p hmem
    exact .inr ⟨requireUnused_ok hget hall, hall⟩
  | some p =>
    have hstep : requireUnused size x g = (do
        let p ← read (·.refOf p)
        fail (.truncateUsed g.name size ⟨x, n.op⟩ p) : Edit Unit) g := by
      unfold requireUnused
      rw [bind_ok (follow_run hget), hp]
      rfl
    rw [hstep]
    rcases read_cases (·.refOf p) g with ⟨fault, hf⟩ | ⟨r, -, hr⟩
    · exact .inl ⟨fault, bind_error hf⟩
    · exact .inl ⟨_, bind_ok hr⟩

section Cut
variable (hm : g.Matched)
include hm

theorem truncate_run {size : Nat} (hs : g.Severable size) :
    truncate size g = (List.range (g.size - size)).forM discardLast g := by
  have hle := hs.2.1
  unfold truncate
  rw [bind_ok get_apply, if_neg (by omega), Int.toNat_natCast, bind_ok (forM_pass fun x hx => ?_)]
  obtain ⟨hlow, hlt⟩ := mem_drop_ids.1 hx
  obtain ⟨n, hn⟩ := get?_of_lt (g := g) (x := x) (by omega) hlt
  refine requireUnused_ok hn fun p hp hlt => ?_
  have hc := hs.2.2 p x hlt (hm.mem_iff.1 (parentsOf_eq hn ▸ hp))
  omega

theorem truncate_ok {size : Nat} (hs : g.Severable size) (hd : g.Descending size) :
    truncate size g = .ok () (g.upTo size) := by
  have hle : size ≤ g.size := by
    have := hs.2.1
    omega
  have hrun := forM_discardLast_upTo hm (g.size - size) (by omega) hd
  rw [show size + (g.size - size) = g.size by omega, hm.upTo_size] at hrun
  exact (truncate_run hm hs).trans hrun

theorem truncate_halts {size : Nat} (hs : g.Severable size) (hd : ¬ g.Descending size) :
    ∃ x done c, size ≤ x ∧ g.StopsAt x done c ∧ truncate size g =
      .error (.halted (g.size - (x + 1)) (.dangling c)) ((g.upTo (x + 1)).dropParents x done) := by
  have hsize := hs.2.1
  obtain ⟨x, done, c, hle, hstop⟩ := exists_stopsAt (k := size) (g.size - size) (by omega) hd
  exact ⟨x, done, c, hle, hstop, (truncate_run hm hs).trans (forM_discardLast_halts hm hle hstop)⟩

theorem truncate_refused {size : Int} (hs : ¬ g.Severable size) :
    ∃ fault, truncate size g = .error fault g := by
  unfold truncate
  rw [bind_ok get_apply]
  by_cases hrange : size < 0 ∨ (g.size : Int) < size
  · rw [if_pos hrange]
    exact ⟨_, rfl⟩
  rw [if_neg hrange]
  rcases forM_check_cases (f := requireUnused size.toNat) fun x (_ : x ∈ g.ids.drop size.toNat) =>
    requireUnused_cases size.toNat x with ⟨fault, hf⟩ | ⟨-, hall⟩
  · exact ⟨fault, bind_error hf⟩
  -- The checks do not pass, as an operand of a kept node would be discarded.
  refine absurd ⟨by omega, by omega, fun p c hp hc => ?_⟩ hs
  have hsize : (size.toNat : Int) = size := Int.toNat_of_nonneg (by omega)
  by_contra hge
  have hmem : c ∈ g.ids.drop size.toNat :=
    mem_drop_ids.2 ⟨by omega, (hm.operand_range hc).2⟩
  exact hall c hmem p (hm.mem_iff.2 hc) (lt_of_lt_of_eq hp hsize.symm)

end Cut

end Edit
end LinearPlan
