import LinearPlan.Proofs.CallSequences
import LinearPlan.Proofs.Validity
import Mathlib.Logic.Relation

/-!
# The search for cycles

Cycles are searched depth first, with the nodes of the current path on a stack. Beside each node of
the path stand its operands that have not been looked at, and a step looks at one of them. A node is
white, grey or black: not reached yet, on the path, or done.

The steps come to an end with the answer of `Graph.checkAcyclic`, which follows the same order by
recursion and stops at a depth that no path exceeds. The answer is exact: a defect names an operand
that leads back to its user, and every cycle leads to a defect.
-/
namespace LinearPlan

def Graph.Uses (g : Graph) (x y : NodeId) : Prop := y ∈ g.inputsOf x

namespace CycleSearch

structure Frame where
  id : NodeId
  rest : List NodeId

structure State where
  stack : List Frame
  done : List NodeId
  starts : List NodeId

def path (stack : List Frame) : List NodeId := stack.map Frame.id

def start (g : Graph) : State := ⟨[], [], g.ids⟩

def step (g : Graph) : State → State ⊕ Except Defect Unit
  | ⟨[], _, []⟩ => .inr (.ok ())
  | ⟨[], done, x :: starts⟩ =>
    if x ∈ done then .inl ⟨[], done, starts⟩ else .inl ⟨[⟨x, g.inputsOf x⟩], done, starts⟩
  | ⟨⟨x, []⟩ :: stack, done, starts⟩ => .inl ⟨stack, x :: done, starts⟩
  | ⟨⟨x, y :: rest⟩ :: stack, done, starts⟩ =>
    if y ∈ x :: path stack then .inr (.error (.cycle g.name (g.label x) (g.label y)))
    else if y ∈ done then .inl ⟨⟨x, rest⟩ :: stack, done, starts⟩
    else .inl ⟨⟨y, g.inputsOf y⟩ :: ⟨x, rest⟩ :: stack, done, starts⟩

def Reaches (g : Graph) : State → State → Prop :=
  Relation.ReflTransGen fun s s' => step g s = .inl s'

/-- After some steps the search gives an answer. -/
def Halts (g : Graph) (s : State) (answer : Except Defect Unit) : Prop :=
  ∃ s', Reaches g s s' ∧ step g s' = .inr answer

variable {g : Graph} {s s' : State}

theorem Halts.unique {a b : Except Defect Unit} (ha : Halts g s a) (hb : Halts g s b) : a = b := by
  obtain ⟨s', hs, ha⟩ := ha
  induction hs using Relation.ReflTransGen.head_induction_on with
  | refl =>
    obtain ⟨t, ht, hb⟩ := hb
    rcases ht.cases_head with rfl | ⟨_, hstep, -⟩
    · rw [ha] at hb
      exact Sum.inr.inj hb
    · rw [ha] at hstep
      cases hstep
  | head hstep _ ih =>
    obtain ⟨t, ht, hb⟩ := hb
    rcases ht.cases_head with rfl | ⟨_, hstep', ht⟩
    · rw [hstep] at hb
      cases hb
    · rw [hstep] at hstep'
      cases hstep'
      exact ih ⟨t, ht, hb⟩

/-- A part of the search comes to an end: with a defect, or in a state that depends on the nodes that
are done. -/
def Yields (g : Graph) (s : State) (next : List NodeId → State) :
    Except Defect (List NodeId) → Prop
  | .ok done => Reaches g s (next done)
  | .error e => Halts g s (.error e)

theorem Yields.after {next : List NodeId → State} {r : Except Defect (List NodeId)}
    (h : Yields g s' next r) (hs : Reaches g s s') : Yields g s next r := by
  cases r with
  | ok done => exact hs.trans h
  | error e =>
    obtain ⟨t, ht, hend⟩ := h
    exact ⟨t, hs.trans ht, hend⟩

theorem yields_foldlM {f : List NodeId → NodeId → Except Defect (List NodeId)}
    (point : List NodeId → List NodeId → State) {l : List NodeId}
    (hf : ∀ done rest, ∀ y ∈ l, Yields g (point (y :: rest) done) (point rest) (f done y))
    (done : List NodeId) : Yields g (point l done) (point []) (l.foldlM f done) := by
  induction l generalizing done with
  | nil => exact .refl
  | cons y l ih =>
    have hy := hf done l y List.mem_cons_self
    rw [List.foldlM_cons]
    cases hr : f done y with
    | error e =>
      rw [hr] at hy
      exact hy
    | ok done' =>
      rw [hr] at hy
      exact (ih (fun d rest z hz => hf d rest z (List.mem_cons_of_mem y hz)) done').after hy

section InRange
variable (hrange : ∀ {p c}, g.Uses p c → (0 : Int) ≤ c ∧ c < (g.size : Int))
include hrange

/-- A node put on the stack is taken off again with all it depends on. The nodes of the path differ,
so the depth of the recursion is enough. -/
theorem yields_explore {fuel : Nat} (stack : List Frame) {id : NodeId}
    (hpath : (id :: path stack).Nodup)
    (hin : ∀ x ∈ id :: path stack, (0 : Int) ≤ x ∧ x < (g.size : Int))
    (hfuel : g.size ≤ fuel + stack.length) (done starts : List NodeId) :
    Yields g ⟨⟨id, g.inputsOf id⟩ :: stack, done, starts⟩ (fun done => ⟨stack, done, starts⟩)
      (g.explore fuel (path stack) done id) := by
  induction fuel generalizing stack id done with
  | zero =>
    have hlen := Graph.length_le_size hpath hin
    simp only [path, List.length_cons, List.length_map] at hlen
    omega
  | succ fuel ih =>
    have hstep : ∀ done rest, ∀ y ∈ g.inputsOf id,
        Yields g ⟨⟨id, y :: rest⟩ :: stack, done, starts⟩
          (fun done => ⟨⟨id, rest⟩ :: stack, done, starts⟩)
          (if y ∈ id :: path stack then .error (.cycle g.name (g.label id) (g.label y))
            else if y ∈ done then .ok done
            else g.explore fuel (id :: path stack) done y) := by
      intro done rest y hy
      by_cases hgrey : y ∈ id :: path stack
      · rw [if_pos hgrey]
        exact ⟨_, .refl, if_pos hgrey⟩
      · rw [if_neg hgrey]
        by_cases hblack : y ∈ done
        · rw [if_pos hblack]
          refine .single ?_
          simp only [step, if_neg hgrey, if_pos hblack]
        · rw [if_neg hblack]
          have hnext := ih (⟨id, rest⟩ :: stack) (List.nodup_cons.2 ⟨hgrey, hpath⟩)
            (List.forall_mem_cons.2 ⟨hrange hy, hin⟩) (by simp only [List.length_cons]; omega) done
          refine hnext.after (.single ?_)
          simp only [step, if_neg hgrey, if_neg hblack]
    have hrun := yields_foldlM (fun rest done => ⟨⟨id, rest⟩ :: stack, done, starts⟩) hstep done
    unfold Graph.explore
    revert hrun
    generalize List.foldlM (m := Except Defect) _ done (g.inputsOf id) = r
    intro hrun
    cases r with
    | error e => exact hrun
    | ok done' => exact hrun.tail rfl

theorem halts_start : Halts g (start g) g.checkAcyclic := by
  have hstep : ∀ done rest, ∀ x ∈ g.ids, Yields g ⟨[], done, x :: rest⟩
      (fun done => ⟨[], done, rest⟩)
      (if x ∈ done then .ok done else g.explore g.size [] done x) := by
    intro done rest x hx
    by_cases hblack : x ∈ done
    · rw [if_pos hblack]
      exact .single (if_pos hblack)
    · rw [if_neg hblack]
      have hnext := yields_explore hrange [] (by simp [path])
        (by simpa [path] using Graph.mem_ids.1 hx) le_rfl done rest
      exact hnext.after (.single (if_neg hblack))
  have hrun := yields_foldlM (fun rest done => ⟨[], done, rest⟩) hstep []
  unfold Graph.checkAcyclic
  revert hrun
  generalize List.foldlM (m := Except Defect) _ [] g.ids = r
  intro hrun
  cases r with
  | error e => exact hrun
  | ok done => exact ⟨_, hrun, rfl⟩

end InRange
end CycleSearch

theorem Outcome.exists_error_of_foldlM {ε α β : Type} {step : β → α → Except ε β} {l : List α} {b : β}
    {e : ε} (h : l.foldlM step b = .error e) : ∃ b, ∃ a ∈ l, step b a = .error e := by
  induction l generalizing b with
  | nil => cases h
  | cons a l ih =>
    rw [List.foldlM_cons] at h
    cases hstep : step b a with
    | error e' =>
      rw [hstep] at h
      cases h
      exact ⟨b, a, List.mem_cons_self, hstep⟩
    | ok b' =>
      rw [hstep] at h
      obtain ⟨b'', c, hc, he⟩ := ih h
      exact ⟨b'', c, List.mem_cons_of_mem a hc, he⟩

namespace Graph
variable {g : Graph}

def OnCycle (g : Graph) (e : Defect) : Prop :=
  ∃ x y, e = .cycle g.name (g.label x) (g.label y) ∧ g.Uses x y ∧ Relation.ReflTransGen g.Uses y x

/-- All nodes of the path lead to the node that is explored, so an operand on the path closes a
cycle. -/
theorem onCycle_of_explore {fuel : Nat} {path done : List NodeId} {id : NodeId} {e : Defect}
    (hpath : ∀ p ∈ path, Relation.ReflTransGen g.Uses p id)
    (h : g.explore fuel path done id = .error e) : g.OnCycle e := by
  induction fuel generalizing path done id with
  | zero => cases h
  | succ fuel ih =>
    have hreach : ∀ p ∈ id :: path, Relation.ReflTransGen g.Uses p id :=
      List.forall_mem_cons.2 ⟨.refl, hpath⟩
    unfold explore at h
    generalize hrun : List.foldlM (m := Except Defect) _ done (g.inputsOf id) = result at h
    cases result with
    | ok done' => cases h
    | error e' =>
      cases h
      obtain ⟨done', y, hy, he⟩ := Outcome.exists_error_of_foldlM hrun
      split at he
      · rename_i hgrey
        cases he
        exact ⟨id, y, rfl, hy, hreach y hgrey⟩
      · split at he
        · cases he
        · exact ih (fun p hp => (hreach p hp).tail hy) he

theorem onCycle_of_checkAcyclic {e : Defect} (h : g.checkAcyclic = .error e) : g.OnCycle e := by
  unfold checkAcyclic at h
  generalize hrun : List.foldlM (m := Except Defect) _ [] g.ids = result at h
  cases result with
  | ok done => cases h
  | error e' =>
    cases h
    obtain ⟨done, x, -, he⟩ := Outcome.exists_error_of_foldlM hrun
    split at he
    · cases he
    · exact onCycle_of_explore (fun p hp => absurd hp List.not_mem_nil) he

theorem not_transGen_of_rank {rank : NodeId → Nat}
    (hrank : ∀ x, ∀ y ∈ g.inputsOf x, rank y < rank x) (x : NodeId) :
    ¬ Relation.TransGen g.Uses x x := by
  have hfall : ∀ {y z}, Relation.TransGen g.Uses y z → rank z < rank y := by
    intro y z h
    induction h with
    | single h => exact hrank _ _ h
    | tail _ h ih => exact (hrank _ _ h).trans ih
  exact fun h => lt_irrefl _ (hfall h)

def OperandsExist (g : Graph) : Prop :=
  ∀ p, ∀ c ∈ g.inputsOf p, (0 : Int) ≤ c ∧ c < (g.size : Int)

instance (g : Graph) : Decidable g.OperandsExist :=
  decidable_of_iff (∀ p ∈ g.ids, ∀ c ∈ g.inputsOf p, (0 : Int) ≤ c ∧ c < (g.size : Int))
    ⟨fun h p c hc => by
      obtain ⟨n, hn, -⟩ := exists_of_mem_inputsOf hc
      exact h p (mem_ids.2 (range_of_get? hn)) c hc, fun h p _ => h p⟩

theorem OperandsExist.exists_node (h : g.OperandsExist) {x y : NodeId} (hy : y ∈ g.inputsOf x) :
    ∃ n, g.get? y = some n :=
  get?_of_lt (h x y hy).1 (h x y hy).2

def CycleFree (g : Graph) : Prop := ∀ x, ¬ Relation.TransGen g.Uses x x

theorem OperandsExist.cycleFree_of_check (h : g.OperandsExist) (hc : g.checkAcyclic = .ok ()) :
    g.CycleFree := by
  obtain ⟨rank, hrank⟩ := exists_rank_of_checkAcyclic (h _ _) hc
  exact not_transGen_of_rank hrank

theorem CycleFree.exists_rank (h : g.CycleFree) (hr : g.OperandsExist) :
    ∃ rank : NodeId → Nat, ∀ x, ∀ y ∈ g.inputsOf x, rank y < rank x := by
  refine exists_rank_of_checkAcyclic (hr _ _) ?_
  cases hc : g.checkAcyclic with
  | ok u => rfl
  | error e =>
    obtain ⟨x, y, -, hxy, hyx⟩ := onCycle_of_checkAcyclic hc
    exact absurd (Relation.TransGen.head' hxy hyx) (h x)

/-- Where all operands are nodes of the graph, the search for cycles ends with one answer. It finds no
defect if and only if there is no cycle, and a defect names an edge of a cycle. -/
theorem cycle_search_exact (g : Graph)
    (hrange : ∀ p, ∀ c ∈ g.inputsOf p, (0 : Int) ≤ c ∧ c < (g.size : Int)) :
    (∀ answer, CycleSearch.Halts g (CycleSearch.start g) answer ↔ answer = g.checkAcyclic) ∧
      (g.checkAcyclic = .ok () ↔ ∀ x, ¬ Relation.TransGen g.Uses x x) ∧
      ∀ e, g.checkAcyclic = .error e → ∃ x y, e = .cycle g.name (g.label x) (g.label y) ∧
        g.Uses x y ∧ Relation.ReflTransGen g.Uses y x := by
  have hhalts := CycleSearch.halts_start (hrange _ _)
  refine ⟨fun answer => ⟨fun h => h.unique hhalts, fun h => h ▸ hhalts⟩,
    ⟨fun hok => ?_, fun hnone => ?_⟩, fun e he => onCycle_of_checkAcyclic he⟩
  · obtain ⟨rank, hrank⟩ := exists_rank_of_checkAcyclic (hrange _ _) hok
    exact not_transGen_of_rank hrank
  · cases hc : g.checkAcyclic with
    | ok u => rfl
    | error e =>
      obtain ⟨x, y, -, hxy, hyx⟩ := onCycle_of_checkAcyclic hc
      exact absurd (Relation.TransGen.head' hxy hyx) (hnone x)

def circularSum : Graph :=
  (Graph.empty "g").afterCalls [.matrix "A" 2 2 (-1), .binary .plus 0 0, .mult 1 1,
    .replaceInput 1 1 2]

theorem cycle_search_exact_circularSum :
    (∀ p, ∀ c ∈ circularSum.inputsOf p, (0 : Int) ≤ c ∧ c < (circularSum.size : Int)) ∧
      circularSum.checkAcyclic = .error (.cycle "g" ⟨2, .binary .mult⟩ ⟨1, .binary .plus⟩) ∧
      CycleSearch.Halts circularSum (CycleSearch.start circularSum)
        (.error (.cycle "g" ⟨2, .binary .mult⟩ ⟨1, .binary .plus⟩)) ∧
      ∃ x, Relation.TransGen circularSum.Uses x x := by
  have hids : ∀ p ∈ circularSum.ids, ∀ c ∈ circularSum.inputsOf p,
      (0 : Int) ≤ c ∧ c < (circularSum.size : Int) := by decide +kernel
  have hrange : ∀ p, ∀ c ∈ circularSum.inputsOf p,
      (0 : Int) ≤ c ∧ c < (circularSum.size : Int) := fun p c hc => by
    obtain ⟨n, hn, -⟩ := exists_of_mem_inputsOf hc
    exact hids p (mem_ids.2 (range_of_get? hn)) c hc
  have herror : circularSum.checkAcyclic =
      .error (.cycle "g" ⟨2, .binary .mult⟩ ⟨1, .binary .plus⟩) := by decide +kernel
  obtain ⟨hhalts, hiff, -⟩ := cycle_search_exact circularSum hrange
  refine ⟨hrange, herror, (hhalts _).2 herror.symm, ?_⟩
  by_contra hnone
  rw [hiff.2 (not_exists.1 hnone)] at herror
  cases herror

end Graph
end LinearPlan
