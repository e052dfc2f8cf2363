import LinearPlan.Proofs.CycleSearch
import LinearPlan.Proofs.Evaluation
import LinearPlan.Proofs.ExactArithmetic

/-!
# Evaluation with and without a memo

A graph without cycles can be evaluated by plain recursion: there is one function that gives every node
the value of its operation at the values of its operands. An evaluation with a memo gives each root what
this function gives, and if it fails, it fails as this function does at the first root that has no value.

A memo holds values of nodes, so what is found in it is what would have been computed. Faults are never
kept. The operands of a node are evaluated in the same order with and without a memo, so the first fault
is the same.
-/
namespace LinearPlan

namespace Outcome
variable {ε α β : Type}

theorem bind_eq_error_iff {x : Except ε α} {f : α → Except ε β} {e : ε} :
    (x >>= f) = .error e ↔ x = .error e ∨ ∃ a, x = .ok a ∧ f a = .error e := by
  cases x <;> simp [bind, Except.bind]

theorem mapM_congr {f f' : α → Except ε β} {l : List α} (h : ∀ a ∈ l, f a = f' a) :
    l.mapM f = l.mapM f' := by
  induction l with
  | nil => rfl
  | cons a l ih =>
    rw [List.mapM_cons, List.mapM_cons, h a List.mem_cons_self,
      ih fun b hb => h b (List.mem_cons_of_mem a hb)]

theorem mapM_eq_error_iff {f : α → Except ε β} {l : List α} {e : ε} :
    l.mapM f = .error e ↔ ∃ before a after, l = before ++ a :: after ∧
      (∀ b ∈ before, ∃ v, f b = .ok v) ∧ f a = .error e := by
  induction l with
  | nil => simp [pure, Except.pure]
  | cons a l ih =>
    rw [List.mapM_cons]
    constructor
    · intro h
      rcases bind_eq_error_iff.1 h with ha | ⟨v, ha, h⟩
      · exact ⟨[], a, l, rfl, fun b hb => absurd hb List.not_mem_nil, ha⟩
      · rcases bind_eq_error_iff.1 h with hl | ⟨vs, -, h⟩
        · obtain ⟨before, b, after, rfl, hok, hb⟩ := ih.1 hl
          exact ⟨a :: before, b, after, rfl, List.forall_mem_cons.2 ⟨⟨v, ha⟩, hok⟩, hb⟩
        · cases h
    · rintro ⟨before, b, after, hl, hok, hb⟩
      cases before with
      | nil =>
        cases hl
        exact bind_eq_error_iff.2 (.inl hb)
      | cons c before =>
        cases hl
        obtain ⟨v, ha⟩ := hok a List.mem_cons_self
        have hl : (before ++ b :: after).mapM f = .error e :=
          ih.2 ⟨before, b, after, rfl, fun d hd => hok d (List.mem_cons_of_mem a hd), hb⟩
        exact bind_eq_error_iff.2 (.inr ⟨v, ha, bind_eq_error_iff.2 (.inl hl)⟩)

end Outcome

namespace Graph
variable {α : Type} [Element α] {g : Graph} {inputs : Inputs α}
  {operand operand' plain : NodeId → Except (EvalFault α) (Value α)} {x : NodeId} {fuel fuel' : Nat}

def valueBy (g : Graph) (inputs : Inputs α)
    (operand : NodeId → Except (EvalFault α) (Value α)) (id : NodeId) :
    Except (EvalFault α) (Value α) := do
  let n ← g.evalNode id
  let operands ← n.inputs.mapM operand
  Eval.apply inputs ⟨id, n.op⟩ n.shape operands

/-- Evaluation by plain recursion, with no memo and no bound for its depth. -/
def EvaluatesPlainly (g : Graph) (inputs : Inputs α)
    (plain : NodeId → Except (EvalFault α) (Value α)) : Prop :=
  ∀ id, plain id = g.valueBy inputs plain id

theorem valueAt_succ (fuel : Nat) (x : NodeId) :
    g.valueAt inputs (fuel + 1) x = g.valueBy inputs (g.valueAt inputs fuel) x := rfl

theorem valueBy_congr (h : ∀ y ∈ g.inputsOf x, operand y = operand' y) :
    g.valueBy inputs operand x = g.valueBy inputs operand' x := by
  unfold valueBy
  cases hn : (g.evalNode x : Except (EvalFault α) Node) with
  | error e => rfl
  | ok n =>
    obtain ⟨hget, -⟩ := evalNode_eq_ok_iff.1 hn
    rw [inputsOf_eq hget] at h
    show (n.inputs.mapM operand >>= _) = (n.inputs.mapM operand' >>= _)
    rw [Outcome.mapM_congr h]

/-- A number for each node that falls along the edges and is no larger than the number of nodes. -/
structure Depth (g : Graph) (depth : NodeId → Nat) : Prop where
  falls : ∀ x, ∀ y ∈ g.inputsOf x, depth y < depth x
  le_size : ∀ x, depth x ≤ g.size

theorem CycleFree.exists_depth (h : g.CycleFree) (hr : g.OperandsExist) :
    ∃ depth, g.Depth depth := by
  obtain ⟨rank, hrank⟩ := h.exists_rank hr
  refine ⟨fun x => (g.lower rank x).card, fun x y hy => ?_, card_lower_le g rank⟩
  obtain ⟨n, hn⟩ := hr.exists_node hy
  exact card_lower_lt (mem_ids.2 (range_of_get? hn)) (hrank x y hy)

section Depth
variable {depth : NodeId → Nat} (hd : g.Depth depth)
include hd

theorem Depth.valueAt_eq (h : depth x < fuel) (h' : depth x < fuel') :
    g.valueAt inputs fuel x = g.valueAt inputs fuel' x := by
  induction fuel generalizing fuel' x with
  | zero => omega
  | succ fuel ih =>
    obtain ⟨k, rfl⟩ : ∃ k, fuel' = k + 1 := ⟨fuel' - 1, by omega⟩
    rw [valueAt_succ, valueAt_succ]
    refine valueBy_congr fun y hy => ?_
    have hlt := hd.falls x y hy
    exact ih (by omega) (by omega)

theorem Depth.valueAt_eq_plain (hp : g.EvaluatesPlainly inputs plain) (h : depth x < fuel) :
    g.valueAt inputs fuel x = plain x := by
  induction fuel generalizing x with
  | zero => omega
  | succ fuel ih =>
    rw [valueAt_succ, hp x]
    refine valueBy_congr fun y hy => ?_
    have hlt := hd.falls x y hy
    exact ih (by omega)

theorem Depth.evaluatesPlainly_value : g.EvaluatesPlainly inputs (g.value inputs) := by
  intro x
  show g.valueAt inputs (g.size + 1) x = g.valueBy inputs (g.valueAt inputs (g.size + 1)) x
  rw [valueAt_succ]
  refine valueBy_congr fun y hy => ?_
  have hlt := hd.falls x y hy
  have hle := hd.le_size x
  exact hd.valueAt_eq (by omega) (by omega)

end Depth

omit [Element α] in
theorem sharedAll_error {step : Memo α → NodeId → Except (EvalFault α) (Value α × Memo α)}
    {C : Memo α → Prop} {memo : Memo α} {l : List NodeId} {e : EvalFault α} (hm : C memo)
    (hok : ∀ memo y u, C memo → plain y = .ok u → y ∈ l →
      ∃ memo', step memo y = .ok (u, memo') ∧ C memo')
    (herror : ∀ memo y e, C memo → plain y = .error e → y ∈ l → step memo y = .error e)
    (h : l.mapM plain = .error e) : sharedAll step memo l = .error e := by
  induction l generalizing memo with
  | nil => cases h
  | cons y l ih =>
    rw [List.mapM_cons] at h
    rcases Outcome.bind_eq_error_iff.1 h with hy | ⟨u, hy, h⟩
    · exact Outcome.bind_eq_error_iff.2 (.inl (herror memo y e hm hy List.mem_cons_self))
    · rcases Outcome.bind_eq_error_iff.1 h with hl | ⟨us, -, h⟩
      · obtain ⟨memo₁, hstep, hm₁⟩ := hok memo y u hm hy List.mem_cons_self
        have hrest := ih hm₁ (fun m z u hm hz hmem => hok m z u hm hz (List.mem_cons_of_mem y hmem))
          (fun m z e hm hz hmem => herror m z e hm hz (List.mem_cons_of_mem y hmem)) hl
        refine Outcome.bind_eq_error_iff.2 (.inr ⟨_, hstep, ?_⟩)
        exact Outcome.bind_eq_error_iff.2 (.inl hrest)
      · cases h

section Depth
variable {depth : NodeId → Nat} {memo : Memo α} {e : EvalFault α} (hd : g.Depth depth)
  (hp : g.EvaluatesPlainly inputs plain)
include hd hp

theorem Depth.sharedAt_error (hm : memo.Holds g inputs) (hx : depth x < fuel)
    (h : plain x = .error e) : g.sharedAt inputs fuel memo x = .error e := by
  induction fuel generalizing memo x e with
  | zero => omega
  | succ fuel ih =>
    unfold sharedAt
    cases hfind : memo.find? x with
    | some u =>
      obtain ⟨k, hk⟩ := hm x u hfind
      have hval := valueAt_mono (le_max_left k (fuel + 1)) hk
      rw [hd.valueAt_eq_plain hp (lt_max_of_lt_right hx), h] at hval
      cases hval
    | none =>
      rw [hp x] at h
      rcases Outcome.bind_eq_error_iff.1 h with hn | ⟨n, hn, h⟩
      · exact Outcome.bind_eq_error_iff.2 (.inl hn)
      · refine Outcome.bind_eq_error_iff.2 (.inr ⟨n, hn, ?_⟩)
        obtain ⟨hget, -⟩ := evalNode_eq_ok_iff.1 hn
        have hdeep : ∀ y ∈ n.inputs, depth y < fuel := fun y hy => by
          have hlt := hd.falls x y (inputsOf_eq hget ▸ hy)
          omega
        rcases Outcome.bind_eq_error_iff.1 h with hops | ⟨vs, hops, happ⟩
        · refine Outcome.bind_eq_error_iff.2 (.inl ?_)
          refine sharedAll_error (C := (Memo.Holds · g inputs)) hm (fun m y u hC hy hmem => ?_)
            (fun m y e hC hy hmem => ih hC (hdeep y hmem) hy) hops
          exact sharedAt_complete hC ((hd.valueAt_eq_plain hp (hdeep y hmem)).trans hy)
        · have hvals : n.inputs.mapM (g.valueAt inputs fuel) = .ok vs :=
            (Outcome.mapM_congr fun y hy => hd.valueAt_eq_plain hp (hdeep y hy)).trans hops
          obtain ⟨memo₁, hall, -⟩ := sharedAll_complete (C := (Memo.Holds · g inputs))
            (Outcome.mapM_eq_ok_iff.1 hvals) hm fun _ _ _ hC hy => sharedAt_complete hC hy
          refine Outcome.bind_eq_error_iff.2 (.inr ⟨_, hall, ?_⟩)
          exact Outcome.bind_eq_error_iff.2 (.inl happ)

theorem Depth.evaluate_eq_mapM (roots : List NodeId) :
    g.evaluate inputs roots = roots.mapM plain := by
  have hvalue : ∀ x, g.value inputs x = plain x := fun x =>
    hd.valueAt_eq_plain hp (Nat.lt_succ_of_le (hd.le_size x))
  cases hall : roots.mapM plain with
  | ok vs =>
    refine evaluate_of_value ((Outcome.mapM_eq_ok_iff.1 hall).imp fun x v hx => ?_)
    exact (hvalue x).trans hx
  | error e =>
    refine Outcome.bind_eq_error_iff.2 (.inl ?_)
    refine sharedAll_error (C := (Memo.Holds · g inputs)) (Memo.holds_replicate g.size)
      (fun m y u hC hy _ => sharedAt_complete hC ((hvalue y).trans hy)) (fun m y e hC hy _ => ?_) hall
    exact hd.sharedAt_error hp hC (Nat.lt_succ_of_le (hd.le_size y)) hy

end Depth

/-- In a graph without cycles `Graph.value` evaluates by plain recursion, and it is the only function
that does. An evaluation with a memo succeeds with the values that the recursion gives to the roots, and
fails with the fault of the first root that has none. -/
theorem evaluate_eq_plain (g : Graph) (hoperands : g.OperandsExist) (hacyclic : g.CycleFree)
    (inputs : Inputs α) :
    g.EvaluatesPlainly inputs (g.value inputs) ∧
      ∀ plain, g.EvaluatesPlainly inputs plain → plain = g.value inputs ∧ ∀ roots,
        (∀ vs, g.evaluate inputs roots = .ok vs ↔
          List.Forall₂ (fun x v => plain x = .ok v) roots vs) ∧
        ∀ e, g.evaluate inputs roots = .error e ↔ ∃ before x after, roots = before ++ x :: after ∧
          (∀ y ∈ before, ∃ v, plain y = .ok v) ∧ plain x = .error e := by
  obtain ⟨depth, hd⟩ := hacyclic.exists_depth hoperands
  refine ⟨hd.evaluatesPlainly_value, fun plain hp => ⟨?_, fun roots => ⟨fun vs => ?_, fun e => ?_⟩⟩⟩
  · funext x
    exact (hd.valueAt_eq_plain hp (Nat.lt_succ_of_le (hd.le_size x))).symm
  · rw [hd.evaluate_eq_mapM hp, Outcome.mapM_eq_ok_iff]
  · rw [hd.evaluate_eq_mapM hp, Outcome.mapM_eq_error_iff]

/-- Two sums over a shared product. The second one adds a matrix that does not fit. -/
def sharedProduct : Graph :=
  (Graph.empty "g").afterCalls [.matrix "A" 2 2 (-1), .matrix "B" (-1) (-1) (-1), .mult 0 0,
    .binary .plus 2 2, .binary .plus 2 1]

def sharedProductInputs : Inputs Int where
  lookup name :=
    if name = "A" then some (.matrix (.ofFn 2 2 fun i j => i + 2 * j))
    else if name = "B" then some (.matrix (.ofFn 3 3 fun _ _ => 1))
    else none
  processors := 4

theorem evaluate_eq_plain_sharedProduct :
    sharedProduct.OperandsExist ∧ sharedProduct.CycleFree ∧
      sharedProduct.evaluate sharedProductInputs [3, 2, 3] =
        .ok [.matrix (.ofFn 2 2 fun i j => 2 * (i + 2 * j) ^ 2),
          .matrix (.ofFn 2 2 fun i j => (i + 2 * j) ^ 2),
          .matrix (.ofFn 2 2 fun i j => 2 * (i + 2 * j) ^ 2)] ∧
      sharedProduct.evaluate sharedProductInputs [3, 4, 5] =
        .error (.incompatible ⟨4, .binary .plus⟩ 2 3) := by
  have hoperands : sharedProduct.OperandsExist := by decide +kernel
  have hacyclic : sharedProduct.CycleFree := hoperands.cycleFree_of_check (by decide +kernel)
  obtain ⟨hplain, hall⟩ := evaluate_eq_plain sharedProduct hoperands hacyclic sharedProductInputs
  obtain ⟨-, hroots⟩ := hall _ hplain
  have h3 : sharedProduct.value sharedProductInputs 3 =
      .ok (.matrix (.ofFn 2 2 fun i j => 2 * (i + 2 * j) ^ 2)) := by decide +kernel
  have h2 : sharedProduct.value sharedProductInputs 2 =
      .ok (.matrix (.ofFn 2 2 fun i j => (i + 2 * j) ^ 2)) := by decide +kernel
  have h4 : sharedProduct.value sharedProductInputs 4 =
      .error (.incompatible ⟨4, .binary .plus⟩ 2 3) := by decide +kernel
  refine ⟨hoperands, hacyclic, ((hroots _).1 _).2 (.cons h3 (.cons h2 (.cons h3 .nil))), ?_⟩
  refine ((hroots _).2 _).2 ⟨[3], 4, [5], rfl, fun y hy => ?_, h4⟩
  rw [List.mem_singleton.1 hy]
  exact ⟨_, h3⟩

end Graph
end LinearPlan
