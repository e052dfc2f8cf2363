import LinearPlan.Proofs.Completion
import LinearPlan.Proofs.CycleSearch
import LinearPlan.Proofs.ExposedNodes
import LinearPlan.Proofs.FactorCounts

/-!
# Passes keep values

With exact elements a pass keeps the values of its roots. A step keeps the value of every node that
it does not change, and what replaces a node has its value. So a root keeps its value unless it is
changed without being replaced, as an inner product or an inner write of a chain may be. This cannot
happen to a root that nothing of its own kind uses, or that something of another kind uses as well.
-/
namespace LinearPlan

namespace Optimizer
open LinearPlan.Graph Factoring Slicing

namespace Step
variable {α : Type} [Element α] {g g' : Graph} {inputs : Inputs α} {D C : NodeId → Prop}
  {id root : NodeId}

theorem exactSizes (h : Step g id root C g') (hs : g.Sound) (hD : g.Evaluated inputs D)
    (he : g.plan.ExactSizes D) {N : NodeId → Prop}
    (hN : ∀ x : Int, N x → ¬ (x < (g.size : Int) ∧ ¬ C x)) :
    g'.plan.ExactSizes fun x => (D x ∧ ¬ C x) ∨ (D id ∧ N x) := by
  rintro x j flags n (⟨hDx, hC⟩ | ⟨hid, hx⟩) hj hop hn
  · obtain ⟨v, hv⟩ := hD.value x hDx
    obtain ⟨i, hi⟩ := hv.item
    cases (h.rework.kept_item hi hC).symm.trans hj
    exact he x i flags n hDx hi hop hn
  · have hk := hN x hx
    cases h with
    | factor h hrep =>
      rcases (h.fresh_of_changed hj hk).2.op with ⟨v, hv⟩ | hv | hv <;> rw [hv] at hop <;> cases hop
    | @merge m _ h =>
      have hbottom : D m.bottom := h.applies.chain.mem_of_closed hD.closed hid h.applies.bottom_mem
      have hwidth := h.exact_width hs he hbottom
      rcases h.changed_cases hj hk with ⟨i, lo, hi, -, -, rfl⟩ | hxs
      · rwa [← m.axis.width_of_slice h.applies.width hwidth.1 hwidth.2 hn] at hwidth
      · rcases h.result.new_cases hj hxs with ⟨-, -, n, rfl⟩ | ⟨-, rfl⟩ | ⟨-, rfl⟩
        · cases hop
        · cases hop
        · obtain ⟨b, hb, -, -, hwhole⟩ := h.applies.wide
          obtain ⟨i, hw⟩ := h.applies.bottomAt
          obtain ⟨flags', hop', -⟩ := hw.op
          refine he _ i flags' n hbottom hw.item hop' ?_
          rw [hs.profile_of_write hw hb, ← hwhole]
          exact hn

theorem preserves [ExactElement α] (h : Step g id root C g') (hs : g.Sound)
    (hD : g.Valued inputs D) (hP : g.plan.FactorsBelow (2 ^ 53)) (he : g.plan.ExactSizes D)
    (hin : ∀ name u, inputs name = some u → u.Within (2 ^ 63)) :
    ∃ D', g'.Valued inputs D' ∧ g'.plan.ExactSizes D' ∧
      (∀ x v, D x → ¬ C x → g.HasValue inputs x v → D' x ∧ g'.HasValue inputs x v) ∧
      ∀ v, D id → g.HasValue inputs id v → D' root ∧ g'.HasValue inputs root v := by
  obtain ⟨rank, hrank⟩ := hs.acyclic
  suffices hparts : ∃ N : NodeId → Prop, (∀ x, Carries g g' inputs D C x) ∧
      (∀ x : Int, N x → ¬ (x < (g.size : Int) ∧ ¬ C x)) ∧
      (D id → N root ∧ ∀ v, g.HasValue inputs id v → g'.HasValue inputs root v) ∧
      (D id → ∀ x, N x → (∃ v, g'.HasValue inputs x v) ∧ ∀ i, g'.plan x = some i →
        (∀ y ∈ i.inputs, (D y ∧ ¬ C y) ∨ N y) ∧ i.IsNumeric ∧
        ∀ vs, List.Forall₂ (g'.HasValue inputs) i.inputs vs → i.op.Honest vs) by
    obtain ⟨N, hcarry, hN, hroot, hnew⟩ := hparts
    exact ⟨_, h.valued hD hcarry (fun hid => (hroot hid).2) (fun hid => (hroot hid).1) hnew,
      h.exactSizes hs hD.toEvaluated he hN,
      fun x v hx hC hv => ⟨.inl ⟨hx, hC⟩, hcarry x hx hC v hv⟩,
      fun v hid hv => ⟨.inr ⟨hid, (hroot hid).1⟩, (hroot hid).2 v hv⟩⟩
  cases h with
  | @factor _ _ M _ h hrep =>
    obtain ⟨hcarry, hroot⟩ := h.carries hs.ordered hD.toEvaluated (hP id M h.factors)
    refine ⟨Factored.Part g' inputs g.size M, hcarry, fun x hx hk => absurd hk.1 (not_lt.2 hx.1),
      fun hid => ⟨?_, hroot hid⟩, fun hid x hx => ?_⟩
    · obtain ⟨v, hv⟩ := hD.value id hid
      exact ⟨h.new, ⟨v, hroot hid v hv⟩, .inl ⟨M, h.built⟩⟩
    · refine ⟨hx.2.1, fun i hi => ⟨fun y hy => ?_, (Factored.part_item hx hi).1,
        fun vs _ => (Factored.part_item hx hi).2 vs⟩⟩
      refine (h.part_operand hx hi hy).imp_left fun hy => ?_
      exact (h.value?_leaf hs.ordered hD.toEvaluated hrank (fun y _ => hcarry y) hid hy).1
  | @merge m _ h =>
    have hline : (∀ y, rank y < rank m.top → Carries g g' inputs D (· ∈ m.chain) y) → D m.top →
        ∃ r vb vi, Merged.LineAt g g' inputs m r vb vi := by
      intro hcarry hid
      have hwidth := h.exact_width hs he
        (h.applies.chain.mem_of_closed hD.closed hid h.applies.bottom_mem)
      exact h.exists_lineAt hs hD (fun _ _ _ _ _ => ExactElement.toInt?_ofNumber _) (by decide)
        le_rfl hin (fun _ => (ExactElement.toInt?_ofNumber _).trans hwidth.2) hrank hcarry hid
    obtain ⟨hcarry, hvalue⟩ := h.carries hs hD hrank hline
    have hnew : m.start ≤ m.written := h.start ▸ (Rework.merge h.toRechained).root_new
    refine ⟨Merged.Part g' m, hcarry, fun x hx hk => ?_, fun hid => ⟨.inr ⟨hnew, ?_⟩, hvalue hid⟩,
      fun hid x hx => ?_⟩
    · rcases hx with hx | ⟨hx, -⟩
      · exact hk.2 hx
      · exact absurd hk.1 (not_lt.2 (h.start ▸ hx))
    · exact (Rework.merge h.toRechained).root_live
    · obtain ⟨r, vb, vi, hl⟩ := hline (fun y _ => hcarry y) hid
      refine ⟨h.part_value hs hD hrank (fun y _ => hcarry y) hid hl hx, fun i hi => ?_⟩
      rcases hx with hx | ⟨hx, -⟩
      · exact h.part_chain hs hD hcarry hid hx hi
      · exact h.part_new hs hD hid hx hi

end Step

variable {S : NodeId → Prop} {p p' : Pass} {r : NodeId}

section Values
variable {α : Type} [Element α] [ExactElement α] {inputs : Inputs α} {v : Value α}

structure Holds (inputs : Inputs α) (r : NodeId) (v : Value α) (p : Pass) :
    Prop where
  tracked : Tracked p r
  below : p.graph.plan.FactorsBelow (2 ^ 53)
  valued : ∃ D, p.graph.Valued inputs D ∧ p.graph.plan.ExactSizes D ∧ D (p.latest r) ∧
    p.graph.HasValue inputs (p.latest r) v

theorem Holds.move (h : Holds inputs r v p) (ht : Trail p) (hs : p.graph.Sound)
    (hin : ∀ name u, inputs name = some u → u.Within (2 ^ 63)) (hm : Move S p p') :
    Holds inputs r v p' := by
  have htracked := h.tracked.move ht hs hm
  obtain ⟨D, hD, hsizes, hDr, hval⟩ := h.valued
  cases hm with
  | visit hg hv hr =>
    have he : p'.latest r = p.latest r := by
      unfold Pass.latest
      rw [hr]
    refine ⟨htracked, hg ▸ h.below, D, hg ▸ hD, hg ▸ hsizes, he ▸ hDr, ?_⟩
    rw [he, hg]
    exact hval
  | step hstep hid hun hv hnew hr =>
    obtain ⟨D', hD', hsizes', hkept, hroot⟩ := hstep.preserves hs hD h.below hsizes hin
    refine ⟨htracked, hstep.factorsBelow hs (by decide) h.below, D', hD', hsizes', ?_⟩
    rcases h.tracked.latest_cases ht hs hstep hr with ⟨he, he'⟩ | ⟨he, -, hC⟩
    · rw [he']
      exact hroot v (he ▸ hDr) (he ▸ hval)
    · rw [he]
      exact hkept _ v hDr hC hval

theorem Holds.moves (h : Holds inputs r v p) (hst : Steady S p)
    (hin : ∀ name u, inputs name = some u → u.Within (2 ^ 63)) (hm : Moves S p p') :
    Holds inputs r v p' := by
  induction hm with
  | refl => exact h
  | tail hms hm ih => exact ih.move (hst.moves hms).trail (hst.moves hms).sound hin hm

end Values

end Optimizer

namespace Graph
variable {α : Type} [Element α] {g : Graph} {inputs : Inputs α}

/-- A literal can hold the numbers of rows and columns of each write that the roots use, as a 64-bit
integer. -/
def ExactSizes (g : Graph) (roots : List NodeId) : Prop :=
  ∀ r ∈ roots, ∀ x n flags, Relation.ReflTransGen g.Uses r x → g.get? x = some n →
    n.retired = false → n.op = .leftIndexing flags →
      ∀ d : Int, d = n.shape.rows ∨ d = n.shape.cols → 0 ≤ d →
        d < 2 ^ 63 ∧ (Number.ofInt d).toInt? = some d

theorem ExactSizes.plan {roots : List NodeId} {r : NodeId} (h : g.ExactSizes roots)
    (hr : r ∈ roots) (ht : g.Typed) : g.plan.ExactSizes (Relation.ReflTransGen g.Uses r) := by
  intro x i flags k hreach hx hop hk
  obtain ⟨n, hn, hlive, rfl⟩ := get?_of_plan hx
  have hlegal : n.core.shape.Legal := ht.legal (core?_eq_some hn) hlive
  rcases hk with hk | hk
  · have hd : (k : Int) = n.shape.rows := Dim.eq_of_ofInt (hlegal.rows_eq.trans hk)
    exact h r hr x n flags hreach hn hlive hop k (.inl hd) (by omega)
  · have hd : (k : Int) = n.shape.cols := Dim.eq_of_ofInt (hlegal.cols_eq.trans hk)
    exact h r hr x n flags hreach hn hlive hop k (.inr hd) (by omega)

theorem exactSizes_of_ids (h : ∀ x ∈ g.ids, ∀ n ∈ g.get? x, ∀ d ∈ [n.shape.rows, n.shape.cols],
    d < 2 ^ 63 ∧ (Number.ofInt d).toInt? = some d) (roots : List NodeId) : g.ExactSizes roots := by
  intro r _ x n _ _ hn _ _ d hd _
  exact h x (mem_ids.2 (range_of_get? hn)) n hn d (by simpa using hd)

theorem Numeric.sound (h : g.Numeric) (hc : g.check = .ok ()) (hs : g.Refreshed) : g.Sound := by
  refine sound_of_live hc hs fun x n hn hr hop => ?_
  obtain ⟨rows, cols, nnz, hd | hd⟩ := h x n hn hr hop
  · exact ⟨0, rows, cols, nnz, le_rfl, hd⟩
  · exact ⟨1, rows, cols, nnz, by decide, hd⟩

theorem Numeric.valued (h : g.Numeric) (hh : g.Honest inputs) :
    g.Valued inputs fun x => ∃ v, g.HasValue inputs x v where
  toEvaluated := g.evaluated inputs
  honest x i vs _ hi hvs := by
    obtain ⟨n, hn, hr, rfl⟩ := get?_of_plan hi
    exact hh x n vs hn hr hvs
  numeric x i _ hi := by
    obtain ⟨n, hn, hr, rfl⟩ := get?_of_plan hi
    exact fun hop => (h.profile hn hr hop).2

theorem Valued.reached {D : NodeId → Prop} {r : NodeId} (h : g.Valued inputs D) (hr : D r) :
    g.Valued inputs (Relation.ReflTransGen g.Uses r) := by
  have hsub : ∀ {x}, Relation.ReflTransGen g.Uses r x → D x := by
    intro x hx
    induction hx with
    | refl => exact hr
    | tail _ huse ih =>
      obtain ⟨v, hv⟩ := h.value _ ih
      obtain ⟨i, hi⟩ := hv.item
      exact h.closed _ i ih hi _ (inputsOf_of_plan hi ▸ huse)
  refine ⟨⟨fun x hx => h.value x (hsub hx), fun x i hx hi y hy => hx.tail ?_⟩,
    fun x i vs hx => h.honest x i vs (hsub hx), fun x i hx => h.numeric x i (hsub hx)⟩
  rw [Uses, inputsOf_of_plan hi]
  exact hy

theorem exactSizes_of_within [ExactElement α] (hs : g.Sound) (hd : g.Numeric)
    (hh : g.Honest inputs) (hin : ∀ name u, inputs name = some u → u.Within (2 ^ 53))
    {roots : List NodeId} {vs : List (Value α)} (hv : g.evaluate inputs roots = .ok vs) :
    g.ExactSizes roots := by
  intro r hr x n flags hreach hn hlive hop d hdim hnonneg
  obtain ⟨u, -, hu⟩ := Outcome.exists_of_forall₂_left ((evaluate_eq_ok_iff hs.acyclic).1 hv) hr
  have hD := (hd.valued hh).reached ⟨u, hu⟩
  obtain ⟨v, hval⟩ := hD.value x hreach
  obtain ⟨hdesc, hwithin⟩ := hD.describes hs.sized
    (fun _ _ _ _ _ => ExactElement.toInt?_ofNumber _) (by decide) (by decide) hin hval hreach
    (plan_eq_some hn hlive)
  have hdims := Shape.dims_of_admits (hs.legal (core?_eq_some hn) hlive) hdesc.profile
  have hlt : d < 2 ^ 53 := by
    rcases hdim with rfl | rfl
    · have he : n.shape.rows = v.rows := hdims.1 hnonneg
      have hrows := hwithin.1
      omega
    · have he : n.shape.cols = v.cols := hdims.2 hnonneg
      have hcols := hwithin.2
      omega
  have habs : d.natAbs < 2 ^ 53 := by omega
  exact ⟨by omega, Number.toInt?_ofInt habs⟩

end Graph

namespace Optimizer
open LinearPlan.Graph
variable {rules : List Rule} {g : Graph} {roots : List NodeId}

theorem optimize_eq (hrules : ∀ r ∈ rules, Standard r) (hs : g.Sound)
    (hroots : ∀ r ∈ roots, ∃ n, g.get? r = some n ∧ n.retired = false) (validate : Bool) :
    ∃ p, optimize rules validate g roots = ⟨.ok (roots.map p.latest), p⟩ ∧
      Steady (fun _ => True) (.start g) ∧ Moves (fun _ => True) (.start g) p := by
  have hstart : Steady (fun _ => True) (.start g) :=
    ⟨hs, fun _ _ => trivial, fun _ _ _ _ _ _ => trivial, ⟨nofun, nofun, nofun⟩, nofun⟩
  have hknown : ∀ r ∈ roots, True ∧ Known (Pass.start g).graph r := fun r hr => by
    obtain ⟨n, hn, hlive⟩ := hroots r hr
    exact ⟨trivial, known_of_plan (plan_eq_some hn hlive)⟩
  obtain ⟨p, hrun, hmoves⟩ := PassM.run_ok hrules hstart rfl hknown
  have hsound := (hstart.moves hmoves).sound
  have hcheck : p.graph.check = .ok () := check_eq_ok_iff.2 ⟨hsound.toLinked, hsound.acyclic⟩
  refine ⟨p, ?_, hstart, hmoves⟩
  unfold optimize
  rw [hrun]
  simp only [hcheck]
  split <;> rfl

variable {α : Type} [Element α] [ExactElement α] {inputs : Inputs α}

theorem hasValue_latest {p : Pass} {r : NodeId} {v : Value α} (hs : g.Sound) (hd : g.Numeric)
    (hh : g.Honest inputs) (hm : g.plan.FactorsBelow (2 ^ 53)) (hr : r ∈ roots)
    (he : g.ExactSizes roots) (hin : ∀ name u, inputs name = some u → u.Within (2 ^ 63))
    (hx : g.plan.Exposed r) (hv : g.HasValue inputs r v) (hst : Steady (fun _ => True) (.start g))
    (hmoves : Moves (fun _ => True) (.start g) p) : p.graph.HasValue inputs (p.latest r) v := by
  have hstart : Holds inputs r v (.start g) :=
    ⟨⟨hv.item, hx⟩, hm, _, (hd.valued hh).reached ⟨v, hv⟩, he.plan hr hs.toTyped, .refl, hv⟩
  obtain ⟨D, -, -, -, hval⟩ := (hstart.moves hst hin hmoves).valued
  exact hval

/-- A pass keeps the values of roots that nothing uses, with exact elements. The shapes have to be
settled and the variables numeric, so that shapes tell what values look like, and the flags of
bounds have to be right. Multiplicities of factors and sizes of writes become literals, so literals
have to hold them. They do if no input has `2 ^ 53` rows or columns. -/
theorem optimize_preserves_values {newRoots : List NodeId} {vs : List (Value α)}
    (hrules : ∀ r ∈ rules, Standard r) (hc : g.check = .ok ()) (hs : g.Refreshed) (hd : g.Numeric)
    (hh : g.Honest inputs) (hm : g.plan.FactorsBelow (2 ^ 53)) (he : g.ExactSizes roots)
    (hin : ∀ name u, inputs name = some u → u.Within (2 ^ 63))
    (hroots : ∀ r ∈ roots, ∃ n, g.get? r = some n ∧ n.retired = false ∧ n.parents = [])
    (validate : Bool) (hv : g.evaluate inputs roots = .ok vs)
    (hopt : (optimize rules validate g roots).result = .ok newRoots) :
    (optimize rules validate g roots).pass.graph.evaluate inputs newRoots = .ok vs := by
  have hsound := hd.sound hc hs
  obtain ⟨p, hrun, hst, hmoves⟩ := optimize_eq hrules hsound (fun r hr => by
    obtain ⟨n, hn, hlive, -⟩ := hroots r hr
    exact ⟨n, hn, hlive⟩) validate
  rw [hrun] at hopt ⊢
  cases hopt
  have hexposed : ∀ r ∈ roots, g.plan.Exposed r := fun r hr => by
    obtain ⟨n, hn, hlive, hparents⟩ := hroots r hr
    refine exposed_of_parents hsound.toLinked hn hlive (.inl fun p hp => ?_)
    rw [hparents] at hp
    cases hp
  have hvals := (evaluate_eq_ok_iff hsound.acyclic).1 hv
  rw [evaluate_eq_ok_iff (hst.moves hmoves).sound.acyclic, List.forall₂_map_left_iff]
  exact ((List.forall₂_and_left _ _).2 ⟨fun r hr => hr, hvals⟩).imp fun r v hr =>
    hasValue_latest hsound hd hh hm hr.1 he hin (hexposed r hr.1) hr.2 hst hmoves

/-- Entries for `A`, in which rows and columns differ. -/
def entriesOfA (rows cols : Nat) : Inputs (Option Int) where
  lookup name :=
    if name = "A" then some (.matrix (.ofFn rows cols fun i j => some (i + 2 * j + 1))) else none
  processors := 4

theorem entriesOfA_within (rows cols : Nat) {n : Nat} (hr : rows < n) (hc : cols < n) :
    ∀ name u, entriesOfA rows cols name = some u → u.Within n := by
  intro name u hu
  simp only [entriesOfA] at hu
  split at hu <;> cases hu
  exact ⟨hr, hc⟩

theorem optimize_preserves_values_writesAndPower :
    (optimize [Slicing.rule [.row], Factoring.rule] true writesAndPower [7]).result = .ok [7] ∧
    (optimize [Slicing.rule [.row], Factoring.rule] true writesAndPower [7]).pass.replaced.length =
      2 ∧
    writesAndPower.evaluate (entriesOfA 3 4) [7] = .ok [.matrix (.ofFn 3 4 fun i j =>
      some (if i = 1 ∧ j < 2 then 1 else (i + 2 * j + 1) ^ 3))] ∧
    (optimize [Slicing.rule [.row], Factoring.rule] true writesAndPower [7]).pass.graph.evaluate
      (entriesOfA 3 4) [7] = .ok [.matrix (.ofFn 3 4 fun i j =>
        some (if i = 1 ∧ j < 2 then 1 else (i + 2 * j + 1) ^ 3))] := by
  have hcheck : writesAndPower.check = .ok () := by decide +kernel
  have hsettled : writesAndPower.Refreshed := refreshed_of_settled (by decide +kernel)
  have hnumeric : writesAndPower.Numeric := numeric_of_ids (by decide +kernel)
  have hhonest : writesAndPower.Honest (entriesOfA 3 4) := honest_of_sameBounds (by decide +kernel)
  have hbelow := (hnumeric.sound hcheck hsettled).factorsBelow (k := 53) (by decide +kernel)
  have hroot : (writesAndPower.get? 7).map (fun n => (n.retired, n.parents)) = some (false, []) := by
    decide +kernel
  have hval : writesAndPower.evaluate (entriesOfA 3 4) [7] = .ok [.matrix (.ofFn 3 4 fun i j =>
      some (if i = 1 ∧ j < 2 then 1 else (i + 2 * j + 1) ^ 3))] := by decide +kernel
  have hsizes : writesAndPower.ExactSizes [7] := exactSizes_of_within
    (hnumeric.sound hcheck hsettled) hnumeric hhonest
    (entriesOfA_within 3 4 (by decide) (by decide)) hval
  have hopt : (optimize [Slicing.rule [.row], Factoring.rule] true writesAndPower [7]).result =
      .ok [7] := by decide +kernel
  refine ⟨hopt, by decide +kernel, hval, optimize_preserves_values ?_ hcheck hsettled hnumeric
    hhonest hbelow hsizes (entriesOfA_within 3 4 (by decide) (by decide)) ?_ true hval hopt⟩
  · intro r hr
    rcases List.mem_pair.1 hr with rfl | rfl
    · exact .inr ⟨_, rfl⟩
    · exact .inl rfl
  · intro r hr
    rw [List.mem_singleton.1 hr]
    obtain ⟨n, hn, he⟩ := Option.map_eq_some_iff.1 hroot
    exact ⟨n, hn, (Prod.mk.inj he).1, (Prod.mk.inj he).2⟩

/-- A root keeps a node that stands for it, with its value, if no user is of its own kind, or if a
user of another kind uses it other than as an upper bound of a write. -/
theorem optimize_keeps_root {newRoots : List NodeId} {k : Nat} {r : NodeId} {n : Node}
    (hrules : ∀ r ∈ rules, Standard r) (hc : g.check = .ok ()) (hs : g.Refreshed) (hd : g.Numeric)
    (hm : g.plan.FactorsBelow (2 ^ 53)) (he : g.ExactSizes [r])
    (hroots : ∀ r ∈ roots, ∃ n, g.get? r = some n ∧ n.retired = false) (hk : roots[k]? = some r)
    (hn : g.get? r = some n)
    (hx : (∀ p ∈ n.parents, ∀ m, g.get? p = some m → ¬ m.op.Kin n.op) ∨
      ∃ p ∈ n.parents, ∃ m, g.get? p = some m ∧ ¬ m.op.Kin n.op ∧ m.item.Retains r)
    (validate : Bool) (hopt : (optimize rules validate g roots).result = .ok newRoots) :
    ∃ r' m, newRoots[k]? = some r' ∧
      (optimize rules validate g roots).pass.graph.get? r' = some m ∧ m.retired = false ∧
      ∀ (inputs : Inputs α) v, g.Honest inputs →
        (∀ name u, inputs name = some u → u.Within (2 ^ 63)) → g.evaluate inputs [r] = .ok [v] →
        (optimize rules validate g roots).pass.graph.evaluate inputs [r'] = .ok [v] := by
  have hsound := hd.sound hc hs
  obtain ⟨p, hrun, hst, hmoves⟩ := optimize_eq hrules hsound hroots validate
  obtain ⟨n', hn', hlive⟩ := hroots r (List.mem_of_getElem? hk)
  rw [hn] at hn'
  cases hn'
  have hexposed := exposed_of_parents hsound.toLinked hn hlive hx
  have htracked : Tracked p r :=
    Tracked.moves ⟨⟨_, plan_eq_some hn hlive⟩, hexposed⟩ hst hmoves
  rw [hrun] at hopt ⊢
  cases hopt
  obtain ⟨i, hi⟩ := htracked.live
  obtain ⟨m, hm', hr, -⟩ := get?_of_plan hi
  refine ⟨p.latest r, m, ?_, hm', hr, fun inputs v hh hin hv => ?_⟩
  · rw [List.getElem?_map, hk]
    rfl
  · rw [evaluate_eq_ok_iff (hst.moves hmoves).sound.acyclic]
    rcases (evaluate_eq_ok_iff hsound.acyclic).1 hv with _ | ⟨hv, -⟩
    exact .cons (hasValue_latest hsound hd hh hm (List.mem_singleton_self r) he hin hexposed hv hst
      hmoves) .nil

/-- A cube that a product uses, and that is written to a matrix. -/
def writtenCube : Graph :=
  (Graph.empty "g").afterCalls [.matrix "A" 2 3 (-1), .mult 0 0, .mult 1 0, .mult 2 0,
    .literal (.ofInt 1), .literal (.ofInt 2), .literal (.ofInt 3),
    .leftIndexing ⟨false, false⟩ 0 2 4 5 4 6]

theorem optimize_keeps_root_writtenCube :
    (optimize [Factoring.rule] true writtenCube [3, 7, 2]).result = .ok [3, 7, 9] ∧
    (∃ m, (optimize [Factoring.rule] true writtenCube [3, 7, 2]).pass.graph.get? 9 = some m ∧
      m.retired = false) ∧
    (optimize [Factoring.rule] true writtenCube [3, 7, 2]).pass.graph.evaluate (entriesOfA 2 3) [9] =
      .ok [.matrix (.ofFn 2 3 fun i j => some ((i + 2 * j + 1) ^ 3))] := by
  have hcheck : writtenCube.check = .ok () := by decide +kernel
  have hsettled : writtenCube.Refreshed := refreshed_of_settled (by decide +kernel)
  have hnumeric : writtenCube.Numeric := numeric_of_ids (by decide +kernel)
  have hhonest : writtenCube.Honest (entriesOfA 2 3) := honest_of_sameBounds (by decide +kernel)
  have hbelow := (hnumeric.sound hcheck hsettled).factorsBelow (k := 53) (by decide +kernel)
  have hsizes : writtenCube.ExactSizes [2] := exactSizes_of_ids (by decide +kernel) [2]
  have hlive : ∀ r ∈ [3, 7, 2], ∃ n, writtenCube.get? r = some n ∧ n.retired = false := by
    have hmap : ∀ r ∈ [3, 7, 2], (writtenCube.get? r).map Node.retired = some false := by
      decide +kernel
    exact fun r hr => Option.map_eq_some_iff.1 (hmap r hr)
  have hcube : (writtenCube.get? 2).map (fun n => (n.op.isMult, n.parents)) = some (true, [3, 7]) := by
    decide +kernel
  have hwrite : (writtenCube.get? 7).map (fun n => (n.op, n.inputs)) =
      some (.leftIndexing ⟨false, false⟩, [0, 2, 4, 5, 4, 6]) := by decide +kernel
  have hval : writtenCube.evaluate (entriesOfA 2 3) [2] =
      .ok [.matrix (.ofFn 2 3 fun i j => some ((i + 2 * j + 1) ^ 3))] := by decide +kernel
  have hopt : (optimize [Factoring.rule] true writtenCube [3, 7, 2]).result = .ok [3, 7, 9] := by
    decide +kernel
  obtain ⟨n, hn, he⟩ := Option.map_eq_some_iff.1 hcube
  obtain ⟨hmult, hparents⟩ := Prod.mk.inj he
  obtain ⟨w, hw, he⟩ := Option.map_eq_some_iff.1 hwrite
  obtain ⟨hop, hinputs⟩ := Prod.mk.inj he
  have hkin : ¬ w.op.Kin n.op := by
    rw [hop]
    rintro (⟨h, -⟩ | ⟨-, flags, -, h⟩)
    · cases h
    · rw [h] at hmult
      cases hmult
  have hretains : w.item.Retains 2 := by
    refine ⟨1, ?_, fun _ _ axis => by cases axis <;> decide⟩
    show w.inputs[1]? = some 2
    rw [hinputs]
    rfl
  obtain ⟨r', m, hr', hm, hmr, heval⟩ := optimize_keeps_root (α := Option Int) (k := 2)
    (fun r hr => .inl (List.mem_singleton.1 hr)) hcheck hsettled hnumeric hbelow hsizes hlive rfl hn
    (.inr ⟨7, hparents ▸ List.mem_cons_of_mem 3 (List.mem_singleton_self 7), w, hw, hkin, hretains⟩)
    true hopt
  cases hr'
  exact ⟨hopt, ⟨m, hm, hmr⟩,
    heval _ _ hhonest (entriesOfA_within 2 3 (by decide) (by decide)) hval⟩

def cubeOverSquare : Graph :=
  (Graph.empty "g").afterCalls [.matrix "A" 2 2 (-1), .mult 0 0, .mult 1 0]

/-- A product that is used by a product only is retired with it, although it is a root. -/
theorem optimize_loses_inner_root :
    cubeOverSquare.check = .ok () ∧ cubeOverSquare.Refreshed ∧ cubeOverSquare.Numeric ∧
    (∀ inputs : Inputs (Option Int), cubeOverSquare.Honest inputs) ∧
    (∀ r ∈ [2, 1], ∃ n, cubeOverSquare.get? r = some n ∧ n.retired = false) ∧
    cubeOverSquare.evaluate (entriesOfA 2 2) [2, 1] =
      .ok [.matrix (.ofFn 2 2 fun i j => some ((i + 2 * j + 1) ^ 3)),
        .matrix (.ofFn 2 2 fun i j => some ((i + 2 * j + 1) ^ 2))] ∧
    (optimize [Factoring.rule] true cubeOverSquare [2, 1]).result = .ok [4, 1] ∧
    (∃ n, (optimize [Factoring.rule] true cubeOverSquare [2, 1]).pass.graph.get? 1 = some n ∧
      n.retired = true) ∧
    ∀ vs, (optimize [Factoring.rule] true cubeOverSquare [2, 1]).pass.graph.evaluate
      (entriesOfA 2 2) [4, 1] ≠ .ok vs := by
  have hlive : ∀ r ∈ [2, 1], (cubeOverSquare.get? r).map Node.retired = some false := by
    decide +kernel
  have hretired : ((optimize [Factoring.rule] true cubeOverSquare [2, 1]).pass.graph.get? 1).map
      Node.retired = some true := by decide +kernel
  refine ⟨by decide +kernel, refreshed_of_settled (by decide +kernel),
    numeric_of_ids (by decide +kernel), fun inputs => honest_of_sameBounds (by decide +kernel),
    fun r hr => Option.map_eq_some_iff.1 (hlive r hr), by decide +kernel, by decide +kernel,
    Option.map_eq_some_iff.1 hretired, fun vs hvs => ?_⟩
  obtain ⟨n, hn, hr⟩ := Option.map_eq_some_iff.1 hretired
  rcases hasValue_of_evaluate hvs with _ | ⟨-, _ | ⟨hval, -⟩⟩
  obtain ⟨m, -, hm, hmr, -⟩ := hasValue_iff.1 hval
  rw [hn] at hm
  cases hm
  rw [hr] at hmr
  cases hmr

end Optimizer
end LinearPlan
