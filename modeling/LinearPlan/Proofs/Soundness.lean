import LinearPlan.Proofs.Validity

/-!
# Sound graphs

A graph is sound when its edges are consistent, its shapes are legal and follow from those of the
operands, and nothing depends on itself. A graph that passes the validity check is sound if its
variables are declared with types of their own and refreshing any node in use changes nothing.
-/
namespace LinearPlan

def Shape.IsDeclared (s : Shape) : Prop :=
  ∃ code rows cols nnz, 0 ≤ code ∧ s = .declared (.ofCode code) rows cols nnz

theorem DataType.ofCode_rank {code : Int} (h : 0 ≤ code) :
    (DataType.ofCode code).rank = code ∧ (code < 2 → DataType.ofCode code = .scalar ∨
      DataType.ofCode code = .matrix) := by
  unfold DataType.ofCode
  split <;> simp_all [DataType.rank]
  omega

theorem Shape.IsDeclared.legal {s : Shape} (h : s.IsDeclared) : s.Legal := by
  obtain ⟨code, rows, cols, nnz, hcode, rfl⟩ := h
  obtain ⟨hrank, hlow⟩ := DataType.ofCode_rank hcode
  unfold declared
  split
  · exact legal_ofScalar _
  · trivial
  · rename_i hs hm
    refine (legal_unsized .float64 (-1) ?_ ?_).1
    · rw [hrank]
      by_contra hlt
      rcases hlow (by omega) with h | h
      · exact hs h
      · exact hm h
    · rw [hrank]

namespace Graph
variable {g : Graph}

/-- Refreshing a node in use succeeds and changes nothing. -/
def Refreshed (g : Graph) : Prop :=
  ∀ x n, g.get? x = some n → n.retired = false → Edit.refresh x g = .ok () g

/-- Variables have the shapes they were declared with. -/
def Declared (g : Graph) : Prop :=
  ∀ x n, g.get? x = some n → n.op = .data n.op.name → n.shape.IsDeclared

structure Sound (g : Graph) : Prop extends Typed g where
  sized : g.plan.Sized
  acyclic : g.plan.Acyclic

theorem Sound.ordered (h : g.Sound) : g.Ordered := ⟨h.toLinked, h.acyclic⟩

theorem Refreshed.sizeNode_eq (h : g.Refreshed) {x : NodeId} {n : Node} (hn : g.get? x = some n)
    (hr : n.retired = false) : g.sizeNode x n = .ok n.shape := by
  have hrun := h x n hn hr
  cases hs : g.sizeNode x n with
  | error fault =>
    rw [Edit.refresh_error hn hr hs] at hrun
    cases hrun
  | ok s =>
    rw [Edit.refresh_ok hn hr hs] at hrun
    have hg : g.modify x (fun m => { m with shape := s }) = g := by
      injection hrun
    have hget := congrArg (fun g => g.get? x) hg
    rw [get?_modify, hn] at hget
    simp only [Option.map_some, if_true, Option.some.injEq] at hget
    rw [← hget]

/-- A valid graph with declared variables and settled shapes is sound. Variables that are retired do
not count. -/
theorem sound_of_live (hc : g.check = .ok ()) (hr : g.Refreshed)
    (hd : ∀ x n, g.get? x = some n → n.retired = false → n.op = .data n.op.name →
      n.shape.IsDeclared) : g.Sound := by
  obtain ⟨hl, rank, hrank⟩ := check_eq_ok_iff.1 hc
  -- Shapes are legal by induction on the rank, as operands are sized before their users.
  have hlegal : ∀ k x n, rank x < k → g.get? x = some n → n.retired = false →
      n.shape.Legal := by
    intro k
    induction k with
    | zero => exact fun x n hk => absurd hk (Nat.not_lt_zero _)
    | succ k ih =>
      intro x n hk hn hnr
      have hops : ∀ m ∈ g.operands n, m.shape.Legal := by
        intro m hm
        obtain ⟨y, hy, hcore⟩ := List.mem_filterMap.1 hm
        obtain ⟨m', hm', rfl⟩ := get?_of_core? hcore
        obtain ⟨m'', hm'', hlive⟩ := hl.operand_live (inputsOf_eq hn ▸ hy)
        rw [hm'] at hm''
        cases hm''
        have hlt := hrank (plan_eq_some hn hnr) hy
        exact ih y m' (by omega) hm' hlive
      have hres : g.Resolves n := fun y hy => by
        obtain ⟨m, hm, -⟩ := hl.operand_live (inputsOf_eq hn ▸ hy)
        exact ⟨_, core?_eq_some hm⟩
      have hsize := hr.sizeNode_eq hn hnr
      have ha := hl.arity_eq hn hnr
      have hown : n.op = .data n.op.name → n.shape.Legal := fun hdata => (hd x n hn hnr hdata).legal
      rw [Graph.sizeNode_eq hres ha] at hsize
      rcases Shape.sizeFrom_cases ⟨x, n.op⟩ (hres.length_operands.symm ▸ ha) hown hops with
        ⟨s, hs, hlegal, -⟩ | ⟨⟨fault, hf⟩, -⟩
      · rw [hs] at hsize
        cases hsize
        exact hlegal
      · rw [hf] at hsize
        cases hsize
  have ht : g.Typed := by
    refine ⟨hl, fun {x n} hn hnr => ?_⟩
    obtain ⟨m, hm, rfl⟩ := get?_of_core? hn
    exact hlegal _ x m (Nat.lt_succ_self _) hm hnr
  refine ⟨ht, ?_, rank, hrank⟩
  intro x i hx
  obtain ⟨n, hn, hnr, rfl⟩ := get?_of_plan hx
  have hsize := hr.sizeNode_eq hn hnr
  rcases ht.sizeNode_cases (x := x) (ht.closed hx) (ht.arity_eq hn hnr)
    (fun _ => ht.legal_of_get? hn hnr) with ⟨s, hs, -, hp⟩ | ⟨⟨fault, hf⟩, -⟩
  · rw [hs] at hsize
    cases hsize
    exact hp
  · rw [hf] at hsize
    cases hsize

theorem sound_of_check (hc : g.check = .ok ()) (hr : g.Refreshed) (hd : g.Declared) : g.Sound :=
  sound_of_live hc hr fun x n hn _ hdata => hd x n hn hdata

def isSettledAt (g : Graph) (x : NodeId) : Bool :=
  match g.get? x with
  | some n => n.retired || match g.sizeNode x n with
    | .ok s => decide (s = n.shape)
    | .error _ => false
  | none => true

theorem modify_eq_self {g : Graph} {x : NodeId} {n : Node} {f : Node → Node} (hn : g.get? x = some n)
    (h : f n = n) : g.modify x f = g := by
  refine ext_get? (name_modify ..) fun y => ?_
  rw [get?_modify]
  by_cases hy : y = x
  · rw [hy, hn]
    simp [h]
  · simp [hy]

theorem refreshed_of_settled {g : Graph} (h : ∀ x ∈ g.ids, g.isSettledAt x = true) :
    g.Refreshed := by
  intro x n hn hr
  have hx := h x (mem_ids.2 (range_of_get? hn))
  unfold isSettledAt at hx
  simp only [hn, hr, Bool.false_or] at hx
  split at hx
  · rename_i s hs
    rw [Edit.refresh_ok hn hr hs, of_decide_eq_true hx, modify_eq_self hn rfl]
  · cases hx

theorem declared_of_ids {g : Graph} (h : ∀ x ∈ g.ids, ∀ n ∈ g.get? x, n.op = .data n.op.name →
    0 ≤ n.shape.dataType.rank ∧ n.shape = .declared (.ofCode n.shape.dataType.rank) n.shape.rows
      n.shape.cols n.shape.nnz) : g.Declared := by
  intro x n hn hdata
  obtain ⟨hcode, hshape⟩ := h x (mem_ids.2 (range_of_get? hn)) n hn hdata
  exact ⟨_, _, _, _, hcode, hshape⟩

theorem Sound.addNode (h : g.Sound) {op : Op} {inputs : List NodeId} {p : Profile}
    (hin : ∀ y ∈ inputs, ∃ i, g.plan y = some i) (ha : op.arity? = some inputs.length)
    (hop : op ≠ .data op.name)
    (hs : Profile.scalar.sizeFrom op (inputs.filterMap g.plan) = some p) :
    ∃ g', Edit.addNode op inputs g = .ok (g.size : Int) g' ∧ g'.size = g.size + 1 ∧ g'.Sound ∧
      Edit.Leaves g (Function.update g.plan (g.size : Int) (some ⟨op, inputs, p⟩)) g' := by
  obtain ⟨g', hrun, hsize, hleaves⟩ := Edit.addNode_plan h.toTyped hin ha hop hs
  have hnew : g.plan (g.size : Int) = none := plan_eq_none_of_size_le le_rfl
  have hold : ∀ {y j}, g.plan y = some j → y ≠ (g.size : Int) := by
    rintro _ j hy rfl
    rw [hnew] at hy
    cases hy
  have hext : g'.plan.Extends g.plan := by
    intro y j hy
    rw [hleaves.plan_eq, Function.update_of_ne (hold hy), hy]
  refine ⟨g', hrun, hsize, ⟨hleaves.typed, ?_, ?_⟩, hleaves⟩
  · refine Plan.Sized.of_extends h.sized h.closed hext fun y k hy => ?_
    rw [hleaves.plan_eq] at hy
    by_cases hyx : y = (g.size : Int)
    · subst hyx
      rw [Function.update_self] at hy
      cases hy
      refine .inr ?_
      rw [hext.operands_eq hin, Profile.sizeFrom_own hop _ .scalar]
      exact hs
    · rw [Function.update_of_ne hyx] at hy
      exact .inl hy
  · obtain ⟨rank, hrank, hlt⟩ := exists_rank_lt_size h.acyclic h.closed
    refine ⟨Function.update rank (g.size : Int) g.size, fun {x k y} hx hy => ?_⟩
    rw [hleaves.plan_eq] at hx
    by_cases hxs : x = (g.size : Int)
    · subst hxs
      rw [Function.update_self] at hx ⊢
      cases hx
      obtain ⟨j, hj⟩ := hin y hy
      rw [Function.update_of_ne (hold hj)]
      exact hlt hj
    · rw [Function.update_of_ne hxs] at hx ⊢
      obtain ⟨j, hj⟩ := h.closed hx y hy
      rw [Function.update_of_ne (hold hj)]
      exact hrank hx hy

end Graph
end LinearPlan
