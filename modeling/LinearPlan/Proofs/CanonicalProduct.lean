import LinearPlan.Proofs.ProductLayout
import LinearPlan.Proofs.ProductTrees
import LinearPlan.Proofs.SettledShapes

/-!
# The canonical product

Products over the same leaves become the same product, however they were nested and in whatever
order their leaves were found. The leaves are sorted to one list, and multiplying that list adds the
nodes of its layout. They are the same in any two graphs that agree on the leaves: only the ids of the
new nodes are moved with the ends of the graphs.

The two programs run side by side. Each step adds a node with the same operation to both graphs,
over operands that correspond, or fails in both.
-/
namespace LinearPlan

section
variable {ε σ α β α' β' : Type} {x : EStateM ε σ α} {y : EStateM ε σ β} {s t s' t' : σ} {a : α}
  {b : β} {e e' : ε} {R : α → σ → β → σ → Prop} {R' : α' → σ → β' → σ → Prop}

/-- Two programs both fail, or both succeed with results and states in a relation. -/
def Lockstep (x : EStateM ε σ α) (s : σ) (y : EStateM ε σ β) (t : σ) (R : α → σ → β → σ → Prop) :
    Prop :=
  match x s, y t with
  | .ok a s', .ok b t' => R a s' b t'
  | .error _ _, .error _ _ => True
  | _, _ => False

theorem lockstep_ok (hx : x s = .ok a s') (hy : y t = .ok b t') :
    Lockstep x s y t R ↔ R a s' b t' := by
  rw [Lockstep, hx, hy]

theorem lockstep_error (hx : x s = .error e s') (hy : y t = .error e' t') : Lockstep x s y t R := by
  rw [Lockstep, hx, hy]
  trivial

theorem lockstep_pure (h : R a s b t) :
    Lockstep (pure a : EStateM ε σ α) s (pure b : EStateM ε σ β) t R := h

theorem lockstep_bind_ok {f : α → EStateM ε σ α'} {k : β → EStateM ε σ β'} (hx : x s = .ok a s')
    (hy : y t = .ok b t') :
    Lockstep (x >>= f) s (y >>= k) t R' ↔ Lockstep (f a) s' (k b) t' R' := by
  have hx' : (x >>= f) s = f a s' := by
    show EStateM.bind x f s = _
    rw [EStateM.bind, hx]
  have hy' : (y >>= k) t = k b t' := by
    show EStateM.bind y k t = _
    rw [EStateM.bind, hy]
  rw [Lockstep, Lockstep, hx', hy']

namespace Lockstep

theorem mono {Q : α → σ → β → σ → Prop} (h : Lockstep x s y t R)
    (hQ : ∀ a s' b t', R a s' b t' → Q a s' b t') : Lockstep x s y t Q := by
  unfold Lockstep at h ⊢
  split at h
  · exact hQ _ _ _ _ h
  · trivial
  · exact h.elim

theorem cases (h : Lockstep x s y t R) :
    (∃ a s' b t', x s = .ok a s' ∧ y t = .ok b t' ∧ R a s' b t') ∨
      ∃ e s' e' t', x s = .error e s' ∧ y t = .error e' t' := by
  unfold Lockstep at h
  split at h
  · rename_i hx hy
    exact .inl ⟨_, _, _, _, hx, hy, h⟩
  · rename_i hx hy
    exact .inr ⟨_, _, _, _, hx, hy⟩
  · exact h.elim

theorem bind {f : α → EStateM ε σ α'} {k : β → EStateM ε σ β'} (h : Lockstep x s y t R)
    (hf : ∀ a s' b t', R a s' b t' → Lockstep (f a) s' (k b) t' R') :
    Lockstep (x >>= f) s (y >>= k) t R' := by
  rcases h.cases with ⟨a, s', b, t', hx, hy, hR⟩ | ⟨e, s', e', t', hx, hy⟩
  · exact (lockstep_bind_ok hx hy).2 (hf a s' b t' hR)
  · have hx' : (x >>= f) s = .error e s' := by
      show EStateM.bind x f s = _
      rw [EStateM.bind, hx]
    have hy' : (y >>= k) t = .error e' t' := by
      show EStateM.bind y k t = _
      rw [EStateM.bind, hy]
    exact lockstep_error hx' hy'

theorem and_ends {P : α → σ → Prop} {Q : β → σ → Prop} (h : Lockstep x s y t R)
    (hx : Ends x s (fun _ _ => True) P) (hy : Ends y t (fun _ _ => True) Q) :
    Lockstep x s y t fun a s' b t' => R a s' b t' ∧ P a s' ∧ Q b t' := by
  rcases h.cases with ⟨a, s', b, t', hrun, hrun', hR⟩ | ⟨e, s', e', t', hrun, hrun'⟩
  · exact (lockstep_ok hrun hrun').2 ⟨hR, (ends_ok hrun).1 hx, (ends_ok hrun').1 hy⟩
  · exact lockstep_error hrun hrun'

end Lockstep
end

theorem Edit.lockstep_undoing {α β : Type} {e : Edit α} {e' : Edit β} {undo undo' : Edit Unit}
    {g g' : Graph} {R : α → Graph → β → Graph → Prop} (h : Lockstep e g e' g' R) :
    Lockstep (undoing e undo) g (undoing e' undo') g' R := by
  rcases h.cases with ⟨a, g₁, b, g₁', ha, hb, hR⟩ | ⟨f, g₁, f', g₁', ha, hb⟩
  · exact (lockstep_ok (undoing_ok ha) (undoing_ok hb)).2 hR
  · obtain ⟨_, _, ha'⟩ := undoing_fails undo ha
    obtain ⟨_, _, hb'⟩ := undoing_fails undo' hb
    exact lockstep_error ha' hb'

def Node.bare (n : Node) : Node := { n with inputs := [], parents := [] }

namespace Graph
variable {g g' : Graph} {x y : NodeId} {n : Node} {inputs inputs' : List NodeId}

def bare? (g : Graph) (x : NodeId) : Option Node := (g.get? x).map Node.bare

theorem bare?_of_core? (h : g.core? x = some n) : g.bare? x = some n.bare := by
  obtain ⟨m, hm, rfl⟩ := get?_of_core? h
  rw [bare?, hm]
  rfl

def Matches (g g' : Graph) (x y : NodeId) : Prop := ∃ n, g.bare? x = some n ∧ g'.bare? y = some n

theorem Matches.symm (h : Matches g g' x y) : Matches g' g y x := by
  obtain ⟨n, hx, hy⟩ := h
  exact ⟨n, hy, hx⟩

theorem Matches.get? (h : Matches g g' x y) :
    ∃ n m, g.get? x = some n ∧ g'.get? y = some m ∧ n.bare = m.bare := by
  obtain ⟨k, hx, hy⟩ := h
  obtain ⟨n, hn, rfl⟩ := Option.map_eq_some_iff.1 hx
  obtain ⟨m, hm, he⟩ := Option.map_eq_some_iff.1 hy
  exact ⟨n, m, hn, hm, he.symm⟩

theorem Matches.similar (h : Matches g g' x y) : Similar id g g' x y := by
  obtain ⟨n, m, hn, hm, he⟩ := h.get?
  refine ⟨_, _, core?_eq_some hn, core?_eq_some hm, ?_, ?_⟩
  · exact (congrArg Node.shape he).symm
  · exact congrArg (fun k => k.op.literalInt?) he.symm

theorem Matches.live (h : Matches g g' x y) (hx : ∃ m, g.get? x = some m ∧ m.retired = false) :
    ∃ m, g'.get? y = some m ∧ m.retired = false := by
  obtain ⟨n, m, hn, hm, he⟩ := h.get?
  obtain ⟨k, hk, hr⟩ := hx
  rw [hn] at hk
  cases hk
  exact ⟨m, hm, (congrArg Node.retired he).symm.trans hr⟩

theorem filterMap_bare?_eq (h : List.Forall₂ (Matches g g') inputs inputs') :
    inputs.filterMap g.bare? = inputs'.filterMap g'.bare? := by
  induction h with
  | nil => rfl
  | cons hy _ ih =>
    obtain ⟨n, hn, hn'⟩ := hy
    rw [List.filterMap_cons_some hn, List.filterMap_cons_some hn', ih]

theorem inheritedBlocks_eq_bare (g : Graph) (inputs : List NodeId) :
    g.inheritedBlocks inputs = (((inputs.filterMap g.bare?).find? fun n =>
      n.isMatrix && decide (0 < n.blocks.rows)).map Node.blocks).getD .standard := by
  have hbare : inputs.filterMap g.bare? = (inputs.filterMap g.get?).map Node.bare := by
    rw [List.map_filterMap]
    rfl
  rw [hbare, List.find?_map, Option.map_map, inheritedBlocks]
  show _ = (((inputs.filterMap g.get?).find? fun n =>
    n.isMatrix && decide (0 < n.blocks.rows)).map Node.blocks).getD .standard
  split
  · rename_i hfind
    rw [hfind]
    rfl
  · rename_i hfind
    rw [hfind]
    rfl

theorem inheritedBlocks_congr (h : List.Forall₂ (Matches g g') inputs inputs') :
    g.inheritedBlocks inputs = g'.inheritedBlocks inputs' := by
  rw [inheritedBlocks_eq_bare, inheritedBlocks_eq_bare, filterMap_bare?_eq h]

end Graph

theorem Shape.ofBinary_node {node : NodeRef} (node' : NodeRef) {op : BinaryOp}
    {own lhs rhs s : Shape} {e : Option Int} (h : ofBinary node op own lhs rhs e = .ok s) :
    ofBinary node' op own lhs rhs e = .ok s := by
  unfold ofBinary at h ⊢
  split_ifs at h ⊢ <;> grind

theorem Shape.sizeFrom_node {node : NodeRef} (node' : NodeRef) {own s : Shape} {op : Op}
    {ms : List Node} (h : sizeFrom node own op ms = .ok s) : sizeFrom node' own op ms = .ok s := by
  unfold sizeFrom at h ⊢
  split at h
  case h_5 op lhs rhs => exact ofBinary_node node' h
  case h_6 lhs rhs =>
    unfold ofMatMul at h ⊢
    split_ifs at h ⊢
    · cases h
    · cases h
    · exact h
  case h_11 => cases h
  all_goals exact h

namespace Edit
open LinearPlan.Graph
variable {g g' : Graph} {inputs inputs' : List NodeId} {op : Op} {s : Shape}

theorem sizeNode_of_matches (h : List.Forall₂ (Matches g g') inputs inputs')
    (ha : op.arity? = some inputs.length)
    (hlive : ∀ y ∈ inputs, ∃ m, g.get? y = some m ∧ m.retired = false)
    (hs : g.sizeNode g.size (start g op inputs) = .ok s) :
    (∀ y ∈ inputs', ∃ m, g'.get? y = some m ∧ m.retired = false) ∧
      g'.sizeNode g'.size (start g' op inputs') = .ok s := by
  have hlive' : ∀ y ∈ inputs', ∃ m, g'.get? y = some m ∧ m.retired = false := by
    clear hs ha
    induction h with
    | nil => exact fun y hy => absurd hy List.not_mem_nil
    | cons hy _ ih =>
      obtain ⟨hfirst, hrest⟩ := List.forall_mem_cons.1 hlive
      exact List.forall_mem_cons.2 ⟨hy.live hfirst, ih hrest⟩
  have hresolves : ∀ {g : Graph} {inputs : List NodeId},
      (∀ y ∈ inputs, ∃ m, g.get? y = some m ∧ m.retired = false) →
      g.Resolves (start g op inputs) := fun hin y hy => by
    obtain ⟨m, hm, -⟩ := hin y hy
    exact ⟨_, core?_eq_some hm⟩
  refine ⟨hlive', ?_⟩
  rw [sizeNode_eq (hresolves hlive) ha] at hs
  obtain ⟨s', hs', rfl⟩ := Shape.respects_id (forall₂_looks (h.imp fun _ _ hy => hy.similar)) rfl hs
  rw [sizeNode_eq (hresolves hlive') (h.length_eq ▸ ha)]
  exact Shape.sizeFrom_node _ hs'

theorem addNode_lockstep (h : List.Forall₂ (Matches g g') inputs inputs')
    (ha : op.arity? = some inputs.length) :
    Lockstep (addNode op inputs) g (addNode op inputs') g' fun x g₁ x' g₁' =>
      ∃ s, x = g.size ∧ x' = g'.size ∧ g₁ = extended g op inputs s ∧
        g₁' = extended g' op inputs' s := by
  have ha' : op.arity? = some inputs'.length := h.length_eq ▸ ha
  rcases addNode_fails_or_sized g ha with ⟨fault, g₁, hrun⟩ | ⟨hlive, s, hs⟩
  · rcases addNode_fails_or_sized g' ha' with ⟨fault', g₁', hrun'⟩ | ⟨hlive', s, hs⟩
    · exact lockstep_error hrun hrun'
    · have hback := h.flip.imp fun _ _ hy => Matches.symm hy
      obtain ⟨hlive, hs⟩ := sizeNode_of_matches hback ha' hlive' hs
      rw [addNode_eq hlive ha hs] at hrun
      cases hrun
  · obtain ⟨hlive', hs'⟩ := sizeNode_of_matches h ha hlive hs
    refine (lockstep_ok (addNode_eq hlive ha hs) (addNode_eq hlive' ha' hs')).2 ?_
    exact ⟨s, rfl, rfl, rfl, rfl⟩

end Edit

namespace Optimizer.Factoring
open LinearPlan.Graph
variable {g g' g₁ g₁' g₂ g₂' : Graph} {s s' : Nat} {x y : NodeId} {op : Op} {inputs : List NodeId}

/-- Moves ids so that those from one place on start at another place. -/
def shift (s s' : Nat) (x : Int) : Int := if x < s then x else x - s + s'

theorem shift_of_lt {x : Int} (h : x < s) : shift s s' x = x := if_pos h

theorem shift_of_le {x : Int} (h : s ≤ x) : shift s s' x = x - s + s' := if_neg (by omega)

inductive IsPart : Op → Prop
  | literal (value : Number) : IsPart (.literal value)
  | pow : IsPart (.binary .pow)
  | mult : IsPart (.binary .mult)

/-- Graphs that grew by the same nodes, from two places on. -/
structure Twins (s s' : Nat) (g g' : Graph) : Prop where
  size_le : s ≤ g.size
  growth : g'.size + s = g.size + s'
  new : ∀ x : Int, s ≤ x → x < g.size → ∃ n, g.core? x = some n ∧ IsPart n.op ∧
    g'.core? (shift s s' x) = some { n with inputs := n.inputs.map (shift s s') }

theorem twins_start (g g' : Graph) : Twins g.size g'.size g g' :=
  ⟨le_rfl, by omega, fun x hlow hlt => absurd hlow (by omega)⟩

theorem Twins.shift_size (h : Twins s s' g g') : shift s s' g.size = g'.size := by
  have hle := h.size_le
  have hgrowth := h.growth
  rw [shift_of_le (by omega)]
  omega

structure Onward (s s' : Nat) (g g' g₁ g₁' : Graph) : Prop where
  twins : Twins s s' g₁ g₁'
  keeps : ∀ y, Matches g g' y (shift s s' y) → Matches g₁ g₁' y (shift s s' y)

theorem Onward.refl (h : Twins s s' g g') : Onward s s' g g' g g' := ⟨h, fun _ hy => hy⟩

theorem Onward.trans (h : Onward s s' g g' g₁ g₁') (h' : Onward s s' g₁ g₁' g₂ g₂') :
    Onward s s' g g' g₂ g₂' :=
  ⟨h'.twins, fun y hy => h'.keeps y (h.keeps y hy)⟩

theorem matches_of_appends {n n' : Node} (happ : g.Appends n g₁) (happ' : g'.Appends n' g₁')
    (h : Matches g g' x y) : Matches g₁ g₁' x y := by
  obtain ⟨m, m', hm, hm', he⟩ := h.get?
  have hx := bare?_of_core? (happ.core_of_some (core?_eq_some hm))
  have hy := bare?_of_core? (happ'.core_of_some (core?_eq_some hm'))
  exact ⟨m.bare, hx, he ▸ hy⟩

theorem Twins.extended (h : Twins s s' g g') (hop : IsPart op)
    (hin : ∀ y ∈ inputs, Matches g g' y (shift s s' y)) (shape : Shape) :
    Onward s s' g g' (Edit.extended g op inputs shape)
        (Edit.extended g' op (inputs.map (shift s s')) shape) ∧
      Matches (Edit.extended g op inputs shape)
        (Edit.extended g' op (inputs.map (shift s s')) shape) g.size (shift s s' g.size) := by
  have happ := Edit.appends_extended g op inputs shape
  have happ' := Edit.appends_extended g' op (inputs.map (shift s s')) shape
  have hle := h.size_le
  have hgrowth := h.growth
  have hblocks : g.inheritedBlocks inputs = g'.inheritedBlocks (inputs.map (shift s s')) :=
    inheritedBlocks_congr (List.forall₂_map_right_iff.2 (List.forall₂_same.2 hin))
  have hnew := happ.core g.size
  have hnew' := happ'.core (shift s s' g.size)
  rw [if_pos rfl] at hnew
  rw [if_pos h.shift_size] at hnew'
  refine ⟨⟨⟨?_, ?_, fun x hlow hlt => ?_⟩, fun y hy => matches_of_appends happ happ' hy⟩, ?_⟩
  · rw [happ.size]
    omega
  · rw [happ.size, happ'.size]
    omega
  · -- The new node itself, or one that was new before.
    by_cases hx : x = g.size
    · subst hx
      refine ⟨_, hnew, hop, hnew'.trans (congrArg some ?_)⟩
      simp only [Edit.start, Node.fresh, hblocks]
    · rw [happ.size] at hlt
      obtain ⟨n, hn, hpart, hn'⟩ := h.new x hlow (by omega)
      exact ⟨n, happ.core_of_some hn, hpart, happ'.core_of_some hn'⟩
  · refine ⟨_, bare?_of_core? hnew, (bare?_of_core? hnew').trans (congrArg some ?_)⟩
    simp only [Node.bare, Edit.start, Node.fresh, hblocks]

structure Corresponds (s s' : Nat) (g g' : Graph) (terms : List NodeId) (g₁ g₁' : Graph) :
    Prop where
  onward : Onward s s' g g' g₁ g₁'
  terms : ∀ y ∈ terms, Matches g₁ g₁' y (shift s s' y)

theorem addNode_twins (inputs : List NodeId) (h : Twins s s' g g') (hop : IsPart op)
    (ha : op.arity? = some inputs.length)
    (hin : ∀ y ∈ inputs, Matches g g' y (shift s s' y)) :
    Lockstep (Edit.addNode op inputs) g (Edit.addNode op (inputs.map (shift s s'))) g'
      fun x g₁ x' g₁' => x' = shift s s' x ∧ Corresponds s s' g g' [x] g₁ g₁' := by
  have hmatch := List.forall₂_map_right_iff.2 (List.forall₂_same.2 hin)
  refine (Edit.addNode_lockstep hmatch ha).mono fun x g₁ x' g₁' hR => ?_
  obtain ⟨shape, rfl, rfl, rfl, rfl⟩ := hR
  obtain ⟨honward, hnew⟩ := h.extended hop hin shape
  exact ⟨h.shift_size.symm, honward, by simpa using hnew⟩

theorem mult_twins (h : Twins s s' g g') (hx : Matches g g' x (shift s s' x))
    (hy : Matches g g' y (shift s s' y)) :
    Lockstep (Edit.mult x y) g (Edit.mult (shift s s' x) (shift s s' y)) g'
      fun z g₁ z' g₁' => z' = shift s s' z ∧ Corresponds s s' g g' [z] g₁ g₁' :=
  addNode_twins [x, y] h .mult rfl (by simp [hx, hy])

theorem pow_twins (h : Twins s s' g g') (hx : Matches g g' x (shift s s' x)) (k : Int) :
    Lockstep (Edit.pow x k) g (Edit.pow (shift s s' x) k) g'
      fun z g₁ z' g₁' => z' = shift s s' z ∧ Corresponds s s' g g' [z] g₁ g₁' := by
  unfold Edit.pow
  refine Lockstep.bind (addNode_twins [] h (.literal (.ofInt k)) rfl (by simp)) ?_
  rintro e g₁ e' g₁' ⟨rfl, hlit⟩
  have hx₁ := hlit.onward.keeps x hx
  have he₁ := hlit.terms e List.mem_cons_self
  refine (addNode_twins [x, e] hlit.onward.twins .pow rfl (by simp [hx₁, he₁])).mono ?_
  rintro z g₂ z' g₂' ⟨rfl, hpow⟩
  exact ⟨rfl, hlit.onward.trans hpow.onward, hpow.terms⟩

theorem times_twins {lhs rhs : Option NodeId} (h : Twins s s' g g')
    (hl : ∀ y ∈ lhs.toList, Matches g g' y (shift s s' y))
    (hr : ∀ y ∈ rhs.toList, Matches g g' y (shift s s' y)) :
    Lockstep (times lhs rhs) g (times (lhs.map (shift s s')) (rhs.map (shift s s'))) g'
      fun r g₁ r' g₁' => r' = r.map (shift s s') ∧ Corresponds s s' g g' r.toList g₁ g₁' := by
  cases lhs with
  | none => exact lockstep_pure ⟨rfl, .refl h, hr⟩
  | some x =>
    cases rhs with
    | none => exact lockstep_pure ⟨rfl, .refl h, hl⟩
    | some y =>
      simp only [Option.map_some, times, map_eq_pure_bind]
      refine (mult_twins h (hl x (by simp)) (hr y (by simp))).bind ?_
      rintro z g₁ z' g₁' ⟨rfl, hz⟩
      exact lockstep_pure ⟨rfl, hz.onward, by simpa using hz.terms⟩

def Groups.ids (s : Groups) : List NodeId :=
  s.scalarsAndColVectors.toList ++ s.rowVectors.toList ++ s.matrices.toList ++ s.others.toList

def Groups.rename (f : NodeId → NodeId) (s : Groups) : Groups :=
  ⟨s.scalarsAndColVectors.map f, s.rowVectors.map f, s.matrices.map f, s.others.map f, s.powers⟩

theorem group_twins {groups : Groups} (lhs rhs : Option NodeId) (f : Option NodeId → Groups)
    {f' : Option NodeId → Groups} (h : Twins s s' g g')
    (hids : ∀ y ∈ groups.ids, Matches g g' y (shift s s' y)) (hx : Matches g g' x (shift s s' x))
    (hin : ∀ y ∈ lhs.toList ++ rhs.toList, y = x ∨ y ∈ groups.ids)
    (hout : ∀ r, ∀ y ∈ (f r).ids, y ∈ r.toList ∨ y ∈ groups.ids)
    (hf : ∀ r, f' (r.map (shift s s')) = (f r).rename (shift s s')) :
    Lockstep (do return f (← times lhs rhs)) g
      (do return f' (← times (lhs.map (shift s s')) (rhs.map (shift s s')))) g'
      fun r g₁ r' g₁' => r' = r.rename (shift s s') ∧ Corresponds s s' g g' r.ids g₁ g₁' := by
  have hterm : ∀ y ∈ lhs.toList ++ rhs.toList, Matches g g' y (shift s s' y) := fun y hy =>
    (hin y hy).elim (fun he => he ▸ hx) (hids y)
  refine (times_twins h (fun y hy => hterm y (List.mem_append_left _ hy))
    fun y hy => hterm y (List.mem_append_right _ hy)).bind ?_
  rintro r g₁ r' g₁' ⟨rfl, hr⟩
  refine lockstep_pure ⟨hf r, hr.onward, fun y hy => ?_⟩
  rcases hout r y hy with hy | hy
  · exact hr.terms y hy
  · exact hr.onward.keeps y (hids y hy)

theorem insert_twins {groups : Groups} (h : Twins s s' g g')
    (hids : ∀ y ∈ groups.ids, Matches g g' y (shift s s' y)) (hx : Matches g g' x (shift s s' x))
    (cls : TermClass) :
    Lockstep (groups.insert cls x) g ((groups.rename (shift s s')).insert cls (shift s s' x)) g'
      fun r g₁ r' g₁' => r' = r.rename (shift s s') ∧ Corresponds s s' g g' r.ids g₁ g₁' := by
  cases cls with
  | scalar | colVector =>
    exact group_twins (some x) groups.scalarsAndColVectors
      (fun r => { groups with scalarsAndColVectors := r }) h hids hx (by grind [Groups.ids])
      (by grind [Groups.ids]) fun _ => rfl
  | rowVector =>
    exact group_twins groups.rowVectors (some x) (fun r => { groups with rowVectors := r }) h hids hx
      (by grind [Groups.ids]) (by grind [Groups.ids]) fun _ => rfl
  | matrix =>
    exact group_twins groups.matrices (some x) (fun r => { groups with matrices := r }) h hids hx
      (by grind [Groups.ids]) (by grind [Groups.ids]) fun _ => rfl
  | frame | object | unknown =>
    exact group_twins groups.others (some x) (fun r => { groups with others := r }) h hids hx
      (by grind [Groups.ids]) (by grind [Groups.ids]) fun _ => rfl

theorem insert_leaf_twins {groups : Groups} {leaf : NodeId} (h : Twins s s' g g')
    (hids : ∀ y ∈ groups.ids, Matches g g' y (shift s s' y)) (hx : Matches g g' x (shift s s' x))
    (hleaf : Matches g g' leaf leaf) :
    Lockstep (do let n ← Edit.node leaf; groups.insert (classify n.shape) x) g
      (do
        let n ← Edit.node leaf
        (groups.rename (shift s s')).insert (classify n.shape) (shift s s' x)) g'
      fun r g₁ r' g₁' => r' = r.rename (shift s s') ∧ Corresponds s s' g g' r.ids g₁ g₁' := by
  obtain ⟨n, m, hn, hm, hbare⟩ := hleaf.get?
  have hshape : m.shape = n.shape := (congrArg Node.shape hbare).symm
  rw [lockstep_bind_ok (Edit.node_run hn) (Edit.node_run hm), hshape]
  exact insert_twins h hids hx _

theorem addLeaf_twins {groups : Groups} {leaf : NodeId} (count : NodeId → Nat)
    (h : Twins s s' g g') (hids : ∀ y ∈ groups.ids, Matches g g' y (shift s s' y))
    (hfix : shift s s' leaf = leaf) (hleaf : Matches g g' leaf leaf) :
    Lockstep (groups.addLeaf count leaf) g ((groups.rename (shift s s')).addLeaf count leaf) g'
      fun r g₁ r' g₁' => r' = r.rename (shift s s') ∧ Corresponds s s' g g' r.ids g₁ g₁' := by
  have hfixed : Matches g g' leaf (shift s s' leaf) := hfix.symm ▸ hleaf
  unfold Groups.addLeaf
  by_cases hn : 1 < count leaf
  · simp only [hn, decide_true, if_true]
    have hpow := pow_twins h hfixed (count leaf)
    rw [hfix] at hpow
    refine hpow.bind ?_
    rintro z g₁ z' g₁' ⟨rfl, hz⟩
    have hids₁ : ∀ y ∈ { groups with powers := groups.powers + 1 }.ids,
        Matches g₁ g₁' y (shift s s' y) := fun y hy => hz.onward.keeps y (hids y hy)
    have hleaf₁ := hz.onward.keeps leaf hfixed
    rw [hfix] at hleaf₁
    refine (insert_leaf_twins hz.onward.twins hids₁ (hz.terms z List.mem_cons_self) hleaf₁).mono ?_
    rintro r g₂ r' g₂' ⟨rfl, hr⟩
    exact ⟨rfl, hz.onward.trans hr.onward, hr.terms⟩
  · simp only [hn, decide_false, Bool.false_eq_true, if_false]
    have hinsert := insert_leaf_twins h hids hfixed hleaf
    rw [hfix] at hinsert
    rwa [lockstep_bind_ok (Edit.pure_apply leaf) (Edit.pure_apply leaf)]

theorem addLeaves_twins {leaves : List NodeId} (groups : Groups) (count : NodeId → Nat)
    (h : Twins s s' g g') (hids : ∀ y ∈ groups.ids, Matches g g' y (shift s s' y))
    (hleaves : ∀ y ∈ leaves, shift s s' y = y ∧ Matches g g' y y) :
    Lockstep (leaves.foldlM (Groups.addLeaf count) groups) g
      (leaves.foldlM (Groups.addLeaf count) (groups.rename (shift s s'))) g'
      fun r g₁ r' g₁' => r' = r.rename (shift s s') ∧ Corresponds s s' g g' r.ids g₁ g₁' := by
  induction leaves generalizing groups g g' with
  | nil => exact lockstep_pure ⟨rfl, .refl h, hids⟩
  | cons leaf rest ih =>
    rw [List.foldlM_cons, List.foldlM_cons]
    obtain ⟨hfix, hleaf⟩ := hleaves leaf List.mem_cons_self
    refine (addLeaf_twins count h hids hfix hleaf).bind ?_
    rintro groups₁ g₁ groups₁' g₁' ⟨rfl, h₁⟩
    have hrest : ∀ y ∈ rest, shift s s' y = y ∧ Matches g₁ g₁' y y := by
      intro y hy
      obtain ⟨hfix, hmatch⟩ := hleaves y (List.mem_cons_of_mem leaf hy)
      have hkept := h₁.onward.keeps y (hfix.symm ▸ hmatch)
      rw [hfix] at hkept
      exact ⟨hfix, hkept⟩
    refine (ih groups₁ h₁.onward.twins h₁.terms hrest).mono ?_
    rintro r g₂ r' g₂' ⟨rfl, hr⟩
    exact ⟨rfl, h₁.onward.trans hr.onward, hr.terms⟩

theorem product_twins {groups : Groups} (h : Twins s s' g g')
    (hids : ∀ y ∈ groups.ids, Matches g g' y (shift s s' y)) :
    Lockstep groups.product g (groups.rename (shift s s')).product g'
      fun r g₁ r' g₁' => r' = r.map (shift s s') ∧ Corresponds s s' g g' r.toList g₁ g₁' := by
  have hgroup : ∀ {term : Option NodeId}, (∀ y ∈ term.toList, y ∈ groups.ids) → ∀ y ∈ term.toList,
      Matches g g' y (shift s s' y) := fun hsub y hy => hids y (hsub y hy)
  unfold Groups.product
  refine (times_twins h (hgroup (by grind [Groups.ids])) (hgroup (by grind [Groups.ids]))).bind ?_
  rintro p g₁ p' g₁' ⟨rfl, h₁⟩
  refine (times_twins h₁.onward.twins h₁.terms fun y hy =>
    h₁.onward.keeps y (hgroup (by grind [Groups.ids]) y hy)).bind ?_
  rintro q g₂ q' g₂' ⟨rfl, h₂⟩
  have honward := h₁.onward.trans h₂.onward
  refine (times_twins h₂.onward.twins h₂.terms fun y hy =>
    honward.keeps y (hgroup (by grind [Groups.ids]) y hy)).mono ?_
  rintro r g₃ r' g₃' ⟨rfl, h₃⟩
  exact ⟨rfl, honward.trans h₃.onward, h₃.terms⟩

theorem drop_ids (g : Graph) (s : Nat) :
    g.ids.drop s = (List.range' s (g.size - s)).map Int.ofNat := by
  rw [Graph.ids, ← List.map_drop, List.range_eq_range', List.drop_range', Nat.zero_add, Nat.mul_one]

theorem Twins.drop_ids (h : Twins s s' g g') :
    g'.ids.drop s' = (g.ids.drop s).map (shift s s') := by
  have hgrowth := h.growth
  have hle := h.size_le
  rw [Factoring.drop_ids, Factoring.drop_ids, List.map_map,
    show g'.size - s' = g.size - s by omega, List.range'_eq_map_range, List.range'_eq_map_range,
    List.map_map, List.map_map]
  refine List.map_congr_left fun k _ => ?_
  show ((s' + k : Nat) : Int) = shift s s' ((s + k : Nat) : Int)
  rw [shift_of_le (by omega)]
  omega

/-- Products that were built in two graphs are the same up to the place of the new nodes: these are
the same literals, powers and products in the same order. -/
structure SameProduct (g g' : Graph) (p : Product) (g₁ : Graph) (p' : Product) (g₁' : Graph) :
    Prop where
  all : p.created = g₁.ids.drop g.size
  created : p'.created = p.created.map (shift g.size g'.size)
  root : p'.root = p.root.map (shift g.size g'.size)
  powers : p'.powers = p.powers
  nodes : ∀ x ∈ p.created, ∃ n, g₁.core? x = some n ∧ IsPart n.op ∧
    g₁'.core? (shift g.size g'.size x) =
      some { n with inputs := n.inputs.map (shift g.size g'.size) }

theorem buildProduct_twins {leaves : List NodeId} (count : NodeId → Nat)
    (hleaves : ∀ y ∈ leaves, Matches g g' y y) :
    Lockstep (buildProduct leaves count) g (buildProduct leaves count) g' (SameProduct g g') := by
  have hold : ∀ y ∈ leaves, shift g.size g'.size y = y ∧ Matches g g' y y := by
    intro y hy
    obtain ⟨n, -, hn, -⟩ := (hleaves y hy).get?
    exact ⟨shift_of_lt (range_of_get? hn).2, hleaves y hy⟩
  have hbody : Lockstep (do
      let groups ← leaves.foldlM (Groups.addLeaf count) .empty
      return (← groups.product, groups.powers) : Edit (Option NodeId × Nat)) g (do
      let groups ← leaves.foldlM (Groups.addLeaf count) .empty
      return (← groups.product, groups.powers) : Edit (Option NodeId × Nat)) g'
      fun r g₁ r' g₁' => r'.1 = r.1.map (shift g.size g'.size) ∧ r'.2 = r.2 ∧
        Twins g.size g'.size g₁ g₁' := by
    refine (addLeaves_twins .empty count (twins_start g g') (fun y hy => by cases hy) hold).bind ?_
    rintro groups g₁ groups' g₁' ⟨rfl, h₁⟩
    refine (product_twins h₁.onward.twins h₁.terms).bind ?_
    rintro r g₂ r' g₂' ⟨rfl, h₂⟩
    exact lockstep_pure ⟨rfl, rfl, h₂.onward.twins⟩
  unfold buildProduct
  rw [lockstep_bind_ok Edit.get_apply Edit.get_apply]
  refine (Edit.lockstep_undoing hbody).bind ?_
  rintro ⟨r, powers⟩ g₁ ⟨r', powers'⟩ g₁' ⟨hroot, hpowers, htwins⟩
  simp only
  rw [lockstep_bind_ok Edit.get_apply Edit.get_apply]
  refine lockstep_pure ⟨rfl, htwins.drop_ids, hroot, hpowers, fun x hx => ?_⟩
  obtain ⟨hlow, hlt⟩ := mem_drop_ids.1 hx
  exact htwins.new x hlow hlt

structure Listed (g : Graph) (t : Tree) : Prop where
  wellFormed : t.leaves.WellFormed
  node : ∀ y ∈ t.leaves.keys, ∃ n, g.get? y = some n

theorem collect_listed {id : NodeId} {t : Tree} (h : collect g id = .ok t) : Listed g t := by
  obtain ⟨n, products, leaves, -, hu, rfl⟩ := unfolds_of_collect h
  rw [gather_empty]
  refine ⟨Tally.wellFormed_ofList leaves, fun y hy => ?_⟩
  simp only [Tally.keys_ofList, List.mem_eraseDups] at hy
  exact (hu.mem_leaves y hy).imp fun _ hn => hn.1

theorem Listed.keys_perm {t t' : Tree} (h : Listed g t) (h' : Listed g' t')
    (hcount : t.leaves.count = t'.leaves.count) : t'.leaves.keys.Perm t.leaves.keys := by
  refine (List.perm_ext_iff_of_nodup h'.wellFormed.nodup h.wellFormed.nodup).2 fun y => ?_
  rw [h'.wellFormed.mem_keys, h.wellFormed.mem_keys, hcount]

theorem nodeKey_of_bare? (h : g.bare? x = g'.bare? x) : nodeKey g' x = nodeKey g x := by
  have hshape : ∀ g : Graph, g.shapeOf x = ((g.bare? x).map Node.shape).getD .initial := by
    intro g
    rw [shapeOf, bare?, Option.map_map]
    rfl
  rw [nodeKey, nodeKey, hshape, hshape, h]

theorem Listed.same_product {t t' : Tree} (h : Listed g t) (h' : Listed g' t')
    (hcount : t.leaves.count = t'.leaves.count)
    (hagree : ∀ y ∈ t.leaves.keys, g.bare? y = g'.bare? y) :
    ∃ sorted : List NodeId, sorted.Perm t.leaves.keys ∧ sorted.Pairwise (Before g) ∧
      sortLeaves g t.leaves.keys = .ok sorted ∧ sortLeaves g' t'.leaves.keys = .ok sorted ∧
      Lockstep (buildProduct sorted t.leaves.count) g (buildProduct sorted t'.leaves.count) g'
        fun p g₁ p' g₁' => SameProduct g g' p g₁ p' g₁' ∧
          LaidOut g sorted t.leaves.count p g₁ ∧ LaidOut g' sorted t'.leaves.count p' g₁' := by
  obtain ⟨sorted, hrun, hperm, hs⟩ := sortLeaves_sorted h.node
  have hs' : sorted.Pairwise fun a b => nodeKey g' a ≤ nodeKey g' b := by
    refine hs.imp_of_mem fun {a b} ha hb hle => ?_
    rw [nodeKey_of_bare? (hagree a (hperm.mem_iff.1 ha)),
      nodeKey_of_bare? (hagree b (hperm.mem_iff.1 hb))]
    exact hle
  refine ⟨sorted, hperm, hs.imp before_of_nodeKey, hrun, ?_, ?_⟩
  · exact sortLeaves_eq h'.node (hperm.trans (h.keys_perm h' hcount).symm) hs'
  · have hnode : ∀ y ∈ sorted, ∃ n, g.get? y = some n := fun y hy => h.node y (hperm.mem_iff.1 hy)
    have hmatches : ∀ y ∈ sorted, Matches g g' y y := by
      intro y hy
      obtain ⟨n, hn⟩ := hnode y hy
      have hbare : g.bare? y = some n.bare := by rw [bare?, hn, Option.map_some]
      exact ⟨n.bare, hbare, hagree y (hperm.mem_iff.1 hy) ▸ hbare⟩
    have hnode' : ∀ y ∈ sorted, ∃ n, g'.get? y = some n := by
      intro y hy
      obtain ⟨-, n, -, hn, -⟩ := (hmatches y hy).get?
      exact ⟨n, hn⟩
    rw [← hcount]
    exact (buildProduct_twins _ hmatches).and_ends
      (buildProduct_laidOut (hs.imp before_of_nodeKey) hnode)
      (buildProduct_laidOut (hs'.imp before_of_nodeKey) hnode')

/-- In every graph the order of the leaves is total and strict, all lists of the same leaves are
sorted to one list, and trees with the same leaves, in this graph or in another one that agrees on
them, lead to the same product. The sorted leaves stand in their families, and the nodes of the product
are those of its layout. -/
theorem canonical_order_determines_product (g : Graph) :
    (∀ a b, compareNodes g b a = (compareNodes g a b).swap) ∧
    (∀ a b c, compareNodes g a b = .lt → compareNodes g b c = .lt → compareNodes g a c = .lt) ∧
    (∀ a b, compareNodes g a b = .eq ↔ a = b) ∧
    (∀ leaves : List NodeId, (∀ y ∈ leaves, ∃ n, g.get? y = some n) →
      ∃ sorted : List NodeId, sorted.Perm leaves ∧ sorted.Pairwise (Before g) ∧
        ∀ l : List NodeId, l.Perm leaves → sortLeaves g l = .ok sorted ∧
          (l.Pairwise (fun a b => compareNodes g a b ≠ .gt) → l = sorted)) ∧
    ∀ g' id id' t t', collect g id = .ok t → collect g' id' = .ok t' →
      t.leaves.count = t'.leaves.count → (∀ y ∈ t.leaves.keys, g.bare? y = g'.bare? y) →
      ∃ sorted : List NodeId, sorted.Perm t.leaves.keys ∧ sorted.Pairwise (Before g) ∧
        members g sorted .vectors ++ members g sorted .rows ++ members g sorted .matrices ++
          members g sorted .others = sorted ∧
        sortLeaves g t.leaves.keys = .ok sorted ∧ sortLeaves g' t'.leaves.keys = .ok sorted ∧
        Lockstep (buildProduct sorted t.leaves.count) g (buildProduct sorted t'.leaves.count) g'
          fun p g₁ p' g₁' => SameProduct g g' p g₁ p' g₁' ∧
            LaidOut g sorted t.leaves.count p g₁ ∧ LaidOut g' sorted t'.leaves.count p' g₁' := by
  refine ⟨compareNodes_swap g, fun _ _ _ => compareNodes_lt_trans, fun _ _ => compareNodes_eq_eq,
    fun leaves => exists_sorted, fun g' id id' t t' ht ht' hcount hagree => ?_⟩
  obtain ⟨sorted, hperm, hs, hsame⟩ :=
    (collect_listed ht).same_product (collect_listed ht') hcount hagree
  exact ⟨sorted, hperm, hs, members_append hs, hsame⟩

def twoNestings : Graph :=
  (Graph.empty "g").afterCalls [.matrix "A" 3 3 (-1), .matrix "v" 3 1 (-1), .mult 0 1, .mult 2 0,
    .mult 0 0, .mult 1 4]

def firstTree : Tree := ⟨[3, 2], [2, 3], ⟨[(0, 2), (1, 1)], [0, 1]⟩⟩

def secondTree : Tree := ⟨[5, 4], [4, 5], ⟨[(0, 2), (1, 1)], [1, 0]⟩⟩

def twoNestingsLater : Graph := (buildProduct [1, 0] firstTree.leaves.count).finish twoNestings

theorem canonical_order_determines_product_twoNestings :
    collect twoNestings 3 = .ok firstTree ∧ collect twoNestingsLater 5 = .ok secondTree ∧
    twoNestings.size = 6 ∧ twoNestingsLater.size = 9 ∧
    sortLeaves twoNestings [0, 1] = .ok [1, 0] ∧ sortLeaves twoNestingsLater [1, 0] = .ok [1, 0] ∧
    success? (buildProduct [1, 0] firstTree.leaves.count) twoNestings =
      some (⟨some 8, [6, 7, 8], 1⟩, twoNestingsLater) ∧
    productLayout firstTree.leaves.count (members twoNestings [1, 0]) 6 =
      ([(.literal (.ofInt 2), []), (.binary .pow, [0, 6]), (.binary .mult, [7, 1])], some 8) ∧
    Lockstep (buildProduct [1, 0] firstTree.leaves.count) twoNestings
      (buildProduct [1, 0] secondTree.leaves.count) twoNestingsLater fun p g₁ p' g₁' =>
        SameProduct twoNestings twoNestingsLater p g₁ p' g₁' ∧
        LaidOut twoNestings [1, 0] firstTree.leaves.count p g₁ ∧
        LaidOut twoNestingsLater [1, 0] secondTree.leaves.count p' g₁' := by
  have ht : collect twoNestings 3 = .ok firstTree := by decide +kernel
  have ht' : collect twoNestingsLater 5 = .ok secondTree := by decide +kernel
  have hcount : firstTree.leaves.count = secondTree.leaves.count := rfl
  have hagree : ∀ y ∈ firstTree.leaves.keys, twoNestings.bare? y = twoNestingsLater.bare? y := by
    decide +kernel
  have hsorted : sortLeaves twoNestings firstTree.leaves.keys = .ok [1, 0] := by decide +kernel
  obtain ⟨sorted, -, -, -, hrun, hrun', hsame⟩ :=
    (canonical_order_determines_product twoNestings).2.2.2.2 twoNestingsLater 3 5 firstTree
      secondTree ht ht' hcount hagree
  rw [hsorted] at hrun
  cases hrun
  exact ⟨ht, ht', by decide +kernel, by decide +kernel, hsorted, hrun', by decide +kernel,
    by decide +kernel, hsame⟩

end Optimizer.Factoring
end LinearPlan
