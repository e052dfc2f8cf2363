import LinearPlan.Proofs.CallSequences
import LinearPlan.Proofs.Offers
import LinearPlan.Proofs.Work

/-!
# Rules on graphs with stale sizes

Replacing an operand sizes nothing anew, so a valid graph may hold sizes that are out of date. On such
a graph a rule still does all of its edits or none of them: building a product may fail, but then the
new nodes are discarded again and the graph is exactly the old one. What may fail after the edits is
the sizing of the users of the replacement, the last thing a rule does.
-/
namespace LinearPlan

def Fault.IsCyclic : Fault → Prop
  | .cyclic _ _ => True
  | _ => False

namespace Shape
variable {node : NodeRef} {own : Shape} {f : SizingFault}

theorem ofBinary_error {op : BinaryOp} {lhs rhs : Shape} {e : Option Int}
    (h : ofBinary node op own lhs rhs e = .error f) :
    (∃ a b, f.cause = .broadcast node a b) ∧ ofBinary node op f.reached lhs rhs e = .error f := by
  unfold ofBinary at h ⊢
  cases hl : lhs.isMatrix <;> cases hr : rhs.isMatrix <;>
    simp only [hl, hr, if_true, if_false, Bool.false_eq_true] at h ⊢
  · split at h <;> cases h
  · cases h
  · cases h
  · cases hrows : broadcast? lhs.rows rhs.rows with
    | none =>
      simp only [hrows] at h ⊢
      cases h
      exact ⟨⟨_, _, rfl⟩, rfl⟩
    | some r =>
      cases hcols : broadcast? lhs.cols rhs.cols with
      | none =>
        simp only [hrows, hcols] at h ⊢
        cases h
        exact ⟨⟨_, _, rfl⟩, rfl⟩
      | some c =>
        simp only [hrows, hcols] at h
        cases h

theorem ofMatMul_error {lhs rhs : Shape} {c : Fault} (h : ofMatMul node lhs rhs = .error c) :
    ¬ c.IsCyclic := by
  unfold ofMatMul at h
  split at h
  · cases h
    exact id
  · split at h <;> cases h
    exact id

theorem sizeFrom_error {op : Op} {ms : List Node} (h : sizeFrom node own op ms = .error f) :
    ¬ f.cause.IsCyclic ∧ sizeFrom node f.reached op ms = .error f := by
  have hsame : f.reached = own → sizeFrom node f.reached op ms = .error f := fun he => by rw [he, h]
  unfold sizeFrom at h
  split at h
  case h_5 op lhs rhs =>
    obtain ⟨⟨a, b, hcause⟩, hagain⟩ := ofBinary_error h
    exact ⟨by rw [hcause]; exact id, hagain⟩
  case h_6 lhs rhs =>
    cases hm : ofMatMul node lhs.shape rhs.shape with
    | ok s =>
      rw [hm] at h
      cases h
    | error c =>
      rw [hm] at h
      cases h
      exact ⟨ofMatMul_error hm, hsame rfl⟩
  case h_11 =>
    cases h
    exact ⟨id, hsame rfl⟩
  all_goals cases h

end Shape

namespace Graph
variable {g g' : Graph}

structure Resized (g g' : Graph) : Prop where
  linked : g'.Linked
  size : g'.size = g.size
  wires : g'.plan.wires = g.plan.wires
  ops : g.KeepsOps g'
  data : ∀ x i, g.plan x = some i → i.op = .data i.op.name → g'.plan x = some i

namespace Resized

theorem refl (h : g.Linked) : g.Resized g := ⟨h, rfl, rfl, fun _ _ hx => hx, fun _ _ hx _ => hx⟩

theorem trans {g'' : Graph} (h : g.Resized g') (h' : g'.Resized g'') : g.Resized g'' :=
  ⟨h'.linked, h'.size.trans h.size, h'.wires.trans h.wires, h.ops.trans h'.ops,
    fun x i hx hop => h'.data x i (h.data x i hx hop) hop⟩

theorem item {x : NodeId} {i : Item} (h : g.Resized g') (hx : g.plan x = some i) :
    ∃ j, g'.plan x = some j ∧ j.op = i.op ∧ j.inputs = i.inputs :=
  Plan.exists_of_wires h.wires.symm hx

theorem plan_eq_none {x : NodeId} (h : g.Resized g') : g'.plan x = none ↔ g.plan x = none := by
  have hw := congrFun h.wires x
  rw [← Option.map_eq_none_iff, ← Option.map_eq_none_iff (x := g.plan x)]
  exact iff_of_eq (congrArg (· = none) hw)

theorem ordered (h : g.Resized g') (ho : g.Ordered) : g'.Ordered :=
  ⟨h.linked, Plan.Acyclic.of_wires h.wires.symm ho.acyclic⟩

end Resized

theorem Linked.resized_setShape (h : g.Linked) {x : NodeId} {i : Item} (hx : g.plan x = some i)
    (hi : i.op ≠ .data i.op.name) (s : Shape) :
    g.Resized (g.modify x fun m => { m with shape := s }) := by
  have hmaps := maps_modify g x (f := fun m => { m with shape := s }) fun _ => rfl
  have hplan : (g.modify x fun m => { m with shape := s }).plan =
      fun y => (g.plan y).map fun k => if y = x then { k with profile := s.profile } else k := by
    refine hmaps.plan_eq (fun y k => ?_) fun y k _ => ?_
    · by_cases hy : y = x <;> simp [hy]
    · by_cases hy : y = x <;> simp [hy, Node.item]
  refine ⟨h.setShape x s, size_modify .., ?_, hmaps.keepsOps fun y k _ => ?_, fun y j hy hop => ?_⟩
  · funext y
    by_cases hy : y = x <;> simp [hplan, Plan.wires, hy, Function.comp_def]
  · by_cases hy : y = x <;> simp [hy]
  · have hne : y ≠ x := fun he => by
      rw [he, hx] at hy
      cases hy
      exact hi hop
    simp [hplan, hy, hne]

end Graph

namespace Edit
open LinearPlan.Graph
variable {g g' : Graph} {x root : NodeId} {i : Item}

theorem refresh_again (h : g.Linked) {n : Node} {f : SizingFault} (hn : g.get? x = some n)
    (hr : n.retired = false) (hs : g.sizeNode x n = .error f) : ¬ f.cause.IsCyclic ∧
      ∀ G, G = g.modify x (fun m => { m with shape := f.reached }) →
        refresh x G = .error f.cause G := by
  have hin := h.closed (plan_eq_some hn hr)
  have ha := h.arity_eq hn hr
  rw [sizeNode_eq (resolves_of_plan hin) ha] at hs
  obtain ⟨hcause, hagain⟩ := Shape.sizeFrom_error hs
  refine ⟨hcause, fun G hG => ?_⟩
  have hl := h.setShape x f.reached
  rw [← hG] at hl
  have hn' : G.get? x = some { n with shape := f.reached } := by
    rw [hG, get?_modify, hn]
    simp
  have hops : G.operands { n with shape := f.reached } = g.operands n := by
    refine List.filterMap_congr fun y hy => ?_
    have hyx : y ≠ x := fun he => h.irreflexive x (inputsOf_eq hn ▸ he ▸ hy)
    rw [hG, core?, core?, get?_modify_of_ne _ _ hyx]
  have hs' : G.sizeNode x { n with shape := f.reached } = .error f := by
    refine (sizeNode_eq (n := { n with shape := f.reached })
      (resolves_of_plan (hl.closed (plan_eq_some hn' hr))) ha).trans ?_
    rw [hops]
    exact hagain
  rw [refresh_error hn' hr hs']
  congr 1
  refine ext_get? (name_modify ..) fun y => ?_
  rw [get?_modify]
  by_cases hy : y = x
  · rw [hy, hn']
    simp
  · simp [hy]

structure Unsized (g : Graph) (root : NodeId) (fault : Fault) (g' : Graph) : Prop where
  resized : g.Resized g'
  cause : ¬ fault.IsCyclic
  user : ∃ x i, g'.plan x = some i ∧ root ∈ i.inputs ∧ refresh x g' = .error fault g'

theorem refresh_ends (h : g.Linked) (hx : g.plan x = some i) (hroot : root ∈ i.inputs) :
    Ends (refresh x) g (Unsized g root) fun _ g' => g.Resized g' := by
  obtain ⟨n, hn, hr, rfl⟩ := get?_of_plan hx
  have hdata : n.op ≠ .data n.op.name := fun hop => by
    have ha := h.arity_eq hn hr
    rw [hop] at ha
    have hnil : n.item.inputs = [] := List.length_eq_zero_iff.1 (Option.some.inj ha).symm
    rw [hnil] at hroot
    cases hroot
  cases hs : g.sizeNode x n with
  | ok s => exact (ends_ok (refresh_ok hn hr hs)).2 (h.resized_setShape hx hdata s)
  | error f =>
    obtain ⟨hcause, hagain⟩ := refresh_again h hn hr hs
    have hres := h.resized_setShape hx hdata f.reached
    obtain ⟨j, hj, -, hin⟩ := hres.item hx
    exact (ends_error (refresh_error hn hr hs)).2 ⟨hres, hcause, x, j, hj, hin ▸ hroot, hagain _ rfl⟩

theorem refreshAll_ends {edges : List Edge} (h : g.Linked)
    (hl : ∀ e ∈ edges, ∃ i, g.plan e.parent = some i ∧ root ∈ i.inputs) :
    Ends (edges.forM fun e => refresh e.parent) g (Unsized g root) fun _ g' => g.Resized g' := by
  refine ends_forM (.refl h) fun e he g₁ hres => ?_
  obtain ⟨i, hi, hroot⟩ := hl e he
  obtain ⟨j, hj, -, hin⟩ := hres.item hi
  exact (refresh_ends hres.linked hj (hin ▸ hroot)).imp
    (fun fault g' hu => ⟨hres.trans hu.resized, hu.cause, hu.user⟩) fun _ g' hr => hres.trans hr

end Edit

namespace Optimizer.Factoring
open LinearPlan.Graph
variable {g₀ g : Graph} {M : Multiset NodeId} {op : Op} {inputs : List NodeId}

def Extended (g₀ g : Graph) : Prop := Edit.Grown g₀ g ∧ g.Linked

theorem adding_linked (h : Extended g₀ g) (hin : ∀ y ∈ inputs, ∃ i, g.plan y = some i)
    (ha : op.arity? = some inputs.length) :
    Adding (Extended g₀) (fun fault g => ¬ fault.IsCyclic ∧ Extended g₀ g) g op inputs := by
  have hlive : ∀ y ∈ inputs, ∃ m, g.get? y = some m ∧ m.retired = false := fun y hy => by
    obtain ⟨i, hi⟩ := hin y hy
    obtain ⟨m, hm, hr, -⟩ := get?_of_plan hi
    exact ⟨m, hm, hr⟩
  have hsize := Edit.sizeNode_attach hlive ha
  cases hs : g.sizeNode g.size (Edit.start g op inputs) with
  | ok s =>
    refine (ends_ok (Edit.addNode_eq hlive ha hs)).2 ⟨rfl, ⟨.add h.1 hlive s, ?_⟩, ?_⟩
    · exact (h.2.attach (n := Edit.start g op inputs) rfl rfl ha hlive).setShape g.size s
    · exact Edit.adds_of_appends (Edit.appends_extended g op inputs s)
  | error f =>
    refine (ends_error (Edit.addNode_error h.2.matched hlive (hsize.trans hs))).2 ⟨?_, h⟩
    rw [sizeNode_eq (n := Edit.start g op inputs) (resolves_of_plan hin) ha] at hs
    exact (Shape.sizeFrom_error hs).1

theorem builds_linked (h₀ : g₀.Linked) (hM : ∀ y ∈ M, ∃ i, g₀.plan y = some i) :
    Builds (Extended g₀) (fun fault g => ¬ fault.IsCyclic ∧ Extended g₀ g)
      (fun fault g => ¬ fault.IsCyclic ∧ g = g₀) g₀ M where
  item := hM
  literal h := adding_linked h.inv nofun rfl
  pow {g leaf e v p} h hmem he := by
    obtain ⟨k, hk⟩ := hM leaf hmem
    refine adding_linked h.inv (fun y hy => ?_) rfl
    rcases List.mem_pair.1 hy with rfl | rfl
    · exact ⟨k, h.extends hk⟩
    · exact ⟨_, he⟩
  mult {g a b m m'} h ha hb _ := by
    refine adding_linked h.inv (fun y hy => ?_) rfl
    rcases List.mem_pair.1 hy with rfl | rfl
    · exact ha.item
    · exact hb.item
  undo {g fault} h := (ends_ok (h.2.1.truncate h₀.matched)).2 ⟨h.1, rfl⟩

end Optimizer.Factoring

namespace Optimizer
open LinearPlan.Graph

namespace RuleM
variable {α : Type} {p : Pass} {F : Interruption → Pass → Prop} {Q : α → Pass → Prop}

theorem bind_error {β : Type} {x : RuleM α} {f : α → RuleM β} {cause : Interruption} {p' : Pass}
    (h : x p = .error cause p') : (x >>= f) p = .error cause p' := by
  show EStateM.bind x f p = _
  rw [EStateM.bind, h]

theorem read_error {f : Graph → Except Fault α} {fault : Fault} (h : f p.graph = .error fault) :
    read f p = .error (.fault fault) p := by
  rw [read, h]

theorem ends_edit {e : Edit α} {F' : Fault → Graph → Prop} {Q' : α → Graph → Prop}
    (h : Ends e p.graph F' Q') (hok : ∀ a g, Q' a g → Q a { p with graph := g })
    (herror : ∀ fault g, F' fault g → F (.fault fault) { p with graph := g }) :
    Ends (edit e) p F Q := by
  unfold Ends edit
  cases he : e p.graph with
  | ok a g => exact hok a g ((ends_ok he).1 h)
  | error fault g => exact herror fault g ((ends_error he).1 h)

end RuleM

inductive Rewrites (p : Pass) (id root : NodeId) (p' : Pass) : Prop
  | factor {M : Multiset NodeId} {leaves : List NodeId} {g : Graph}
      (h : Factoring.Refactored p.graph id M root g) (hrep : ∃ y, 1 < M.count y)
      (hg : g.Resized p'.graph)
      (hv : ∀ y : Int, y ∈ p'.visited ↔
        y ∈ p.visited ∨ (p.graph.size : Int) ≤ y ∧ y < (p'.graph.size : Int))
      (hp : p'.pending = p.pending ++ leaves) (hleaves : ∀ y, y ∈ leaves ↔ y ∈ M)
      (hlen : leaves.length ≤ Factoring.products p.graph)
  | merge {m : Merge} {g : Graph} (h : Slicing.Rechained p.graph m g) (hid : m.top = id)
      (hroot : m.written = root) (hg : g.Resized p'.graph) (hv : p'.visited = p.visited)
      (hp : p'.pending = p.pending)

theorem Rewrites.rework {p p' : Pass} {id root : NodeId} (h : Rewrites p id root p') :
    ∃ C g, Rework p.graph id root C g ∧ g.Resized p'.graph := by
  cases h with
  | factor h _ hg => exact ⟨_, _, .factor h, hg⟩
  | merge h hid hroot hg =>
    subst hid hroot
    exact ⟨_, _, .merge h, hg⟩

structure Fails (p : Pass) (id : NodeId) (cause : Interruption) (p' : Pass) : Prop where
  fault : ∃ fault, cause = .fault fault ∧ ¬ fault.IsCyclic ∧ (p'.graph = p.graph ∨
    ∃ root C g, Rework p.graph id root C g ∧ Edit.Unsized g root fault p'.graph)
  replaced : p'.replaced = p.replaced

theorem fails_unchanged {p : Pass} {id : NodeId} {fault : Fault} (h : ¬ fault.IsCyclic) :
    Fails p id (.fault fault) p :=
  ⟨⟨fault, rfl, h, .inl rfl⟩, rfl⟩

structure Answers (p : Pass) (id : NodeId) (result : Option NodeId) (p' : Pass) : Prop where
  cases : result = none ∧ p' = p ∨ ∃ root, result = some root ∧ Rewrites p id root p'
  replaced : p'.replaced = p.replaced
  offers : p'.offers = p.offers

theorem answers_none {p : Pass} {id : NodeId} : Answers p id none p := ⟨.inl ⟨rfl, rfl⟩, rfl, rfl⟩

variable {p : Pass} {id : NodeId}

namespace Factoring

/-- A product that is replaced, up to the sizes of its users: the new product was built in `g₁`, its
uses were moved in `g₂`, and the old products are retired in `g₃`. -/
structure Replacing (I : Graph → Prop) (g : Graph) (id : NodeId) (t : Tree) (M : Multiset NodeId)
    (root : NodeId) (edges : List Edge) (g₁ g₂ g₃ : Graph) : Prop where
  prepared : Prepared I g id t M root g₁
  count : products g₁ + 1 = products g + t.leaves.keys.length
  moved : Edit.redirectParents id root g₁ = .ok edges g₂
  retired : Edit.retireAll t.interior g₂ = .ok () g₃
  users : ∀ e ∈ edges, ∃ k, g₃.plan e.parent = some k ∧ root ∈ k.inputs
  refactored : Refactored g id M root g₃

theorem factor_steps {I : Graph → Prop} {E E' : Fault → Graph → Prop}
    {F : Interruption → Pass → Prop} {Q : Option NodeId → Pass → Prop} {t : Tree}
    {M : Multiset NodeId} (h : p.graph.Ordered) (hlinked : ∀ {g}, I g → g.Linked)
    (hB : Builds I E E' p.graph M) (hI : I p.graph) (hc : Collected p.graph id t M)
    (hf : t.isFactorable p.graph = true)
    (hfail : ∀ fault g, E' fault g → F (.fault fault) { p with graph := g })
    (hgo : ∀ {root created leaves edges g₁ g₂ g₃},
      Replacing I p.graph id t M root edges g₁ g₂ g₃ →
      (∀ y : Int, y ∈ created ↔ (p.graph.size : Int) ≤ y ∧ y < (g₃.size : Int)) →
      (∀ y, y ∈ leaves ↔ y ∈ M) → leaves.length ≤ products p.graph →
      Ends (edges.forM fun e => Edit.refresh e.parent) g₃
        (fun fault g => F (.fault fault) { p with graph := g, visited := created ++ p.visited })
        fun _ g₄ => ∀ records, Q (some root) { p with
          graph := g₄, visited := created ++ p.visited, pending := p.pending ++ leaves,
          records := records }) :
    Ends (factor id t) p F Q := by
  have hinner := (isFactorable_iff.1 hf).2.2
  have hrep := hc.repeated hf
  obtain ⟨leaves, hleaves, hnodup, hlen, hmem⟩ := hc.sorted
  have hbuild := buildProduct_ends hB hI hc.factors.ne_zero hnodup hmem hc.count
  unfold factor
  rw [ends_bind_ok (RuleM.read_ok hleaves)]
  refine Ends.bind (P := fun product p₁ => ∃ root g₁, p₁ = { p with graph := g₁ } ∧
    product.root = some root ∧ Multiplied I p.graph M root product.created g₁ ∧
    products g₁ + 1 = products p.graph + leaves.length) ?_ ?_
  · refine RuleM.ends_edit hbuild (fun product g₁ hmul => ?_) hfail
    obtain ⟨root, hroot, hmul, hcount⟩ := hmul
    exact ⟨root, g₁, rfl, hroot, hmul, hcount⟩
  rintro ⟨r, created, powers⟩ p₁ ⟨root, g₁, rfl, rfl, hmul, hcount⟩
  have hprep : Prepared I p.graph id t M root g₁ :=
    ⟨h, hlinked hmul.stage.inv, hc, hrep, hinner, hmul.stage, hmul.built⟩
  obtain ⟨edges, g₂, g₃, hrun₂, hrun₃, hsize₃, hl₃, hedges⟩ := hprep.retire_ok
  rw [ends_bind_ok (RuleM.markVisited_apply created), ends_bind_ok (RuleM.edit_ok hrun₂),
    ends_bind_ok (RuleM.edit_ok hrun₃), RuleM.forM_edit]
  have hstep : Replacing I p.graph id t M root edges g₁ g₂ g₃ :=
    ⟨hprep, hlen ▸ hcount, hrun₂, hrun₃, hl₃.plan_eq ▸ hedges,
      hprep.refactored hsize₃ hl₃ (hlen ▸ hcount)⟩
  have hends := hgo hstep (fun y => hsize₃ ▸ hmul.mem_created y) hmem
    (hlen ▸ hc.length_keys_le_products h hrep)
  refine Ends.bind (P := fun _ p₄ => ∃ g₄, p₄ = { p with
    graph := g₄, visited := created ++ p.visited } ∧ ∀ records, Q (some root) { p with
      graph := g₄, visited := created ++ p.visited, pending := p.pending ++ leaves,
      records := records }) ?_ ?_
  · exact RuleM.ends_edit hends (fun _ g₄ hQ => ⟨g₄, rfl, hQ⟩) fun _ _ hF => hF
  · rintro - p₄ ⟨g₄, rfl, hQ⟩
    exact hQ _

theorem factor_ends {t : Tree} {M : Multiset NodeId} (h : p.graph.Ordered)
    (hc : Collected p.graph id t M) (hf : t.isFactorable p.graph = true) :
    Ends (factor id t) p (Fails p id) fun result p' => Answers p id result p' ∧ result ≠ none := by
  refine factor_steps h And.right (builds_linked h.toLinked fun y hy => hc.item hy)
    ⟨.refl, h.toLinked⟩ hc hf ?_ fun {root created leaves edges g₁ g₂ g₃} hstep hcreated hmem hlen => ?_
  · rintro fault g ⟨hcause, rfl⟩
    exact fails_unchanged hcause
  have hre := hstep.refactored
  refine (Edit.refreshAll_ends hre.ordered.toLinked hstep.users).imp (fun fault g₄ hfault => ?_)
    fun _ g₄ hres records => ?_
  · exact ⟨⟨fault, rfl, hfault.cause, .inr ⟨root, _, g₃, .factor hre, hfault⟩⟩, rfl⟩
  · refine ⟨⟨.inr ⟨root, rfl, .factor hre (hc.repeated hf) hres (fun y => ?_) rfl hmem hlen⟩, rfl, rfl⟩,
      nofun⟩
    show y ∈ created ++ p.visited ↔ _
    rw [List.mem_append, hcreated, or_comm, hres.size]

theorem apply_steps {F : Interruption → Pass → Prop} {Q : Option NodeId → Pass → Prop}
    (h : p.graph.Ordered) (id : NodeId) (hnone : ¬ p.graph.plan.Collapsible id → Q none p)
    (hfail : ∀ fault : Fault, ¬ fault.IsCyclic → F (.fault fault) p)
    (hfactor : ∀ {t M}, Collected p.graph id t M → t.isFactorable p.graph = true →
      Ends (factor id t) p F Q) : Ends (apply id) p F Q := by
  cases hn : p.graph.get? id with
  | none =>
    have hnode : p.graph.node id = .error (.invalidId p.graph.name id p.graph.size) := by
      rw [node, hn]
    have hrun : apply id p = .error (.fault (.invalidId p.graph.name id p.graph.size)) p :=
      RuleM.bind_error (RuleM.read_error hnode)
    exact (ends_error hrun).2 (hfail _ not_false)
  | some n =>
    rcases apply_run h hn with ⟨hrun, hno⟩ | ⟨t, M, hc, hf, hrun⟩
    · exact (ends_ok hrun).2 (hnone hno)
    · unfold Ends
      rw [hrun]
      exact hfactor hc hf

theorem apply_ends (h : p.graph.Ordered) (id : NodeId) :
    Ends (apply id) p (Fails p id) (Answers p id) :=
  apply_steps h id (fun _ => answers_none) (fun _ => fails_unchanged) fun hc hf =>
    (factor_ends h hc hf).mono fun _ _ hans => hans.1

end Factoring

namespace Slicing
variable {m : Merge} {n : Node} {axis : Axis}

theorem mergeChain_ends {g : Graph} (h : g.Ordered) (hm : m.Chained g.plan)
    (hs : m.start = g.size) (hb : Measured g m.axis m.base m.width n)
    (hwhole : m.whole = .matrix (.ofInt n.shape.rows) (.ofInt n.shape.cols)) :
    ∃ g₅, Rechained g m g₅ ∧
      Ends (mergeChain m.axis m.top m.bottom m.base m.index m.chain) g
        (Edit.Unsized g₅ m.written) fun written g' => written = m.written ∧ g₅.Resized g' := by
  obtain ⟨edges, g₅, hrun, hre, -, hedges⟩ := mergeChain_run h hm hs hb hwhole
  refine ⟨g₅, hre, ?_⟩
  unfold Ends
  rw [hrun]
  exact (Edit.refreshAll_ends hre.linked hedges).bind fun _ g' hres => ⟨rfl, hres⟩

theorem tryAxes_retired (h : p.graph.Ordered) (hn : p.graph.get? id = some n)
    (hr : n.retired = true) (axes : List Axis) : tryAxes id axes p = .ok none p ∧ axes = [] ∨
      ∃ fault, ¬ fault.IsCyclic ∧ tryAxes id axes p = .error (.fault fault) p := by
  cases axes with
  | nil => exact .inl ⟨rfl, rfl⟩
  | cons axis rest =>
    have hcore : n.core.inputs = [] := h.inputs_nil (core?_eq_some hn) hr
    have hnil : n.inputs = [] := hcore
    have hindex : collectChain p.graph axis id =
        .error (.noInput ⟨id, n.op⟩ 0 (axis.lowerPos : Nat)) := by
      unfold collectChain indexOf
      rw [node_ok hn]
      show (n.input id axis.lowerPos >>= fun index => _) = _
      rw [Node.input, Node.input?, hnil]
      simp
      rfl
    refine .inr ⟨_, ?_, RuleM.bind_error (RuleM.bind_error (RuleM.read_error hindex))⟩
    exact not_false

/-- The rule leaves a node alone, fails before its first edit, or merges the chain below the node. A
write that it leaves alone has no chain along any of the axes. -/
theorem apply_outcomes (h : p.graph.Ordered) (axes : List Axis) (id : NodeId) :
    (apply axes id p = .ok none p ∧ ∀ n, p.graph.get? id = some n →
        n.op = .leftIndexing ⟨true, true⟩ →
          ∀ axis ∈ axes, n.retired = false ∧ Lone p.graph axis id) ∨
      (∃ fault, ¬ fault.IsCyclic ∧ apply axes id p = .error (.fault fault) p) ∨
      Merging p axes id (apply axes id p) := by
  cases hn : p.graph.get? id with
  | none =>
    have hnode : p.graph.node id = .error (.invalidId p.graph.name id p.graph.size) := by
      rw [node, hn]
    refine .inr (.inl ⟨_, ?_, RuleM.bind_error (RuleM.read_error hnode)⟩)
    exact not_false
  | some n =>
    by_cases hgone : n.op = .leftIndexing ⟨true, true⟩ ∧ n.retired = true
    · obtain ⟨hop, hr⟩ := hgone
      rw [apply_of_op_eq hn hop axes]
      refine (tryAxes_retired h hn hr axes).imp (fun hnone => ⟨hnone.1, ?_⟩) .inl
      rw [hnone.2]
      intro m _ _ axis haxis
      cases haxis
    · have hlive : n.op = .leftIndexing ⟨true, true⟩ → n.retired = false := by simpa using hgone
      refine (apply_run h hn hlive axes).imp (fun hnone => ⟨hnone.1, ?_⟩) fun hm => .inr hm.2
      intro m hm hop axis haxis
      cases hm
      exact ⟨hlive hop, hnone.2 hop axis haxis⟩

theorem apply_steps {F : Interruption → Pass → Prop} {Q : Option NodeId → Pass → Prop}
    (h : p.graph.Ordered) (axes : List Axis) (id : NodeId)
    (hnone : (∀ n, p.graph.get? id = some n → n.op = .leftIndexing ⟨true, true⟩ →
      ∀ axis ∈ axes, n.retired = false ∧ Lone p.graph axis id) → Q none p)
    (hfail : ∀ fault : Fault, ¬ fault.IsCyclic → F (.fault fault) p)
    (hmerge : ∀ {m n}, Planned p axes id m n →
      Ends (mergeChain m.axis m.top m.bottom m.base m.index m.chain) p.graph
        (fun fault g => F (.fault fault) { p with graph := g })
        fun written g => ∀ records, Q (some written) { p with graph := g, records := records }) :
    Ends (apply axes id) p F Q := by
  rcases apply_outcomes h axes id with ⟨hrun, hlone⟩ | ⟨fault, hcause, hrun⟩ | hmerging
  · exact (ends_ok hrun).2 (hnone hlone)
  · exact (ends_error hrun).2 (hfail fault hcause)
  · obtain ⟨m, n, summary, hm, hrun⟩ := hmerging
    unfold Ends
    rw [hrun]
    refine Ends.bind (P := fun written p' => ∃ g, p' = { p with graph := g } ∧
      ∀ records, Q (some written) { p with graph := g, records := records }) ?_ ?_
    · exact RuleM.ends_edit (hmerge hm) (fun _ g hQ => ⟨g, rfl, hQ⟩) fun _ _ hF => hF
    · rintro written p' ⟨g, rfl, hQ⟩
      exact hQ _

theorem apply_ends (h : p.graph.Ordered) (axes : List Axis) (id : NodeId) :
    Ends (apply axes id) p (Fails p id) (Answers p id) := by
  refine apply_steps h axes id (fun _ => answers_none) (fun _ => fails_unchanged)
    fun {m n} hm => ?_
  obtain rfl := hm.top
  obtain ⟨g₅, hre, hends⟩ := mergeChain_ends h hm.chained hm.start hm.measured hm.whole
  refine hends.imp (fun fault g' hfault => ?_) ?_
  · exact ⟨⟨fault, rfl, hfault.cause, .inr ⟨m.written, _, g₅, .merge hre, hfault⟩⟩, rfl⟩
  · rintro written g' ⟨rfl, hres⟩ records
    exact ⟨.inr ⟨m.written, rfl, .merge hre rfl rfl hres rfl rfl⟩, rfl, rfl⟩

end Slicing

theorem Standard.apply_ends {r : Rule} (hr : Standard r) (h : p.graph.Ordered) (id : NodeId) :
    Ends (r.apply id) p (Fails p id) (Answers p id) := by
  rcases hr with rfl | ⟨axes, rfl⟩
  · exact Factoring.apply_ends h id
  · exact Slicing.apply_ends h axes id

structure TakesPlace (g : Graph) (id root : NodeId) (g' : Graph) : Prop where
  live : ∃ n, g'.get? root = some n ∧ n.retired = false
  slots : ∀ (x : NodeId) (pos : Nat), (g.inputsOf x)[pos]? = some id → (g'.inputsOf x)[pos]? = some root

theorem Rework.takesPlace {g g₁ g' : Graph} {root : NodeId} {C : NodeId → Prop}
    (h : Rework g id root C g₁) (ho : g.Ordered) (hres : g₁.Resized g') :
    TakesPlace g id root g' := by
  constructor
  · obtain ⟨i, hi⟩ := h.root_live
    obtain ⟨j, hj, -⟩ := hres.item hi
    obtain ⟨n, hn, hr, -⟩ := get?_of_plan hj
    exact ⟨n, hn, hr⟩
  · intro x pos hpos
    have hmem := List.mem_of_getElem? hpos
    obtain ⟨n, hn, hr⟩ := ho.user_live hmem
    rw [inputsOf_eq hn] at hpos hmem
    obtain ⟨j, hj, -, hin⟩ := hres.item (h.user_kept ho (plan_eq_some hn hr) hmem)
    have hitem : n.item.inputs[pos]? = some id := hpos
    rw [inputsOf_of_plan hj, hin, Item.subst, List.getElem?_map, hitem]
    simp

/-- A rule that comes to an end leaves the graph as it is, or has replaced the node. -/
def EndsWhole (g : Graph) (id : NodeId) : Option NodeId → Graph → Prop
  | none, g' => g' = g
  | some root, g' => TakesPlace g id root g'

/-- A rule that fails leaves the graph as it is, or has replaced the node by one that has a user which
cannot be sized. -/
def FailsWhole (g : Graph) (id : NodeId) (cause : Interruption) (g' : Graph) : Prop :=
  g' = g ∨ ∃ root user fault, TakesPlace g id root g' ∧ root ∈ g'.inputsOf user ∧
    cause = .fault fault ∧ Edit.refresh user g' = .error fault g'

/-- Whatever the sizes in a valid graph are, a rule does all of its edits or none of them. -/
theorem apply_all_or_nothing {r : Rule} (hrule : Standard r) {p : Pass}
    (hc : p.graph.check = .ok ()) (id : NodeId) :
    Ends (r.apply id) p (fun cause p' => FailsWhole p.graph id cause p'.graph)
      fun result p' => EndsWhole p.graph id result p'.graph := by
  have ho : p.graph.Ordered := check_eq_ok_iff_ordered.1 hc
  refine (hrule.apply_ends ho id).imp (fun cause p' hf => ?_) fun result p' hans => ?_
  · obtain ⟨fault, rfl, -, hsame | ⟨root, C, g, hwork, hun⟩⟩ := hf.fault
    · exact .inl hsame
    · obtain ⟨user, i, hi, hroot, hagain⟩ := hun.user
      refine .inr ⟨root, user, fault, hwork.takesPlace ho hun.resized, ?_, rfl, hagain⟩
      rw [inputsOf_of_plan hi]
      exact hroot
  · rcases hans.cases with ⟨rfl, rfl⟩ | ⟨root, rfl, hrew⟩
    · rfl
    · obtain ⟨C, g, hwork, hres⟩ := hrew.rework
      exact hwork.takesPlace ho hres

/-- A product whose factors were replaced by a larger matrix, beside a term of the old size. -/
def staleSum : Graph :=
  (Graph.empty "g").afterCalls [.matrix "A" 2 2 (-1), .matrix "B" 3 3 (-1), .mult 0 0, .mult 2 0,
    .binary .plus 3 0, .replaceInput 2 0 1, .replaceInput 2 1 1, .replaceInput 3 1 1]

/-- The product is replaced, then the sum cannot be sized. Two nodes have been added by then, the sum
reads the new one, and the old products are retired. -/
theorem apply_fails_halfway : staleSum.check = .ok () ∧
    (∃ n, staleSum.get? 3 = some n ∧ n.retired = false) ∧
    staleSum.nodes.toList.map (fun n => (n.inputs, n.retired)) =
      [([], false), ([], false), ([1, 1], false), ([2, 1], false), ([3, 0], false)] ∧
    ∃ cause p', Factoring.rule.apply 3 (.start staleSum) = .error cause p' ∧
      p'.graph.nodes.toList.map (fun n => (n.inputs, n.retired)) =
        [([], false), ([], false), ([], true), ([], true), ([6, 0], false), ([], false),
          ([1, 5], false)] := by
  have hlive : (staleSum.get? 3).map Node.retired = some false := by decide +kernel
  have hfail : (failure? (Factoring.rule.apply 3) (.start staleSum)).map
      (fun p' => p'.graph.nodes.toList.map fun n => (n.inputs, n.retired)) = some
        [([], false), ([], false), ([], true), ([], true), ([6, 0], false), ([], false),
          ([1, 5], false)] := by decide +kernel
  obtain ⟨p', hp', hnodes⟩ := Option.map_eq_some_iff.1 hfail
  obtain ⟨cause, hrun⟩ := error_of_failure? hp'
  exact ⟨by decide +kernel, Option.map_eq_some_iff.1 hlive, by decide +kernel, cause, p', hrun,
    hnodes⟩

theorem apply_all_or_nothing_staleSum : (Pass.start staleSum).graph.check = .ok () ∧
    ∀ id, Ends (Factoring.rule.apply id) (.start staleSum)
      (fun cause p' => FailsWhole (Pass.start staleSum).graph id cause p'.graph)
      fun result p' => EndsWhole (Pass.start staleSum).graph id result p'.graph := by
  have hc : (Pass.start staleSum).graph.check = .ok () := by decide +kernel
  have hends := @apply_all_or_nothing Factoring.rule (.inl rfl) (.start staleSum)
  exact ⟨hc, hends hc⟩

end Optimizer
end LinearPlan
