import LinearPlan.Optimizer.Run
import LinearPlan.Proofs.Postorder
import LinearPlan.Proofs.Roots

/-!
# The order of a pass

With rules that change nothing a pass is a depth-first search: it offers a node when it first meets it,
enters it at once, and goes on with its operands in the order of their positions. Its state is then
known from the nodes it has entered, and the fuel for a root is enough, however the nodes are shared and
whether or not there are cycles.
-/
namespace LinearPlan.Optimizer
open LinearPlan.Graph

/-- The state of a pass that has offered some nodes to the rules at some positions, has entered each of
them when it was offered, and has changed nothing. -/
def Pass.tour (g : Graph) (positions : List Nat) (order : List NodeId) : Pass where
  graph := g
  visited := order.reverse
  pending := []
  replaced := []
  stats := ⟨order.length, []⟩
  records := []
  offers := order.flatMap fun x => positions.map fun i => ⟨i, x⟩

def Pass.offered (g : Graph) (positions : List Nat) (order : List NodeId) (x : NodeId) : Pass :=
  { Pass.tour g positions order with offers := (Pass.tour g positions (order ++ [x])).offers }

namespace PassM
variable {rules : List (Rule × Nat)} {g : Graph} {p p₁ p₂ : Pass} {id child x : NodeId} {n : Node}
  {pos fuel bound : Nat} {seen todo roots order : List NodeId} {positions : List Nat} {f below : Forest}

theorem descend_operands_of_visited (hn : p.graph.get? id = some n)
    (hpos : n.inputs[pos]? = some child) (hv : child ∈ p.visited) :
    descend rules (fuel + 2) (.operands id pos) p =
      descend rules (fuel + 1) (.operands id (pos + 1)) p := by
  rw [descend_operands_visited hn hpos hv, bind_ok (read_operand hn hpos),
    bind_ok (descend_node_of_visited hv)]

theorem descend_operands_of_offer (hn : p.graph.get? id = some n)
    (hpos : n.inputs[pos]? = some child) (hv : child ∉ p.visited)
    (hoffer : offer rules child p = .ok child p₁) (hgraph : p₁.graph = p.graph)
    (hpending : p₁.pending = []) (hdown : descend rules (fuel + 1) (.node child) p₁ = .ok () p₂) :
    descend rules (fuel + 2) (.operands id pos) p =
      descend rules (fuel + 1) (.operands id (pos + 1)) p₂ := by
  have hstay : requireRedirected id pos child child p₁ = .ok () p₁ := by
    rw [requireRedirected, if_pos rfl]
    rfl
  rw [descend_operands_offered hn hpos hv hoffer hstay (descend_pending_of_nil hpending),
    bind_ok (read_operand (hgraph.symm ▸ hn) hpos), bind_ok hdown]

theorem offer_tour (hq : ∀ r ∈ rules, Quiet r.1 g x) :
    offer rules x (.tour g (rules.map Prod.snd) order) =
      .ok x (.offered g (rules.map Prod.snd) order x) := by
  refine (offer_eq_of_quiet hq).trans ?_
  simp [Pass.offered, Pass.tour, Function.comp_def]

theorem enter_offered :
    enter x (.offered g positions order x) = .ok () (.tour g positions (order ++ [x])) := by
  simp [enter, Pass.offered, Pass.tour, Stats.countVisit]

theorem descend_offered (hx : x ∉ order) (hn : g.get? x = some n) :
    descend rules (fuel + 1) (.node x) (.offered g positions order x) =
      descend rules fuel (.operands x 0) (.tour g positions (order ++ [x])) :=
  descend_node_of_unvisited (fun h => hx (List.mem_reverse.1 h)) hn enter_offered

theorem slot_of_drop {l rest : List NodeId} (h : l.drop pos = x :: rest) :
    l[pos]? = some x ∧ l.drop (pos + 1) = rest := by
  rw [← List.head?_drop, ← List.tail_drop, h]
  exact ⟨rfl, rfl⟩

/-- The operands of a node, from a position on. Every node takes a level for each of its operands, and
two more. -/
theorem operands_tour (hq : ∀ r ∈ rules, ∀ x, Quiet r.1 g x)
    (hbound : ∀ x, (g.inputsOf x).length ≤ bound) (h : g.DepthFirst seen todo f)
    (hnode : ∀ x ∈ f.preorder, ∃ n, g.get? x = some n) (hseen : seen = order.reverse)
    (hid : g.get? id = some n) (htodo : n.inputs.drop pos = todo)
    (hfuel : todo.length + f.preorder.length * (bound + 2) < fuel) :
    descend rules fuel (.operands id pos) (.tour g (rules.map Prod.snd) order) =
      .ok () (.tour g (rules.map Prod.snd) (order ++ f.preorder)) := by
  -- By the search, with the tour so far as its seen nodes: `below` is the descent into an operand that
  -- has just been offered, `after` the positions behind it.
  induction h generalizing order id n pos fuel with
  | nil =>
    obtain ⟨fuel, rfl⟩ := Nat.exists_eq_succ_of_ne_zero (Nat.ne_zero_of_lt hfuel)
    have hpos : n.inputs[pos]? = none := List.getElem?_eq_none (List.drop_eq_nil_iff.1 htodo)
    rw [descend_operands_of_none hid hpos, Forest.preorder, List.append_nil]
  | @skip seen rest x f hx _ ih =>
    obtain ⟨hpos, hrest⟩ := slot_of_drop htodo
    rw [List.length_cons] at hfuel
    obtain ⟨fuel, rfl⟩ := Nat.exists_eq_add_of_le' (show 2 ≤ fuel by omega)
    rw [hseen] at hx
    rw [descend_operands_of_visited hid hpos hx]
    exact ih hnode hseen hid hrest (by omega)
  | @enter seen rest x below after hx hbelow _ ihb iha =>
    obtain ⟨hpos, hrest⟩ := slot_of_drop htodo
    simp only [Forest.preorder, List.forall_mem_cons, List.forall_mem_append, List.length_cons,
      List.length_append, Nat.add_mul, Nat.one_mul] at hnode hfuel
    obtain ⟨⟨m, hm⟩, hnb, hna⟩ := hnode
    obtain ⟨fuel, rfl⟩ := Nat.exists_eq_add_of_le' (show 2 ≤ fuel by omega)
    have hin := hbound x
    subst hseen
    have hseen : x :: order.reverse = (order ++ [x]).reverse := by simp
    have hdown := ihb hnb hseen hm (show m.inputs.drop 0 = _ from (inputsOf_eq hm).symm)
      (show _ < fuel by omega)
    rw [descend_operands_of_offer hid hpos hx (offer_tour fun r hr => hq r hr x) rfl rfl
      ((descend_offered (fun h => hx (List.mem_reverse.2 h)) hm).trans hdown),
      iha hna (by simp) hid hrest (by omega)]
    simp [Forest.preorder]

theorem toll_lt_fuelFor {k l : Nat} (hk : k ≤ g.size) (hl : l ≤ weight g) :
    l + k * (weight g + 2) + 1 < fuelFor g := by
  have hmul : k * (weight g + 2) ≤ weight g * (weight g + 2) :=
    Nat.mul_le_mul_right _ (hk.trans (size_le_weight g))
  unfold fuelFor
  generalize weight g = w at *
  have hpow : Nat.pow (w + 8) 4 = w ^ 4 + 32 * w ^ 3 + 384 * w ^ 2 + 2048 * w + 4096 := by
    show (w + 8) ^ 4 = _
    ring
  have hsquare : w * (w + 2) = w ^ 2 + 2 * w := by ring
  omega

theorem exists_fuelFor (g : Graph) : ∃ fuel, fuelFor g = fuel + 1 :=
  Nat.exists_eq_add_one_of_ne_zero
    (Nat.ne_zero_of_lt (toll_lt_fuelFor (Nat.zero_le g.size) (Nat.zero_le (weight g))))

theorem pending_tour : descend rules (fuelFor g) .pending (.tour g positions order) =
    .ok () (.tour g positions order) := by
  obtain ⟨fuel, hfuel⟩ := exists_fuelFor g
  rw [hfuel]
  exact descend_pending_of_nil rfl

theorem settle_tour_of_visited (hx : x ∈ order) :
    settle rules x (.tour g positions order) = .ok x (.tour g positions order) := by
  have hv : x ∈ (Pass.tour g positions order).visited := List.mem_reverse.2 hx
  have hroot : descend rules (fuelFor g) (.node x) (.tour g positions order) =
      .ok () (.tour g positions order) := by
    obtain ⟨fuel, hfuel⟩ := exists_fuelFor g
    rw [hfuel]
    exact descend_node_of_visited hv
  exact settle_of (.inl ⟨hv, rfl, rfl⟩) hroot pending_tour

theorem settle_tour (hq : ∀ r ∈ rules, ∀ x, Quiet r.1 g x) (hx : x ∉ order)
    (hn : g.get? x = some n) (h : g.DepthFirst (x :: order.reverse) (g.inputsOf x) below)
    (hnode : ∀ x ∈ below.preorder, ∃ n, g.get? x = some n) (hsize : below.preorder.length ≤ g.size) :
    settle rules x (.tour g (rules.map Prod.snd) order) =
      .ok x (.tour g (rules.map Prod.snd) (order ++ [x] ++ below.preorder)) := by
  have hv : x ∉ (Pass.tour g (rules.map Prod.snd) order).visited := fun h => hx (List.mem_reverse.1 h)
  have hseen : x :: order.reverse = (order ++ [x]).reverse := by simp
  have htoll := toll_lt_fuelFor hsize (length_inputsOf_le_weight g x)
  obtain ⟨fuel, hfuel⟩ := exists_fuelFor g
  have hdown := operands_tour hq (length_inputsOf_le_weight g) h hnode hseen hn
    (show n.inputs.drop 0 = _ from (inputsOf_eq hn).symm) (show _ < fuel by omega)
  have hroot := (descend_offered hx hn).trans hdown
  rw [← hfuel] at hroot
  exact settle_of (.inr ⟨hv, offer_tour fun r hr => hq r hr x⟩) hroot pending_tour

theorem mapM_settle_tour (hq : ∀ r ∈ rules, ∀ x, Quiet r.1 g x) (h : g.DepthFirst seen roots f)
    (hnode : ∀ x ∈ f.preorder, ∃ n, g.get? x = some n) (hsize : f.preorder.length ≤ g.size)
    (hseen : seen = order.reverse) :
    roots.mapM (settle rules) (.tour g (rules.map Prod.snd) order) =
      .ok roots (.tour g (rules.map Prod.snd) (order ++ f.preorder)) := by
  induction h generalizing order with
  | nil =>
    rw [Forest.preorder, List.append_nil]
    rfl
  | skip hx _ ih =>
    rw [hseen, List.mem_reverse] at hx
    rw [List.mapM_cons, bind_ok (settle_tour_of_visited hx), bind_ok (ih hnode hsize hseen)]
    rfl
  | @enter seen rest x below after hx hbelow _ _ iha =>
    subst hseen
    simp only [Forest.preorder, List.forall_mem_cons, List.forall_mem_append, List.length_cons,
      List.length_append] at hnode hsize
    obtain ⟨⟨n, hn⟩, hnb, hna⟩ := hnode
    have hroot := settle_tour hq (fun h => hx (List.mem_reverse.2 h)) hn hbelow hnb (by omega)
    have hseen : below.preorder.reverse ++ x :: order.reverse =
        (order ++ [x] ++ below.preorder).reverse := by simp
    have hrest := iha hna (by omega) hseen
    rw [List.mapM_cons, bind_ok hroot, bind_ok hrest]
    simp [Forest.preorder, pure, EStateM.pure]

end PassM

/-- With rules that leave every node alone a pass comes to its end and changes nothing. It offers what is
reachable from the roots, each node once and to all rules in turn, in the order of a depth-first search:
sorted by the first ways that lead to them. -/
theorem run_preorder (g : Graph) (hg : g.OperandsExist) (roots : List NodeId)
    (hroots : ∀ r ∈ roots, (0 : Int) ≤ r ∧ r < (g.size : Int)) (rules : List Rule)
    (hquiet : ∀ r ∈ rules, ∀ x, PassM.Quiet r g x) :
    ∃ (p : Pass) (f : Forest) (ways : List (List Nat)) (ids : List NodeId),
      PassM.run rules roots (.start g) = .ok roots p ∧ p.graph = g ∧
      p.offers = f.preorder.flatMap (fun x => (List.range rules.length).map fun i => ⟨i, x⟩) ∧
      g.DepthFirst [] roots f ∧ f.preorder.Nodup ∧
      (∀ x, x ∈ f.preorder ↔ ∃ r ∈ roots, Relation.ReflTransGen g.Uses r x) ∧
      List.Forall₂ (fun x way => g.FirstWay ∅ roots way x) f.preorder ways ∧
      ways.Pairwise (· < ·) ∧
      g.reachable roots = .ok ids ∧ p.stats.visited = ids.length := by
  have hr : ∀ r ∈ roots, ∃ n, g.get? r = some n := fun r h => get?_of_lt (hroots r h).1 (hroots r h).2
  obtain ⟨f, hf⟩ := hg.exists_depthFirst [] roots hr
  obtain ⟨ways, hways, hsorted⟩ := hf.exists_ways
  have hpositions : rules.zipIdx.map Prod.snd = List.range rules.length := by
    rw [List.zipIdx_map_snd, List.range_eq_range']
  have hrun : PassM.run rules roots (.start g) =
      .ok roots (.tour g (List.range rules.length) f.preorder) := by
    have hzip : ∀ r ∈ rules.zipIdx, ∀ x, PassM.Quiet r.1 g x := fun r hr =>
      hquiet r.1 (List.fst_mem_of_mem_zipIdx hr)
    have htour := PassM.mapM_settle_tour hzip hf (hf.exists_node hg hr) (hf.length_le hg hr)
      (List.reverse_nil).symm
    rw [hpositions] at htour
    exact htour
  have hempty : {y | y ∈ ([] : List NodeId)} = (∅ : Set NodeId) := by simp
  rw [hempty] at hways
  refine ⟨_, f, ways, f.postorder, hrun, rfl, rfl, hf, hf.nodup, fun x => hf.mem_preorder_iff, hways,
    hsorted, hf.reachable_eq hg hr, ?_⟩
  rw [f.postorder_perm.length_eq]
  rfl

def idleRule (name : String) : Rule := ⟨name, fun _ => pure none⟩

theorem run_preorder_circularSum :
    circularSum.OperandsExist ∧ circularSum.reachable [2, 1, 2] = .ok [0, 1, 2] ∧
      ∃ p, PassM.run [idleRule "a", idleRule "b"] [2, 1, 2] (.start circularSum) =
          .ok [2, 1, 2] p ∧ p.graph = circularSum ∧ p.stats.visited = 3 ∧
        p.offers = [⟨0, 2⟩, ⟨1, 2⟩, ⟨0, 1⟩, ⟨1, 1⟩, ⟨0, 0⟩, ⟨1, 0⟩] := by
  have hoperands : circularSum.OperandsExist := by decide +kernel
  have heval : circularSum.reachable [2, 1, 2] = .ok [0, 1, 2] := by decide +kernel
  have hidle : ∀ r ∈ [idleRule "a", idleRule "b"], ∀ x, PassM.Quiet r circularSum x := by
    intro r hr x p _
    simp only [List.mem_cons, List.not_mem_nil, or_false] at hr
    rcases hr with rfl | rfl <;> rfl
  obtain ⟨p, f, ways, ids, hrun, hgraph, hoffers, hf, -, -, -, -, hids, hvisited⟩ :=
    run_preorder circularSum hoperands [2, 1, 2] (by decide +kernel) _ hidle
  rw [heval] at hids
  cases hids
  refine ⟨hoperands, heval, p, hrun, hgraph, hvisited, ?_⟩
  have hpass : (optimize [idleRule "a", idleRule "b"] false circularSum [2, 1, 2]).pass = p := by
    rw [optimize, hrun]
    rfl
  rw [← hpass]
  decide +kernel

end LinearPlan.Optimizer
