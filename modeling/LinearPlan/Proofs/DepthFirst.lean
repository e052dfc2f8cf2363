import LinearPlan.Proofs.CycleSearch
import LinearPlan.Proofs.Evaluation
import Mathlib.Data.List.Lex

/-!
# Depth-first search

A depth-first search below some nodes finds a forest: every node that has not been seen is entered, is
seen from then on, and has below it what its operands lead to. Cycles and shared operands do no harm,
as a node that has been seen is passed over. The forest has two orders, with each node before or after
the nodes below it.

The nodes of the forest are those that can be reached, each of them once. Without cycles the nodes
finished last come last: operands stand before their users in the second order. In the first order the
nodes are sorted by the first way that leads to them, where ways are compared like words in a
dictionary, letter by letter, and their letters are positions among operands.
-/
namespace LinearPlan

/-- A first node, the trees below it, and the trees after it. -/
inductive Forest where
  | nil
  | node (id : NodeId) (below after : Forest)
deriving DecidableEq, Repr

namespace Forest

def preorder : Forest → List NodeId
  | nil => []
  | node x below after => x :: (below.preorder ++ after.preorder)

def postorder : Forest → List NodeId
  | nil => []
  | node x below after => below.postorder ++ x :: after.postorder

theorem postorder_perm (f : Forest) : f.postorder.Perm f.preorder := by
  induction f with
  | nil => exact .nil
  | node x below after ihb iha => exact List.perm_middle.trans ((ihb.append iha).cons x)

end Forest

namespace Graph

/-- The forest below a list of nodes, when some nodes have been seen. -/
inductive DepthFirst (g : Graph) : List NodeId → List NodeId → Forest → Prop
  | nil {seen : List NodeId} : DepthFirst g seen [] .nil
  | skip {seen rest : List NodeId} {x : NodeId} {f : Forest} (hx : x ∈ seen)
      (h : DepthFirst g seen rest f) : DepthFirst g seen (x :: rest) f
  | enter {seen rest : List NodeId} {x : NodeId} {below after : Forest} (hx : x ∉ seen)
      (hbelow : DepthFirst g (x :: seen) (g.inputsOf x) below)
      (hafter : DepthFirst g (below.preorder.reverse ++ x :: seen) rest after) :
      DepthFirst g seen (x :: rest) (.node x below after)

variable {g : Graph} {seen todo roots : List NodeId} {f : Forest} {x y : NodeId}

namespace DepthFirst

theorem nodup_append (h : g.DepthFirst seen todo f) (hs : seen.Nodup) :
    (f.preorder.reverse ++ seen).Nodup := by
  induction h with
  | nil => exact hs
  | skip _ _ ih => exact ih hs
  | @enter seen rest x below after hx _ _ ihb iha =>
    have hb := ihb (List.nodup_cons.2 ⟨hx, hs⟩)
    have ha := iha hb
    simpa [Forest.preorder] using ha

theorem covers (h : g.DepthFirst seen todo f) : ∀ x ∈ todo, x ∈ seen ∨ x ∈ f.preorder := by
  induction h with
  | nil => simp
  | skip hx _ ih => exact List.forall_mem_cons.2 ⟨.inl hx, ih⟩
  | enter _ _ _ _ iha =>
    refine List.forall_mem_cons.2 ⟨.inr List.mem_cons_self, fun y hy => ?_⟩
    have hmem := iha y hy
    simp only [Forest.preorder, List.mem_append, List.mem_reverse, List.mem_cons] at hmem ⊢
    tauto

theorem closed (h : g.DepthFirst seen todo f) :
    ∀ x ∈ f.preorder, ∀ y ∈ g.inputsOf x, y ∈ seen ∨ y ∈ f.preorder := by
  induction h with
  | nil => simp [Forest.preorder]
  | skip _ _ ih => exact ih
  | @enter seen rest x below after _ hbelow _ ihb iha =>
    intro z hz y hy
    have hmem : y ∈ x :: seen ∨ y ∈ below.preorder ∨ y ∈ after.preorder := by
      rcases List.mem_cons.1 hz with rfl | hz
      · have hy := hbelow.covers y hy
        tauto
      · rcases List.mem_append.1 hz with hz | hz
        · have hy := ihb z hz y hy
          tauto
        · have hy := iha z hz y hy
          simp only [List.mem_append, List.mem_reverse] at hy
          tauto
    simp only [Forest.preorder, List.mem_append, List.mem_cons] at hmem ⊢
    tauto

theorem reached (h : g.DepthFirst seen todo f) (hx : x ∈ f.preorder) :
    ∃ r ∈ todo, Relation.ReflTransGen g.Uses r x := by
  induction h with
  | nil => cases hx
  | skip _ _ ih =>
    obtain ⟨r, hr, hreach⟩ := ih hx
    exact ⟨r, List.mem_cons_of_mem _ hr, hreach⟩
  | enter _ _ _ ihb iha =>
    rcases List.mem_cons.1 hx with rfl | hx
    · exact ⟨x, List.mem_cons_self, .refl⟩
    · rcases List.mem_append.1 hx with hx | hx
      · obtain ⟨r, hr, hreach⟩ := ihb hx
        exact ⟨_, List.mem_cons_self, hreach.head hr⟩
      · obtain ⟨r, hr, hreach⟩ := iha hx
        exact ⟨r, List.mem_cons_of_mem _ hr, hreach⟩

theorem mem_preorder_iff (h : g.DepthFirst [] roots f) :
    x ∈ f.preorder ↔ ∃ r ∈ roots, Relation.ReflTransGen g.Uses r x := by
  refine ⟨h.reached, ?_⟩
  rintro ⟨r, hr, hreach⟩
  induction hreach with
  | refl => exact (h.covers r hr).resolve_left List.not_mem_nil
  | tail _ hy ih => exact (h.closed _ ih _ hy).resolve_left List.not_mem_nil

theorem nodup (h : g.DepthFirst [] roots f) : f.preorder.Nodup := by
  simpa using h.nodup_append List.nodup_nil

theorem exists_node (h : g.DepthFirst seen todo f) (hg : g.OperandsExist)
    (ht : ∀ x ∈ todo, ∃ n, g.get? x = some n) : ∀ x ∈ f.preorder, ∃ n, g.get? x = some n := by
  intro x hx
  obtain ⟨r, hr, hreach⟩ := h.reached hx
  cases hreach with
  | refl => exact ht _ hr
  | tail _ hx => exact hg.exists_node hx

theorem length_le (h : g.DepthFirst [] roots f) (hg : g.OperandsExist)
    (hr : ∀ x ∈ roots, ∃ n, g.get? x = some n) : f.preorder.length ≤ g.size := by
  refine length_le_size h.nodup fun x hx => ?_
  obtain ⟨n, hn⟩ := h.exists_node hg hr x hx
  exact range_of_get? hn

end DepthFirst

def unseen (g : Graph) (seen : List NodeId) : Nat := (g.ids.toFinset \ seen.toFinset).card

theorem unseen_lt {seen' : List NodeId} (hx : x ∈ g.ids) (hnew : x ∉ seen) (hsub : seen ⊆ seen')
    (hmem : x ∈ seen') : g.unseen seen' < g.unseen seen := by
  refine Finset.card_lt_card (Finset.ssubset_iff_of_subset ?_ |>.2 ⟨x, ?_, ?_⟩)
  · intro y hy
    simp only [Finset.mem_sdiff, List.mem_toFinset] at hy ⊢
    exact ⟨hy.1, fun h => hy.2 (hsub h)⟩
  · simpa using ⟨hx, hnew⟩
  · simpa using fun _ => hmem

theorem OperandsExist.exists_depthFirst (hg : g.OperandsExist) (seen todo : List NodeId)
    (ht : ∀ x ∈ todo, ∃ n, g.get? x = some n) : ∃ f, g.DepthFirst seen todo f := by
  -- The outer induction is for the nodes that are entered, the inner one for those passed over.
  induction hn : g.unseen seen using Nat.strong_induction_on generalizing seen todo with
  | _ n ih =>
    subst hn
    induction todo with
    | nil => exact ⟨.nil, .nil⟩
    | cons x rest ihrest =>
      obtain ⟨hx, hrest⟩ := List.forall_mem_cons.1 ht
      by_cases hmem : x ∈ seen
      · obtain ⟨f, hf⟩ := ihrest hrest
        exact ⟨f, .skip hmem hf⟩
      · obtain ⟨n, hget⟩ := hx
        have hid : x ∈ g.ids := mem_ids.2 (range_of_get? hget)
        obtain ⟨below, hbelow⟩ := ih _ (unseen_lt hid hmem (List.subset_cons_self x seen)
          List.mem_cons_self) (x :: seen) (g.inputsOf x) (fun y hy => hg.exists_node hy) rfl
        have hsub : seen ⊆ below.preorder.reverse ++ x :: seen := fun y hy =>
          List.mem_append_right _ (List.mem_cons_of_mem x hy)
        obtain ⟨after, hafter⟩ := ih _ (unseen_lt hid hmem hsub
          (List.mem_append_right _ List.mem_cons_self)) _ rest hrest rfl
        exact ⟨.node x below after, .enter hmem hbelow hafter⟩

/-- Nodes are finished after their operands. A node that has been seen is done, or it is on the path to
what is ahead; in the second case it is no operand of a node ahead, as this would close a cycle. -/
theorem DepthFirst.settled (hc : g.CycleFree) (h : g.DepthFirst seen todo f) {done : List NodeId}
    (hd : g.Settled done)
    (hpath : ∀ s ∈ seen, s ∈ done ∨ ∀ t ∈ todo, Relation.TransGen g.Uses s t) :
    g.Settled (f.postorder.reverse ++ done) := by
  induction h generalizing done with
  | nil => exact hd
  | skip _ _ ih =>
    exact ih hd fun s hs => (hpath s hs).imp_right fun ht t hmem => ht t (List.mem_cons_of_mem _ hmem)
  | @enter seen rest x below after _ hbelow _ ihb iha =>
    have hx : ∀ s ∈ seen, s ∈ done ∨ Relation.TransGen g.Uses s x := fun s hs =>
      (hpath s hs).imp_right fun ht => ht x List.mem_cons_self
    have hb : g.Settled (below.postorder.reverse ++ done) := by
      refine ihb hd (List.forall_mem_cons.2 ⟨.inr fun t ht => .single ht, fun s hs => ?_⟩)
      exact (hx s hs).imp_right fun hreach t ht => hreach.tail ht
    have hxb : g.Settled (x :: (below.postorder.reverse ++ done)) := by
      refine .cons hb fun y hy => ?_
      rcases hbelow.covers y hy with hseen | hmem
      · rcases List.mem_cons.1 hseen with rfl | hseen
        · exact absurd (Relation.TransGen.single hy) (hc y)
        · rcases hx y hseen with hdone | hreach
          · exact List.mem_append_right _ hdone
          · exact absurd (hreach.tail hy) (hc y)
      · exact List.mem_append_left _ (List.mem_reverse.2 (below.postorder_perm.mem_iff.2 hmem))
    have ha := iha hxb fun s hs => ?_
    · simpa [Forest.postorder] using ha
    · rcases List.mem_append.1 hs with hs | hs
      · have hmem := below.postorder_perm.mem_iff.2 (List.mem_reverse.1 hs)
        exact .inl (List.mem_cons_of_mem x (List.mem_append_left _ (List.mem_reverse.2 hmem)))
      · rcases List.mem_cons.1 hs with rfl | hs
        · exact .inl List.mem_cons_self
        · refine (hpath s hs).imp (fun hdone => ?_) fun ht t hmem => ht t (List.mem_cons_of_mem x hmem)
          exact List.mem_cons_of_mem x (List.mem_append_right _ hdone)

/-- A way down from some nodes: first a position among them, and then positions among operands. It leads
through different nodes, and through none that is to be avoided. -/
inductive Way (g : Graph) : Set NodeId → List NodeId → List Nat → NodeId → Prop
  | here {avoid : Set NodeId} {start : List NodeId} {pos : Nat} {x : NodeId}
      (hpos : start[pos]? = some x) (hx : x ∉ avoid) : Way g avoid start [pos] x
  | down {avoid : Set NodeId} {start : List NodeId} {pos : Nat} {y x : NodeId} {way : List Nat}
      (hpos : start[pos]? = some y) (hy : y ∉ avoid)
      (h : Way g (insert y avoid) (g.inputsOf y) way x) : Way g avoid start (pos :: way) x

/-- The first of all ways to a node, in the order of a dictionary. -/
structure FirstWay (g : Graph) (avoid : Set NodeId) (start : List NodeId) (way : List Nat)
    (x : NodeId) : Prop where
  leads : g.Way avoid start way x
  first : ∀ other, g.Way avoid start other x → way ≤ other

variable {avoid avoid' found : Set NodeId} {start rest : List NodeId} {way : List Nat}

namespace Way

theorem not_avoided (h : g.Way avoid start way x) : x ∉ avoid := by
  induction h with
  | here _ hx => exact hx
  | down _ _ _ ih => exact fun hx => ih (Set.mem_insert_of_mem _ hx)

theorem mono (h : g.Way avoid' start way x) (hsub : avoid ⊆ avoid') : g.Way avoid start way x := by
  induction h generalizing avoid with
  | here hpos hx => exact .here hpos fun h => hx (hsub h)
  | down hpos hy _ ih => exact .down hpos (fun h => hy (hsub h)) (ih (Set.insert_subset_insert hsub))

theorem mem_of_closed (h : g.Way avoid start way x) (hstart : ∀ y ∈ start, y ∈ avoid ∨ y ∈ found)
    (hfound : ∀ y ∈ found, ∀ z ∈ g.inputsOf y, z ∈ avoid ∨ z ∈ found) : x ∈ found := by
  induction h with
  | here hpos hx => exact (hstart _ (List.mem_of_getElem? hpos)).resolve_left hx
  | down hpos hy _ ih =>
    have hmem := (hstart _ (List.mem_of_getElem? hpos)).resolve_left hy
    refine ih (fun z hz => ?_) fun w hw z hz => ?_
    · exact (hfound _ hmem z hz).imp_left (Set.mem_insert_of_mem _)
    · exact (hfound w hw z hz).imp_left (Set.mem_insert_of_mem _)

theorem avoids_closed (h : g.Way avoid start way x)
    (hfound : ∀ y ∈ found, ∀ z ∈ g.inputsOf y, z ∈ avoid ∨ z ∈ found) (hx : x ∉ found) :
    g.Way (found ∪ avoid) start way x := by
  induction h with
  | here hpos hnew => exact .here hpos fun h => h.elim hx hnew
  | @down avoid start pos y x way hpos hy h ih =>
    have hweak : ∀ w ∈ found, ∀ z ∈ g.inputsOf w, z ∈ insert y avoid ∨ z ∈ found :=
      fun w hw z hz => (hfound w hw z hz).imp_left (Set.mem_insert_of_mem _)
    have hout : y ∉ found := fun hmem =>
      hx (h.mem_of_closed (fun z hz => hweak y hmem z hz) hweak)
    have hrest := ih hweak hx
    rw [Set.union_insert] at hrest
    exact .down hpos (fun h => h.elim hout hy) hrest

end Way

def stepAside : List Nat → List Nat
  | [] => []
  | pos :: way => (pos + 1) :: way

theorem stepAside_lt {a b : List Nat} (h : a < b) : stepAside a < stepAside b := by
  cases a with
  | nil =>
    cases b with
    | nil => exact h
    | cons q b => exact List.nil_lt_cons ..
  | cons p a =>
    cases b with
    | nil => cases h
    | cons q b =>
      rcases List.cons_lt_cons_iff.1 h with hlt | ⟨rfl, hlt⟩
      · exact List.cons_lt_cons_iff.2 (.inl (Nat.succ_lt_succ hlt))
      · exact List.cons_lt_cons_iff.2 (.inr ⟨rfl, hlt⟩)

theorem stepAside_le {a b : List Nat} (h : a ≤ b) : stepAside a ≤ stepAside b := by
  rcases h.lt_or_eq with h | rfl
  · exact (stepAside_lt h).le
  · exact le_rfl

theorem way_cons_iff : g.Way avoid (y :: rest) way x ↔
    (y ∉ avoid ∧ (way = [0] ∧ x = y ∨
      ∃ inner, way = 0 :: inner ∧ g.Way (insert y avoid) (g.inputsOf y) inner x)) ∨
    ∃ inner, way = stepAside inner ∧ g.Way avoid rest inner x := by
  constructor
  · intro h
    cases h with
    | @here _ _ pos _ hpos hx =>
      cases pos with
      | zero =>
        cases hpos
        exact .inl ⟨hx, .inl ⟨rfl, rfl⟩⟩
      | succ pos => exact .inr ⟨[pos], rfl, .here hpos hx⟩
    | @down _ _ pos z _ inner hpos hz h =>
      cases pos with
      | zero =>
        cases hpos
        exact .inl ⟨hz, .inr ⟨inner, rfl, h⟩⟩
      | succ pos => exact .inr ⟨pos :: inner, rfl, .down hpos hz h⟩
  · rintro (⟨hy, ⟨rfl, rfl⟩ | ⟨inner, rfl, h⟩⟩ | ⟨inner, rfl, h⟩)
    · exact .here rfl hy
    · exact .down rfl hy h
    · cases h with
      | here hpos hx => exact .here hpos hx
      | down hpos hz h => exact .down hpos hz h

theorem Way.nil_lt (h : g.Way avoid start way x) : [] < way := by
  cases h with
  | here => exact List.nil_lt_cons ..
  | down => exact List.nil_lt_cons ..

theorem Way.zero_lt_stepAside {inner : List Nat} (h : g.Way avoid start inner x) (way : List Nat) :
    0 :: way < stepAside inner := by
  cases h with
  | here => exact List.cons_lt_cons_iff.2 (.inl (Nat.succ_pos _))
  | down => exact List.cons_lt_cons_iff.2 (.inl (Nat.succ_pos _))

namespace FirstWay

theorem skip (h : g.FirstWay avoid rest way x) (hy : y ∈ avoid) :
    g.FirstWay avoid (y :: rest) (stepAside way) x := by
  refine ⟨way_cons_iff.2 (.inr ⟨way, rfl, h.leads⟩), fun other ho => ?_⟩
  rcases way_cons_iff.1 ho with ⟨hnot, -⟩ | ⟨inner, rfl, hinner⟩
  · exact absurd hy hnot
  · exact stepAside_le (h.first inner hinner)

theorem enter (rest : List NodeId) (hy : y ∉ avoid) : g.FirstWay avoid (y :: rest) [0] y := by
  refine ⟨way_cons_iff.2 (.inl ⟨hy, .inl ⟨rfl, rfl⟩⟩), fun other ho => ?_⟩
  rcases way_cons_iff.1 ho with ⟨-, ⟨rfl, -⟩ | ⟨inner, rfl, hinner⟩⟩ | ⟨inner, rfl, hinner⟩
  · exact le_rfl
  · exact (List.cons_lt_cons_iff.2 (.inr ⟨rfl, hinner.nil_lt⟩)).le
  · exact (hinner.zero_lt_stepAside []).le

theorem below (h : g.FirstWay (insert y avoid) (g.inputsOf y) way x) (rest : List NodeId)
    (hy : y ∉ avoid) : g.FirstWay avoid (y :: rest) (0 :: way) x := by
  refine ⟨way_cons_iff.2 (.inl ⟨hy, .inr ⟨way, rfl, h.leads⟩⟩), fun other ho => ?_⟩
  rcases way_cons_iff.1 ho with ⟨-, ⟨rfl, rfl⟩ | ⟨inner, rfl, hinner⟩⟩ | ⟨inner, rfl, hinner⟩
  · exact absurd (Set.mem_insert x avoid) h.leads.not_avoided
  · rcases (h.first inner hinner).lt_or_eq with hlt | rfl
    · exact (List.cons_lt_cons_iff.2 (.inr ⟨rfl, hlt⟩)).le
    · exact le_rfl
  · exact (hinner.zero_lt_stepAside way).le

/-- The first way to a node after the one that is entered: all nodes below that one have been found, so
no way leads through them. -/
theorem after (h : g.FirstWay (found ∪ avoid) rest way x) (hy : y ∈ found)
    (hfound : ∀ z ∈ found, ∀ w ∈ g.inputsOf z, w ∈ avoid ∨ w ∈ found) :
    g.FirstWay avoid (y :: rest) (stepAside way) x := by
  have hx : x ∉ found := fun hx => h.leads.not_avoided (.inl hx)
  refine ⟨way_cons_iff.2 (.inr ⟨way, rfl, h.leads.mono Set.subset_union_right⟩), fun other ho => ?_⟩
  rcases way_cons_iff.1 ho with ⟨-, ⟨rfl, rfl⟩ | ⟨inner, rfl, hinner⟩⟩ | ⟨inner, rfl, hinner⟩
  · exact absurd hy hx
  · refine absurd (hinner.mem_of_closed (fun w hw => ?_) fun z hz w hw => ?_) hx
    · exact (hfound y hy w hw).imp_left (Set.mem_insert_of_mem _)
    · exact (hfound z hz w hw).imp_left (Set.mem_insert_of_mem _)
  · exact stepAside_le (h.first inner (hinner.avoids_closed hfound hx))

end FirstWay

theorem pairwise_ways {inner outer : List (List Nat)} (hinner : inner.Pairwise (· < ·))
    (houter : outer.Pairwise (· < ·)) (hdeep : ∀ way ∈ inner, [] < way)
    (hlater : ∀ way ∈ outer, ∀ first, 0 :: first < stepAside way) :
    ([0] :: (inner.map (0 :: ·) ++ outer.map stepAside)).Pairwise (· < ·) := by
  refine List.pairwise_cons.2 ⟨fun way hway => ?_, List.pairwise_append.2 ⟨?_, ?_, ?_⟩⟩
  · rcases List.mem_append.1 hway with hway | hway
    · obtain ⟨deep, hmem, rfl⟩ := List.mem_map.1 hway
      exact List.cons_lt_cons_iff.2 (.inr ⟨rfl, hdeep deep hmem⟩)
    · obtain ⟨late, hmem, rfl⟩ := List.mem_map.1 hway
      exact hlater late hmem []
  · exact List.pairwise_map.2 (hinner.imp fun h => List.cons_lt_cons_iff.2 (.inr ⟨rfl, h⟩))
  · exact List.pairwise_map.2 (houter.imp stepAside_lt)
  · intro a ha b hb
    obtain ⟨deep, -, rfl⟩ := List.mem_map.1 ha
    obtain ⟨late, hmem, rfl⟩ := List.mem_map.1 hb
    exact hlater late hmem deep

namespace DepthFirst

theorem closed_cons {below : Forest} (h : g.DepthFirst (x :: seen) (g.inputsOf x) below) :
    ∀ z ∈ x :: below.preorder, ∀ w ∈ g.inputsOf z, w ∈ seen ∨ w ∈ x :: below.preorder := by
  intro z hz w hw
  have hmem : w ∈ x :: seen ∨ w ∈ below.preorder := by
    rcases List.mem_cons.1 hz with rfl | hz
    · exact h.covers w hw
    · exact h.closed z hz w hw
  simp only [List.mem_cons] at hmem ⊢
  tauto

theorem exists_ways (h : g.DepthFirst seen todo f) :
    ∃ ways : List (List Nat), List.Forall₂ (fun x way => g.FirstWay {y | y ∈ seen} todo way x)
      f.preorder ways ∧ ways.Pairwise (· < ·) := by
  induction h with
  | nil => exact ⟨[], .nil, .nil⟩
  | skip hx _ ih =>
    obtain ⟨ways, hways, hsorted⟩ := ih
    refine ⟨ways.map stepAside, List.forall₂_map_right_iff.2 (hways.imp fun _ _ h => h.skip hx), ?_⟩
    exact List.pairwise_map.2 (hsorted.imp stepAside_lt)
  | @enter seen rest x below after hx hbelow hafter ihb iha =>
    obtain ⟨inner, hinner, hsorted⟩ := ihb
    obtain ⟨outer, houter, hsorted'⟩ := iha
    have hseen : {y | y ∈ x :: seen} = insert x {y | y ∈ seen} := by
      ext y
      simp
    -- All that has been found below the node is avoided by the ways to the nodes after it.
    have hfound : {y | y ∈ below.preorder.reverse ++ x :: seen} =
        {y | y ∈ x :: below.preorder} ∪ {y | y ∈ seen} := by
      ext y
      simp only [Set.mem_ofPred_eq, Set.mem_union, List.mem_append, List.mem_reverse, List.mem_cons]
      tauto
    rw [hseen] at hinner
    rw [hfound] at houter
    refine ⟨[0] :: (inner.map (0 :: ·) ++ outer.map stepAside), .cons (.enter rest hx) ?_,
      pairwise_ways hsorted hsorted' (fun way hway => ?_) fun way hway first => ?_⟩
    · refine List.rel_append ?_ ?_
      · exact List.forall₂_map_right_iff.2 (hinner.imp fun _ _ h => h.below rest hx)
      · exact List.forall₂_map_right_iff.2
          (houter.imp fun _ _ h => h.after List.mem_cons_self hbelow.closed_cons)
    · obtain ⟨z, -, hz⟩ := Outcome.exists_of_forall₂_right hinner hway
      exact hz.leads.nil_lt
    · obtain ⟨z, -, hz⟩ := Outcome.exists_of_forall₂_right houter hway
      exact hz.leads.zero_lt_stepAside first

end DepthFirst

end Graph
end LinearPlan
