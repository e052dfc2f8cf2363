import LinearPlan.Graph.Listing
import LinearPlan.Proofs.DepthFirst

/-!
# Reachable nodes and their listing

`Graph.reachable` lists the nodes of a depth-first search, each one after those below it, and its
recursion is as deep as it must be: a level for every node that is entered, and one to turn around. A
listing has one entry for each of these nodes. Without cycles everything an entry refers to has been
defined by an entry above it.
-/
namespace LinearPlan

namespace Graph

variable {g : Graph} {seen todo roots done : List NodeId} {f : Forest} {x y : NodeId}

theorem reachFrom_of_seen {r : Reach} (hx : x ∈ r.seen) (fuel : Nat) :
    g.reachFrom fuel r x = .ok r := by
  cases fuel with
  | zero => rfl
  | succ fuel => rw [reachFrom, if_pos hx]

theorem reachFrom_of_unseen {r r' : Reach} {n : Node} {fuel : Nat} (hx : x ∉ r.seen)
    (hn : g.get? x = some n)
    (h : (g.inputsOf x).foldlM (g.reachFrom fuel) ⟨x :: r.seen, r.finished⟩ = .ok r') :
    g.reachFrom (fuel + 1) r x = .ok ⟨r'.seen, x :: r'.finished⟩ := by
  rw [inputsOf_eq hn] at h
  rw [reachFrom, if_neg hx, node_ok hn]
  exact Outcome.bind_eq_ok_iff.2 ⟨n, rfl, Outcome.bind_eq_ok_iff.2 ⟨r', h, rfl⟩⟩

/-- The search sees the nodes of the forest as they are entered, and finishes each one after those
below it. -/
theorem DepthFirst.foldlM_reachFrom (h : g.DepthFirst seen todo f)
    (hn : ∀ x ∈ f.preorder, ∃ n, g.get? x = some n) {fuel : Nat} (hfuel : f.preorder.length < fuel)
    (finished : List NodeId) :
    todo.foldlM (g.reachFrom fuel) ⟨seen, finished⟩ =
      .ok ⟨f.preorder.reverse ++ seen, f.postorder.reverse ++ finished⟩ := by
  induction h generalizing fuel finished with
  | nil => rfl
  | skip hx _ ih =>
    rw [List.foldlM_cons, reachFrom_of_seen hx]
    exact ih hn hfuel finished
  | @enter seen rest x below after hx _ _ ihb iha =>
    simp only [Forest.preorder, List.forall_mem_cons, List.forall_mem_append, List.length_cons,
      List.length_append] at hn hfuel
    obtain ⟨⟨n, hget⟩, hnb, hna⟩ := hn
    obtain ⟨fuel, rfl⟩ := Nat.exists_eq_succ_of_ne_zero (Nat.ne_zero_of_lt hfuel)
    have hdown := ihb hnb (show below.preorder.length < fuel by omega) finished
    rw [List.foldlM_cons, reachFrom_of_unseen hx hget hdown]
    refine (iha hna (show after.preorder.length < fuel + 1 by omega) _).trans ?_
    simp [Forest.preorder, Forest.postorder]

theorem DepthFirst.reachable_eq (h : g.DepthFirst [] roots f) (hg : g.OperandsExist)
    (hr : ∀ x ∈ roots, ∃ n, g.get? x = some n) : g.reachable roots = .ok f.postorder := by
  have hsearch := h.foldlM_reachFrom (h.exists_node hg hr) (Nat.lt_succ_of_le (h.length_le hg hr)) []
  refine Outcome.bind_eq_ok_iff.2 ⟨_, hsearch, ?_⟩
  simp [pure, Except.pure]

theorem Settled.operands_after {after : List NodeId} (h : g.Settled (after ++ x :: done)) :
    ∀ y ∈ g.inputsOf x, y ∈ done := by
  induction after with
  | nil =>
    cases h with
    | cons _ hx => exact hx
  | cons z after ih =>
    cases h with
    | cons h _ => exact ih h

theorem DepthFirst.operands_before (h : g.DepthFirst [] roots f) (hc : g.CycleFree)
    {before after : List NodeId} (hf : f.postorder = before ++ x :: after) :
    ∀ y ∈ g.inputsOf x, y ∈ before := by
  have hs := h.settled hc .nil fun s hs => absurd hs List.not_mem_nil
  rw [hf, List.append_nil, List.reverse_append, List.reverse_cons, List.append_assoc] at hs
  exact fun y hy => List.mem_reverse.1 (hs.operands_after y hy)

end Graph

/-- An entry of a listing: the node it defines, and the nodes it refers to. -/
structure Entry where
  defines : NodeId
  op : String
  refers : List NodeId
  shape : String
deriving DecidableEq, Repr

def Entry.text (e : Entry) : String :=
  s!"#{e.defines} = {e.op}" ++ String.join (e.refers.map fun y => s!" #{y}") ++ s!" : {e.shape}\n"

namespace Graph

variable {g : Graph} {roots ids : List NodeId} {x : NodeId} {e : Entry}

def entryOf? (g : Graph) (x : NodeId) : Option Entry :=
  (g.get? x).map fun n => ⟨x, n.op.text, n.inputs, n.shape.text⟩

theorem entryOf?_of_get? {n : Node} (hn : g.get? x = some n) :
    g.entryOf? x = some ⟨x, n.op.text, n.inputs, n.shape.text⟩ := by
  rw [entryOf?, hn]
  rfl

theorem defines_of_entryOf? (h : g.entryOf? x = some e) : e.defines = x := by
  obtain ⟨n, -, rfl⟩ := Option.map_eq_some_iff.1 h
  rfl

theorem refers_of_entryOf? (h : g.entryOf? x = some e) : e.refers = g.inputsOf x := by
  obtain ⟨n, hn, rfl⟩ := Option.map_eq_some_iff.1 h
  exact (inputsOf_eq hn).symm

theorem listing_eq (h : g.reachable roots = .ok ids) :
    g.listing roots = .ok (String.join ((ids.filterMap g.entryOf?).map Entry.text)) := by
  have hlines : (ids.filterMap fun id => (g.get? id).map fun n => (id, n)).map
      (fun e => e.2.line e.1) = (ids.filterMap g.entryOf?).map Entry.text := by
    rw [List.map_filterMap, List.map_filterMap]
    congr 1
    funext id
    cases hid : g.get? id with
    | none => simp [entryOf?, hid]
    | some n => simp [entryOf?_of_get? hid, Entry.text, Node.line]
  rw [← hlines, listing, reachableNodes, h]
  rfl

theorem map_defines (h : ∀ x ∈ ids, ∃ n, g.get? x = some n) :
    (ids.filterMap g.entryOf?).map Entry.defines = ids := by
  induction ids with
  | nil => rfl
  | cons x ids ih =>
    obtain ⟨⟨n, hn⟩, hrest⟩ := List.forall_mem_cons.1 h
    rw [List.filterMap_cons_some (entryOf?_of_get? hn), List.map_cons, ih hrest]

/-- What is reachable is listed once, as a depth-first search finishes it, with one entry of the listing
for each node; and without cycles each node comes after its operands, and each entry after those that
define what it refers to. -/
theorem reachable_postorder (g : Graph) (hg : g.OperandsExist) (roots : List NodeId)
    (hroots : ∀ r ∈ roots, (0 : Int) ≤ r ∧ r < (g.size : Int)) :
    ∃ (f : Forest) (entries : List Entry), g.DepthFirst [] roots f ∧
      g.reachable roots = .ok f.postorder ∧ f.postorder.Nodup ∧
      (∀ x, x ∈ f.postorder ↔ ∃ r ∈ roots, Relation.ReflTransGen g.Uses r x) ∧
      g.listing roots = .ok (String.join (entries.map Entry.text)) ∧
      entries.map Entry.defines = f.postorder ∧ (∀ e ∈ entries, g.entryOf? e.defines = some e) ∧
      (g.CycleFree →
        (∀ before x after, f.postorder = before ++ x :: after → ∀ y ∈ g.inputsOf x, y ∈ before) ∧
        ∀ before e after, entries = before ++ e :: after →
          ∀ y ∈ e.refers, ∃ earlier ∈ before, earlier.defines = y) := by
  have hr : ∀ r ∈ roots, ∃ n, g.get? r = some n := fun r h => get?_of_lt (hroots r h).1 (hroots r h).2
  obtain ⟨f, hf⟩ := hg.exists_depthFirst [] roots hr
  have hperm := f.postorder_perm
  have hnode : ∀ x ∈ f.postorder, ∃ n, g.get? x = some n := fun x hx =>
    hf.exists_node hg hr x (hperm.mem_iff.1 hx)
  have hreach := hf.reachable_eq hg hr
  have hdefines := map_defines hnode
  have hentry : ∀ e ∈ f.postorder.filterMap g.entryOf?, g.entryOf? e.defines = some e := fun e he => by
    obtain ⟨x, -, hx⟩ := List.mem_filterMap.1 he
    rwa [defines_of_entryOf? hx]
  refine ⟨f, f.postorder.filterMap g.entryOf?, hf, hreach, hperm.nodup_iff.2 hf.nodup,
    fun x => hperm.mem_iff.trans hf.mem_preorder_iff, listing_eq hreach, hdefines, hentry,
    fun hc => ⟨fun before x after h => hf.operands_before hc h, fun before e after h y hy => ?_⟩⟩
  have hsplit : f.postorder = before.map Entry.defines ++ e.defines :: after.map Entry.defines := by
    rw [← hdefines, h, List.map_append, List.map_cons]
  have he : g.entryOf? e.defines = some e := hentry e (by simp [h])
  rw [refers_of_entryOf? he] at hy
  exact List.mem_map.1 (hf.operands_before hc hsplit y hy)

def lateOperand : Graph :=
  (Graph.empty "g").afterCalls [.matrix "A" 2 2 (-1), .matrix "B" 2 2 (-1), .binary .plus 0 1,
    .mult 0 0, .replaceInput 2 1 3]

theorem reachable_postorder_lateOperand :
    lateOperand.OperandsExist ∧ lateOperand.CycleFree ∧
      lateOperand.reachable [2, 3, 2] = .ok [0, 3, 2] ∧
      (∀ x, x ∈ [0, 3, 2] ↔ ∃ r ∈ [2, 3, 2], Relation.ReflTransGen lateOperand.Uses r x) ∧
      ∃ entries : List Entry,
        lateOperand.listing [2, 3, 2] = .ok (String.join (entries.map Entry.text)) ∧
        entries.map Entry.defines = [0, 3, 2] ∧
        ∀ before e after, entries = before ++ e :: after →
          ∀ y ∈ e.refers, ∃ earlier ∈ before, earlier.defines = y := by
  have hoperands : lateOperand.OperandsExist := by decide +kernel
  have hacyclic : lateOperand.CycleFree := hoperands.cycleFree_of_check (by decide +kernel)
  have heval : lateOperand.reachable [2, 3, 2] = .ok [0, 3, 2] := by decide +kernel
  obtain ⟨f, entries, -, hreach, -, hmem, hlisting, hdefines, -, hfirst⟩ :=
    reachable_postorder lateOperand hoperands [2, 3, 2] (by decide +kernel)
  rw [← Except.ok.inj (hreach.symm.trans heval)]
  exact ⟨hoperands, hacyclic, hreach, hmem, entries, hlisting, hdefines, (hfirst hacyclic).2⟩

end Graph
end LinearPlan
