import LinearPlan.Proofs.LeafOrder
import LinearPlan.Proofs.Lifecycle
import LinearPlan.Proofs.Postconditions

/-!
# The nodes of a product

Which nodes a product of sorted leaves is built of, as a function of the leaves and of how often they
occur. A leaf that occurs more than once becomes a literal and a power. The terms of a family are
multiplied in the order of the leaves, scalars and column vectors from the left and the others from the
right, one family after the other. The products of the families come last.

A layout is such a list of operations and operands for every place at which it may start. Building a
product adds exactly the layout of the product to a graph, or fails.
-/
namespace LinearPlan

/-- Nodes that are added from a place on, as operations and operands, and what they lead to. -/
def Layout (α : Type) := Nat → List (Op × List NodeId) × α

namespace Layout

instance : Monad Layout where
  pure a := fun _ => ([], a)
  bind l f := fun place =>
    let first := l place
    let second := f first.2 (place + first.1.length)
    (first.1 ++ second.1, second.2)

def node (op : Op) (inputs : List NodeId) : Layout NodeId := fun place => ([(op, inputs)], place)

end Layout

namespace Graph
variable {g g' g'' : Graph} {n : Node} {new new' : List (Op × List NodeId)}

def parts (g : Graph) : List (Op × List NodeId) := g.nodes.toList.map fun n => (n.op, n.inputs)

theorem length_parts (g : Graph) : g.parts.length = g.size := by
  simp [parts, Graph.size]

theorem getElem?_parts (g : Graph) (k : Nat) :
    g.parts[k]? = (g.core? k).map fun n => (n.op, n.inputs) := by
  simp [parts, core?, get?, Function.comp_def]

theorem Appends.parts_eq (h : g.Appends n g') : g'.parts = g.parts ++ [(n.op, n.inputs)] := by
  have hlength := length_parts g
  refine List.ext_getElem? fun k => ?_
  rw [getElem?_parts, h.core, List.getElem?_append, hlength]
  by_cases hk : k < g.size
  · rw [if_neg (by omega), if_pos hk, getElem?_parts]
  · rw [if_neg hk]
    by_cases he : k = g.size
    · rw [if_pos (by omega), he, Nat.sub_self]
      rfl
    · rw [if_neg (by omega), core?, get?_eq_none_of_size_le (by omega),
        List.getElem?_eq_none (by simp; omega)]
      rfl

structure Gains (g : Graph) (new : List (Op × List NodeId)) (g' : Graph) : Prop where
  parts : g'.parts = g.parts ++ new
  core : ∀ {y n}, g.core? y = some n → g'.core? y = some n

theorem Gains.refl (g : Graph) : g.Gains [] g := ⟨(List.append_nil _).symm, id⟩

theorem Gains.trans (h : g.Gains new g') (h' : g'.Gains new' g'') : g.Gains (new ++ new') g'' :=
  ⟨by rw [h'.parts, h.parts, List.append_assoc], fun hy => h'.core (h.core hy)⟩

theorem Gains.size (h : g.Gains new g') : g'.size = g.size + new.length := by
  rw [← length_parts, h.parts, List.length_append, length_parts]

theorem Gains.shape (h : g.Gains new g') {y : NodeId} (hn : g.get? y = some n) :
    ∃ m, g'.get? y = some m ∧ m.shape = n.shape := by
  obtain ⟨m, hm, he⟩ := get?_of_core? (h.core (core?_eq_some hn))
  exact ⟨m, hm, by simpa using congrArg Node.shape he⟩

end Graph

namespace Optimizer.Factoring
open LinearPlan.Graph
variable {α α' β β' : Type} {g g' : Graph} {e : Edit α} {f : α → Edit α'} {l : Layout β}
  {k : β → Layout β'} {R : α → β → Prop} {R' : α' → β' → Prop} {count : NodeId → Nat}

inductive Family
  | vectors
  | rows
  | matrices
  | others
deriving DecidableEq

/-- Scalars and column vectors, row vectors, other matrices, and the rest. -/
def Family.of (s : Shape) : Family :=
  if s.group ≤ 1 then .vectors else if s.group = 2 then .rows else if s.group = 3 then .matrices
  else .others

theorem family_gains {new : List (Op × List NodeId)} {y : NodeId} {f : Family} (hg : g.Gains new g')
    (h : ∃ n, g.get? y = some n ∧ Family.of n.shape = f) :
    ∃ n, g'.get? y = some n ∧ Family.of n.shape = f := by
  obtain ⟨n, hn, hf⟩ := h
  obtain ⟨m, hm, hshape⟩ := hg.shape hn
  exact ⟨m, hm, hshape ▸ hf⟩

def members (g : Graph) (leaves : List NodeId) (f : Family) : List NodeId :=
  leaves.filter fun y => Family.of (g.shapeOf y) = f

def termLayout (count : NodeId → Nat) (leaf : NodeId) : Layout NodeId :=
  if 1 < count leaf then do
    let exponent ← .node (.literal (.ofInt (count leaf))) []
    .node (.binary .pow) [leaf, exponent]
  else pure leaf

def timesLayout : Option NodeId → Option NodeId → Layout (Option NodeId)
  | none, rhs => pure rhs
  | lhs, none => pure lhs
  | some lhs, some rhs => do return some (← .node (.binary .mult) [lhs, rhs])

def insertLayout (f : Family) (product : Option NodeId) (term : NodeId) : Layout (Option NodeId) :=
  if f = .vectors then timesLayout (some term) product else timesLayout product (some term)

def familyLayout (count : NodeId → Nat) (f : Family) (product : Option NodeId)
    (leaves : List NodeId) : Layout (Option NodeId) :=
  leaves.foldlM (fun product leaf => do insertLayout f product (← termLayout count leaf)) product

theorem familyLayout_cons (count : NodeId → Nat) (f : Family) (product : Option NodeId)
    (leaf : NodeId) (rest : List NodeId) :
    familyLayout count f product (leaf :: rest) =
      (do insertLayout f product (← termLayout count leaf)) >>= (familyLayout count f · rest) := rfl

def productLayout (count : NodeId → Nat) (leaves : Family → List NodeId) :
    Layout (Option NodeId) := do
  let vectors ← familyLayout count .vectors none (leaves .vectors)
  let rows ← familyLayout count .rows none (leaves .rows)
  let matrices ← familyLayout count .matrices none (leaves .matrices)
  let others ← familyLayout count .others none (leaves .others)
  let p ← timesLayout others matrices
  let p ← timesLayout p rows
  timesLayout p vectors

/-- A program adds the nodes of a layout, with a result that corresponds, unless it fails. -/
def Lays (e : Edit α) (g : Graph) (l : Layout β) (R : α → β → Prop) : Prop :=
  Ends e g (fun _ _ => True) fun a g' => R a (l g.size).2 ∧ g.Gains (l g.size).1 g'

theorem lays_pure {a : α} {b : β} (h : R a b) : Lays (pure a) g (pure b) R := ⟨h, .refl g⟩

theorem Lays.bind (h : Lays e g l R)
    (hf : ∀ a b g', R a b → g.Gains (l g.size).1 g' → Lays (f a) g' (k b) R') :
    Lays (e >>= f) g (l >>= k) R' := by
  refine Ends.bind h fun a g₁ ⟨hR, hg⟩ => ?_
  refine (hf a _ g₁ hR hg).mono fun a' g₂ ⟨hR', hg'⟩ => ?_
  rw [hg.size] at hR' hg'
  exact ⟨hR', hg.trans hg'⟩

theorem Lays.map {h : α → α'} (he : Lays e g l R) {R' : α' → β → Prop}
    (hR : ∀ a b, R a b → R' (h a) b) : Lays (do return h (← e)) g l R' :=
  Ends.bind he fun a _ ha => ⟨hR a _ ha.1, ha.2⟩

theorem addNode_lays {op : Op} (inputs : List NodeId) (ha : op.arity? = some inputs.length) :
    Lays (Edit.addNode op inputs) g (.node op inputs) Eq := by
  rcases Edit.addNode_fails_or_sized g ha with ⟨fault, g₁, hrun⟩ | ⟨hlive, s, hs⟩
  · exact (ends_error hrun).2 trivial
  · have happ := Edit.appends_extended g op inputs s
    exact (ends_ok (Edit.addNode_eq hlive ha hs)).2 ⟨rfl, happ.parts_eq, happ.core_of_some⟩

theorem pow_lays (leaf : NodeId) (exponent : Int) :
    Lays (Edit.pow leaf exponent) g (do
      let e ← .node (.literal (.ofInt exponent)) []
      .node (.binary .pow) [leaf, e]) Eq := by
  refine (addNode_lays [] rfl).bind fun x y g₁ hx _ => ?_
  subst hx
  exact addNode_lays [leaf, x] rfl

theorem times_lays (lhs rhs : Option NodeId) :
    Lays (times lhs rhs) g (timesLayout lhs rhs) Eq := by
  cases lhs with
  | none => exact lays_pure rfl
  | some x =>
    cases rhs with
    | none => exact lays_pure rfl
    | some y =>
      simp only [times, map_eq_pure_bind]
      refine (addNode_lays [x, y] rfl).bind fun z z' g₁ hz _ => ?_
      exact lays_pure (congrArg some hz)

def Groups.find (s : Groups) : Family → Option NodeId
  | .vectors => s.scalarsAndColVectors
  | .rows => s.rowVectors
  | .matrices => s.matrices
  | .others => s.others

def Groups.put (s : Groups) (f : Family) (product : Option NodeId) (more : Nat) : Groups :=
  match f with
  | .vectors => { s with scalarsAndColVectors := product, powers := s.powers + more }
  | .rows => { s with rowVectors := product, powers := s.powers + more }
  | .matrices => { s with matrices := product, powers := s.powers + more }
  | .others => { s with others := product, powers := s.powers + more }

theorem Groups.find_put (s : Groups) (f : Family) (product : Option NodeId) (more : Nat) :
    (s.put f product more).find f = product := by
  cases f <;> rfl

theorem Groups.put_put (s : Groups) (f : Family) (p p' : Option NodeId) (more more' : Nat) :
    (s.put f p more).put f p' more' = s.put f p' (more + more') := by
  cases f <;> simp [put, Nat.add_assoc]

theorem Groups.put_find (s : Groups) (f : Family) : s.put f (s.find f) 0 = s := by
  cases f <;> rfl

def TermClass.family : TermClass → Family
  | .scalar | .colVector => .vectors
  | .rowVector => .rows
  | .matrix => .matrices
  | .frame | .object | .unknown => .others

theorem family_classify (s : Shape) : (classify s).family = .of s := by
  rw [Family.of, group_eq]
  cases classify s <;> rfl

theorem insert_lays (groups : Groups) (more : Nat) (cls : TermClass) (x : NodeId) :
    Lays ({ groups with powers := groups.powers + more }.insert cls x) g
      (insertLayout cls.family (groups.find cls.family) x)
      fun r product => r = groups.put cls.family product more := by
  cases cls with
  | scalar | colVector =>
    exact (times_lays (some x) groups.scalarsAndColVectors).map fun _ _ h => h ▸ rfl
  | rowVector => exact (times_lays groups.rowVectors (some x)).map fun _ _ h => h ▸ rfl
  | matrix => exact (times_lays groups.matrices (some x)).map fun _ _ h => h ▸ rfl
  | frame | object | unknown =>
    exact (times_lays groups.others (some x)).map fun _ _ h => h ▸ rfl

theorem insert_leaf_lays (groups : Groups) (more : Nat) (x : NodeId) {leaf : NodeId} {s : Shape}
    (hs : ∃ n, g.get? leaf = some n ∧ n.shape = s) :
    Lays (do
      let n ← Edit.node leaf
      { groups with powers := groups.powers + more }.insert (classify n.shape) x) g
      (insertLayout (.of s) (groups.find (.of s)) x)
      fun r product => r = groups.put (.of s) product more := by
  obtain ⟨n, hn, rfl⟩ := hs
  unfold Lays
  rw [ends_bind_ok (Edit.node_run hn), ← family_classify]
  exact insert_lays groups more (classify n.shape) x

theorem addLeaf_lays (groups : Groups) {leaf : NodeId} {n : Node} (hn : g.get? leaf = some n) :
    Lays (groups.addLeaf count leaf) g
      (do insertLayout (.of n.shape) (groups.find (.of n.shape)) (← termLayout count leaf))
      fun r product => r = groups.put (.of n.shape) product (if 1 < count leaf then 1 else 0) := by
  unfold Groups.addLeaf termLayout
  by_cases hcount : 1 < count leaf
  · simp only [hcount, decide_true, if_true]
    refine (pow_lays leaf (count leaf)).bind fun x y g₁ hx hg => ?_
    subst hx
    exact insert_leaf_lays groups 1 x (hg.shape hn)
  · simp only [hcount, decide_false, Bool.false_eq_true, if_false]
    refine Lays.bind (R := Eq) (lays_pure rfl) fun x y g₁ hx hg => ?_
    subst hx
    exact insert_leaf_lays groups 0 x (hg.shape hn)

theorem addLeaves_lays {f : Family} {leaves : List NodeId} (groups : Groups)
    (h : ∀ y ∈ leaves, ∃ n, g.get? y = some n ∧ Family.of n.shape = f) :
    Lays (leaves.foldlM (Groups.addLeaf count) groups) g
      (familyLayout count f (groups.find f) leaves)
      fun r product => r = groups.put f product (leaves.countP fun y => 1 < count y) := by
  induction leaves generalizing groups g with
  | nil => exact lays_pure (groups.put_find f).symm
  | cons leaf rest ih =>
    obtain ⟨⟨n, hn, rfl⟩, hrest⟩ := List.forall_mem_cons.1 h
    rw [List.foldlM_cons, familyLayout_cons]
    refine (addLeaf_lays groups hn).bind fun groups₁ product g₁ hgroups hg => ?_
    subst hgroups
    have hlays := ih (groups.put (.of n.shape) product (if 1 < count leaf then 1 else 0))
      fun y hy => family_gains hg (hrest y hy)
    rw [Groups.find_put] at hlays
    refine hlays.mono fun r g₂ hr => ⟨hr.1.trans ?_, hr.2⟩
    simp only [Groups.put_put, List.countP_cons, decide_eq_true_eq, Nat.add_comm]

theorem product_lays (groups : Groups) :
    Lays groups.product g (do
      let p ← timesLayout groups.others groups.matrices
      let p ← timesLayout p groups.rowVectors
      timesLayout p groups.scalarsAndColVectors) Eq := by
  unfold Groups.product
  refine (times_lays _ _).bind fun p p' g₁ hp _ => ?_
  subst hp
  refine (times_lays _ _).bind fun q q' g₂ hq _ => ?_
  subst hq
  exact times_lays _ _

def Family.rank : Family → Nat
  | .vectors => 0
  | .rows => 1
  | .matrices => 2
  | .others => 3

theorem Family.rank_of_le {s t : Shape} (h : s.group ≤ t.group) :
    (Family.of s).rank ≤ (Family.of t).rank := by
  unfold Family.of
  split_ifs <;> first | decide | omega

theorem members_append {leaves : List NodeId} (h : leaves.Pairwise (Before g)) :
    members g leaves .vectors ++ members g leaves .rows ++ members g leaves .matrices ++
      members g leaves .others = leaves := by
  induction leaves with
  | nil => rfl
  | cons leaf rest ih =>
    obtain ⟨hfirst, hrest⟩ := List.pairwise_cons.1 h
    have hsplit := ih hrest
    have hcons : ∀ f, members g (leaf :: rest) f =
        if Family.of (g.shapeOf leaf) = f then leaf :: members g rest f else members g rest f := by
      simp [members, List.filter_cons]
    -- No leaf of an earlier family follows.
    have hempty : ∀ f, f.rank < (Family.of (g.shapeOf leaf)).rank → members g rest f = [] := by
      intro f hlt
      refine List.filter_eq_nil_iff.2 fun y hy hmem => ?_
      have hle := Family.rank_of_le (hfirst y hy).group
      rw [of_decide_eq_true hmem] at hle
      omega
    cases hf : Family.of (g.shapeOf leaf) with
    | vectors => simpa [hcons, hf] using hsplit
    | rows =>
      have hvectors := hempty .vectors (hf ▸ by decide)
      simpa [hcons, hf, hvectors] using hsplit
    | matrices =>
      have hvectors := hempty .vectors (hf ▸ by decide)
      have hrows := hempty .rows (hf ▸ by decide)
      simpa [hcons, hf, hvectors, hrows] using hsplit
    | others =>
      have hvectors := hempty .vectors (hf ▸ by decide)
      have hrows := hempty .rows (hf ▸ by decide)
      have hmatrices := hempty .matrices (hf ▸ by decide)
      simpa [hcons, hf, hvectors, hrows, hmatrices] using hsplit

/-- The nodes added for a product are those of its layout, from the end of the graph on. -/
structure LaidOut (g : Graph) (leaves : List NodeId) (count : NodeId → Nat) (p : Product)
    (g' : Graph) : Prop where
  parts : g'.parts = g.parts ++ (productLayout count (members g leaves) g.size).1
  root : p.root = (productLayout count (members g leaves) g.size).2
  created : p.created = g'.ids.drop g.size
  powers : p.powers = leaves.countP fun y => 1 < count y

theorem families_lay (count : NodeId → Nat) (leaves : Family → List NodeId)
    (h : ∀ f, ∀ y ∈ leaves f, ∃ n, g.get? y = some n ∧ Family.of n.shape = f) :
    Lays (do
      let groups ← (leaves .vectors ++ leaves .rows ++ leaves .matrices ++ leaves .others).foldlM
        (Groups.addLeaf count) .empty
      return (← groups.product, groups.powers)) g (productLayout count leaves) fun r root =>
        r = (root, (leaves .vectors ++ leaves .rows ++ leaves .matrices ++ leaves .others).countP
          fun y => 1 < count y) := by
  simp only [List.foldlM_append, bind_assoc]
  refine (addLeaves_lays .empty (h .vectors)).bind fun s₁ v g₁ hs₁ hg₁ => ?_
  subst hs₁
  have h₁ := fun f y hy => family_gains hg₁ (h f y hy)
  refine (addLeaves_lays _ (h₁ .rows)).bind fun s₂ r g₂ hs₂ hg₂ => ?_
  subst hs₂
  have h₂ := fun f y hy => family_gains hg₂ (h₁ f y hy)
  refine (addLeaves_lays _ (h₂ .matrices)).bind fun s₃ m g₃ hs₃ hg₃ => ?_
  subst hs₃
  have h₃ := fun f y hy => family_gains hg₃ (h₂ f y hy)
  refine (addLeaves_lays _ (h₃ .others)).bind fun s₄ o g₄ hs₄ hg₄ => ?_
  subst hs₄
  refine (product_lays _).map fun p root hp => Prod.ext hp ?_
  simp [Groups.put, Groups.empty, List.countP_append, Nat.add_assoc]

theorem buildProduct_laidOut {leaves : List NodeId} (h : leaves.Pairwise (Before g))
    (hleaves : ∀ y ∈ leaves, ∃ n, g.get? y = some n) :
    Ends (buildProduct leaves count) g (fun _ _ => True) (LaidOut g leaves count) := by
  have hmembers : ∀ f, ∀ y ∈ members g leaves f, ∃ n, g.get? y = some n ∧ Family.of n.shape = f := by
    intro f y hy
    obtain ⟨hmem, hf⟩ := List.mem_filter.1 hy
    obtain ⟨n, hn⟩ := hleaves y hmem
    exact ⟨n, hn, shapeOf_eq hn ▸ of_decide_eq_true hf⟩
  have hbody := families_lay count (members g leaves) hmembers
  rw [members_append h] at hbody
  unfold buildProduct
  rw [ends_bind_ok Edit.get_apply]
  refine (Edit.ends_undoing hbody fun _ _ _ => ends_any).bind fun r g' hr => ?_
  obtain ⟨rfl, hg⟩ := hr
  exact ⟨hg.parts, rfl, rfl, rfl⟩

end Optimizer.Factoring
end LinearPlan
