import LinearPlan.Proofs.Lifecycle
import LinearPlan.Proofs.Profiles
import Mathlib.Data.Finset.Card
import Mathlib.Logic.Relation

/-!
# Plans

What matters of a graph for sizes, values and the order of evaluation is, for every node in use, its
operation, its operands and its profile. This is the plan of the graph. Edits are described by what
they do to the plan: adding a node, replacing an operand, moving uses, retiring and resizing each
change it at known places, and all of them succeed on typed graphs under conditions on the plan.
-/
namespace LinearPlan

structure Item where
  op : Op
  inputs : List NodeId
  profile : Profile
deriving DecidableEq, Repr

def Item.subst (old new : NodeId) (i : Item) : Item :=
  { i with inputs := i.inputs.map fun y => if y = old then new else y }

namespace Item
variable {i : Item} {old new : NodeId}

@[simp] theorem subst_op (i : Item) : (i.subst old new).op = i.op := rfl

@[simp] theorem subst_profile (i : Item) : (i.subst old new).profile = i.profile := rfl

theorem subst_of_not_mem (h : old ∉ i.inputs) : i.subst old new = i := by
  have hmap : i.inputs.map (fun y => if y = old then new else y) = i.inputs := by
    refine (List.map_congr_left fun y hy => ?_).trans (List.map_id _)
    exact if_neg fun he : y = old => h (he ▸ hy)
  rw [subst, hmap]

theorem mem_subst {y : Int} :
    y ∈ (i.subst old new).inputs ↔ (y ∈ i.inputs ∧ y ≠ old) ∨ (y = new ∧ old ∈ i.inputs) := by
  simp only [subst, List.mem_map]
  constructor
  · rintro ⟨z, hz, rfl⟩
    by_cases he : z = old
    · exact .inr ⟨if_pos he, he ▸ hz⟩
    · rw [if_neg he]
      exact .inl ⟨hz, he⟩
  · rintro (⟨hy, hne⟩ | ⟨rfl, ho⟩)
    · exact ⟨y, hy, if_neg hne⟩
    · exact ⟨old, ho, if_pos rfl⟩

end Item

def Node.item (n : Node) : Item := ⟨n.op, n.inputs, n.shape.profile⟩

abbrev Plan := NodeId → Option Item

namespace Plan
variable {P P' : Plan} {x : NodeId} {i : Item}

def wires (P : Plan) (x : NodeId) : Option (Op × List NodeId) := (P x).map fun i => (i.op, i.inputs)

theorem exists_of_wires (h : P.wires = P'.wires) (hx : P x = some i) :
    ∃ j, P' x = some j ∧ j.op = i.op ∧ j.inputs = i.inputs := by
  have hw := congrFun h x
  rw [wires, wires, hx] at hw
  obtain ⟨j, hj, he⟩ := Option.map_eq_some_iff.1 hw.symm
  exact ⟨j, hj, congrArg Prod.fst he, congrArg Prod.snd he⟩

end Plan

def Dim.Fits (a b : Dim) : Prop := a = .any ∨ b = .any ∨ a = b

instance (a b : Dim) : Decidable (a.Fits b) := inferInstanceAs (Decidable (_ ∨ _))

instance (p : Profile) : Decidable p.Proper := by
  unfold Profile.Proper
  split <;> infer_instance

/-- The profile of an operation with given operands, if these fit. A variable keeps its own. -/
def Profile.sizeFrom (own : Profile) : Op → List Item → Option Profile
  | .data _, _ => some own
  | .literal _, _ => some .scalar
  | .write _, x :: _ => some x.profile
  | .unary _, _ => some .scalar
  | .binary _, [lhs, rhs] =>
    if (lhs.profile ⊔ rhs.profile).Proper then some (lhs.profile ⊔ rhs.profile) else none
  | .matMul, [lhs, rhs] => match lhs.profile, rhs.profile with
    | .matrix r inner, .matrix inner' c => if inner.Fits inner' then some (.matrix r c) else none
    | _, _ => none
  | .transpose, [x] => some x.profile.swap
  | .indexing flags, [_, rl, ru, cl, cu] =>
    some (.matrix (.ofInt (Shape.extent flags.row rl.op.literalInt? ru.op.literalInt?))
      (.ofInt (Shape.extent flags.col cl.op.literalInt? cu.op.literalInt?)))
  | .leftIndexing _, x :: _ => some (.matrix x.profile.rows x.profile.cols)
  | .chain _ _, x :: _ => some (.matrix x.profile.cols .one)
  | _, _ => none

theorem Profile.sizeFrom_own {op : Op} (h : op ≠ .data op.name) (own own' : Profile)
    (l : List Item) : own.sizeFrom op l = own'.sizeFrom op l := by
  cases op with
  | data name => exact absurd rfl h
  | _ => rcases l with _ | ⟨a, _ | ⟨b, _ | ⟨c, _ | ⟨d, _ | ⟨e, _ | ⟨f, rest⟩⟩⟩⟩⟩⟩ <;> rfl

namespace Dim

theorem ofInt_eq_any {d : Int} : ofInt d = .any ↔ d < 0 := by
  unfold ofInt
  split
  · simp_all
  · split <;> simp_all

theorem ofInt_eq_one {d : Int} : ofInt d = .one ↔ d = 1 := by
  unfold ofInt
  split
  · simp only [reduceCtorEq, false_iff]
    omega
  · split <;> simp_all

theorem ofInt_inj {d e : Int} (hd : 0 ≤ d) (he : 0 ≤ e) : ofInt d = ofInt e ↔ d = e := by
  refine ⟨fun h => ?_, fun h => h ▸ rfl⟩
  have hone : ofInt 1 = .one := rfl
  by_cases hd1 : d = 1
  · by_cases he1 : e = 1
    · rw [hd1, he1]
    · rw [hd1, hone, ofInt_of_nonneg he he1] at h
      cases h
  · by_cases he1 : e = 1
    · rw [he1, hone, ofInt_of_nonneg hd hd1] at h
      cases h
    · rw [ofInt_of_nonneg hd hd1, ofInt_of_nonneg he he1] at h
      have hn := known.inj h
      omega

theorem fits_ofInt {d e : Int} : (ofInt d).Fits (ofInt e) ↔ ¬ (0 ≤ d ∧ 0 ≤ e ∧ d ≠ e) := by
  unfold Fits
  rw [ofInt_eq_any, ofInt_eq_any]
  by_cases hd : 0 ≤ d
  · by_cases he : 0 ≤ e
    · rw [ofInt_inj hd he]
      omega
    · omega
  · omega

end Dim

namespace Shape

theorem profile_swap {s : Shape} (h : s.Legal) :
    ({ s with rows := s.cols, cols := s.rows } : Shape).profile = s.profile.swap ∧
      ({ s with rows := s.cols, cols := s.rows } : Shape).Legal := by
  obtain ⟨dataType, valueType, rows, cols, nnz⟩ := s
  cases dataType with
  | scalar => exact ⟨rfl, h.2, h.1⟩
  | matrix => exact ⟨rfl, trivial⟩
  | _ => exact ⟨rfl, h.2.1, h.1, h.2.2⟩

theorem ofMatMul_cases (node : NodeRef) (lhs rhs : Shape) :
    (∃ s, ofMatMul node lhs rhs = .ok s ∧ s.Legal ∧
      ∃ r i i' c, lhs.profile = .matrix r i ∧ rhs.profile = .matrix i' c ∧ i.Fits i' ∧
        s.profile = .matrix r c) ∨
    (∃ fault, ofMatMul node lhs rhs = .error fault) ∧
      ∀ r i i' c, lhs.profile = .matrix r i → rhs.profile = .matrix i' c → ¬ i.Fits i' := by
  unfold ofMatMul
  cases hl : lhs.isMatrix with
  | false =>
    refine .inr ⟨⟨_, rfl⟩, fun r i _ _ hp _ => ?_⟩
    rw [isMatrix_iff.2 ⟨r, i, hp⟩] at hl
    cases hl
  | true =>
    cases hr : rhs.isMatrix with
    | false =>
      refine .inr ⟨⟨_, rfl⟩, fun _ _ i' c _ hp => ?_⟩
      rw [isMatrix_iff.2 ⟨i', c, hp⟩] at hr
      cases hr
    | true =>
      rw [profile_of_isMatrix hl, profile_of_isMatrix hr]
      simp only [Bool.not_true, Bool.or_self, Bool.false_eq_true, if_false]
      by_cases hd : 0 ≤ lhs.cols ∧ 0 ≤ rhs.rows ∧ lhs.cols ≠ rhs.rows
      · rw [if_pos hd]
        refine .inr ⟨⟨_, rfl⟩, fun r i i' c h h' hf => ?_⟩
        cases h
        cases h'
        exact Dim.fits_ofInt.1 hf hd
      · rw [if_neg hd]
        exact .inl ⟨_, rfl, trivial, _, _, _, _, rfl, rfl, Dim.fits_ofInt.2 hd, rfl⟩

theorem sizeFrom_cases (node : NodeRef) {own : Shape} {op : Op} {ms : List Node}
    (ha : op.arity? = some ms.length) (hown : op = .data op.name → own.Legal)
    (hms : ∀ m ∈ ms, m.shape.Legal) :
    (∃ s, sizeFrom node own op ms = .ok s ∧ s.Legal ∧
      Profile.sizeFrom own.profile op (ms.map Node.item) = some s.profile) ∨
    (∃ fault, sizeFrom node own op ms = .error fault) ∧
      Profile.sizeFrom own.profile op (ms.map Node.item) = none := by
  have hlen : ∀ {k}, op.arity? = some k → ms.length = k := fun hk => by
    rw [hk] at ha
    exact (Option.some.inj ha).symm
  have hfirst : 0 < ms.length → ∃ x rest, ms = x :: rest ∧ x.shape.Legal := fun hpos => by
    obtain ⟨x, rest, rfl⟩ := List.exists_cons_of_length_pos hpos
    exact ⟨x, rest, rfl, hms x List.mem_cons_self⟩
  cases op with
  | data name => exact .inl ⟨_, rfl, hown rfl, rfl⟩
  | literal value => exact .inl ⟨_, rfl, legal_ofScalar _, rfl⟩
  | unary op => exact .inl ⟨_, rfl, legal_ofScalar _, rfl⟩
  | unknown code => cases ha
  | write name =>
    obtain ⟨x, rest, rfl, hx⟩ := hfirst (by rw [hlen rfl]; decide)
    exact .inl ⟨_, rfl, hx, rfl⟩
  | binary op =>
    obtain ⟨lhs, rhs, rfl⟩ := List.length_eq_two.1 (hlen rfl)
    have hl := hms lhs List.mem_cons_self
    have hr := hms rhs (List.mem_cons_of_mem _ List.mem_cons_self)
    rcases ofBinary_cases node op own rhs.op.literalInt? hl.other hr.other with
      ⟨s, hs, hlegal, hp⟩ | ⟨hf, hp⟩
    · refine .inl ⟨s, hs, hlegal, ?_⟩
      show (if (lhs.shape.profile ⊔ rhs.shape.profile).Proper then _ else _) = _
      rw [if_pos (hp ▸ profile_proper s), hp]
      rfl
    · exact .inr ⟨hf, if_neg hp⟩
  | matMul =>
    obtain ⟨lhs, rhs, rfl⟩ := List.length_eq_two.1 (hlen rfl)
    rcases ofMatMul_cases node lhs.shape rhs.shape with
      ⟨s, hs, hlegal, r, i, i', c, hl, hr, hf, hp⟩ | ⟨⟨fault, hf⟩, hp⟩
    · refine .inl ⟨s, by rw [sizeFrom, hs]; rfl, hlegal, ?_⟩
      simp only [Profile.sizeFrom, List.map_cons, List.map_nil, Node.item, hl, hr, if_pos hf, hp]
    · refine .inr ⟨⟨_, by rw [sizeFrom, hf]; rfl⟩, ?_⟩
      simp only [Profile.sizeFrom, List.map_cons, List.map_nil, Node.item]
      split
      · rename_i hl hr
        exact if_neg (hp _ _ _ _ hl hr)
      · rfl
  | transpose =>
    obtain ⟨x, rfl⟩ := List.length_eq_one_iff.1 (hlen rfl)
    obtain ⟨hp, hlegal⟩ := profile_swap (hms x List.mem_cons_self)
    exact .inl ⟨_, rfl, hlegal, congrArg some hp.symm⟩
  | indexing flags =>
    obtain ⟨x, rl, ru, cl, cu, rfl⟩ := Graph.eq_of_length_five (hlen rfl)
    exact .inl ⟨_, rfl, trivial, rfl⟩
  | leftIndexing flags =>
    obtain ⟨x, rest, rfl, hx⟩ := hfirst (by rw [hlen rfl]; decide)
    refine .inl ⟨_, rfl, trivial, ?_⟩
    rw [profile_matrix, hx.rows_eq, hx.cols_eq]
    rfl
  | chain kind threads =>
    obtain ⟨x, rest, rfl, hx⟩ := hfirst (by
      rw [hlen rfl, Chain.Kind.numOperands]
      split <;> decide)
    refine .inl ⟨_, rfl, trivial, ?_⟩
    rw [profile_matrix, hx.cols_eq]
    rfl

end Shape

namespace Graph
variable {g g' : Graph}

def plan (g : Graph) : Plan := fun x =>
  (g.core? x).bind fun n => if n.retired then none else some n.item

theorem plan_eq_some {x : NodeId} {n : Node} (hn : g.get? x = some n) (hr : n.retired = false) :
    g.plan x = some n.item := by
  rw [plan, core?_eq_some hn]
  show (if n.retired then none else some n.item) = _
  rw [hr]
  rfl

theorem get?_of_plan {x : NodeId} {i : Item} (h : g.plan x = some i) :
    ∃ n, g.get? x = some n ∧ n.retired = false ∧ n.item = i := by
  unfold plan at h
  obtain ⟨c, hc, hi⟩ := Option.bind_eq_some_iff.1 h
  obtain ⟨n, hn, rfl⟩ := get?_of_core? hc
  split at hi
  · cases hi
  · rename_i hr
    exact ⟨n, hn, Bool.eq_false_of_not_eq_true hr, Option.some.inj hi⟩

theorem plan_eq_none_of_retired {x : NodeId} {n : Node} (hn : g.get? x = some n)
    (hr : n.retired = true) : g.plan x = none := by
  rw [plan, core?_eq_some hn]
  exact if_pos hr

theorem range_of_plan {x : Int} {i : Item} (h : g.plan x = some i) :
    0 ≤ x ∧ x < (g.size : Int) := by
  obtain ⟨n, hn, -⟩ := get?_of_plan h
  exact range_of_get? hn

theorem plan_eq_none_of_size_le {x : Int} (h : (g.size : Int) ≤ x) : g.plan x = none := by
  cases hx : g.plan x with
  | none => rfl
  | some i => exact absurd (range_of_plan hx).2 (by omega)

theorem inputsOf_of_plan {x : NodeId} {i : Item} (h : g.plan x = some i) :
    g.inputsOf x = i.inputs := by
  obtain ⟨n, hn, -, rfl⟩ := get?_of_plan h
  exact inputsOf_eq hn

def opOf (g : Graph) (x : NodeId) : Option Op := (g.core? x).map Node.op

def KeepsOps (g g' : Graph) : Prop := ∀ x op, g.opOf x = some op → g'.opOf x = some op

theorem KeepsOps.trans {g'' : Graph} (h : g.KeepsOps g') (h' : g'.KeepsOps g'') :
    g.KeepsOps g'' :=
  fun x op hx => h' x op (h x op hx)

structure Typed (g : Graph) : Prop extends Linked g where
  legal : ∀ {x n}, g.core? x = some n → n.retired = false → n.shape.Legal

end Graph

namespace Plan
variable {P : Plan} {i : Item}

def operands (P : Plan) (i : Item) : List Item := i.inputs.filterMap P

def Closed (P : Plan) : Prop := ∀ {x i}, P x = some i → ∀ y ∈ i.inputs, ∃ j, P y = some j

def Sized (P : Plan) : Prop :=
  ∀ {x i}, P x = some i → i.profile.sizeFrom i.op (P.operands i) = some i.profile

def Extends (P' P : Plan) : Prop := ∀ ⦃x i⦄, P x = some i → P' x = some i

theorem operands_congr {P' : Plan} (h : ∀ y ∈ i.inputs, P' y = P y) :
    P'.operands i = P.operands i :=
  List.filterMap_congr h

theorem Extends.operands_eq {P' : Plan} (h : P'.Extends P)
    (hin : ∀ y ∈ i.inputs, ∃ j, P y = some j) : P'.operands i = P.operands i :=
  operands_congr fun y hy => by
    obtain ⟨j, hj⟩ := hin y hy
    rw [h hj, hj]

theorem Sized.of_extends {P' : Plan} (hs : P.Sized) (hc : P.Closed) (h : P'.Extends P)
    (hnew : ∀ x i, P' x = some i → P x = some i ∨
      i.profile.sizeFrom i.op (P'.operands i) = some i.profile) : P'.Sized := by
  intro x i hx
  rcases hnew x i hx with hold | hsize
  · rw [h.operands_eq (hc hold), hs hold]
  · exact hsize

def Has (P : Plan) (p : Int → Item → Prop) (x : Int) : Prop := ∃ i, P x = some i ∧ p x i

open Classical in
noncomputable def having (P : Plan) (n : Nat) (p : Int → Item → Prop) : Finset Int :=
  ((List.range n).map Int.ofNat).toFinset.filter (P.Has p)

noncomputable def tally (P : Plan) (n : Nat) (p : Int → Item → Prop) : Nat := (P.having n p).card

theorem mem_having {n : Nat} {p : Int → Item → Prop} {x : Int} :
    x ∈ P.having n p ↔ ((0 : Int) ≤ x ∧ x < (n : Int)) ∧ ∃ i, P x = some i ∧ p x i := by
  classical
  rw [having, Finset.mem_filter, List.mem_toFinset, List.mem_map]
  refine and_congr ⟨?_, fun h => ⟨x.toNat, List.mem_range.2 (by omega), Int.toNat_of_nonneg h.1⟩⟩
    Iff.rfl
  rintro ⟨k, hk, rfl⟩
  exact ⟨Int.natCast_nonneg k, Int.ofNat_lt.2 (List.mem_range.1 hk)⟩

theorem tally_le_size (P : Plan) (n : Nat) (p : Int → Item → Prop) : P.tally n p ≤ n := by
  classical
  refine (Finset.card_filter_le _ _).trans ((List.toFinset_card_le _).trans ?_)
  rw [List.length_map, List.length_range]

theorem tally_mono {P' : Plan} {n n' : Nat} {p p' : Int → Item → Prop}
    (h : P'.having n' p' ⊆ P.having n p) : P'.tally n' p' ≤ P.tally n p :=
  Finset.card_le_card h

theorem tally_le {P' : Plan} {n n' : Nat} {p p' : Int → Item → Prop} (hn : n ≤ n')
    (h : ∀ {x : Int} {i}, P x = some i → p x i → ∃ j, P' x = some j ∧ p' x j) :
    P.tally n p ≤ P'.tally n' p' := by
  refine tally_mono fun x hx => ?_
  rw [mem_having] at hx ⊢
  obtain ⟨⟨h0, hlt⟩, i, hi, hp⟩ := hx
  exact ⟨⟨h0, by omega⟩, h hi hp⟩

theorem length_le_tally {n : Nat} {p : Int → Item → Prop} {l : List Int} (hl : l.Nodup)
    (hmem : ∀ x ∈ l, x ∈ P.having n p) : l.length ≤ P.tally n p := by
  rw [← List.toFinset_card_of_nodup hl]
  exact Finset.card_le_card fun x hx => hmem x (List.mem_toFinset.1 hx)

theorem tally_add_le_add {P' : Plan} {n n' : Nat} {p p' : Int → Item → Prop} {l w : List Int}
    (hl : l.Nodup) (hmem : ∀ x ∈ l, x ∈ P.having n p)
    (h : ∀ x ∈ P'.having n' p', x ∈ w ∨ x ∉ l ∧ x ∈ P.having n p) :
    P'.tally n' p' + l.length ≤ P.tally n p + w.length := by
  have hsub : P'.having n' p' ⊆ w.toFinset ∪ (P.having n p \ l.toFinset) := by
    intro x hx
    rw [Finset.mem_union, Finset.mem_sdiff, List.mem_toFinset, List.mem_toFinset]
    exact (h x hx).imp_right And.symm
  have hlost : (P.having n p \ l.toFinset).card + l.length = (P.having n p).card := by
    rw [← List.toFinset_card_of_nodup hl]
    exact Finset.card_sdiff_add_card_eq_card fun x hx => hmem x (List.mem_toFinset.1 hx)
  have hcard := (Finset.card_le_card hsub).trans (Finset.card_union_le _ _)
  have hnew := w.toFinset_card_le
  unfold tally
  omega

theorem tally_add_le {P' : Plan} {n n' : Nat} {p p' : Int → Item → Prop} {l : List Int}
    (hl : l.Nodup) (hmem : ∀ x ∈ l, x ∈ P.having n p)
    (h : ∀ x ∈ P'.having n' p', x ∉ l ∧ x ∈ P.having n p) :
    P'.tally n' p' + l.length ≤ P.tally n p :=
  tally_add_le_add (w := []) hl hmem fun x hx => .inr (h x hx)

theorem tally_le_add {P' : Plan} {n n' k : Nat} {p p' : Int → Item → Prop} (hn : n' ≤ n + k)
    (h : ∀ x ∈ P'.having n' p', x < (n : Int) → x ∈ P.having n p) :
    P'.tally n' p' ≤ P.tally n p + k := by
  have hle : P'.tally n' p' + 0 ≤
      P.tally n p + ((List.range k).map fun j : Nat => (n : Int) + (j : Int)).length := by
    refine tally_add_le_add (l := []) List.nodup_nil nofun fun x hx => ?_
    by_cases hlt : x < (n : Int)
    · exact .inr ⟨List.not_mem_nil, h x hx hlt⟩
    · have hrange := (mem_having.1 hx).1.2
      exact .inl (List.mem_map.2 ⟨(x - n).toNat, List.mem_range.2 (by omega), by omega⟩)
  rwa [List.length_map, List.length_range] at hle

theorem mem_having_update {n : Nat} {p : Int → Item → Prop} {x : Int} :
    x ∈ having (Function.update P (n : Int) (some i)) (n + 1) p ↔
      (x = (n : Int) ∧ p (n : Int) i) ∨ x ∈ P.having n p := by
  rw [mem_having, mem_having]
  by_cases hx : x = (n : Int)
  · subst hx
    rw [Function.update_self]
    constructor
    · rintro ⟨-, j, hj, hp⟩
      cases hj
      exact .inl ⟨rfl, hp⟩
    · rintro (⟨-, hp⟩ | ⟨hlt, -⟩)
      · exact ⟨by omega, i, rfl, hp⟩
      · omega
  · rw [Function.update_of_ne hx]
    constructor
    · exact fun h => .inr ⟨by omega, h.2⟩
    · rintro (⟨rfl, -⟩ | h)
      · exact absurd rfl hx
      · exact ⟨by omega, h.2⟩

theorem tally_update {n : Nat} {p : Int → Item → Prop} (hi : p (n : Int) i) :
    tally (Function.update P (n : Int) (some i)) (n + 1) p = P.tally n p + 1 := by
  have hset : having (Function.update P (n : Int) (some i)) (n + 1) p =
      insert (n : Int) (P.having n p) := by
    ext x
    rw [mem_having_update, Finset.mem_insert, and_iff_left hi]
  rw [tally, hset, Finset.card_insert_of_notMem, tally]
  rw [mem_having]
  omega

theorem tally_update_of_not {n : Nat} {p : Int → Item → Prop} (hi : ¬ p (n : Int) i) :
    tally (Function.update P (n : Int) (some i)) (n + 1) p = P.tally n p := by
  refine congrArg Finset.card (Finset.ext fun x => ?_)
  rw [mem_having_update, or_iff_right fun h => hi h.2]

end Plan

namespace Graph
variable {g g' : Graph}

namespace Linked

theorem closed (h : g.Linked) : g.plan.Closed := by
  intro x i hx y hy
  rw [← inputsOf_of_plan hx] at hy
  obtain ⟨m, hm, hr⟩ := h.operand_live hy
  exact ⟨_, plan_eq_some hm hr⟩

theorem operand_lt (h : g.Linked) {x y : Int} {i : Item} (hx : g.plan x = some i)
    (hy : y ∈ i.inputs) : y < (g.size : Int) := by
  obtain ⟨j, hj⟩ := h.closed hx y hy
  exact (range_of_plan hj).2

theorem inputsOf_eq_plan (h : g.Linked) (x : NodeId) :
    g.inputsOf x = ((g.plan x).map Item.inputs).getD [] := by
  cases hx : g.plan x with
  | some i => exact inputsOf_of_plan hx
  | none =>
    by_contra hne
    obtain ⟨y, hy⟩ := List.exists_mem_of_ne_nil _ hne
    obtain ⟨n, hn, hr⟩ := h.user_live hy
    rw [plan_eq_some hn hr] at hx
    cases hx

theorem arity_of_plan (h : g.Linked) {x : NodeId} {i : Item} (hx : g.plan x = some i) :
    i.op.arity? = some i.inputs.length := by
  obtain ⟨n, hn, hr, rfl⟩ := get?_of_plan hx
  exact h.arity_eq hn hr

end Linked

section Operands
variable {x : NodeId} {n : Node}

theorem resolves_of_plan (hin : ∀ y ∈ n.inputs, ∃ i, g.plan y = some i) : g.Resolves n := by
  intro y hy
  obtain ⟨i, hi⟩ := hin y hy
  obtain ⟨m, hm, -⟩ := get?_of_plan hi
  exact ⟨_, core?_eq_some hm⟩

theorem map_item_operands (hin : ∀ y ∈ n.inputs, ∃ i, g.plan y = some i) :
    (g.operands n).map Node.item = g.plan.operands n.item := by
  unfold operands Plan.operands
  rw [List.map_filterMap]
  refine List.filterMap_congr fun y hy => ?_
  obtain ⟨i, hi⟩ := hin y hy
  obtain ⟨m, hm, hr, rfl⟩ := get?_of_plan hi
  rw [hi, core?_eq_some hm]
  rfl

theorem sizeNode_indexing {flags : SliceFlags} (hin : ∀ y ∈ n.inputs, ∃ i, g.plan y = some i)
    (ha : n.op.arity? = some n.inputs.length) (hop : n.op = .indexing flags) :
    ∃ s, g.sizeNode x n = .ok s ∧ s.Legal ∧
      n.item.profile.sizeFrom n.op (g.plan.operands n.item) = some s.profile := by
  have hres := resolves_of_plan hin
  rw [sizeNode_eq hres ha, ← map_item_operands hin, hop]
  have hlen : (g.operands n).length = 5 := by
    rw [hop] at ha
    exact hres.length_operands.trans (Option.some.inj ha).symm
  obtain ⟨y, rl, ru, cl, cu, hops⟩ := eq_of_length_five hlen
  rw [hops]
  exact ⟨_, rfl, trivial, rfl⟩

theorem sizeNode_leftIndexing {flags : SliceFlags} {t : NodeId} {m : Node}
    (hin : ∀ y ∈ n.inputs, ∃ i, g.plan y = some i) (ha : n.op.arity? = some n.inputs.length)
    (hop : n.op = .leftIndexing flags) (ht : n.inputs[0]? = some t) (hm : g.get? t = some m) :
    ∃ s, g.sizeNode x n = .ok s ∧ s.Legal ∧
      s.profile = .matrix (.ofInt m.shape.rows) (.ofInt m.shape.cols) := by
  have hres := resolves_of_plan hin
  have hfirst : (g.operands n)[0]? = some m.core := by
    have hget := congrArg (·[0]?) hres.map_core?
    simp only [List.getElem?_map, ht, Option.map_some, core?_eq_some hm] at hget
    obtain ⟨k, hk, he⟩ := Option.map_eq_some_iff.1 hget.symm
    rw [hk, Option.some.inj he]
  obtain ⟨rest, hrest⟩ : ∃ rest, g.operands n = m.core :: rest := by
    cases hops : g.operands n with
    | nil =>
      rw [hops] at hfirst
      cases hfirst
    | cons k rest =>
      rw [hops] at hfirst
      cases hfirst
      exact ⟨rest, rfl⟩
  rw [sizeNode_eq hres ha, hop, hrest]
  exact ⟨_, rfl, trivial, rfl⟩

end Operands

namespace Typed

theorem legal_of_get? (h : g.Typed) {x : NodeId} {n : Node} (hn : g.get? x = some n)
    (hr : n.retired = false) : n.shape.Legal := by
  have hlegal : n.core.shape.Legal := h.legal (core?_eq_some hn) hr
  exact hlegal

theorem sizeNode_cases (h : g.Typed) {x : NodeId} {n : Node}
    (hin : ∀ y ∈ n.inputs, ∃ i, g.plan y = some i) (ha : n.op.arity? = some n.inputs.length)
    (hown : n.op = .data n.op.name → n.shape.Legal) :
    (∃ s, g.sizeNode x n = .ok s ∧ s.Legal ∧
      n.item.profile.sizeFrom n.op (g.plan.operands n.item) = some s.profile) ∨
    (∃ fault, g.sizeNode x n = .error fault) ∧
      n.item.profile.sizeFrom n.op (g.plan.operands n.item) = none := by
  have hres := resolves_of_plan hin
  have hlegal : ∀ m ∈ g.operands n, m.shape.Legal := by
    intro m hm
    obtain ⟨y, hy, hcore⟩ := List.mem_filterMap.1 hm
    obtain ⟨i, hi⟩ := hin y hy
    obtain ⟨m', hm', hr, -⟩ := get?_of_plan hi
    rw [core?_eq_some hm'] at hcore
    cases hcore
    exact h.legal (core?_eq_some hm') hr
  rw [sizeNode_eq hres ha, ← map_item_operands hin]
  exact Shape.sizeFrom_cases ⟨x, n.op⟩ (hres.length_operands.symm ▸ ha) hown hlegal

end Typed

theorem Maps.keepsOps {f : NodeId → Node → Node} (h : g.Maps f g')
    (hf : ∀ x n, g.core? x = some n → (f x n).op = n.op) : g.KeepsOps g' := by
  intro x op hx
  obtain ⟨n, hn, rfl⟩ := Option.map_eq_some_iff.1 hx
  rw [opOf, h.core, hn]
  exact congrArg some (hf x n hn)

theorem Maps.plan_eq {f : NodeId → Node → Node} {F : NodeId → Item → Item} (h : g.Maps f g')
    (hret : ∀ x n, (f x n).retired = n.retired)
    (hitem : ∀ x n, g.core? x = some n → (f x n).item = F x n.item) :
    g'.plan = fun x => (g.plan x).map (F x) := by
  funext x
  rw [plan, plan, h.core]
  cases hx : g.core? x with
  | none => rfl
  | some n =>
    show (if (f x n).retired then none else some (f x n).item) =
      (if n.retired then none else some n.item).map (F x)
    rw [hret, hitem x n hx]
    split <;> rfl

theorem Appends.plan_eq {n : Node} (h : g.Appends n g') (hr : n.retired = false) :
    g'.plan = Function.update g.plan (g.size : Int) (some n.item) := by
  funext x
  rw [plan, h.core]
  by_cases hx : x = (g.size : Int)
  · rw [if_pos hx, hx, Function.update_self]
    simp [hr]
  · rw [if_neg hx, Function.update_of_ne hx]
    rfl

theorem Appends.keepsOps {n : Node} (h : g.Appends n g') : g.KeepsOps g' := by
  intro x op hx
  obtain ⟨m, hm, rfl⟩ := Option.map_eq_some_iff.1 hx
  rw [opOf, h.core_of_some hm]
  rfl

theorem Maps.typed {f : NodeId → Node → Node} (h : g.Maps f g') (ht : g.Typed) (hl : g'.Linked)
    (hf : ∀ x n, g.core? x = some n → (f x n).retired = false →
      n.retired = false ∧ (n.shape.Legal → (f x n).shape.Legal)) : g'.Typed := by
  refine ⟨hl, fun {x n'} hn' hr => ?_⟩
  rw [h.core] at hn'
  obtain ⟨n, hn, rfl⟩ := Option.map_eq_some_iff.1 hn'
  obtain ⟨hr', hlegal⟩ := hf x n hn hr
  exact hlegal (ht.legal hn hr')

end Graph

namespace Edit
open LinearPlan.Graph
variable {g g' : Graph}

structure Leaves (g : Graph) (P : Plan) (g' : Graph) : Prop where
  typed : g'.Typed
  plan_eq : g'.plan = P
  ops : g.KeepsOps g'

structure Adds (g : Graph) (op : Op) (inputs : List NodeId) (g' : Graph) : Prop where
  size : g'.size = g.size + 1
  plan_eq : ∃ p, g'.plan = Function.update g.plan (g.size : Int) (some ⟨op, inputs, p⟩)
  ops : g.KeepsOps g'

namespace Adds
variable {op : Op} {inputs : List NodeId}

theorem self (h : Adds g op inputs g') : ∃ p, g'.plan (g.size : Int) = some ⟨op, inputs, p⟩ := by
  obtain ⟨p, hp⟩ := h.plan_eq
  exact ⟨p, hp ▸ Function.update_self ..⟩

theorem of_ne (h : Adds g op inputs g') {x : Int} (hx : x ≠ (g.size : Int)) :
    g'.plan x = g.plan x := by
  obtain ⟨p, hp⟩ := h.plan_eq
  rw [hp, Function.update_of_ne hx]

theorem extends_ (h : Adds g op inputs g') : g'.plan.Extends g.plan := by
  intro x i hx
  have hlt := (range_of_plan hx).2
  rw [h.of_ne (by omega), hx]

end Adds

theorem adds_of_appends {op : Op} {inputs : List NodeId} {s : Shape}
    (h : g.Appends { start g op inputs with shape := s } g') : Adds g op inputs g' :=
  ⟨h.size, ⟨s.profile, h.plan_eq rfl⟩, h.keepsOps⟩

/-- What an edit of a linked graph leaves: a linked graph with a given plan, all operations, and legal
shapes if they were legal before. -/
structure Rewires (g : Graph) (P : Plan) (g' : Graph) : Prop where
  linked : g'.Linked
  plan_eq : g'.plan = P
  ops : g.KeepsOps g'
  typed : g.Typed → g'.Typed

theorem Rewires.leaves {P : Plan} (h : Rewires g P g') (ht : g.Typed) : Leaves g P g' :=
  ⟨h.typed ht, h.plan_eq, h.ops⟩

structure Changes (g : Graph) (l : List NodeId) (P : Plan) (g' : Graph) : Prop
    extends Rewires g P g' where
  size_le : g.size ≤ g'.size
  cores : ∀ x : Int, x < (g.size : Int) → x ∉ l → g'.core? x = g.core? x

namespace Changes
variable {g'' : Graph} {l l' : List NodeId} {P P' : Plan}

theorem trans (h : Changes g l P g') (h' : Changes g' l' P' g'') : Changes g (l ++ l') P' g'' := by
  have hsize := h.size_le
  refine ⟨⟨h'.linked, h'.plan_eq, h.ops.trans h'.ops, fun ht => h'.typed (h.typed ht)⟩,
    hsize.trans h'.size_le, fun x hx hxl => ?_⟩
  rw [List.mem_append, not_or] at hxl
  rw [h'.cores x (by omega) hxl.2, h.cores x hx hxl.1]

theorem mono {k : List NodeId} (h : Changes g l P g') (hl : ∀ x ∈ l, x ∈ k) : Changes g k P g' :=
  { h with cores := fun x hx hxl => h.cores x hx fun hx' => hxl (hl x hx') }

theorem plan_of_not_mem (h : Changes g l P g') {x : Int} (hx : x < (g.size : Int)) (hxl : x ∉ l) :
    P x = g.plan x := by
  rw [← h.plan_eq, plan, plan, h.cores x hx hxl]

end Changes

theorem addNode_changes (h : g.Linked) {op : Op} {inputs : List NodeId} {s : Shape}
    (hin : ∀ y ∈ inputs, ∃ i, g.plan y = some i) (ha : op.arity? = some inputs.length)
    (hs : g.sizeNode g.size (start g op inputs) = .ok s) (hlegal : s.Legal) :
    ∃ g', addNode op inputs g = .ok (g.size : Int) g' ∧ g'.size = g.size + 1 ∧
      Changes g [] (Function.update g.plan (g.size : Int) (some ⟨op, inputs, s.profile⟩)) g' := by
  have hlive : ∀ y ∈ inputs, ∃ m, g.get? y = some m ∧ m.retired = false := fun y hy => by
    obtain ⟨i, hi⟩ := hin y hy
    obtain ⟨m, hm, hr, -⟩ := get?_of_plan hi
    exact ⟨m, hm, hr⟩
  obtain ⟨g', hg', hl', happ⟩ := addNode_ok h hlive ha hs
  refine ⟨g', hg', happ.size, ⟨hl', happ.plan_eq rfl, happ.keepsOps, fun ht => ⟨hl', ?_⟩⟩,
    by rw [happ.size]; omega, fun x hx _ => ?_⟩
  · intro x n hn hr
    rw [happ.core] at hn
    split at hn
    · cases hn
      exact hlegal
    · exact ht.legal hn hr
  · rw [happ.core, if_neg (by omega)]

theorem addNode_plan (h : g.Typed) {op : Op} {inputs : List NodeId} {p : Profile}
    (hin : ∀ y ∈ inputs, ∃ i, g.plan y = some i) (ha : op.arity? = some inputs.length)
    (hop : op ≠ .data op.name)
    (hs : Profile.scalar.sizeFrom op (inputs.filterMap g.plan) = some p) :
    ∃ g', addNode op inputs g = .ok (g.size : Int) g' ∧ g'.size = g.size + 1 ∧
      Leaves g (Function.update g.plan (g.size : Int) (some ⟨op, inputs, p⟩)) g' := by
  rcases h.sizeNode_cases (x := g.size) (n := start g op inputs) hin ha
    (fun hdata => absurd hdata hop) with ⟨s, hsize, hlegal, hprof⟩ | ⟨-, hnone⟩
  · obtain ⟨g', hg', hsize', hl'⟩ := addNode_changes h.toLinked hin ha hsize hlegal
    rw [Option.some.inj (hprof.symm.trans hs)] at hl'
    exact ⟨g', hg', hsize', hl'.leaves h⟩
  · have hs' : (start g op inputs).item.profile.sizeFrom op
        (g.plan.operands (start g op inputs).item) = some p := hs
    rw [show (start g op inputs).op = op from rfl] at hnone
    rw [hnone] at hs'
    cases hs'

theorem replaceInput_changes (h : g.Linked) {parent child old : NodeId} {pos : Nat} {i j : Item}
    (hp : g.plan parent = some i) (hc : g.plan child = some j) (hne : child ≠ parent)
    (hpos : i.inputs[pos]? = some old) :
    ∃ g', replaceInput parent pos child g = .ok old g' ∧ g'.size = g.size ∧
      Changes g [parent] (Function.update g.plan parent
        (some { i with inputs := i.inputs.set pos child })) g' := by
  obtain ⟨n, hn, hnr, rfl⟩ := get?_of_plan hp
  obtain ⟨m, hm, hmr, -⟩ := get?_of_plan hc
  obtain ⟨g', hg', hl', hmaps⟩ := replaceInput_ok h hn hnr hm hmr hne hpos
  refine ⟨g', hg', hmaps.size, ⟨hl', ?_, hmaps.keepsOps ?_, fun ht => hmaps.typed ht hl' ?_⟩,
    hmaps.size.ge, fun x _ hx => ?_⟩
  · rw [hmaps.plan_eq
      (F := fun x k => if x = parent then { k with inputs := k.inputs.set pos child } else k)]
    · funext x
      by_cases hx : x = parent
      · subst hx
        rw [hp, Function.update_self]
        simp
      · rw [Function.update_of_ne hx]
        simp [hx]
    · intro x k
      by_cases hx : x = parent <;> simp [hx]
    · intro x k _
      by_cases hx : x = parent <;> simp [hx, Node.item]
  · intro x k _
    by_cases hx : x = parent <;> simp [hx]
  · intro x k _ hr
    by_cases hx : x = parent <;> simp [hx] at hr ⊢ <;> exact hr
  · rw [hmaps.core]
    simp [List.mem_singleton.not.1 hx]

theorem refresh_changes (h : g.Linked) {x : NodeId} {n : Node} {s : Shape}
    (hn : g.get? x = some n) (hr : n.retired = false) (hs : g.sizeNode x n = .ok s)
    (hlegal : s.Legal) :
    ∃ g', refresh x g = .ok () g' ∧ g'.size = g.size ∧
      Changes g [x] (Function.update g.plan x (some { n.item with profile := s.profile })) g' := by
  have hmaps := maps_modify g x (f := fun m => { m with shape := s }) fun _ => rfl
  refine ⟨_, refresh_ok hn hr hs, size_modify .., ⟨h.setShape x s, ?_, hmaps.keepsOps ?_,
    fun ht => hmaps.typed ht (h.setShape x s) ?_⟩, (size_modify ..).ge, fun y _ hy => ?_⟩
  · rw [hmaps.plan_eq (F := fun y k => if y = x then { k with profile := s.profile } else k)]
    · funext y
      by_cases hy : y = x
      · subst hy
        rw [plan_eq_some hn hr, Function.update_self]
        simp
      · rw [Function.update_of_ne hy]
        simp [hy]
    · intro y k
      by_cases hy : y = x <;> simp [hy]
    · intro y k _
      by_cases hy : y = x <;> simp [hy, Node.item]
  · intro y k _
    by_cases hy : y = x <;> simp [hy]
  · intro y k _ hk
    by_cases hy : y = x
    · simp only [hy, if_true] at hk ⊢
      exact ⟨hk, fun _ => hlegal⟩
    · simp only [hy, if_false] at hk ⊢
      exact ⟨hk, fun hl => hl⟩
  · rw [hmaps.core]
    simp [List.mem_singleton.not.1 hy]

theorem refresh_plan (h : g.Typed) {x : NodeId} {i : Item} {p : Profile} (hx : g.plan x = some i)
    (hs : i.profile.sizeFrom i.op (g.plan.operands i) = some p) :
    ∃ g', refresh x g = .ok () g' ∧ g'.size = g.size ∧
      Leaves g (Function.update g.plan x (some { i with profile := p })) g' := by
  obtain ⟨n, hn, hr, rfl⟩ := get?_of_plan hx
  rcases h.sizeNode_cases (x := x) (n := n) (h.closed hx) (h.arity_eq hn hr)
    (fun _ => h.legal_of_get? hn hr) with ⟨s, hsize, hlegal, hprof⟩ | ⟨-, hnone⟩
  · obtain ⟨g', hrun, hsize', hl'⟩ := refresh_changes h.toLinked hn hr hsize hlegal
    rw [Option.some.inj (hprof.symm.trans hs)] at hl'
    exact ⟨g', hrun, hsize', hl'.leaves h⟩
  · have hs' : n.item.profile.sizeFrom n.op (g.plan.operands n.item) = some p := hs
    rw [hnone] at hs'
    cases hs'

theorem redirect_rewires (h : g.Linked) {old replacement : NodeId} {i : Item}
    (hr : g.plan replacement = some i) {edges : List Edge}
    (he : ∀ e, e ∈ edges ↔ g.Holds e old ∧ e.parent ≠ replacement) :
    ∃ g', redirect edges old replacement g = .ok () g' ∧ g'.size = g.size ∧
      Rewires g (fun x => if x = replacement then g.plan x
        else (g.plan x).map (Item.subst old replacement)) g' := by
  obtain ⟨n, hn, hnr, -⟩ := get?_of_plan hr
  obtain ⟨g', hg', hl', hmaps⟩ := redirect_uses_ok h hn hnr he
  refine ⟨g', hg', hmaps.size, hl', ?_, hmaps.keepsOps ?_, fun ht => hmaps.typed ht hl' ?_⟩
  · rw [hmaps.plan_eq
      (F := fun x k => if x = replacement then k else k.subst old replacement)]
    · funext x
      by_cases hx : x = replacement <;> simp [hx]
    · intro x k
      by_cases hx : x = replacement <;> simp [hx]
    · intro x k _
      by_cases hx : x = replacement
      · simp [hx]
      · simp [hx, Node.item, Item.subst]
  · intro x k _
    by_cases hx : x = replacement <;> simp [hx]
  · intro x k _ hk
    by_cases hx : x = replacement <;> simp [hx] at hk ⊢ <;> exact hk

theorem user_of_holds (h : g.Linked) {e : Edge} {x : NodeId} (he : g.Holds e x) :
    ∃ i, g.plan e.parent = some i ∧ x ∈ i.inputs := by
  obtain ⟨pos, -, hpos⟩ := he
  have hmem := List.mem_of_getElem? hpos
  obtain ⟨n, hn, hr⟩ := h.user_live hmem
  rw [inputsOf_eq hn] at hmem
  exact ⟨_, plan_eq_some hn hr, hmem⟩

theorem redirectParents_rewires (h : g.Linked) {old replacement : NodeId} {o i : Item}
    (ho : g.plan old = some o) (hr : g.plan replacement = some i) (hne : old ∉ i.inputs) :
    ∃ edges g', redirectParents old replacement g = .ok edges g' ∧ g'.size = g.size ∧
      Rewires g (fun x => (g.plan x).map (Item.subst old replacement)) g' ∧
      ∀ e ∈ edges, ∃ j, g.plan e.parent = some j ∧ old ∈ j.inputs := by
  obtain ⟨n, hn, hnr, -⟩ := get?_of_plan ho
  obtain ⟨edges, hedges, he⟩ := h.parentEdges_ok hn hnr
  have hother : ∀ e, e ∈ edges ↔ g.Holds e old ∧ e.parent ≠ replacement := by
    intro e
    refine (he e).trans ⟨fun hold => ⟨hold, fun hp => ?_⟩, fun hold => hold.1⟩
    obtain ⟨j, hj, hmem⟩ := user_of_holds h hold
    rw [hp, hr] at hj
    cases hj
    exact hne hmem
  obtain ⟨g', hrun, hsize, hl⟩ := redirect_rewires h hr hother
  refine ⟨edges, g', ?_, hsize, ⟨hl.linked, ?_, hl.ops, hl.typed⟩,
    fun e hmem => user_of_holds h ((he e).1 hmem)⟩
  · unfold redirectParents parentEdges
    rw [bind_ok (read_ok hedges), bind_ok hrun]
    rfl
  · rw [hl.plan_eq]
    funext x
    split
    · rename_i hx
      rw [hx, hr, Option.map_some, Item.subst_of_not_mem hne]
    · rfl

theorem retireAll_rewires (h : g.Linked) {ids : List NodeId}
    (hids : ∀ x ∈ ids, ∃ i, g.plan x = some i)
    (hclosed : ∀ x ∈ ids, ∀ p i, g.plan p = some i → x ∈ i.inputs → p ∈ ids) :
    ∃ g', retireAll ids g = .ok () g' ∧ g'.size = g.size ∧
      Rewires g (fun x => if x ∈ ids then none else g.plan x) g' := by
  have hinner : ∀ x ∈ ids, Inner g ids x := by
    intro x hx
    obtain ⟨i, hi⟩ := hids x hx
    obtain ⟨n, hn, hr, -⟩ := get?_of_plan hi
    refine ⟨n, hn, hr, fun p hp => ?_⟩
    rw [← parentsOf_eq hn, h.matched.mem_iff] at hp
    obtain ⟨m, hm, hmr⟩ := h.user_live hp
    rw [inputsOf_eq hm] at hp
    exact hclosed x hx p m.item (plan_eq_some hm hmr) hp
  obtain ⟨g', hg', hl', hmaps⟩ := retireAll_ok h hinner
  refine ⟨g', hg', hmaps.size, hl', ?_, hmaps.keepsOps ?_, fun ht => hmaps.typed ht hl' ?_⟩
  · funext x
    rw [plan, plan, hmaps.core]
    cases g.core? x with
    | none => simp
    | some n => by_cases hx : x ∈ ids <;> simp [hx, gone]
  · intro x k _
    by_cases hx : x ∈ ids <;> simp [hx, gone]
  · intro x k _ hk
    by_cases hx : x ∈ ids <;> simp [hx, gone] at hk ⊢
    exact hk

theorem forM_refresh_plan {α : Type} {f : α → NodeId} {l : List α} (h : g.Typed)
    (hl : ∀ a ∈ l, ∃ i, g.plan (f a) = some i ∧
      i.profile.sizeFrom i.op (g.plan.operands i) = some i.profile) :
    ∃ g', (l.forM fun a => refresh (f a)) g = .ok () g' ∧ g'.size = g.size ∧
      Leaves g g.plan g' := by
  induction l generalizing g with
  | nil => exact ⟨g, forM_nil, rfl, h, rfl, fun _ _ hx => hx⟩
  | cons a rest ih =>
    obtain ⟨i, hi, hs⟩ := hl a List.mem_cons_self
    obtain ⟨g₁, hrun₁, hsize₁, hl₁⟩ := refresh_plan h hi hs
    have hsame : g₁.plan = g.plan := by
      rw [hl₁.plan_eq]
      exact Function.update_eq_self_iff.2 hi.symm
    obtain ⟨g₂, hrun₂, hsize₂, hl₂⟩ := ih hl₁.typed fun b hb => by
      rw [hsame]
      exact hl b (List.mem_cons_of_mem a hb)
    refine ⟨g₂, ?_, hsize₂.trans hsize₁, hl₂.typed, hl₂.plan_eq.trans hsame,
      hl₁.ops.trans hl₂.ops⟩
    exact (forM_cons_ok (f := fun a => refresh (f a)) hrun₁).trans hrun₂

theorem setFlags_same {x : NodeId} {n : Node} {flags : SliceFlags}
    {f : SliceFlags → SliceFlags} (hn : g.get? x = some n) (hr : n.retired = false)
    (hop : n.op = .leftIndexing flags) (hf : f flags = flags) : setFlags x f g = .ok () g := by
  unfold setFlags
  rw [bind_ok (live_run hn hr), hop]
  show EStateM.Result.ok () (g.modify x _) = _
  congr 1
  refine ext_get? (name_modify ..) fun y => ?_
  rw [get?_modify]
  by_cases hy : y = x
  · subst hy
    rw [hn, hf, ← hop]
    simp
  · simp [hy]

end Edit
end LinearPlan
