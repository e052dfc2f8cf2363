import LinearPlan.Proofs.ProductValues
import LinearPlan.Proofs.RowBlocks
import LinearPlan.Proofs.ValueShapes
import Mathlib.Algebra.BigOperators.Fin
import Mathlib.Algebra.BigOperators.Ring.Finset

/-!
# The chain kernel computes the chain

Over a commutative ring the sweep over the rows of `X` gives the same column as the products and the
element-wise operation it stands for, whatever the number of workers. The blocks of rows, one after
the other, are all rows, so the partial sums of the workers add up to one sum over the rows; rows
with scale zero add nothing; and what is left is to exchange the sums over rows and columns.
-/
namespace LinearPlan

/-- Elements that are added, subtracted and multiplied as in a commutative ring, with a test for zero
that holds of nothing else. -/
class RingElement (α : Type) [Element α] [CommRing α] : Prop where
  zero_eq : (Element.zero : α) = 0
  add_eq (a b : α) : Element.add a b = a + b
  sub_eq (a b : α) : Element.sub a b = a - b
  mul_eq (a b : α) : Element.mul a b = a * b
  eq_zero_of_isZero {a : α} : Element.isZero a = true → a = 0

open RingElement

instance : RingElement Int where
  zero_eq := rfl
  add_eq _ _ := rfl
  sub_eq _ _ := rfl
  mul_eq _ _ := rfl
  eq_zero_of_isZero h := by simpa [Element.isZero] using h

namespace Chain

section Sweep
variable {α : Type} [Element α] [CommRing α] [RingElement α] {kind : Kind} {n : Nat}

theorem foldl_add {β : Type} (f : β → α) (l : List β) (a : α) :
    l.foldl (fun sum p => Element.add sum (f p)) a = a + (l.map f).sum := by
  induction l generalizing a with
  | nil => simp
  | cons p l ih => rw [List.foldl_cons, ih, add_eq, List.map_cons, List.sum_cons, add_assoc]

theorem dot_eq_sum (f h : Fin n → α) : dot (List.ofFn f) (List.ofFn h) = ∑ l, f l * h l := by
  have hzip : (List.ofFn f).zip (List.ofFn h) = List.ofFn fun l => (f l, h l) :=
    List.ext_getElem (by simp) (by simp)
  rw [dot, foldl_add, hzip, zero_eq, zero_add, List.map_ofFn, List.sum_ofFn]
  simp [mul_eq]

theorem getD_addTo {acc xs : List α} (h : acc.length = xs.length) (j : Nat) :
    (addTo acc xs).getD j 0 = acc.getD j 0 + xs.getD j 0 := by
  simp only [addTo, List.getD_eq_getElem?_getD, List.getElem?_zipWith]
  by_cases hj : j < acc.length
  · rw [List.getElem?_eq_getElem hj, List.getElem?_eq_getElem (h ▸ hj)]
    simp [add_eq]
  · rw [List.getElem?_eq_none (by omega), List.getElem?_eq_none (by omega)]
    simp

theorem getD_foldl_addTo {l : List (List α)} (hl : ∀ xs ∈ l, xs.length = n) {acc : List α}
    (ha : acc.length = n) (j : Nat) :
    (l.foldl addTo acc).getD j 0 = acc.getD j 0 + (l.map (·.getD j 0)).sum := by
  induction l generalizing acc with
  | nil => simp
  | cons xs l ih =>
    obtain ⟨hxs, hl⟩ := List.forall_mem_cons.1 hl
    rw [List.foldl_cons, ih hl (length_addTo ha hxs), getD_addTo (ha.trans hxs.symm),
      List.map_cons, List.sum_cons, add_assoc]

def term (kind : Kind) (v : List α) (j : Nat) (row : List α × α) : α :=
  row.1.getD j 0 * scale kind (dot row.1 v) row.2

theorem getD_accumulate {v acc : List α} {row : List α × α} (h : acc.length = row.1.length)
    (j : Nat) : (accumulate kind v acc row).getD j 0 = acc.getD j 0 + term kind v j row := by
  unfold accumulate term
  dsimp only
  split
  · rename_i hzero
    rw [eq_zero_of_isZero hzero, mul_zero, add_zero]
  · rw [getD_addTo (by simpa using h)]
    simp only [List.getD_eq_getElem?_getD, List.getElem?_map]
    cases row.1[j]? <;> simp [mul_eq, mul_comm]

theorem getD_foldl_accumulate {v : List α} {rows : List (List α × α)}
    (hrows : ∀ r ∈ rows, r.1.length = n) {acc : List α} (ha : acc.length = n) (j : Nat) :
    (rows.foldl (accumulate kind v) acc).getD j 0 =
      acc.getD j 0 + (rows.map (term kind v j)).sum := by
  induction rows generalizing acc with
  | nil => simp
  | cons r rows ih =>
    obtain ⟨hr, hrows⟩ := List.forall_mem_cons.1 hrows
    have hlen : ([r].foldl (accumulate kind v) acc).length = n :=
      length_foldl_accumulate (by simpa using hr) ha
    rw [List.foldl_cons, List.foldl_nil] at hlen
    rw [List.foldl_cons, ih hrows hlen, getD_accumulate (ha.trans hr.symm), List.map_cons,
      List.sum_cons, add_assoc]

theorem getD_sweep {v : List α} {rows : List (List α × α)} (hrows : ∀ r ∈ rows, r.1.length = n)
    (ranges : List (Nat × Nat)) (j : Nat) :
    (sweep kind n v rows ranges).getD j 0 =
      ((ranges.flatMap fun r => (rows.drop r.1).take (r.2 - r.1)).map (term kind v j)).sum := by
  have hstart : (List.replicate n (Element.zero : α)).getD j 0 = 0 := by
    rw [zero_eq]
    simp only [List.getD_eq_getElem?_getD, List.getElem?_replicate]
    split <;> rfl
  have hblock (r : Nat × Nat) : ∀ q ∈ (rows.drop r.1).take (r.2 - r.1), q.1.length = n :=
    fun q hq => hrows q (List.mem_of_mem_drop (List.mem_of_mem_take hq))
  have hpartial : ∀ xs ∈ ranges.map fun r => ((rows.drop r.1).take (r.2 - r.1)).foldl
      (accumulate kind v) (List.replicate n Element.zero), xs.length = n := by
    intro xs hxs
    obtain ⟨r, -, rfl⟩ := List.mem_map.1 hxs
    exact length_foldl_accumulate (hblock r) List.length_replicate
  unfold sweep
  rw [getD_foldl_addTo hpartial List.length_replicate, hstart, zero_add, List.map_map,
    List.map_flatMap, List.flatMap_def, List.sum_flatten, List.map_map]
  refine congrArg List.sum (List.map_congr_left fun r _ => ?_)
  simp only [Function.comp_apply]
  rw [getD_foldl_accumulate (hblock r) List.length_replicate, hstart, zero_add]

end Sweep
end Chain

namespace Matrix
variable {α : Type}

def ofColumn {n : Nat} (c : Fin n → α) : Matrix α := ofFn n 1 fun i _ => c i

theorem get_ofColumn {n : Nat} (c : Fin n → α) (i : Fin (ofColumn c).rows)
    (j : Fin (ofColumn c).cols) : (ofColumn c).get i j = c i := get_ofFn n 1 (fun i _ => c i) i j

theorem eq_ofColumn {m : Matrix α} {n : Nat} {c : Fin n → α} (hr : m.rows = n) (hc : m.cols = 1)
    (h : ∀ i j, m.get i j = c (i.cast hr)) : m = ofColumn c :=
  ext_get hr hc fun i j => (h i j).trans (get_ofColumn c _ _).symm

theorem exists_ofColumn {m : Matrix α} {n : Nat} (hr : m.rows = n) (hc : m.cols = 1) :
    ∃ c : Fin n → α, m = ofColumn c := by
  refine ⟨fun i => m.get (i.cast hr.symm) (Fin.cast hc.symm 0), eq_ofColumn hr hc fun i j => ?_⟩
  congr 1
  ext
  simp
  omega

theorem ofColumn_injective {n : Nat} : Function.Injective (ofColumn : (Fin n → α) → Matrix α) := by
  intro c d h
  have hentries : (Vector.ofFn fun i => Vector.ofFn fun _ : Fin 1 => c i) =
      Vector.ofFn fun i => Vector.ofFn fun _ : Fin 1 => d i := by
    simpa [ofColumn, ofFn] using h
  funext i
  have hget := congrArg (fun e : Vector (Vector α 1) n => e[i.val][0]) hentries
  simpa using hget

theorem column_ofColumn {n : Nat} (c : Fin n → α) (j : Fin (ofColumn c).cols) :
    (ofColumn c).column j = List.ofFn c := by
  rw [column, List.ofFn_eq_map]
  exact List.map_congr_left fun i _ => get_ofFn _ _ _ _ _

theorem columnOf_eq {l : List α} {n : Nat} {c : Fin n → α} (h : l = List.ofFn c) :
    Chain.columnOf l = ofColumn c := by
  subst h
  exact eq_ofColumn List.length_ofFn rfl fun i j =>
    (get_ofFn _ _ _ _ _).trans (List.getElem_ofFn _)

theorem rowsOf_eq (x : Matrix α) : Chain.rowsOf x = List.ofFn fun i => List.ofFn (x.get i) := by
  have hrow (v : Vector α x.cols) : v.toList = List.ofFn fun j : Fin x.cols => v[j.val] := by
    refine List.ext_getElem (by simp) fun j hj hj' => ?_
    simp
  refine List.ext_getElem (by simp [Chain.rowsOf]) fun i hi hi' => ?_
  simp only [Chain.rowsOf, List.getElem_map, hrow, List.getElem_ofFn]
  rfl

variable [Element α] [CommRing α] [RingElement α]

theorem get_mul (a b : Matrix α) (h : a.cols = b.rows) (i : Fin a.rows) (j : Fin b.cols) :
    (a.mul b h).get i j = ∑ l, a.get i l * b.get (l.cast h) j := by
  have hstep : (fun sum l => if Element.isZero (a.get i l) then sum
      else Element.add sum (Element.mul (a.get i l) (b.get (l.cast h) j))) =
      fun (sum : α) l => Element.add sum (a.get i l * b.get (l.cast h) j) := by
    funext sum l
    split
    · rename_i hzero
      rw [eq_zero_of_isZero hzero, zero_mul, add_eq, add_zero]
    · rw [mul_eq]
  refine (get_ofFn _ _ _ i j).trans ?_
  rw [hstep, Chain.foldl_add, zero_eq, zero_add, ← List.ofFn_eq_map, List.sum_ofFn]

end Matrix

namespace Chain
variable {α : Type} [Element α] [CommRing α] [RingElement α] {kind : Kind} {processors : Nat}
  {threads : Int}

def weighted (x : Matrix α) (s : Fin x.rows → α) : Matrix α :=
  .ofColumn fun j => ∑ i, x.get i j * s i

theorem columnOf_sweep (x : Matrix α) (c : Fin x.cols → α) (t : Fin x.rows → α) (workers : Nat) :
    columnOf (sweep kind x.cols (List.ofFn c) ((rowsOf x).zip (List.ofFn t))
      (blocks x.rows workers)) =
      weighted x fun i => scale kind (∑ l, x.get i l * c l) (t i) := by
  have hrows : (rowsOf x).zip (List.ofFn t) = List.ofFn fun i => (List.ofFn (x.get i), t i) := by
    rw [Matrix.rowsOf_eq]
    exact List.ext_getElem (by simp) (by simp)
  have hlen : ∀ r ∈ (List.ofFn fun i => (List.ofFn (x.get i), t i)), r.1.length = x.cols := by
    intro r hr
    obtain ⟨i, rfl⟩ := List.mem_ofFn.1 hr
    simp
  refine Matrix.columnOf_eq (List.ext_getElem ?_ fun j hj hj' => ?_)
  · rw [hrows, length_sweep hlen, List.length_ofFn]
  have hget : ∀ {l : List α} (h : j < l.length), l[j] = l.getD j 0 := fun h => by simp [h]
  rw [hget hj, hrows, getD_sweep hlen]
  have hblocks := flatMap_blocks (List.ofFn fun i => (List.ofFn (x.get i), t i)) workers
  rw [List.length_ofFn] at hblocks
  rw [hblocks, List.map_ofFn, List.sum_ofFn]
  simp only [Function.comp_apply, term, dot_eq_sum, List.getElem_ofFn]
  refine Finset.sum_congr rfl fun i _ => ?_
  rw [← hget (by simpa using hj'), List.getElem_ofFn]

theorem thirds_eq_ok_iff {rows : Nat} {w : Option (Matrix α)} {third : List α} :
    thirds kind rows w = .ok third ↔ ∃ t : Fin rows → α, third = List.ofFn t ∧
      if kind.hasThird then w = some (.ofColumn t) else w = none ∧ t = 0 := by
  cases w with
  | none =>
    rw [thirds]
    split
    · simp
    · simp only [Except.ok.injEq, true_and, exists_eq_right]
      have hzeros : List.ofFn (0 : Fin rows → α) = List.replicate rows Element.zero := by
        rw [zero_eq]
        exact List.ofFn_const rows 0
      rw [hzeros, eq_comm]
  | some w =>
    rw [thirds]
    split
    · split
      · rename_i hdims
        obtain ⟨t, rfl⟩ := Matrix.exists_ofColumn hdims.1 hdims.2
        simp only [Matrix.column_ofColumn, Except.ok.injEq, Option.some.injEq,
          Matrix.ofColumn_injective.eq_iff, exists_eq_right', eq_comm]
      · rename_i hdims
        refine ⟨nofun, ?_⟩
        rintro ⟨t, -, ht⟩
        cases ht
        exact absurd ⟨rfl, rfl⟩ hdims
    · simp

omit [CommRing α] [RingElement α] in
theorem some_of_execute {x v w : Option (Matrix α)} {m : Matrix α}
    (h : execute processors kind threads x v w = .ok m) :
    ∃ x' v', x = some x' ∧ v = some v' := by
  unfold execute at h
  split at h
  · cases h
  cases x with
  | none => cases h
  | some x => cases v with
    | none => cases h
    | some v => exact ⟨x, v, rfl, rfl⟩

theorem execute_eq_ok_iff {x v m : Matrix α} {w : Option (Matrix α)} :
    execute processors kind threads (some x) (some v) w = .ok m ↔
      kind.isValid ∧ (x.rows ≠ 0 ∧ x.cols ≠ 0) ∧ ∃ (c : Fin x.cols → α) (t : Fin x.rows → α),
        v = .ofColumn c ∧ (if kind.hasThird then w = some (.ofColumn t) else w = none ∧ t = 0) ∧
          m = weighted x fun i => scale kind (∑ l, x.get i l * c l) (t i) := by
  unfold execute
  split
  · simp_all
  rename_i hkind
  dsimp only
  split
  · rename_i hempty
    exact ⟨nofun, fun h => absurd hempty (not_or.2 h.2.1)⟩
  rename_i hempty
  split
  · rename_i hdims
    obtain ⟨c, rfl⟩ := Matrix.exists_ofColumn hdims.1 hdims.2
    simp only [Matrix.column_ofColumn]
    constructor
    · intro h
      split at h
      · cases h
      · rename_i third hthird
        cases h
        obtain ⟨t, rfl, ht⟩ := thirds_eq_ok_iff.1 hthird
        exact ⟨by simpa using hkind, not_or.1 hempty, c, t, rfl, ht, columnOf_sweep x c t _⟩
    · rintro ⟨-, -, c', t, hc, ht, rfl⟩
      cases Matrix.ofColumn_injective hc
      simp only [thirds_eq_ok_iff.2 ⟨t, rfl, ht⟩, columnOf_sweep]
  · rename_i hdims
    refine ⟨nofun, ?_⟩
    rintro ⟨-, -, c, t, rfl, -⟩
    exact absurd ⟨rfl, rfl⟩ hdims

end Chain

namespace Eval
variable {α : Type} [Element α]

def scaled (node : NodeRef) (kind : Chain.Kind) (product : Value α) (third : Option (Value α)) :
    Except (EvalFault α) (Value α) :=
  match kind, third with
  | .XtwXv, some w => binary node .mult w product
  | .XtXvy, some y => binary node .minus product y
  | _, _ => .ok product

/-- The operations that a chain stands for, one by one. -/
def unfused (node : NodeRef) (kind : Chain.Kind) (x v : Value α) (third : Option (Value α)) :
    Except (EvalFault α) (Value α) := do
  let product ← matMul node x v
  let column ← scaled node kind product third
  matMul node (transpose x) column

omit [Element α] in
theorem elementwise_ofColumn {node : NodeRef} {f : α → α → α} {n : Nat} (hn : n ≠ 0)
    (a b : Fin n → α) :
    elementwise node f (.matrix (.ofColumn a)) (.matrix (.ofColumn b)) =
      .ok (.matrix (.ofColumn fun i => f (a i) (b i))) := by
  have hdim (k : Nat) : Matrix.commonDim? k k = some k := if_pos (.inl rfl)
  have hcyclic (c : Fin n → α) (hr : 0 < n) (i : Fin n) (j : Nat) :
      (Matrix.ofColumn c).cyclic hr one_pos i j = c i :=
    (Matrix.get_ofColumn c _ _).trans (congrArg c (Fin.ext (Nat.mod_eq_of_lt i.isLt)))
  refine zip_eq_ok_iff.2 ⟨n, 1, hdim n, hdim 1, ⟨hn, one_ne_zero⟩, congrArg Value.matrix ?_⟩
  symm
  refine Matrix.eq_ofColumn rfl rfl fun i j => (Matrix.get_ofFn _ _ _ _ _).trans ?_
  exact congrArg₂ f (hcyclic a i.pos i j) (hcyclic b i.pos i j)

variable [CommRing α] [RingElement α] {node : NodeRef}

theorem matMul_ofColumn {x : Matrix α} (hx : x.rows ≠ 0) (c : Fin x.cols → α) :
    matMul node (.matrix x) (.matrix (.ofColumn c)) =
      .ok (.matrix (.ofColumn fun i => ∑ l, x.get i l * c l)) := by
  have hmul : x.mul (.ofColumn c) rfl = .ofColumn fun i => ∑ l, x.get i l * c l :=
    Matrix.eq_ofColumn rfl rfl fun i j => by
      refine (Matrix.get_mul _ _ _ _ _).trans (Finset.sum_congr rfl fun l _ => ?_)
      exact congrArg _ (Matrix.get_ofColumn c _ _)
  refine Outcome.bind_eq_ok_iff.2 ⟨x, rfl, Outcome.bind_eq_ok_iff.2 ⟨_, rfl, ?_⟩⟩
  refine (dif_pos rfl).trans ?_
  rw [hmul]
  exact nonempty_eq_ok_iff.2 ⟨⟨hx, one_ne_zero⟩, rfl⟩

theorem matMul_transpose {x : Matrix α} (hx : x.cols ≠ 0) (s : Fin x.rows → α) :
    matMul node (.matrix x.transpose) (.matrix (.ofColumn s)) = .ok (.matrix (Chain.weighted x s)) := by
  refine (matMul_ofColumn (x := x.transpose) hx s).trans ?_
  refine congrArg (fun c => Except.ok (Value.matrix (.ofColumn c))) (funext fun j => ?_)
  exact Finset.sum_congr rfl fun i _ => congrArg (· * s i) (Matrix.get_transpose x j i)

theorem scaled_ofColumn {kind : Chain.Kind} (hk : kind.isValid) {n : Nat} (hn : n ≠ 0)
    {w : Option (Matrix α)} {t : Fin n → α}
    (hw : if kind.hasThird then w = some (.ofColumn t) else w = none ∧ t = 0) (s : Fin n → α) :
    scaled node kind (.matrix (.ofColumn s)) (w.map .matrix) =
      .ok (.matrix (.ofColumn fun i => Chain.scale kind (s i) (t i))) := by
  cases kind with
  | XtXv => rfl
  | XtwXv =>
    cases hw
    refine (elementwise_ofColumn hn t s).trans ?_
    simp only [Chain.scale, mul_eq, mul_comm]
  | XtXvy =>
    cases hw
    exact elementwise_ofColumn hn s t
  | none => cases hk
  | unknown code => cases hk

theorem unfused_of_execute {processors : Nat} {kind : Chain.Kind} {threads : Int}
    {x v m : Matrix α} {w : Option (Matrix α)}
    (h : Chain.execute processors kind threads (some x) (some v) w = .ok m) :
    unfused node kind (.matrix x) (.matrix v) (w.map .matrix) = .ok (.matrix m) := by
  obtain ⟨hkind, hx, c, t, rfl, hw, rfl⟩ := Chain.execute_eq_ok_iff.1 h
  refine Outcome.bind_eq_ok_iff.2 ⟨_, matMul_ofColumn hx.1 c, ?_⟩
  exact Outcome.bind_eq_ok_iff.2 ⟨_, scaled_ofColumn hkind hx.1 hw _, matMul_transpose hx.2 _⟩

omit [CommRing α] [RingElement α] in
theorem chain_eq_ok_iff {processors : Nat} {kind : Chain.Kind} {threads : Int} {a b r : Value α}
    {third : Option (Value α)} :
    chain processors node kind threads (a :: b :: third.toList) = .ok r ↔ ∃ x v w m, a = .matrix x ∧
      b = .matrix v ∧ third = w.map .matrix ∧
        Chain.execute processors kind threads (some x) (some v) w = .ok m ∧ r = .matrix m := by
  cases third with
  | none =>
    refine Outcome.bind_eq_ok_iff.trans ?_
    simp only [Outcome.bind_eq_ok_iff, asMatrix_eq_ok_iff]
    constructor
    · rintro ⟨_, ⟨⟩, x, rfl, v, rfl, h⟩
      obtain ⟨m, hm, rfl⟩ := chainOutcome_eq_ok_iff.1 h
      exact ⟨x, v, none, m, rfl, rfl, rfl, hm, rfl⟩
    · rintro ⟨x, v, w, m, rfl, rfl, hw, hm, rfl⟩
      obtain rfl := Option.map_eq_none_iff.1 hw.symm
      exact ⟨none, rfl, x, rfl, v, rfl, chainOutcome_eq_ok_iff.2 ⟨m, hm, rfl⟩⟩
  | some u =>
    have hthird {o : Option (Matrix α)} :
        (asMatrix node u).map some = .ok o ↔ ∃ w, u = .matrix w ∧ o = some w := by
      cases u <;> simp [asMatrix, Except.map, eq_comm]
    refine Outcome.bind_eq_ok_iff.trans ?_
    simp only [Outcome.bind_eq_ok_iff, asMatrix_eq_ok_iff, hthird]
    constructor
    · rintro ⟨_, ⟨w, rfl, rfl⟩, x, rfl, v, rfl, h⟩
      obtain ⟨m, hm, rfl⟩ := chainOutcome_eq_ok_iff.1 h
      exact ⟨x, v, some w, m, rfl, rfl, rfl, hm, rfl⟩
    · rintro ⟨x, v, w, m, rfl, rfl, hw, hm, rfl⟩
      obtain ⟨w, rfl, rfl⟩ := Option.map_eq_some_iff.1 hw.symm
      exact ⟨_, ⟨w, rfl, rfl⟩, x, rfl, v, rfl, chainOutcome_eq_ok_iff.2 ⟨m, hm, rfl⟩⟩

end Eval

/-- The column that is multiplied with the transpose, for each kind of chain with its third
operand. -/
inductive Plan.Scales (P : Plan) (product : NodeId) : Chain.Kind → Option NodeId → NodeId → Prop
  | XtXv : Scales P product .XtXv none product
  | XtwXv {w column} : P.wires column = some (.binary .mult, [w, product]) →
    Scales P product .XtwXv (some w) column
  | XtXvy {y column} : P.wires column = some (.binary .minus, [product, y]) →
    Scales P product .XtXvy (some y) column

/-- A chain, and the root of the nodes that it stands for. -/
inductive Plan.Unfuses (P : Plan) (chain root : NodeId) : Prop
  | intro {kind threads x v third product column transposed} :
    P.wires chain = some (.chain kind threads, x :: v :: third.toList) →
    P.wires product = some (.matMul, [x, v]) → P.Scales product kind third column →
    P.wires transposed = some (.transpose, [x]) →
    P.wires root = some (.matMul, [transposed, column]) → Unfuses P chain root

namespace Graph
variable {α : Type} [Element α] {g : Graph} {inputs : Inputs α} {x : NodeId}

variable (inputs) in
theorem hasValue_wires {op : Op} {operands : List NodeId}
    (hx : g.plan.wires x = some (op, operands)) : ∃ s : Shape, ∀ v : Value α,
      g.HasValue inputs x v ↔ ∃ vs, List.Forall₂ (g.HasValue inputs) operands vs ∧
        Eval.apply inputs ⟨x, op⟩ s vs = .ok v := by
  obtain ⟨i, hi, he⟩ := Option.map_eq_some_iff.1 hx
  cases he
  obtain ⟨n, hn, hr, rfl⟩ := get?_of_plan hi
  refine ⟨n.shape, fun v => ?_⟩
  rw [hasValue_iff]
  constructor
  · rintro ⟨m, vs, hm, -, hvs, happ⟩
    rw [hn] at hm
    cases hm
    exact ⟨vs, hvs, happ⟩
  · rintro ⟨vs, hvs, happ⟩
    exact ⟨n, vs, hn, hr, hvs, happ⟩

omit [Element α] in
theorem exists_of_forall₂_toList {R : NodeId → Value α → Prop} {o : Option NodeId}
    {vs : List (Value α)} (h : List.Forall₂ R o.toList vs) :
    ∃ w : Option (Value α), vs = w.toList ∧ Option.Rel R o w := by
  cases o with
  | none =>
    cases h
    exact ⟨none, rfl, .none⟩
  | some y =>
    rcases h with _ | ⟨hy, _ | _⟩
    exact ⟨some _, rfl, .some hy⟩

theorem hasValue_of_scales {kind : Chain.Kind} {product column : NodeId} {third : Option NodeId}
    {p u : Value α} {w : Option (Value α)} (h : g.plan.Scales product kind third column)
    (hp : g.HasValue inputs product p) (hw : Option.Rel (g.HasValue inputs) third w)
    (hu : ∀ node, Eval.scaled node kind p w = .ok u) : g.HasValue inputs column u := by
  cases h with
  | XtXv =>
    cases hu ⟨0, .matMul⟩
    exact hp
  | XtwXv hcolumn =>
    rcases hw with hw | _
    obtain ⟨s, hs⟩ := hasValue_wires inputs hcolumn
    exact (hs u).2 ⟨_, .cons hw (.cons hp .nil), hu _⟩
  | XtXvy hcolumn =>
    rcases hw with hw | _
    obtain ⟨s, hs⟩ := hasValue_wires inputs hcolumn
    exact (hs u).2 ⟨_, .cons hp (.cons hw .nil), hu _⟩

variable [CommRing α] [RingElement α]

theorem hasValue_of_unfuses {chain root : NodeId} (hu : g.plan.Unfuses chain root) {r : Value α}
    (h : g.HasValue inputs chain r) : g.HasValue inputs root r := by
  obtain ⟨hchain, hproduct, hscales, htransposed, hroot⟩ := hu
  obtain ⟨_, hc⟩ := hasValue_wires inputs hchain
  obtain ⟨_, hp⟩ := hasValue_wires inputs hproduct
  obtain ⟨_, ht⟩ := hasValue_wires inputs htransposed
  obtain ⟨_, hr⟩ := hasValue_wires inputs hroot
  obtain ⟨vs, hvs, happ⟩ := (hc r).1 h
  rcases hvs with _ | ⟨hx, _ | ⟨hv, hthird⟩⟩
  obtain ⟨w, rfl, hw⟩ := exists_of_forall₂_toList hthird
  obtain ⟨x, v, w, m, rfl, rfl, rfl, hexec, rfl⟩ := Eval.chain_eq_ok_iff.1 happ
  obtain ⟨hkind, hdims, c, t, rfl, ht', rfl⟩ := Chain.execute_eq_ok_iff.1 hexec
  have hproduct := (hp _).2 ⟨_, .cons hx (.cons hv .nil), Eval.matMul_ofColumn hdims.1 c⟩
  have hcolumn := hasValue_of_scales hscales hproduct hw fun _ =>
    Eval.scaled_ofColumn hkind hdims.1 ht' _
  have htransposed := (ht _).2 ⟨_, .cons hx .nil, rfl⟩
  exact (hr _).2 ⟨_, .cons htransposed (.cons hcolumn .nil), Eval.matMul_transpose hdims.2 _⟩

end Graph

/-- The sweep over the rows is the product it stands for, over every commutative ring. If a chain can
be computed, its product is a column with as many rows as `X` has columns, the operations one by one
give the same product, and so does every other number of workers. In a graph, the nodes that a chain
stands for evaluate to the same value as the chain. -/
theorem chain_eq_unfused {α : Type} [Element α] [CommRing α] [RingElement α] :
    (∀ {processors : Nat} {kind : Chain.Kind} {threads : Int} {x v w : Option (Matrix α)}
        {m : Matrix α}, Chain.execute processors kind threads x v w = .ok m →
      ∃ x' v', x = some x' ∧ v = some v' ∧ (m.rows = x'.cols ∧ m.cols = 1) ∧
        (∀ node, Eval.unfused node kind (.matrix x') (.matrix v') (w.map .matrix) =
          .ok (.matrix m)) ∧
        ∀ processors' threads', Chain.execute processors' kind threads' x v w = .ok m) ∧
    ∀ {g : Graph} {inputs : Inputs α} {chain root : NodeId} {vs : List (Value α)},
      g.plan.Unfuses chain root → g.evaluate inputs [chain] = .ok vs →
        g.evaluate inputs [root] = .ok vs := by
  constructor
  · intro processors kind threads x v w m h
    obtain ⟨x, v, rfl, rfl⟩ := Chain.some_of_execute h
    refine ⟨x, v, rfl, rfl, Chain.execute_dims h, fun _ => Eval.unfused_of_execute h, ?_⟩
    intro processors' threads'
    exact Chain.execute_eq_ok_iff.2 (Chain.execute_eq_ok_iff.1 h)
  · intro g inputs chain root vs hu h
    rcases Graph.hasValue_of_evaluate h with _ | ⟨hchain, _ | _⟩
    have hroot := Graph.hasValue_of_unfuses hu hchain
    exact Graph.evaluate_of_value (.cons hroot.value_eq .nil)

def weightedChain : Graph :=
  (Graph.empty "g").afterCalls [.matrix "X" 5 2 (-1), .matrix "v" 2 1 (-1), .matrix "w" 5 1 (-1),
    .matMul 0 1, .binary .mult 2 3, .transpose 0, .matMul 5 4, .chain .XtwXv 4 [0, 1, 2]]

namespace weightedChain

/-- Rows of which the second one has scale zero. -/
def x : Matrix Int := .ofFn 5 2 fun i j => 3 * (i.val : Int) - 2 * j.val - 1

def v : Matrix Int := .ofFn 2 1 fun i _ => i.val

def w : Matrix Int := .ofFn 5 1 fun i _ => i.val + 2

def result : Matrix Int := .ofFn 2 1 fun j _ => if j = 0 then 900 else 720

def inputs : Inputs Int where
  lookup name :=
    if name = "X" then some (.matrix x)
    else if name = "v" then some (.matrix v)
    else if name = "w" then some (.matrix w)
    else none
  processors := 4

end weightedChain

theorem chain_eq_unfused_weightedChain :
    Chain.execute 1 .XtwXv 4 (some weightedChain.x) (some weightedChain.v)
      (some weightedChain.w) = .ok weightedChain.result ∧
    Chain.execute 3 .XtwXv 0 (some weightedChain.x) (some weightedChain.v)
      (some weightedChain.w) = .ok weightedChain.result ∧
    weightedChain.evaluate weightedChain.inputs [7] = .ok [.matrix weightedChain.result] ∧
    weightedChain.evaluate weightedChain.inputs [6] = .ok [.matrix weightedChain.result] := by
  have hrun : Chain.execute 1 .XtwXv 4 (some weightedChain.x) (some weightedChain.v)
      (some weightedChain.w) = .ok weightedChain.result := by decide +kernel
  have heval : weightedChain.evaluate weightedChain.inputs [7] =
      .ok [.matrix weightedChain.result] := by decide +kernel
  have hwires : weightedChain.plan.wires 7 = some (.chain .XtwXv 4, [0, 1, 2]) ∧
      weightedChain.plan.wires 3 = some (.matMul, [0, 1]) ∧
      weightedChain.plan.wires 4 = some (.binary .mult, [2, 3]) ∧
      weightedChain.plan.wires 5 = some (.transpose, [0]) ∧
      weightedChain.plan.wires 6 = some (.matMul, [5, 4]) := by decide +kernel
  obtain ⟨hchain, hproduct, hcolumn, htransposed, hroot⟩ := hwires
  have hu : weightedChain.plan.Unfuses 7 6 :=
    .intro hchain hproduct (.XtwXv hcolumn) htransposed hroot
  obtain ⟨hexecute, hevaluate⟩ := chain_eq_unfused (α := Int)
  obtain ⟨_, _, _, _, _, _, hall⟩ := hexecute hrun
  exact ⟨hrun, hall 3 0, heval, hevaluate hu heval⟩

end LinearPlan
