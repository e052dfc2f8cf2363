import LinearPlan.Proofs.Slices
import LinearPlan.Proofs.Soundness
import LinearPlan.Proofs.CallSequences
import LinearPlan.Proofs.ExactArithmetic

/-!
# Shapes and values

The shape of a node says which values it can have. A profile admits scalars, or the matrices whose
dimensions are those that are known; every operation takes admitted values of its operands to values
that the profile of its result admits. Two things have to be right beyond the shapes: bounds that are
flagged as equal are equal, and a literal stands for the integer it is.

Sizes are 64-bit integers, so matrices are assumed to have fewer than `2 ^ 63` rows and columns.
-/
namespace LinearPlan

namespace Dim

def Admits : Dim → Nat → Prop
  | .one, n => n = 1
  | .any, _ => True
  | .known k, n => n = k ∧ n ≠ 1
  | .clash, _ => False

theorem admits_ofInt {d : Int} {n : Nat} : (ofInt d).Admits n ↔ (0 ≤ d → d = n) := by
  unfold ofInt
  split
  · simp only [Admits, true_iff]
    omega
  · split
    · simp only [Admits]
      omega
    · simp only [Admits]
      omega

theorem Admits.sup {a b : Dim} {m n d : Nat} (ha : a.Admits m) (hb : b.Admits n)
    (h : Matrix.commonDim? m n = some d) : (a ⊔ b).Admits d := by
  rw [sup_eq_join]
  unfold Matrix.commonDim? at h
  cases a <;> cases b <;> simp only [Admits, join] at * <;> grind [Admits]

end Dim

namespace Profile
variable {α : Type}

def Admits : Profile → Value α → Prop
  | .scalar, .scalar _ => True
  | .matrix r c, .matrix m => r.Admits m.rows ∧ c.Admits m.cols
  | _, _ => False

theorem Admits.matrix {p : Profile} {m : Matrix α} (h : p.Admits (.matrix m)) :
    ∃ r c, p = .matrix r c ∧ r.Admits m.rows ∧ c.Admits m.cols := by
  cases p with
  | matrix r c => exact ⟨r, c, rfl, h⟩
  | scalar => cases h
  | other _ => cases h

theorem Admits.scalar {p : Profile} {a : α} (h : p.Admits (.scalar a)) : p = .scalar := by
  cases p with
  | scalar => rfl
  | matrix r c => cases h
  | other _ => cases h

/-- Scalars and matrices. -/
def Numeric : Profile → Prop
  | .other _ => False
  | _ => True

end Profile

namespace Value
variable {α : Type}

def Within (n : Nat) (v : Value α) : Prop := v.rows < n ∧ v.cols < n

instance (n : Nat) (v : Value α) : Decidable (v.Within n) := inferInstanceAs (Decidable (_ ∧ _))

theorem within_of_ite {n : Nat} {a b : String} {u v : Value α} (hu : u.Within n) (hv : v.Within n)
    (name : String) (w : Value α)
    (h : (if name = a then some u else if name = b then some v else none) = some w) :
    w.Within n := by
  split at h
  · cases h
    exact hu
  · split at h <;> cases h
    exact hv

end Value

/-- Whether bounds that are flagged as equal stand for the same integer. -/
def Op.Honest {α : Type} [Element α] : Op → List (Value α) → Prop
  | .indexing flags, [_, rl, ru, cl, cu] =>
    (flags.row = true → rl.index? = ru.index?) ∧ (flags.col = true → cl.index? = cu.index?)
  | .leftIndexing flags, [_, _, rl, ru, cl, cu] =>
    (flags.row = true → rl.index? = ru.index?) ∧ (flags.col = true → cl.index? = cu.index?)
  | _, _ => True

/-- A value fits an item: its profile allows it, and a literal has the integer it stands for. -/
structure Item.Describes {α : Type} [Element α] (i : Item) (v : Value α) : Prop where
  profile : i.profile.Admits v
  literal : ∀ k, i.op.literalInt? = some k → v.index? = some k

namespace Chain
variable {α : Type} [Element α]

theorem length_addTo {acc xs : List α} {n : Nat} (ha : acc.length = n) (hx : xs.length = n) :
    (addTo acc xs).length = n := by
  simp [addTo, ha, hx]

theorem length_foldl_addTo {n : Nat} {l : List (List α)} (hl : ∀ xs ∈ l, xs.length = n)
    {acc : List α} (ha : acc.length = n) : (l.foldl addTo acc).length = n := by
  induction l generalizing acc with
  | nil => exact ha
  | cons xs l ih =>
    exact ih (fun ys hys => hl ys (List.mem_cons_of_mem xs hys))
      (length_addTo ha (hl xs List.mem_cons_self))

theorem length_foldl_accumulate {kind : Kind} {v : List α} {n : Nat} {rows : List (List α × α)}
    (hrows : ∀ r ∈ rows, r.1.length = n) {acc : List α} (ha : acc.length = n) :
    (rows.foldl (accumulate kind v) acc).length = n := by
  induction rows generalizing acc with
  | nil => exact ha
  | cons r rows ih =>
    refine ih (fun q hq => hrows q (List.mem_cons_of_mem r hq)) ?_
    unfold accumulate
    dsimp only
    split
    · exact ha
    · refine length_addTo ha ?_
      simpa using hrows r List.mem_cons_self

theorem length_sweep {kind : Kind} {n : Nat} {v : List α} {rows : List (List α × α)}
    (hrows : ∀ r ∈ rows, r.1.length = n) (ranges : List (Nat × Nat)) :
    (sweep kind n v rows ranges).length = n := by
  unfold sweep
  refine length_foldl_addTo (fun xs hxs => ?_) List.length_replicate
  obtain ⟨r, -, rfl⟩ := List.mem_map.1 hxs
  refine length_foldl_accumulate (fun q hq => hrows q ?_) List.length_replicate
  exact List.mem_of_mem_drop (List.mem_of_mem_take hq)

theorem execute_dims {processors : Nat} {kind : Kind} {threads : Int} {x v m : Matrix α}
    {w : Option (Matrix α)} (h : execute processors kind threads (some x) (some v) w = .ok m) :
    m.rows = x.cols ∧ m.cols = 1 := by
  unfold execute at h
  split at h
  · cases h
  dsimp only at h
  split at h
  · cases h
  split at h
  · split at h
    · cases h
    · cases h
      refine ⟨length_sweep (fun r hr => ?_) _, rfl⟩
      obtain ⟨xs, hxs, he⟩ := List.mem_map.1 (List.of_mem_zip hr).1
      rw [← he]
      exact Vector.length_toList
  · cases h

end Chain

namespace Eval
variable {α : Type} [Element α] {node : NodeRef} {inputs : Inputs α} {v : Value α}

omit [Element α] in
theorem data_eq_ok_iff {s : Shape} (hs : s.profile.Numeric) {o : Option (Value α)} :
    data node s o = .ok v ↔ o = some v ∧ s.profile.Admits v := by
  unfold data
  cases o with
  | none => simp
  | some u =>
    unfold Shape.profile at *
    cases hd : s.dataType <;> simp only [hd, Profile.Numeric] at hs ⊢
    · cases u with
      | scalar a =>
        simp only [Option.some.injEq, Except.ok.injEq]
        constructor
        · rintro rfl
          exact ⟨rfl, trivial⟩
        · exact fun h => h.1
      | matrix m =>
        simp only [Option.some.injEq, reduceCtorEq, false_iff]
        rintro ⟨rfl, h⟩
        exact h
    · cases u with
      | scalar a =>
        simp only [Option.some.injEq, reduceCtorEq, false_iff]
        rintro ⟨rfl, h⟩
        exact h
      | matrix m =>
        dsimp only
        split
        · rename_i hne
          simp only [Option.some.injEq, reduceCtorEq, false_iff]
          rintro ⟨rfl, hr, hc⟩
          rw [Dim.admits_ofInt] at hr hc
          omega
        · rename_i hne
          simp only [Option.some.injEq, Except.ok.injEq]
          constructor
          · rintro rfl
            refine ⟨rfl, Dim.admits_ofInt.2 ?_, Dim.admits_ofInt.2 ?_⟩ <;> omega
          · exact fun h => h.1

omit [Element α] in
theorem eq_some_of_data {s : Shape} {o : Option (Value α)} (h : data node s o = .ok v) : o = some v := by
  unfold data at h
  split at h
  · cases h
  · split at h
    · cases h
    · cases h
    · split at h <;> cases h
      rfl
    · cases h
      rfl

omit [Element α] in
theorem zip_dims {f : α → α → α} {a b : Matrix α} (h : zip node f a b = .ok v) :
    ∃ m, v = .matrix m ∧ Matrix.commonDim? a.rows b.rows = some m.rows ∧
      Matrix.commonDim? a.cols b.cols = some m.cols := by
  unfold zip at h
  split at h
  · cases h
  · split at h
    · cases h
    · rename_i hr _ hc
      obtain ⟨-, rfl⟩ := nonempty_eq_ok_iff.1 h
      exact ⟨_, rfl, hr, hc⟩

omit [Element α] in
theorem elementwise_admits {f : α → α → α} {a b : Value α} {p q : Profile}
    (h : elementwise node f a b = .ok v) (ha : p.Admits a) (hb : q.Admits b) :
    (p ⊔ q).Admits v := by
  rw [Profile.sup_eq_join]
  cases a with
  | scalar a =>
    obtain rfl := ha.scalar
    cases b with
    | scalar b =>
      obtain rfl := hb.scalar
      cases h
      trivial
    | matrix n =>
      obtain ⟨r, c, rfl, hrc⟩ := hb.matrix
      obtain ⟨-, rfl⟩ := nonempty_eq_ok_iff.1 h
      exact hrc
  | matrix m =>
    obtain ⟨r, c, rfl, hr, hc⟩ := ha.matrix
    cases b with
    | scalar b =>
      obtain rfl := hb.scalar
      obtain ⟨-, rfl⟩ := nonempty_eq_ok_iff.1 h
      exact ⟨hr, hc⟩
    | matrix n =>
      obtain ⟨r', c', rfl, hr', hc'⟩ := hb.matrix
      obtain ⟨k, rfl, hrows, hcols⟩ := zip_dims h
      exact ⟨hr.sup hr' hrows, hc.sup hc' hcols⟩

theorem binary_eq_ok_iff {op : BinaryOp} {a b : Value α} :
    binary node op a b = .ok v ↔ ∃ f, elementFn? op = some f ∧ elementwise node f a b = .ok v := by
  unfold binary
  cases elementFn? (α := α) op <;> simp

theorem matMul_dims {a b : Value α} (h : matMul node a b = .ok v) :
    ∃ m n k, a = .matrix m ∧ b = .matrix n ∧ v = .matrix k ∧ k.rows = m.rows ∧ k.cols = n.cols := by
  simp only [matMul, Outcome.bind_eq_ok_iff, asMatrix_eq_ok_iff] at h
  obtain ⟨m, rfl, n, rfl, h⟩ := h
  split at h
  · obtain ⟨-, rfl⟩ := nonempty_eq_ok_iff.1 h
    exact ⟨m, n, _, rfl, rfl, rfl, rfl, rfl⟩
  · cases h

def chainOutcome (node : NodeRef) : Except Chain.Fault (Matrix α) → Except (EvalFault α) (Value α)
  | .ok m => .ok (.matrix m)
  | .error cause => .error (.chain node cause)

omit [Element α] in
theorem chainOutcome_eq_ok_iff {outcome : Except Chain.Fault (Matrix α)} :
    chainOutcome node outcome = .ok v ↔ ∃ m, outcome = .ok m ∧ v = .matrix m := by
  cases outcome <;> simp [chainOutcome, eq_comm]

theorem chain_dims {processors : Nat} {kind : Chain.Kind} {threads : Int} {vs : List (Value α)}
    (h : chain processors node kind threads vs = .ok v) :
    ∃ x rest m, vs = .matrix x :: rest ∧ v = .matrix m ∧ m.rows = x.cols ∧ m.cols = 1 := by
  unfold chain at h
  split at h
  · rename_i a b rest
    have hboth : ∃ third, (asMatrix node a >>= fun x => asMatrix node b >>= fun y =>
        chainOutcome node (Chain.execute processors kind threads (some x) (some y) third)) = .ok v := by
      dsimp only at h
      split at h
      · obtain ⟨third, -, h⟩ := Outcome.bind_eq_ok_iff.1 h
        exact ⟨third, h⟩
      · obtain ⟨third, -, h⟩ := Outcome.bind_eq_ok_iff.1 h
        exact ⟨third, h⟩
    simp only [Outcome.bind_eq_ok_iff, asMatrix_eq_ok_iff, chainOutcome_eq_ok_iff] at hboth
    obtain ⟨third, x, rfl, y, rfl, m, hexec, rfl⟩ := hboth
    exact ⟨x, _, m, rfl, rfl, Chain.execute_dims hexec⟩
  · dsimp only at h
    split at h
    · obtain ⟨third, -, h⟩ := Outcome.bind_eq_ok_iff.1 h
      cases h
    · cases h

omit [Element α] in
theorem admits_extent {equal : Bool} {lo hi : Option Int} {lower upper : Int} {n : Nat}
    (hb : Inside lower upper n) (hn : n < 2 ^ 63) (he : equal = true → lower = upper)
    (hlo : ∀ k, lo = some k → lower = k) (hhi : ∀ k, hi = some k → upper = k) :
    (Dim.ofInt (Shape.extent equal lo hi)).Admits (upper - lower + 1).toNat := by
  obtain ⟨h1, hle, hup⟩ := hb
  rw [Dim.admits_ofInt]
  unfold Shape.extent
  split
  · have := he ‹_›
    omega
  · split
    · rename_i lo hi
      obtain rfl := hlo _ rfl
      obtain rfl := hhi _ rfl
      have hlt : ¬ upper < lower := by omega
      have hpow : Nat.pow 2 64 = 2 ^ 64 := rfl
      rw [if_neg hlt, hpow, Int.bmod_eq_of_le (by omega) (by omega)]
      omega
    · omega

theorem indexing_admits {flags : SliceFlags} {rl ru cl cu : Item} {t a b c d : Value α}
    (h : indexing node t a b c d = .ok v) (ht : t.Within (2 ^ 63))
    (ha : rl.Describes a) (hb : ru.Describes b) (hc : cl.Describes c) (hd : cu.Describes d)
    (hh : (Op.indexing flags).Honest [t, a, b, c, d]) :
    (Profile.matrix (.ofInt (Shape.extent flags.row rl.op.literalInt? ru.op.literalInt?))
      (.ofInt (Shape.extent flags.col cl.op.literalInt? cu.op.literalInt?))).Admits v := by
  obtain ⟨m, blk, rfl, hblk, rfl⟩ := indexing_eq_ok_iff.1 h
  obtain ⟨rl', ru', cl', cu', ⟨hrl, hru, hcl, hcu⟩, hblk⟩ := blockOf_eq_ok_iff.1 hblk
  obtain ⟨⟨hrows, hcols⟩, -, -, hheight, hwidth⟩ := block_eq_ok_iff.1 hblk
  have hsame : ∀ {i : Item} {u : Value α} {n : Int}, i.Describes u → u.index? = some n →
      ∀ k, i.op.literalInt? = some k → n = k := fun hi hu k hk => by
    rw [hi.literal k hk] at hu
    exact (Option.some.inj hu).symm
  refine ⟨?_, ?_⟩
  · show Dim.Admits _ blk.height
    rw [hheight]
    refine admits_extent hrows ht.1 (fun hf => ?_) (hsame ha hrl) (hsame hb hru)
    have heq := hh.1 hf
    rw [hrl, hru] at heq
    exact Option.some.inj heq
  · show Dim.Admits _ blk.width
    rw [hwidth]
    refine admits_extent hcols ht.2 (fun hf => ?_) (hsame hc hcl) (hsame hd hcu)
    have heq := hh.2 hf
    rw [hcl, hcu] at heq
    exact Option.some.inj heq

theorem admits_apply {own p : Profile} {op : Op} {x : NodeId} {s : Shape} {is : List Item}
    {vs : List (Value α)} (hp : own.sizeFrom op is = some p)
    (hvs : List.Forall₂ Item.Describes is vs) (hw : ∀ u ∈ vs, u.Within (2 ^ 63))
    (hh : op.Honest vs) (hdata : op = .data op.name → s.profile = own ∧ own.Numeric)
    (h : apply inputs ⟨x, op⟩ s vs = .ok v) : p.Admits v := by
  cases op with
  | data name =>
    obtain ⟨rfl, hn⟩ := hdata rfl
    cases hp
    exact ((data_eq_ok_iff hn).1 h).2
  | literal value =>
    cases hp
    cases h
    trivial
  | write name =>
    rcases hvs with _ | ⟨hx, -⟩
    · cases hp
    · cases hp
      cases h
      exact hx.profile
  | unary op =>
    cases hp
    rcases hvs with _ | ⟨hx, -⟩
    · cases h
    · cases op with
      | unknown code => cases h
      | _ =>
        cases h
        trivial
  | binary op =>
    rcases hvs with _ | ⟨ha, _ | ⟨hb, _ | _⟩⟩
    · cases hp
    · cases hp
    · obtain ⟨f, -, hf⟩ := binary_eq_ok_iff.1 h
      simp only [Profile.sizeFrom] at hp
      split at hp
      · cases hp
        exact elementwise_admits hf ha.profile hb.profile
      · cases hp
    · cases hp
  | matMul =>
    rcases hvs with _ | ⟨ha, _ | ⟨hb, _ | _⟩⟩
    · cases hp
    · cases hp
    · obtain ⟨m, n, k, rfl, rfl, rfl, hrows, hcols⟩ := matMul_dims h
      obtain ⟨r, i, hpa, hr, -⟩ := ha.profile.matrix
      obtain ⟨i', c, hpb, -, hc⟩ := hb.profile.matrix
      simp only [Profile.sizeFrom, hpa, hpb] at hp
      split at hp
      · cases hp
        exact ⟨hrows ▸ hr, hcols ▸ hc⟩
      · cases hp
    · cases hp
  | transpose =>
    rcases hvs with _ | ⟨hx, _ | _⟩
    · cases hp
    · rename_i i u
      cases hp
      cases h
      cases u with
      | scalar a =>
        rw [hx.profile.scalar]
        trivial
      | matrix m =>
        obtain ⟨r, c, hpx, hr, hc⟩ := hx.profile.matrix
        rw [hpx]
        exact ⟨hc, hr⟩
    · cases hp
  | indexing flags =>
    rcases hvs with _ | ⟨ht, _ | ⟨ha, _ | ⟨hb, _ | ⟨hc, _ | ⟨hd, _ | _⟩⟩⟩⟩⟩
    all_goals try cases hp
    exact indexing_admits h (hw _ List.mem_cons_self) ha hb hc hd hh
  | leftIndexing flags =>
    rcases hvs with _ | ⟨ht, hrest⟩
    · cases hp
    · cases hp
      rcases hrest with _ | ⟨-, _ | ⟨-, _ | ⟨-, _ | ⟨-, _ | ⟨-, -⟩⟩⟩⟩⟩
      all_goals try cases h
      obtain ⟨m, blk, rfl, -, hwrite⟩ := leftIndexing_eq_ok_iff.1 h
      obtain ⟨m', rfl, hrows, hcols⟩ := writeBlock_dims hwrite
      obtain ⟨r, c, hpt, hr, hc⟩ := ht.profile.matrix
      rw [hpt]
      exact ⟨hrows ▸ hr, hcols ▸ hc⟩
  | chain kind threads =>
    obtain ⟨m, rest, k, rfl, rfl, hrows, hcols⟩ := chain_dims h
    rcases hvs with _ | ⟨hx, -⟩
    cases hp
    obtain ⟨r, c, hpx, -, hc⟩ := hx.profile.matrix
    rw [hpx]
    exact ⟨hrows ▸ hc, hcols⟩
  | unknown code => cases h

theorem within_apply {op : Op} {x : NodeId} {s : Shape} {vs : List (Value α)} {n : Nat}
    (hn : 1 < n) (hin : ∀ name u, inputs name = some u → u.Within n) (hw : ∀ u ∈ vs, u.Within n)
    (h : apply inputs ⟨x, op⟩ s vs = .ok v) : v.Within n := by
  have hscalar : ∀ a : α, (Value.scalar a).Within n := fun _ => ⟨Nat.zero_lt_of_lt hn, Nat.zero_lt_of_lt hn⟩
  have hcommon : ∀ {a b d : Nat}, Matrix.commonDim? a b = some d → a < n → b < n → d < n := by
    intro a b d hd ha hb
    unfold Matrix.commonDim? at hd
    split at hd
    · cases hd
      exact ha
    · split at hd <;> cases hd
      exact hb
  cases op with
  | data name => exact hin name v (eq_some_of_data h)
  | literal value =>
    cases h
    exact hscalar _
  | write name =>
    rcases vs with _ | ⟨u, rest⟩
    · cases h
    · cases h
      exact hw _ List.mem_cons_self
  | unary op =>
    rcases vs with _ | ⟨u, rest⟩
    · cases h
    · cases op with
      | unknown code => cases h
      | _ =>
        cases h
        exact hscalar _
  | binary op =>
    rcases vs with _ | ⟨a, _ | ⟨b, rest⟩⟩
    · cases h
    · cases h
    · have ha : a.Within n := hw a (by simp)
      have hb : b.Within n := hw b (by simp)
      obtain ⟨f, -, hf⟩ := binary_eq_ok_iff.1 h
      cases a with
      | scalar a =>
        cases b with
        | scalar b =>
          cases hf
          exact hscalar _
        | matrix k =>
          obtain ⟨-, rfl⟩ := nonempty_eq_ok_iff.1 hf
          exact hb
      | matrix m =>
        cases b with
        | scalar b =>
          obtain ⟨-, rfl⟩ := nonempty_eq_ok_iff.1 hf
          exact ha
        | matrix k =>
          obtain ⟨r, rfl, hrows, hcols⟩ := zip_dims hf
          exact ⟨hcommon hrows ha.1 hb.1, hcommon hcols ha.2 hb.2⟩
  | matMul =>
    rcases vs with _ | ⟨a, _ | ⟨b, rest⟩⟩
    · cases h
    · cases h
    · obtain ⟨m, k, r, rfl, rfl, rfl, hrows, hcols⟩ := matMul_dims h
      have ha := hw (.matrix m) (by simp)
      have hb := hw (.matrix k) (by simp)
      exact ⟨hrows.trans_lt ha.1, hcols.trans_lt hb.2⟩
  | transpose =>
    rcases vs with _ | ⟨u, rest⟩
    · cases h
    · have hu := hw u List.mem_cons_self
      cases h
      cases u with
      | scalar a => exact hscalar _
      | matrix m => exact ⟨hu.2, hu.1⟩
  | indexing flags =>
    rcases vs with _ | ⟨t, _ | ⟨a, _ | ⟨b, _ | ⟨c, _ | ⟨d, rest⟩⟩⟩⟩⟩
    all_goals try cases h
    obtain ⟨m, blk, rfl, -, rfl⟩ := indexing_eq_ok_iff.1 h
    have ht := hw (.matrix m) List.mem_cons_self
    have hr : blk.height ≤ m.rows := le_trans (Nat.le_add_left ..) blk.top_add_height_le
    have hc : blk.width ≤ m.cols := le_trans (Nat.le_add_left ..) blk.left_add_width_le
    exact ⟨hr.trans_lt ht.1, hc.trans_lt ht.2⟩
  | leftIndexing flags =>
    rcases vs with _ | ⟨t, _ | ⟨u, _ | ⟨a, _ | ⟨b, _ | ⟨c, _ | ⟨d, rest⟩⟩⟩⟩⟩⟩
    all_goals try cases h
    obtain ⟨m, blk, rfl, -, hwrite⟩ := leftIndexing_eq_ok_iff.1 h
    obtain ⟨m', rfl, hrows, hcols⟩ := writeBlock_dims hwrite
    have ht := hw (.matrix m) List.mem_cons_self
    exact ⟨hrows.trans_lt ht.1, hcols.trans_lt ht.2⟩
  | chain kind threads =>
    obtain ⟨m, rest, k, rfl, rfl, hrows, hcols⟩ := chain_dims h
    have ht := hw (.matrix m) List.mem_cons_self
    exact ⟨hrows.trans_lt ht.2, hcols.trans_lt hn⟩
  | unknown code => cases h

theorem describes_apply {i : Item} {x : NodeId} {s : Shape} {is : List Item} {vs : List (Value α)}
    {n : Nat} (hn : 1 < n) (hle : n ≤ 2 ^ 63)
    (hin : ∀ name u, inputs name = some u → u.Within n)
    (hsize : i.profile.sizeFrom i.op is = some i.profile)
    (hvs : List.Forall₂ (fun j u => j.Describes u ∧ u.Within n) is vs) (hh : i.op.Honest vs)
    (hdata : i.op = .data i.op.name → s.profile = i.profile ∧ i.profile.Numeric)
    (hlit : ∀ value, i.op = .literal value →
      Element.toInt? (Element.ofNumber value : α) = value.toInt?)
    (h : apply inputs ⟨x, i.op⟩ s vs = .ok v) : i.Describes v ∧ v.Within n := by
  have hwithin : ∀ u ∈ vs, u.Within n := fun u hu => by
    obtain ⟨j, -, hj⟩ := Outcome.exists_of_forall₂_right hvs hu
    exact hj.2
  refine ⟨⟨?_, fun k hk => ?_⟩, within_apply hn hin hwithin h⟩
  · refine admits_apply hsize (hvs.imp fun _ _ hj => hj.1) (fun u hu => ?_) hh hdata h
    exact ⟨(hwithin u hu).1.trans_le hle, (hwithin u hu).2.trans_le hle⟩
  · cases hop : i.op with
    | literal value =>
      rw [hop] at h hk
      cases h
      exact (hlit value hop).trans hk
    | _ =>
      rw [hop] at hk
      cases hk

end Eval

namespace Shape
variable {α : Type} {s : Shape} {v : Value α}

theorem dims_of_admits (hl : s.Legal) (h : s.profile.Admits v) :
    (0 ≤ s.rows → s.rows = v.rows) ∧ (0 ≤ s.cols → s.cols = v.cols) := by
  cases v with
  | scalar a =>
    have hs := isScalar_iff.2 h.scalar
    unfold Legal at hl
    rw [show s.dataType = .scalar from eq_of_beq hs] at hl
    simp [Value.rows, Value.cols, hl.1, hl.2]
  | matrix m =>
    obtain ⟨r, c, hp, hr, hc⟩ := h.matrix
    rw [profile_of_isMatrix (isMatrix_iff.2 ⟨r, c, hp⟩)] at hp
    cases hp
    exact ⟨Dim.admits_ofInt.1 hr, Dim.admits_ofInt.1 hc⟩

theorem isScalar_of_admits (h : s.profile.Admits v) : s.isScalar = v.isScalar := by
  cases v with
  | scalar a => exact isScalar_iff.2 h.scalar
  | matrix m =>
    obtain ⟨r, c, hp, -⟩ := h.matrix
    refine Bool.eq_false_of_not_eq_true fun hs => ?_
    rw [isScalar_iff.1 hs] at hp
    cases hp

end Shape

theorem forall₂_filterMap {ι κ β : Type} {f : ι → Option κ} {R : κ → β → Prop} {l : List ι}
    {us : List β} (h : List.Forall₂ (fun y u => ∃ m, f y = some m ∧ R m u) l us) :
    List.Forall₂ R (l.filterMap f) us := by
  induction h with
  | nil => exact .nil
  | cons hy _ ih =>
    obtain ⟨m, hm, hR⟩ := hy
    rw [List.filterMap_cons_some hm]
    exact .cons hR ih

namespace Graph
variable {α : Type} [Element α] {g : Graph} {inputs : Inputs α}
  {x : NodeId} {n : Node} {v : Value α}

/-- Variables are declared as scalars or as matrices. -/
def Numeric (g : Graph) : Prop :=
  ∀ x n, g.get? x = some n → n.retired = false → n.op = .data n.op.name → ∃ rows cols nnz,
    n.shape = .declared .scalar rows cols nnz ∨ n.shape = .declared .matrix rows cols nnz

/-- Bounds that are flagged as equal are equal, wherever they have values. -/
def Honest (g : Graph) (inputs : Inputs α) : Prop :=
  ∀ x n vs, g.get? x = some n → n.retired = false →
    List.Forall₂ (g.HasValue inputs) n.inputs vs → n.op.Honest vs

/-- As an element, a literal of the graph stands for the integer it is. -/
def ReadsLiterals (g : Graph) (α : Type) [Element α] : Prop :=
  ∀ x n value, g.get? x = some n → n.op = .literal value →
    Element.toInt? (Element.ofNumber value : α) = value.toInt?

theorem Numeric.profile (h : g.Numeric) (hn : g.get? x = some n) (hr : n.retired = false)
    (hop : n.op = .data n.op.name) : n.shape.Legal ∧ n.shape.profile.Numeric := by
  obtain ⟨rows, cols, nnz, hs | hs⟩ := h x n hn hr hop
  · rw [hs]
    exact ⟨Shape.legal_ofScalar _, trivial⟩
  · rw [hs]
    exact ⟨Shape.legal_matrix .., trivial⟩

theorem Refreshed.sizeFrom_eq (hs : g.Refreshed) (hn : g.get? x = some n) (hr : n.retired = false)
    (hop : needsArity n.op = true) (hres : g.Resolves n)
    (hlegal : ∀ m ∈ g.operands n, m.shape.Legal) : n.shape.Legal ∧
      n.shape.profile.sizeFrom n.op ((g.operands n).map Node.item) = some n.shape.profile := by
  have hsize := hs.sizeNode_eq hn hr
  have ha := arity_of_sizeNode hsize hop
  rw [Graph.sizeNode_eq hres ha] at hsize
  have hown : n.op = .data n.op.name → n.shape.Legal := fun hd => by
    rw [hd] at hop
    cases hop
  rcases Shape.sizeFrom_cases ⟨x, n.op⟩ (hres.length_operands.symm ▸ ha) hown hlegal with
    ⟨s, hok, hl, hp⟩ | ⟨⟨fault, hf⟩, -⟩
  · rw [hok] at hsize
    cases hsize
    exact ⟨hl, hp⟩
  · rw [hf] at hsize
    cases hsize

theorem resolves_of_hasValue {vs : List (Value α)}
    (h : List.Forall₂ (g.HasValue inputs) n.inputs vs) : g.Resolves n := fun y hy => by
  obtain ⟨u, -, hu⟩ := Outcome.exists_of_forall₂_left h hy
  obtain ⟨m, -, hm, -⟩ := hasValue_iff.1 hu
  exact ⟨m.core, core?_eq_some hm⟩

theorem forall₂_operands {R : Node → Value α → Prop} {vs : List (Value α)}
    (h : List.Forall₂ (g.HasValue inputs) n.inputs vs)
    (hR : List.Forall₂ (fun y u => ∀ m, g.get? y = some m → R m.core u) n.inputs vs) :
    List.Forall₂ R (g.operands n) vs := by
  refine forall₂_filterMap (List.Forall₂.mp (fun y u hyval hy => ?_) h hR)
  obtain ⟨m, -, hm, -⟩ := hasValue_iff.1 hyval
  exact ⟨m.core, core?_eq_some hm, hy m hm⟩

theorem describes_of_hasValue (hs : g.Refreshed) (hd : g.Numeric) (hl : g.ReadsLiterals α)
    (hh : g.Honest inputs) (hin : ∀ name u, inputs name = some u → u.Within (2 ^ 63))
    (h : g.HasValue inputs x v) :
    ∀ n, g.get? x = some n → n.shape.Legal ∧ n.item.Describes v ∧ v.Within (2 ^ 63) := by
  refine h.induct (motive := fun x v => ∀ n, g.get? x = some n →
    n.shape.Legal ∧ n.item.Describes v ∧ v.Within (2 ^ 63)) fun {x n vs v} hn hr hval hvs happ => ?_
  intro n' hn'
  rw [hn] at hn'
  cases hn'
  have hops : List.Forall₂ (fun m u => m.shape.Legal ∧ m.item.Describes u ∧ u.Within (2 ^ 63))
      (g.operands n) vs := forall₂_operands hval hvs
  have hres := resolves_of_hasValue hval
  have hlegal : ∀ m ∈ g.operands n, m.shape.Legal := fun m hm => by
    obtain ⟨u, -, hu⟩ := Outcome.exists_of_forall₂_left hops hm
    exact hu.1
  -- Variables and literals are sized whatever their operands, all other nodes by their operands.
  have hsize : n.shape.Legal ∧
      n.shape.profile.sizeFrom n.op ((g.operands n).map Node.item) = some n.shape.profile := by
    cases hop : needsArity n.op with
    | true => exact hs.sizeFrom_eq hn hr hop hres hlegal
    | false =>
      cases hnop : n.op with
      | data name => exact ⟨(hd.profile hn hr (by rw [hnop]; rfl)).1, rfl⟩
      | literal value =>
        have hself := hs.sizeNode_eq hn hr
        unfold sizeNode sizeOperands at hself
        simp only [hnop, needsArity, Bool.false_eq_true, if_false, Except.ok.injEq] at hself
        rw [← hself]
        exact ⟨Shape.legal_ofScalar _, rfl⟩
      | _ =>
        rw [hnop] at hop
        cases hop
  refine ⟨hsize.1, Eval.describes_apply (i := n.item) (n := 2 ^ 63) (by decide) le_rfl hin hsize.2
    (List.forall₂_map_left_iff.2 (hops.imp fun _ _ hm => hm.2)) (hh x n vs hn hr hval)
    (fun hop => ⟨rfl, (hd.profile hn hr hop).2⟩) (fun value hop => hl x n value hn hop) happ⟩

theorem value_of_appends {m : Node} {g' : Graph} (happ : g.Appends m g') (hr : m.retired = false)
    {vs : List (Value α)}
    (hvs : List.Forall₂ (fun y u => g.value inputs y = .ok u) m.inputs vs)
    (hv : Eval.apply inputs ⟨g.size, m.op⟩ m.shape vs = .ok v) :
    g'.value inputs g.size = .ok v := by
  obtain ⟨m', hm', hcore⟩ := happ.get?_self
  obtain ⟨op, inputs, parents, shape, blocks, retired⟩ := m
  obtain ⟨op', inputs', parents', shape', blocks', retired'⟩ := m'
  cases hcore
  unfold value
  rw [happ.size]
  refine valueAt_succ_eq_ok_iff.2 ⟨_, vs, hm', hr, hvs.imp fun y u hy => ?_, hv⟩
  exact valueAt_of_core (fun hc => happ.core_of_some hc) hy

theorem evaluate_countNode (ha : g.plan.Acyclic) (hx : g.get? x = some n) (hr : n.retired = false)
    (hl : n.shape.Legal) (hp : n.shape.profile.Admits v) (hv : g.HasValue inputs x v)
    (columns : Bool) :
    ∃ c g', Edit.countNode x columns g = .ok c g' ∧ g'.evaluate inputs [c] =
      .ok [.scalar (Element.ofInt (if columns then v.cols else v.rows))] := by
  have hdims := Shape.dims_of_admits hl hp
  have hcount : 0 ≤ (if columns then n.shape.cols else n.shape.rows) →
      (if columns then n.shape.cols else n.shape.rows) =
        (if columns then (v.cols : Int) else v.rows) := by
    cases columns with
    | true => exact hdims.2
    | false => exact hdims.1
  have hrun : Edit.countNode x columns g =
      (if 0 ≤ (if columns then n.shape.cols else n.shape.rows) then
        Edit.literal (.ofInt (if columns then n.shape.cols else n.shape.rows))
      else Edit.unary (if columns then .ncol else .nrow) x : Edit NodeId) g :=
    Edit.bind_ok (Edit.live_run hx hr)
  rw [hrun]
  by_cases hknown : 0 ≤ (if columns then n.shape.cols else n.shape.rows)
  · rw [if_pos hknown, hcount hknown]
    have hadd := Edit.addNode_eq (g := g) (s := .ofLiteral _) (fun y hy => absurd hy List.not_mem_nil)
      (rfl : (Op.literal (.ofInt (if columns then (v.cols : Int) else v.rows))).arity? = _) rfl
    refine ⟨_, _, hadd, evaluate_of_value (.cons ?_ .nil)⟩
    exact value_of_appends (Edit.appends_extended ..) rfl .nil rfl
  · rw [if_neg hknown]
    have hlive : ∀ y ∈ [x], ∃ m, g.get? y = some m ∧ m.retired = false := fun y hy => by
      rw [List.mem_singleton.1 hy]
      exact ⟨n, hx, hr⟩
    have hval := (value_eq_ok_iff ha).2 hv
    cases columns with
    | true =>
      have hadd := Edit.addNode_eq (g := g) hlive (rfl : (Op.unary .ncol).arity? = _) rfl
      refine ⟨_, _, hadd, evaluate_of_value (.cons ?_ .nil)⟩
      exact value_of_appends (Edit.appends_extended ..) rfl (.cons hval .nil) rfl
    | false =>
      have hadd := Edit.addNode_eq (g := g) hlive (rfl : (Op.unary .nrow).arity? = _) rfl
      refine ⟨_, _, hadd, evaluate_of_value (.cons ?_ .nil)⟩
      exact value_of_appends (Edit.appends_extended ..) rfl (.cons hval .nil) rfl

/-- Shapes are right for evaluation. A node typed as a scalar evaluates to a scalar and one typed as
a matrix to a matrix, with the rows and columns that are known; and the node that counts rows or
columns evaluates to their number. -/
theorem evaluate_fits_shape (ha : g.plan.Acyclic) (hs : g.Refreshed) (hd : g.Numeric)
    (hl : g.ReadsLiterals α) (hh : g.Honest inputs)
    (hin : ∀ name u, inputs name = some u → u.Within (2 ^ 63)) (hx : g.get? x = some n)
    (hr : n.retired = false) (h : g.evaluate inputs [x] = .ok [v]) :
    (n.shape.dataType = .scalar → ∃ a, v = .scalar a) ∧
    (n.shape.dataType = .matrix → ∃ m, v = .matrix m ∧ (0 ≤ n.shape.rows → n.shape.rows = m.rows) ∧
      (0 ≤ n.shape.cols → n.shape.cols = m.cols)) ∧
    ∀ columns, ∃ c g', Edit.countNode x columns g = .ok c g' ∧ g'.evaluate inputs [c] =
      .ok [.scalar (Element.ofInt (if columns then v.cols else v.rows))] := by
  have hv : g.HasValue inputs x v := by
    have hall := hasValue_of_evaluate h
    rcases hall with _ | ⟨hv, -⟩
    exact hv
  obtain ⟨hlegal, hdesc, -⟩ := describes_of_hasValue hs hd hl hh hin hv n hx
  have hp : n.shape.profile.Admits v := hdesc.profile
  have htype := Shape.isScalar_of_admits hp
  have hdims := Shape.dims_of_admits hlegal hp
  refine ⟨fun ht => ?_, fun ht => ?_, evaluate_countNode ha hx hr hlegal hp hv⟩
  · cases v with
    | scalar a => exact ⟨a, rfl⟩
    | matrix m => simp [Shape.isScalar, ht, Value.isScalar] at htype
  · cases v with
    | scalar a => simp [Shape.isScalar, ht, Value.isScalar] at htype
    | matrix m => exact ⟨m, rfl, hdims⟩

def sameBounds : Op → List NodeId → Bool
  | .indexing flags, [_, rl, ru, cl, cu] => (!flags.row || rl == ru) && (!flags.col || cl == cu)
  | .leftIndexing flags, [_, _, rl, ru, cl, cu] =>
    (!flags.row || rl == ru) && (!flags.col || cl == cu)
  | _, _ => true

theorem honest_of_sameBounds
    (h : ∀ x ∈ g.ids, ∀ n ∈ g.get? x, sameBounds n.op n.inputs = true) : g.Honest inputs := by
  intro x n vs hn _ hvs
  have hsame := h x (mem_ids.2 (range_of_get? hn)) n hn
  have heq : ∀ {a b : NodeId} {u w : Value α}, g.HasValue inputs a u → g.HasValue inputs b w →
      a = b → u.index? = w.index? := by
    rintro a _ u w hu hw rfl
    rw [hu.unique hw]
  generalize n.inputs = ids at hvs hsame
  cases hop : n.op with
  | indexing flags =>
    rw [hop] at hsame
    rcases hvs with _ | ⟨-, _ | ⟨ha, _ | ⟨hb, _ | ⟨hc, _ | ⟨hd, _ | _⟩⟩⟩⟩⟩
    all_goals try trivial
    simp only [sameBounds, Bool.and_eq_true, Bool.or_eq_true, Bool.not_eq_true', beq_iff_eq] at hsame
    exact ⟨fun hf => heq ha hb (hsame.1.resolve_left (by simp [hf])),
      fun hf => heq hc hd (hsame.2.resolve_left (by simp [hf]))⟩
  | leftIndexing flags =>
    rw [hop] at hsame
    rcases hvs with _ | ⟨-, _ | ⟨-, _ | ⟨ha, _ | ⟨hb, _ | ⟨hc, _ | ⟨hd, _ | _⟩⟩⟩⟩⟩⟩
    all_goals try trivial
    simp only [sameBounds, Bool.and_eq_true, Bool.or_eq_true, Bool.not_eq_true', beq_iff_eq] at hsame
    exact ⟨fun hf => heq ha hb (hsame.1.resolve_left (by simp [hf])),
      fun hf => heq hc hd (hsame.2.resolve_left (by simp [hf]))⟩
  | _ => trivial

theorem numeric_of_ids (h : ∀ x ∈ g.ids, ∀ n ∈ g.get? x, n.op = .data n.op.name →
    (n.shape.isScalar || n.shape.isMatrix) = true ∧ n.shape =
      .declared n.shape.dataType n.shape.rows n.shape.cols n.shape.nnz) : g.Numeric := by
  intro x n hn _ hop
  obtain ⟨htype, hs⟩ := h x (mem_ids.2 (range_of_get? hn)) n hn hop
  refine ⟨n.shape.rows, n.shape.cols, n.shape.nnz, ?_⟩
  rcases Bool.or_eq_true_iff.1 htype with ht | ht
  · rw [eq_of_beq ht] at hs
    exact .inl hs
  · rw [eq_of_beq ht] at hs
    exact .inr hs

def repeatedRow : Graph :=
  (Graph.empty "g").afterCalls [.matrix "A" 3 (-1) (-1), .literal (.ofInt 2), .literal (.ofInt 3),
    .indexing ⟨true, false⟩ 0 1 1 1 2, .matrix "B" (-1) 2 (-1), .mult 3 4]

def repeatedRowInputs : Inputs (Option Int) where
  lookup name :=
    if name = "A" then some (.matrix (.ofFn 3 4 fun i j => some (i + 2 * j)))
    else if name = "B" then some (.matrix (.ofFn 2 2 fun i j => some (5 * i - j)))
    else none
  processors := 4

theorem evaluate_fits_shape_repeatedRow :
    repeatedRow.evaluate repeatedRowInputs [5] =
      .ok [.matrix (.ofFn 2 2 fun i j => some ((3 + 2 * j) * (5 * i - j)))] ∧
    (repeatedRow.get? 5).map (fun n => (n.shape.rows, n.shape.cols)) = some (-1, 2) ∧
    ∀ columns, ∃ c g', Edit.countNode 5 columns repeatedRow = .ok c g' ∧
      g'.evaluate repeatedRowInputs [c] = .ok [.scalar (some 2)] := by
  have hcheck : repeatedRow.check = .ok () := by decide +kernel
  have hsettled : repeatedRow.Refreshed := refreshed_of_settled (by decide +kernel)
  have hnumeric : repeatedRow.Numeric := numeric_of_ids (by decide +kernel)
  have hhonest : repeatedRow.Honest repeatedRowInputs := honest_of_sameBounds (by decide +kernel)
  have hin : ∀ name u, repeatedRowInputs name = some u → u.Within (2 ^ 63) := by
    intro name u hu
    simp only [repeatedRowInputs] at hu
    split at hu
    · cases hu
      decide
    · split at hu <;> cases hu
      decide
  have hval : repeatedRow.evaluate repeatedRowInputs [5] =
      .ok [.matrix (.ofFn 2 2 fun i j => some ((3 + 2 * j) * (5 * i - j)))] := by decide +kernel
  obtain ⟨n, hn, hr⟩ : ∃ n, repeatedRow.get? 5 = some n ∧ n.retired = false := by
    have hlive : (repeatedRow.get? 5).map Node.retired = some false := by decide +kernel
    exact Option.map_eq_some_iff.1 hlive
  refine ⟨hval, by decide +kernel, fun columns => ?_⟩
  obtain ⟨-, -, hcount⟩ := evaluate_fits_shape (check_eq_ok_iff.1 hcheck).2 hsettled hnumeric
    (fun _ _ _ _ _ => rfl) hhonest hin hn hr hval
  cases columns with
  | true => exact hcount true
  | false => exact hcount false

end Graph
end LinearPlan
