import LinearPlan.Proofs.Evaluation
import LinearPlan.Proofs.Histories

/-!
# Counts and extents along a history

A dimension or a non-zero bound is a count, or `-1` if it is not known. Sizing never gives less than that,
with one exception: the extent of a slice between two literals is computed in 64-bit arithmetic, and wraps if
it does not fit. As long as literals and extents fit, all counts are at least `-1` after any history, and the
extent of a slice is the exact number of rows or columns between its bounds, from the moment the slice was
sized until its flags or operands change.
-/
namespace LinearPlan

namespace Shape

/-- No count is below the one that stands for an unknown count. -/
structure Counted (s : Shape) : Prop where
  rows : -1 ≤ s.rows
  cols : -1 ≤ s.cols
  nnz : -1 ≤ s.nnz

theorem counted_ofScalar (t : ValueType) : (ofScalar t).Counted := by
  constructor <;> simp [ofScalar]

theorem counted_initial : initial.Counted := by
  constructor <;> simp [initial]

theorem counted_declared {dataType : DataType} {rows cols nnz : Int}
    (h : ∀ k ∈ [rows, cols, nnz], -1 ≤ k) : (declared dataType rows cols nnz).Counted := by
  simp only [List.forall_mem_cons] at h
  cases dataType with
  | matrix => exact ⟨h.1, h.2.1, h.2.2.1⟩
  | scalar => exact counted_ofScalar _
  | _ => constructor <;> simp [declared]

theorem le_of_broadcast? {a b c : Int} (h : broadcast? a b = some c) (ha : -1 ≤ a) (hb : -1 ≤ b) :
    -1 ≤ c := by
  simp only [broadcast?] at h
  split_ifs at h <;> simp only [Option.some.injEq] at h <;> omega

theorem le_multNnz (rows cols : Int) (lhs rhs : Shape) : -1 ≤ multNnz rows cols lhs rhs := by
  unfold multNnz
  split
  · omega
  · split <;> omega
  · split <;> omega

theorem le_binaryNnz {lhs : Shape} (hl : lhs.Counted) (op : BinaryOp) (rows cols : Int) (rhs : Shape)
    (exponent : Option Int) : -1 ≤ binaryNnz op rows cols lhs rhs exponent := by
  have hnnz := hl.nnz
  cases op with
  | mult => exact le_multNnz rows cols lhs rhs
  | pow =>
    simp only [binaryNnz, powNnz]
    split
    · split <;> omega
    · omega
  | _ => exact le_rfl

def span : Option Int → Option Int → Int
  | some lo, some hi => if lo ≤ hi then hi - lo + 1 else -1
  | _, _ => -1

theorem le_span (lo hi : Option Int) : -1 ≤ span lo hi := by
  unfold span
  split
  · split <;> omega
  · omega

theorem extent_eq_span {lo hi : Option Int} (h : span lo hi < 2 ^ 63) :
    extent false lo hi = span lo hi := by
  cases lo with
  | none => rfl
  | some a =>
    cases hi with
    | none => rfl
    | some b =>
      simp only [span] at h
      simp only [extent, span, Bool.false_eq_true, if_false]
      by_cases hle : a ≤ b
      · have hpow : Nat.pow 2 64 = 2 ^ 64 := rfl
        rw [if_pos hle] at h
        rw [if_neg (by omega), if_pos hle, hpow, Int.bmod_eq_of_le (by omega) (by omega)]
      · rw [if_pos (by omega), if_neg hle]

end Shape

/-- The result has one property or, if there is none, what was reached has another. -/
def Settles {α : Type} (P : α → Prop) (Q : Shape → Prop) : Except SizingFault α → Prop
  | .ok a => P a
  | .error fault => Q fault.reached

namespace Settles
variable {α β : Type} {P : α → Prop} {Q : Shape → Prop} {R : β → Prop}

theorem bind {e : Except SizingFault α} {f : α → Except SizingFault β} (he : Settles P Q e)
    (hf : ∀ a, P a → Settles R Q (f a)) : Settles R Q (e >>= f) := by
  cases e with
  | ok a => exact hf a he
  | error fault => exact he

theorem imp {P' : α → Prop} {e : Except SizingFault α} (h : ∀ a, P a → P' a) (he : Settles P Q e) :
    Settles P' Q e := by
  cases e with
  | ok a => exact h a he
  | error fault => exact he

theorem keeping {n : Node} {e : Except Fault α} (hn : Q n.shape) (he : ∀ a, e = .ok a → P a) :
    Settles P Q (n.keeping e) := by
  cases e with
  | ok a => exact he a rfl
  | error cause => exact hn

theorem ofBinary {node : NodeRef} {op : BinaryOp} {own lhs rhs : Shape} {exponent : Option Int}
    (ho : own.Counted) (hl : lhs.Counted) (hr : rhs.Counted) :
    Settles Shape.Counted Shape.Counted (Shape.ofBinary node op own lhs rhs exponent) := by
  have hnnz := fun rows cols => Shape.le_binaryNnz hl op rows cols rhs exponent
  unfold Shape.ofBinary
  cases hlm : lhs.isMatrix <;> cases hrm : rhs.isMatrix <;>
    simp only [if_true, if_false, Bool.false_eq_true]
  case true.true =>
    cases hrows : Shape.broadcast? lhs.rows rhs.rows with
    | none => exact ⟨ho.rows, ho.cols, ho.nnz⟩
    | some rows =>
      have hrows := Shape.le_of_broadcast? hrows hl.rows hr.rows
      cases hcols : Shape.broadcast? lhs.cols rhs.cols with
      | none => exact ⟨hrows, ho.cols, ho.nnz⟩
      | some cols => exact ⟨hrows, Shape.le_of_broadcast? hcols hl.cols hr.cols, hnnz rows cols⟩
  case true.false => exact ⟨hl.rows, hl.cols, hnnz _ _⟩
  case false.true => exact ⟨hr.rows, hr.cols, hnnz _ _⟩
  case false.false =>
    split
    · exact Shape.counted_ofScalar _
    · exact ⟨le_rfl, le_rfl, le_rfl⟩

end Settles

namespace Graph
variable {g g' : Graph} {x y : NodeId} {n : Node} {flags : SliceFlags}

def Counted (g : Graph) : Prop := ∀ x n, g.get? x = some n → n.shape.Counted

def literalAt (g : Graph) (x : NodeId) : Option Int := (g.get? x).bind fun n => n.op.literalInt?

def span (g : Graph) (lower upper : NodeId) : Int := Shape.span (g.literalAt lower) (g.literalAt upper)

def fits (g : Graph) (n : Node) : Bool :=
  match n.op, n.inputs with
  | .indexing flags, [_, rl, ru, cl, cu] =>
    (flags.row || decide (g.span rl ru < 2 ^ 63)) && (flags.col || decide (g.span cl cu < 2 ^ 63))
  | _, _ => true

def SpansFit (g : Graph) : Prop := ∀ x n, g.get? x = some n → g.fits n = true

/-- Literals that are integers fit into 64 bits, and so do the spans between literal bounds. -/
structure WordSized (g : Graph) : Prop where
  literals : ∀ x k, g.literalAt x = some k → -2 ^ 63 ≤ k ∧ k < 2 ^ 63
  spans : g.SpansFit

theorem get?_of_operand {pos : Nat} {m : Node} (h : g.operand x n pos = .ok m)
    (hy : n.inputs[pos]? = some y) : g.get? y = some m := by
  simp only [operand, Node.input, Node.input?, Int.natCast_nonneg, if_true, Int.toNat_natCast,
    hy] at h
  exact follow_eq_ok_iff.1 h

theorem operand_mem {pos : Nat} {m : Node} (h : g.operand x n pos = .ok m) :
    ∃ y, g.get? y = some m := by
  unfold operand at h
  split at h
  · cases h
  · exact ⟨_, follow_eq_ok_iff.1 h⟩

theorem extentAt_ok {equal : Bool} {lower upper : Nat} {lo hi : NodeId} {k : Int}
    (h : g.extentAt x n equal lower upper = .ok k) (hlo : n.inputs[lower]? = some lo)
    (hhi : n.inputs[upper]? = some hi) :
    k = Shape.extent equal (g.literalAt lo) (g.literalAt hi) := by
  unfold extentAt at h
  cases equal with
  | true =>
    cases h
    rfl
  | false =>
    obtain ⟨a, ha, h⟩ := Outcome.bind_eq_ok_iff.1 h
    obtain ⟨b, hb, h⟩ := Outcome.bind_eq_ok_iff.1 h
    cases h
    simp only [literalAt, get?_of_operand ha hlo, get?_of_operand hb hhi, Option.bind_some]

theorem settles_of_sizeOperands {P : Shape → Prop} {Q : Shape → Prop} (hn : Q n.shape)
    (h : (needsArity n.op = true → n.op.arity? = some n.inputs.length) →
      Settles P Q (g.sizeOperands x n)) : Settles P Q (g.sizeNode x n) := by
  unfold sizeNode
  split
  · cases hreq : requireArity x n with
    | error cause => exact hn
    | ok u => exact h fun _ => arity_of_requireArity hreq
  · exact h fun hop => absurd hop ‹_›

theorem settles_indexing (hop : n.op = .indexing flags) :
    Settles (fun s => ∃ t rl ru cl cu, n.inputs = [t, rl, ru, cl, cu] ∧
        s.rows = Shape.extent flags.row (g.literalAt rl) (g.literalAt ru) ∧
        s.cols = Shape.extent flags.col (g.literalAt cl) (g.literalAt cu) ∧ s.nnz = -1)
      (· = n.shape) (g.sizeNode x n) := by
  refine settles_of_sizeOperands rfl fun ha => ?_
  rw [hop] at ha
  obtain ⟨t, rl, ru, cl, cu, hin⟩ := eq_of_length_five (Option.some.inj (ha rfl)).symm
  simp only [sizeOperands, hop]
  refine .bind (P := fun _ => True) (.keeping rfl fun _ _ => trivial) fun a _ => ?_
  refine .bind (P := (· = Shape.extent flags.row (g.literalAt rl) (g.literalAt ru)))
    (.keeping rfl fun rows hrows => extentAt_ok hrows (by simp [hin]) (by simp [hin])) ?_
  intro rows hrows
  refine .bind (P := (· = Shape.extent flags.col (g.literalAt cl) (g.literalAt cu)))
    (.keeping rfl fun cols hcols => extentAt_ok hcols (by simp [hin]) (by simp [hin])) ?_
  intro cols hcols
  exact ⟨t, rl, ru, cl, cu, hin, hrows, hcols, rfl⟩

theorem settles_of_ne_indexing (hg : g.Counted) (hn : n.shape.Counted)
    (hop : ∀ flags, n.op ≠ .indexing flags) :
    Settles Shape.Counted Shape.Counted (g.sizeNode x n) := by
  refine settles_of_sizeOperands hn fun _ => ?_
  have hoperand : ∀ pos, Settles (fun m : Node => m.shape.Counted) Shape.Counted
      (n.keeping (g.operand x n pos)) := fun pos => .keeping hn fun m hm => by
    obtain ⟨y, hy⟩ := operand_mem hm
    exact hg y m hy
  cases hcase : n.op <;> simp only [sizeOperands, hcase]
  case data => exact hn
  case literal => exact Shape.counted_ofScalar _
  case unary => exact Shape.counted_ofScalar _
  case write => exact .bind (hoperand 0) fun m hm => hm
  case binary => exact .bind (hoperand 0) fun l hl => .bind (hoperand 1) fun r hr => .ofBinary hn hl hr
  case matMul =>
    refine .bind (hoperand 0) fun l hl => .bind (hoperand 1) fun r hr => .keeping hn fun s hs => ?_
    unfold Shape.ofMatMul at hs
    split_ifs at hs
    cases hs
    exact ⟨hl.rows, hr.cols, le_rfl⟩
  case transpose => exact .bind (hoperand 0) fun m hm => ⟨hm.cols, hm.rows, hm.nnz⟩
  case indexing flags => exact absurd hcase (hop flags)
  case leftIndexing => exact .bind (hoperand 0) fun m hm => ⟨hm.rows, hm.cols, le_rfl⟩
  case chain => exact .bind (hoperand 0) fun m hm => ⟨hm.cols, by simp, le_rfl⟩
  case unknown => exact hn

theorem lt_of_fits {t rl ru cl cu : NodeId} (h : g.fits n = true) (hop : n.op = .indexing flags)
    (hin : n.inputs = [t, rl, ru, cl, cu]) :
    (flags.row = false → g.span rl ru < 2 ^ 63) ∧ (flags.col = false → g.span cl cu < 2 ^ 63) := by
  simp only [fits, hop, hin, Bool.and_eq_true, Bool.or_eq_true, decide_eq_true_eq] at h
  exact ⟨fun hf => h.1.resolve_left (by simp [hf]), fun hf => h.2.resolve_left (by simp [hf])⟩

theorem extent_of_lt {equal : Bool} {lower upper : NodeId}
    (h : equal = false → g.span lower upper < 2 ^ 63) :
    Shape.extent equal (g.literalAt lower) (g.literalAt upper) =
      if equal then 1 else g.span lower upper := by
  cases equal with
  | true => rfl
  | false => exact Shape.extent_eq_span (h rfl)

theorem le_extent {equal : Bool} {lower upper : NodeId}
    (h : equal = false → g.span lower upper < 2 ^ 63) :
    -1 ≤ Shape.extent equal (g.literalAt lower) (g.literalAt upper) := by
  rw [extent_of_lt h]
  split
  · decide
  · exact Shape.le_span _ _

theorem settles_sizeNode (hg : g.Counted) (hn : n.shape.Counted) :
    Settles (fun s => g.fits n = true → s.Counted) Shape.Counted (g.sizeNode x n) := by
  by_cases hop : ∃ flags, n.op = .indexing flags
  · obtain ⟨flags, hop⟩ := hop
    have hsized := settles_indexing (g := g) (x := x) hop
    cases hs : g.sizeNode x n with
    | error fault =>
      rw [hs] at hsized
      have hreached : fault.reached = n.shape := hsized
      show fault.reached.Counted
      rw [hreached]
      exact hn
    | ok s =>
      rw [hs] at hsized
      obtain ⟨t, rl, ru, cl, cu, hin, hrows, hcols, hnnz⟩ := hsized
      intro hfits
      obtain ⟨hr, hc⟩ := lt_of_fits hfits hop hin
      exact ⟨hrows ▸ le_extent hr, hcols ▸ le_extent hc, hnnz.ge⟩
  · exact (settles_of_ne_indexing hg hn fun flags he => hop ⟨flags, he⟩).imp fun _ hs _ => hs

theorem counted_empty (name : String) : (empty name).Counted := by
  intro x n hn
  simp [empty, get?] at hn

theorem Counted.setShape (h : g.Counted) (x : NodeId) {s : Shape} (hs : s.Counted) :
    (g.modify x fun n => { n with shape := s }).Counted := by
  intro y m hm
  rw [get?_modify] at hm
  obtain ⟨n, hn, rfl⟩ := Option.map_eq_some_iff.1 hm
  split
  · exact hs
  · exact h y n hn

theorem Counted.appends {n : Node} (h : g.Counted) (hg : g.Appends n g') (hn : n.shape.Counted) :
    g'.Counted := by
  intro y m hm
  rcases hg.cases hm with ⟨-, hcore⟩ | ⟨-, n₀, hn₀, hcore⟩
  · exact congrArg Node.shape hcore ▸ hn
  · exact congrArg Node.shape hcore ▸ h y n₀ hn₀

theorem stable_counted : Edit.Stable Counted where
  modify {g x f} h hf := by
    intro y m hm
    rw [get?_modify] at hm
    obtain ⟨n, hn, rfl⟩ := Option.map_eq_some_iff.1 hm
    split
    · rename_i hy
      rw [(hf n (hy ▸ hn)).1]
      exact h y n hn
    · exact h y n hn
  pop {g} h := by
    intro y m hm
    rw [get?_pop] at hm
    split at hm
    · cases hm
    · exact h y m hm

theorem literalAt_setShape (g : Graph) (x : NodeId) (s : Shape) (y : NodeId) :
    (g.modify x fun n => { n with shape := s }).literalAt y = g.literalAt y := by
  rw [literalAt, literalAt, get?_modify]
  cases g.get? y with
  | none => rfl
  | some n =>
    show (if y = x then { n with shape := s } else n).op.literalInt? = n.op.literalInt?
    split <;> rfl

theorem fits_congr {n' : Node} (h : ∀ y, g'.literalAt y = g.literalAt y) (hop : n'.op = n.op)
    (hin : n'.inputs = n.inputs) : g'.fits n' = g.fits n := by
  have hspan : g'.span = g.span := by
    funext lower upper
    rw [span, span, h, h]
  rw [fits, fits, hop, hin, hspan]

end Graph

namespace Edit
open LinearPlan.Graph
variable {g : Graph}

theorem fits_start {op : Op} {inputs : List NodeId} {s : Shape}
    (h : (extended g op inputs s).SpansFit) :
    (g.attach (start g op inputs)).fits (start g op inputs) = true := by
  obtain ⟨m, hm, hcore⟩ := get?_of_core?
    ((appends_extended g op inputs s).core g.size |>.trans (if_pos rfl))
  have hliteral := literalAt_setShape (g.attach (start g op inputs)) g.size s
  have hop : m.op = op := congrArg Node.op hcore
  have hin : m.inputs = inputs := congrArg Node.inputs hcore
  rw [← h g.size m hm]
  exact (fits_congr hliteral hop hin).symm

theorem counted_addNode {op : Op} {inputs : List NodeId} (hg : g.Counted)
    (hfit : ((addNode op inputs).finish g).SpansFit) : ((addNode op inputs).finish g).Counted := by
  have hattach : (g.attach (start g op inputs)).Counted :=
    hg.appends (appends_attach g rfl) Shape.counted_initial
  have hsized := settles_sizeNode (x := g.size) hattach
    (n := start g op inputs) Shape.counted_initial
  have hextended : ∀ s : Shape, s.Counted → (extended g op inputs s).Counted := fun s hs =>
    hg.appends (appends_extended g op inputs s) hs
  rcases addNode_trichotomy op inputs g with ⟨fault, hrun⟩ | ⟨s, -, hs, hrun⟩ | ⟨fault, _, hs, hrun⟩
  · rw [finish_error hrun]
    exact hg
  · rw [finish_ok hrun] at hfit ⊢
    rw [hs] at hsized
    exact hextended s (hsized (fits_start hfit))
  · rw [finish_error hrun]
    rw [hs] at hsized
    exact stable_counted.truncate g.size _ (hextended fault.reached hsized)

theorem counted_refresh (x : NodeId) (hg : g.Counted) (hfit : g.SpansFit) :
    ((refresh x).finish g).Counted := by
  rcases refresh_trichotomy x g with ⟨fault, hrun⟩ | ⟨n, s, hn, hs, hrun⟩ | ⟨n, fault, hn, hs, hrun⟩
  · rw [finish_error hrun]
    exact hg
  · have hsized := settles_sizeNode (x := x) hg (hg x n hn)
    rw [hs] at hsized
    rw [finish_ok hrun]
    exact hg.setShape x (hsized (hfit x n hn))
  · have hsized := settles_sizeNode (x := x) hg (hg x n hn)
    rw [hs] at hsized
    rw [finish_error hrun]
    exact hg.setShape x hsized

end Edit

open Edit in
theorem Action.counted (action : Action) {g : Graph} (hcounts : ∀ k ∈ action.counts, -1 ≤ k)
    (hg : g.Counted) (hfit : g.SpansFit) (hfit' : (action.edit.finish g).SpansFit) :
    (action.edit.finish g).Counted := by
  rcases action.creates_or_refreshes_or_keeps with ⟨c, hc, rfl⟩ | ⟨x, rfl⟩ | hkeeps
  · have hcreation := Call.finish_creates hc g
    simp only [Action.edit] at hfit' ⊢
    generalize c.edit.finish g = g' at hcreation hfit' ⊢
    cases hcreation with
    | nothing => exact hg
    | node op inputs => exact counted_addNode hg hfit'
    | power exponent op inputs =>
      exact counted_addNode (hg.appends (appends_extended g _ _ _) (Shape.counted_ofScalar _)) hfit'
    | declared name dataType rows cols nnz hk =>
      exact hg.appends (appends_extended g _ _ _)
        (Shape.counted_declared fun k hm => (hk k hm).elim (hcounts k) id)
  · exact counted_refresh x hg hfit
  · exact hkeeps Graph.stable_counted g hg

namespace Graph
variable {g g' g₀ : Graph} {x : NodeId}

/-- If the node is a slice, its extents are the spans of its bounds, or one where a flag says so. -/
def SlicedAt (g : Graph) (x : NodeId) : Prop :=
  ∀ n flags, g.get? x = some n → n.op = .indexing flags → ∃ t rl ru cl cu,
    n.inputs = [t, rl, ru, cl, cu] ∧
    n.shape.rows = (if flags.row then 1 else g.span rl ru) ∧
    n.shape.cols = (if flags.col then 1 else g.span cl cu)

theorem slicedAt_setShape {n : Node} {s : Shape} (hn : g.get? x = some n)
    (hs : g.sizeNode x n = .ok s)
    (hfit : (g.modify x fun n => { n with shape := s }).SpansFit) :
    (g.modify x fun n => { n with shape := s }).SlicedAt x := by
  have hliteral := literalAt_setShape g x s
  have hnew : (g.modify x fun n => { n with shape := s }).get? x = some { n with shape := s } := by
    rw [get?_modify_self, hn, Option.map_some]
  intro m flags hm hop
  rw [hnew] at hm
  cases hm
  have hsized := settles_indexing (g := g) (x := x) (n := n) hop
  rw [hs] at hsized
  obtain ⟨t, rl, ru, cl, cu, hin, hrows, hcols, -⟩ := hsized
  obtain ⟨hr, hc⟩ := lt_of_fits (hfit x _ hnew) hop hin
  refine ⟨t, rl, ru, cl, cu, hin, ?_, ?_⟩
  · rw [← extent_of_lt hr, hliteral, hliteral]
    exact hrows
  · rw [← extent_of_lt hc, hliteral, hliteral]
    exact hcols

/-- The nodes up to the size of an earlier graph are those of that graph, with the same literals, and with
the same shape at `x`. -/
def Recalls (g₀ : Graph) (x : NodeId) (g : Graph) : Prop :=
  ∀ y m, g.get? y = some m → y < g₀.size → ∃ n, g₀.get? y = some n ∧
    m.op.literalInt? = n.op.literalInt? ∧ (y = x → m.shape = n.shape)

theorem recalls_self (g : Graph) (x : NodeId) : g.Recalls x g :=
  fun _ m hm _ => ⟨m, hm, rfl, fun _ => rfl⟩

theorem stable_recalls (g₀ : Graph) (x : NodeId) : Edit.Stable (g₀.Recalls x) where
  modify {g z f} h hf := by
    intro y m hm hy
    rw [get?_modify] at hm
    obtain ⟨m₀, hm₀, rfl⟩ := Option.map_eq_some_iff.1 hm
    obtain ⟨n, hn, hliteral, hshape⟩ := h y m₀ hm₀ hy
    refine ⟨n, hn, ?_⟩
    split
    · rename_i hz
      obtain ⟨hs, hl⟩ := hf m₀ (hz ▸ hm₀)
      exact ⟨hl.trans hliteral, fun hx => hs.trans (hshape hx)⟩
    · exact ⟨hliteral, hshape⟩
  pop {g} h := by
    intro y m hm hy
    rw [get?_pop] at hm
    split at hm
    · cases hm
    · exact h y m hm hy

theorem Recalls.appends {n : Node} (h : g₀.Recalls x g) (hsize : g₀.size ≤ g.size)
    (hg : g.Appends n g') : g₀.Recalls x g' := by
  intro y m hm hy
  rcases hg.cases hm with ⟨rfl, -⟩ | ⟨-, n₀, hn₀, hcore⟩
  · have hlt : (g.size : Int) < g₀.size := hy
    omega
  · obtain ⟨n, hn, hliteral, hshape⟩ := h y n₀ hn₀ hy
    have hop : m.op = n₀.op := by simpa using congrArg Node.op hcore
    have hs : m.shape = n₀.shape := by simpa using congrArg Node.shape hcore
    exact ⟨n, hn, hop ▸ hliteral, fun hx => hs.trans (hshape hx)⟩

theorem Recalls.addNode (h : g₀.Recalls x g) (hsize : g₀.size ≤ g.size) (op : Op)
    (inputs : List NodeId) : g₀.Recalls x ((Edit.addNode op inputs).finish g) := by
  have hextended := fun s => h.appends hsize (Edit.appends_extended g op inputs s)
  rcases Edit.addNode_trichotomy op inputs g with
    ⟨fault, hrun⟩ | ⟨s, -, -, hrun⟩ | ⟨fault, _, -, hrun⟩
  · rw [Edit.finish_error hrun]
    exact h
  · rw [Edit.finish_ok hrun]
    exact hextended s
  · rw [Edit.finish_error hrun]
    exact (stable_recalls g₀ x).truncate g.size _ (hextended fault.reached)

theorem recalls_setShape {y : NodeId} (hy : y ≠ x) (s : Shape) :
    g.Recalls x (g.modify y fun n => { n with shape := s }) := by
  intro z m hm _
  rw [get?_modify] at hm
  obtain ⟨n, hn, rfl⟩ := Option.map_eq_some_iff.1 hm
  refine ⟨n, hn, ?_⟩
  split
  · rename_i hz
    exact ⟨rfl, fun hx => absurd (hz.symm.trans hx) hy⟩
  · exact ⟨rfl, fun _ => rfl⟩

end Graph

open Edit LinearPlan.Graph in
theorem Action.recalls (action : Action) {g : Graph} {x : NodeId}
    (hne : action ≠ .call (.refresh x)) : g.Recalls x (action.edit.finish g) := by
  have hself := recalls_self g x
  rcases action.creates_or_refreshes_or_keeps with ⟨c, hc, rfl⟩ | ⟨y, rfl⟩ | hkeeps
  · have hcreation := Call.finish_creates hc g
    simp only [Action.edit]
    generalize c.edit.finish g = g' at hcreation ⊢
    cases hcreation with
    | nothing => exact hself
    | node op inputs => exact hself.addNode le_rfl op inputs
    | power exponent op inputs =>
      have happ := appends_extended g (.literal exponent) [] (.ofLiteral exponent)
      exact (hself.appends le_rfl happ).addNode (by rw [happ.size]; omega) op inputs
    | declared name dataType rows cols nnz hk => exact hself.appends le_rfl (appends_extended g _ _ _)
  · have hy : y ≠ x := fun he => hne (he ▸ rfl)
    show g.Recalls x ((refresh y).finish g)
    rcases refresh_trichotomy y g with ⟨fault, hrun⟩ | ⟨n, s, -, -, hrun⟩ | ⟨n, fault, -, -, hrun⟩
    · rw [finish_error hrun]
      exact hself
    · rw [finish_ok hrun]
      exact recalls_setShape hy s
    · rw [finish_error hrun]
      exact recalls_setShape hy fault.reached
  · exact hkeeps (stable_recalls g x) g hself

namespace Graph
variable {g g' : Graph} {x : NodeId}

def Unedited (x : NodeId) (g g' : Graph) : Prop :=
  ∃ op inputs, (g.get? x).map (fun n => (n.op, n.inputs)) = some (op, inputs) ∧
    (g'.get? x).map (fun n => (n.op, n.inputs)) = some (op, inputs) ∧
    ∀ y ∈ inputs, (g.get? y).isSome = true ∧ (g'.get? y).isSome = true

theorem Recalls.literalAt_eq {y : NodeId} (h : g.Recalls x g') (hy : (g.get? y).isSome = true)
    (hy' : (g'.get? y).isSome = true) : g'.literalAt y = g.literalAt y := by
  obtain ⟨m, hm⟩ := Option.isSome_iff_exists.1 hy'
  obtain ⟨n, hn, hliteral, -⟩ := h y m hm (get?_isSome_iff.1 hy).2
  rw [literalAt, literalAt, hm, hn]
  exact hliteral

theorem SlicedAt.of_recalls (h : g.SlicedAt x) (hu : Unedited x g g') (hr : g.Recalls x g') :
    g'.SlicedAt x := by
  obtain ⟨op, inputs, hbefore, hafter, hthere⟩ := hu
  obtain ⟨n, hn, he⟩ := Option.map_eq_some_iff.1 hbefore
  obtain ⟨n', hn', he'⟩ := Option.map_eq_some_iff.1 hafter
  cases he
  obtain ⟨hop, hin⟩ := Prod.mk.inj he'
  intro m flags hm hflags
  cases hn'.symm.trans hm
  obtain ⟨n₀, hn₀, -, hshape⟩ := hr x n' hn' (get?_eq_some_lt hn).2
  cases hn.symm.trans hn₀
  obtain ⟨t, rl, ru, cl, cu, hinputs, hrows, hcols⟩ := h n flags hn (hop ▸ hflags)
  have hliteral : ∀ y ∈ n.inputs, g'.literalAt y = g.literalAt y := fun y hy =>
    hr.literalAt_eq (hthere y hy).1 (hthere y hy).2
  refine ⟨t, rl, ru, cl, cu, hin.trans hinputs, ?_, ?_⟩
  · rw [hshape rfl, hrows, span, span, hliteral rl (by simp [hinputs]),
      hliteral ru (by simp [hinputs])]
  · rw [hshape rfl, hcols, span, span, hliteral cl (by simp [hinputs]),
      hliteral cu (by simp [hinputs])]

theorem slicedAt_refresh (h : Edit.refresh x g = .ok () g') (hfit : g'.SpansFit) :
    g'.SlicedAt x := by
  rcases Edit.refresh_trichotomy x g with
    ⟨fault, hrun⟩ | ⟨n, s, hn, hs, hrun⟩ | ⟨n, fault, -, -, hrun⟩
  · cases hrun.symm.trans h
  · cases hrun.symm.trans h
    exact slicedAt_setShape hn hs hfit
  · cases hrun.symm.trans h

theorem slicedAt_indexing {flags : SliceFlags} {t rl ru cl cu : NodeId}
    (h : Edit.indexing flags t rl ru cl cu g = .ok x g') (hfit : g'.SpansFit) : g'.SlicedAt x := by
  rcases Edit.addNode_trichotomy (.indexing flags) [t, rl, ru, cl, cu] g with
    ⟨fault, hrun⟩ | ⟨s, hstart, hs, hrun⟩ | ⟨fault, _, -, hrun⟩
  · cases hrun.symm.trans h
  · cases hrun.symm.trans h
    exact slicedAt_setShape hstart hs hfit
  · cases hrun.symm.trans h

theorem SlicedAt.refresh_error {fault : Fault} (h : g.SlicedAt x)
    (hf : Edit.refresh x g = .error fault g') : g'.SlicedAt x := by
  rcases Edit.refresh_trichotomy x g with
    ⟨cause, hrun⟩ | ⟨n, s, -, -, hrun⟩ | ⟨n, sizing, hn, hs, hrun⟩
  · cases hrun.symm.trans hf
    exact h
  · cases hrun.symm.trans hf
  · cases hrun.symm.trans hf
    intro m flags hm hop
    rw [get?_modify_self, hn] at hm
    cases hm
    have hsized := settles_indexing (g := g) (x := x) (n := n) hop
    rw [hs] at hsized
    have hreached : sizing.reached = n.shape := hsized
    have hliteral := literalAt_setShape g x sizing.reached
    obtain ⟨t, rl, ru, cl, cu, hin, hrows, hcols⟩ := h n flags hn hop
    refine ⟨t, rl, ru, cl, cu, hin, ?_, ?_⟩
    · rw [span, hliteral, hliteral, ← span, ← hrows, ← hreached]
    · rw [span, hliteral, hliteral, ← span, ← hcols, ← hreached]

end Graph

/-- The node was made a slice or refreshed with success, and has not been edited since. -/
inductive Current (name : String) : List Action → NodeId → Prop
  | created {earlier : List Action} {flags : SliceFlags} {t rl ru cl cu x : NodeId} {g g' : Graph}
      (hg : history? name earlier = some g) (h : Edit.indexing flags t rl ru cl cu g = .ok x g') :
      Current name (.call (.indexing flags t rl ru cl cu) :: earlier) x
  | refreshed {earlier : List Action} {x : NodeId} {g g' : Graph}
      (hg : history? name earlier = some g) (h : Edit.refresh x g = .ok () g') :
      Current name (.call (.refresh x) :: earlier) x
  | kept {action : Action} {earlier : List Action} {x : NodeId} {g g' : Graph}
      (h : Current name earlier x) (hg : history? name earlier = some g)
      (hg' : history? name (action :: earlier) = some g') (hu : Graph.Unedited x g g') :
      Current name (action :: earlier) x

open LinearPlan.Graph Edit in
theorem Action.slicedAt (action : Action) {g : Graph} {x : NodeId} (h : g.SlicedAt x)
    (hu : Unedited x g (action.edit.finish g)) (hfit : (action.edit.finish g).SpansFit) :
    (action.edit.finish g).SlicedAt x := by
  by_cases hrefresh : action = .call (.refresh x)
  · subst hrefresh
    cases hrun : refresh x g with
    | ok u g' =>
      have hg' : (Action.call (.refresh x)).edit.finish g = g' := finish_ok hrun
      rw [hg'] at hfit ⊢
      exact slicedAt_refresh hrun hfit
    | error fault g' =>
      have hg' : (Action.call (.refresh x)).edit.finish g = g' := finish_error hrun
      rw [hg']
      exact h.refresh_error hrun
  · exact h.of_recalls hu (action.recalls hrefresh)

open LinearPlan.Graph Edit in
/-- No extent wraps as long as literals and the spans between literal bounds fit into 64 bits. Then all
counts are at least `-1`, whatever was done, and the extents of a slice are the exact spans of its bounds. -/
theorem counts_never_wrap (name : String) (actions : List Action) {g : Graph}
    (hg : history? name actions = some g)
    (hcounts : ∀ action ∈ actions, ∀ k ∈ action.counts, -1 ≤ k)
    (hfit : ∀ earlier g, earlier <:+ actions → history? name earlier = some g → g.WordSized) :
    g.Counted ∧ ∀ x, Current name actions x → g.SlicedAt x := by
  constructor
  · induction actions generalizing g with
    | nil =>
      cases hg
      exact counted_empty name
    | cons action earlier ih =>
      obtain ⟨hnow, hbefore⟩ := List.forall_mem_cons.1 hcounts
      obtain ⟨g₀, hg₀, rfl⟩ := history?_cons hg
      have hfits := fun rest g (h : rest <:+ earlier) => hfit rest g (h.trans (List.suffix_cons _ _))
      exact action.counted hnow (ih hg₀ hbefore hfits) (hfits _ g₀ List.suffix_rfl hg₀).spans
        (hfit _ _ List.suffix_rfl hg).spans
  · intro x hx
    induction hx generalizing g with
    | created hg₀ h =>
      obtain ⟨g₀, hg₁, rfl⟩ := history?_cons hg
      cases hg₀.symm.trans hg₁
      have hfits := (hfit _ _ List.suffix_rfl hg).spans
      rw [Action.edit, Call.edit, finish_ok (discard_ok h)] at hfits ⊢
      exact slicedAt_indexing h hfits
    | refreshed hg₀ h =>
      obtain ⟨g₀, hg₁, rfl⟩ := history?_cons hg
      cases hg₀.symm.trans hg₁
      have hfits := (hfit _ _ List.suffix_rfl hg).spans
      rw [Action.edit, Call.edit, finish_ok h] at hfits ⊢
      exact slicedAt_refresh h hfits
    | @kept action earlier x g₀ g' hx hg₀ hg' hu ih =>
      cases hg'.symm.trans hg
      have hsliced := ih hg₀ (List.forall_mem_cons.1 hcounts).2 fun rest g h =>
        hfit rest g (h.trans (List.suffix_cons _ _))
      obtain ⟨g₁, hg₁, rfl⟩ := history?_cons hg
      cases hg₀.symm.trans hg₁
      exact action.slicedAt hsliced hu (hfit _ _ List.suffix_rfl hg).spans

/-- A slice that gets another bound and is sized anew; what was made from it before is cut off. The columns
are out of order. -/
def editedSlice : List Action :=
  [.cut 6, .call (.refresh 5), .call (.replaceInput 5 2 4), .call (.transpose 5),
    .call (.indexing ⟨false, false⟩ 0 1 2 1 3), .call (.literal (.ofInt 4)),
    .call (.literal (.ofInt 1)), .call (.literal (.ofInt 6)), .call (.literal (.ofInt 2)),
    .call (.matrix "A" 7 9 (-1))]

theorem wordSized_editedSlice : ∀ earlier g, earlier <:+ editedSlice →
    history? "g" earlier = some g → g.WordSized := by
  have hfits : ∀ earlier ∈ editedSlice.tails, ∀ g ∈ history? "g" earlier, ∀ x ∈ g.ids,
      (∀ k ∈ g.literalAt x, -2 ^ 63 ≤ k ∧ k < 2 ^ 63) ∧ ∀ n ∈ g.get? x, g.fits n = true := by
    decide +kernel
  intro earlier g h hg
  have hall := hfits earlier ((List.mem_tails _ _).2 h) g hg
  refine ⟨fun x k hk => ?_, fun x n hn => ?_⟩
  · obtain ⟨n, hn, -⟩ := Option.bind_eq_some_iff.1 hk
    exact (hall x (Graph.mem_ids.2 (Graph.range_of_get? hn))).1 k hk
  · exact (hall x (Graph.mem_ids.2 (Graph.range_of_get? hn))).2 n hn

def editedBefore (k : Nat) : Graph := (history? "g" (editedSlice.drop k)).getD (.empty "g")

theorem history?_editedSlice :
    ∀ k ∈ [0, 1, 2], history? "g" (editedSlice.drop k) = some (editedBefore k) := by
  decide +kernel

theorem current_editedSlice : Current "g" editedSlice 5 := by
  have hrun : success? (Edit.refresh 5) (editedBefore 2) = some ((), editedBefore 1) := by
    decide +kernel
  have hcurrent : Current "g" (editedSlice.drop 1) 5 :=
    .refreshed (history?_editedSlice 2 (by decide)) (ok_of_success? hrun)
  exact .kept hcurrent (history?_editedSlice 1 (by decide)) (history?_editedSlice 0 (by decide))
    ⟨.indexing ⟨false, false⟩, [0, 1, 4, 1, 3], by decide +kernel, by decide +kernel,
      by decide +kernel⟩

theorem counts_never_wrap_editedSlice : history? "g" editedSlice = some (editedBefore 0) ∧
    (∀ action ∈ editedSlice, ∀ k ∈ action.counts, -1 ≤ k) ∧
    ((editedBefore 0).get? 5).map (fun n => (n.inputs, n.shape.rows, n.shape.cols)) =
      some ([0, 1, 4, 1, 3], 3, -1) ∧
    (editedBefore 0).Counted ∧ (editedBefore 0).SlicedAt 5 := by
  have hg : history? "g" editedSlice = some (editedBefore 0) := history?_editedSlice 0 (by decide)
  have hcounts : ∀ action ∈ editedSlice, ∀ k ∈ action.counts, -1 ≤ k := by decide
  obtain ⟨hcounted, hsliced⟩ := counts_never_wrap "g" editedSlice hg hcounts wordSized_editedSlice
  exact ⟨hg, hcounts, by decide +kernel, hcounted, hsliced 5 current_editedSlice⟩

def hugeSlice : List Action :=
  [.call (.indexing ⟨false, false⟩ 0 1 2 3 3), .call (.literal (.ofInt 1)),
    .call (.literal (.ofInt 4611686018427387904)), .call (.literal (.ofInt (-4611686018427387904))),
    .call (.matrix "A" (-1) 1 (-1))]

/-- The bounds are 64-bit integers and the number of rows between them is not. -/
theorem extent_wraps :
    (∀ action ∈ hugeSlice, ∀ k ∈ action.counts, -1 ≤ k) ∧
    (∀ g ∈ history? "g" hugeSlice, ∀ x ∈ g.ids, ∀ k ∈ g.literalAt x, -2 ^ 63 ≤ k ∧ k < 2 ^ 63) ∧
    (history? "g" hugeSlice).map (fun g => (g.span 1 2,
      (g.get? 4).map fun n => (n.op, n.inputs, n.shape.rows))) = some (9223372036854775809,
        some (.indexing ⟨false, false⟩, [0, 1, 2, 3, 3], -9223372036854775807)) :=
  ⟨by decide, by decide +kernel, by decide +kernel⟩

end LinearPlan
