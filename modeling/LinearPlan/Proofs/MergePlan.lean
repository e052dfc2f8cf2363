import LinearPlan.Proofs.WriteChains

/-!
# Plans after a merge

The row of the base of a chain is read, all writes of the chain become writes to that row, and the
row is written back. The write that does so takes the place of the first write of the chain, and has
its profile. The writes of the chain have one row from then on, which no one but the chain sees. The
plan stays sized and without cycles.
-/
namespace LinearPlan

open Optimizer.Slicing (Axis)

namespace Optimizer.Slicing.Axis

def whole : Axis → NodeId → NodeId → NodeId → List NodeId
  | .row, index, one, last => [index, index, one, last]
  | .col, index, one, last => [one, last, index, index]

def sliceProfile (axis : Axis) (w : Int) : Profile :=
  let length := Dim.ofInt (Shape.extent false (some 1) (Number.ofInt w).toInt?)
  match axis with
  | .row => .matrix .one length
  | .col => .matrix length .one

theorem mem_whole {axis : Axis} {index one last y : Int} :
    y ∈ axis.whole index one last ↔ y = index ∨ y = one ∨ y = last := by
  cases axis
  · simp [whole]
  · simp only [whole, List.mem_cons, List.not_mem_nil, or_false]
    tauto

@[simp] theorem along_sliceProfile (axis : Axis) (w : Int) :
    axis.along (axis.sliceProfile w) = .one := by
  cases axis <;> rfl

theorem sliceProfile_eq (axis : Axis) (w : Int) :
    Profile.matrix (axis.sliceProfile w).rows (axis.sliceProfile w).cols = axis.sliceProfile w := by
  cases axis <;> rfl

end Optimizer.Slicing.Axis

namespace Item

def narrow (axis : Axis) (lower upper : NodeId) (q : Profile) (i : Item) : Item :=
  { i with inputs := (i.inputs.set axis.lowerPos lower).set axis.upperPos upper, profile := q }

def retarget (t : NodeId) (i : Item) : Item := { i with inputs := i.inputs.set 0 t }

def literal (n : Int) : Item := ⟨.literal (.ofInt n), [], .scalar⟩

def readWhole (axis : Axis) (base index one last : NodeId) (q : Profile) : Item :=
  ⟨.indexing axis.flags, base :: axis.whole index one last, q⟩

def writeWhole (axis : Axis) (base value index one last : NodeId) (q : Profile) : Item :=
  ⟨.leftIndexing axis.flags, base :: value :: axis.whole index one last, q⟩

theorem narrow_target (axis : Axis) (lower upper : NodeId) (q : Profile) (i : Item) :
    (i.narrow axis lower upper q).inputs[0]? = i.inputs[0]? := by
  cases axis <;> simp [narrow, Axis.lowerPos, Axis.upperPos]

theorem narrow_lower {axis : Axis} {lower upper y : NodeId} {q : Profile} {i : Item}
    (h : i.inputs[axis.lowerPos]? = some y) :
    (i.narrow axis lower upper q).inputs[axis.lowerPos]? = some lower := by
  obtain ⟨hlt, -⟩ := List.getElem?_eq_some_iff.1 h
  have hne : axis.upperPos ≠ axis.lowerPos := by cases axis <;> decide
  rw [narrow, List.getElem?_set_ne hne, List.getElem?_set_self hlt]

theorem narrow_other {axis axis' : Axis} (h : axis' ≠ axis) (lower upper : NodeId) (q : Profile)
    (i : Item) :
    (i.narrow axis lower upper q).inputs[axis'.lowerPos]? = i.inputs[axis'.lowerPos]? := by
  cases axis <;> cases axis' <;>
    first | exact absurd rfl h | simp [narrow, Axis.lowerPos, Axis.upperPos]

theorem writeWhole_other {axis axis' : Axis} (h : axis' ≠ axis)
    (base value index one last : NodeId) (q : Profile) :
    (writeWhole axis base value index one last q).inputs[axis'.lowerPos]? = some one := by
  cases axis <;> cases axis' <;> first | exact absurd rfl h | rfl

theorem retarget_lower {axis : Axis} {t y : NodeId} {i : Item}
    (h : i.inputs[axis.lowerPos]? = some y) :
    (i.retarget t).inputs[axis.lowerPos]? = some y := by
  have hne : 0 ≠ axis.lowerPos := by cases axis <;> decide
  rw [retarget, List.getElem?_set_ne hne, h]

theorem mem_narrow {axis : Axis} {q : Profile} {i : Item} {lower upper y : Int}
    (h : y ∈ (i.narrow axis lower upper q).inputs) : y ∈ i.inputs ∨ y = lower ∨ y = upper := by
  rcases List.mem_or_eq_of_mem_set h with h | h
  · rcases List.mem_or_eq_of_mem_set h with h | h
    · exact .inl h
    · exact .inr (.inl h)
  · exact .inr (.inr h)

theorem mem_retarget {i : Item} {t y : Int} (h : y ∈ (i.retarget t).inputs) :
    y ∈ i.inputs ∨ y = t :=
  List.mem_or_eq_of_mem_set h

theorem mem_readWhole {axis : Axis} {q : Profile} {base index one last y : Int} :
    y ∈ (readWhole axis base index one last q).inputs ↔
      y = base ∨ y = index ∨ y = one ∨ y = last := by
  rw [readWhole, List.mem_cons, Axis.mem_whole]

theorem mem_writeWhole {axis : Axis} {q : Profile} {base value index one last y : Int} :
    y ∈ (writeWhole axis base value index one last q).inputs ↔
      y = base ∨ y = value ∨ y = index ∨ y = one ∨ y = last := by
  rw [writeWhole, List.mem_cons, List.mem_cons, Axis.mem_whole]

theorem retarget_target {t u : NodeId} {i : Item} (h : i.inputs[0]? = some u) :
    (i.retarget t).inputs[0]? = some t := by
  obtain ⟨hlt, -⟩ := List.getElem?_eq_some_iff.1 h
  simp [retarget, hlt]

end Item

namespace Plan
variable {P : Plan}

theorem sizeFrom_write {own : Profile} {i j : Item} {t : NodeId} {flags : SliceFlags}
    (hop : i.op = .leftIndexing flags) (ht : i.inputs[0]? = some t) (hj : P t = some j) :
    own.sizeFrom i.op (P.operands i) = some (.matrix j.profile.rows j.profile.cols) := by
  obtain ⟨rest, hi⟩ := target_cons ht
  rw [hop, operands, hi, List.filterMap_cons, hj]
  rfl

theorem sizeFrom_readWhole (axis : Axis) {base index one last : NodeId} {b k : Item} {w : Int}
    (hb : P base = some b) (hk : P index = some k) (h1 : P one = some (.literal 1))
    (hw : P last = some (.literal w)) (own : Profile) :
    own.sizeFrom (.indexing axis.flags) ((base :: axis.whole index one last).filterMap P) =
      some (axis.sliceProfile w) := by
  cases axis <;> simp only [Axis.whole, List.filterMap_cons, List.filterMap_nil, hb, hk, h1, hw] <;>
    rfl

end Plan

/-- A merge of a chain in a plan whose new nodes start at an id. The row that is read ends at
`width`, and what is written in the end has the profile `whole`. -/
structure Merge where
  axis : Axis
  index : NodeId
  base : NodeId
  bottom : NodeId
  top : NodeId
  chain : List NodeId
  width : Int
  whole : Profile
  start : Int

namespace Merge

def slice (m : Merge) : Int := m.start + 2

def resume (m : Merge) : Int := m.start + 3 + 2 * m.chain.length

def written (m : Merge) : Int := m.resume + 2

def profile (m : Merge) : Profile := m.axis.sliceProfile m.width

structure Chained (m : Merge) (P : Plan) : Prop where
  chain : P.WriteChain m.axis m.index m.top m.chain m.base
  last : m.chain.getLast? = some m.bottom
  long : 2 ≤ m.chain.length
  old : ∀ {x : Int} {i}, P x = some i → x < m.start

/-- The profiles of a chain allow to merge it: its base has more than one row of more than one
entry. -/
structure Applies (m : Merge) (P : Plan) : Prop extends Chained m P where
  width : 1 < m.width
  wide : ∃ b, P m.base = some b ∧ m.axis.across b.profile = Dim.ofInt m.width ∧
    m.axis.along b.profile ≠ .one ∧ m.whole = .matrix b.profile.rows b.profile.cols
  targets : ∀ c ∈ m.chain, c ≠ m.top → P.WideAt m.axis m.index c

def rewrite (m : Merge) (c lower upper : NodeId) (i : Item) : Item :=
  (if c = m.bottom then i.retarget m.slice else i).narrow m.axis lower upper m.profile

@[simp] theorem rewrite_op (m : Merge) (c lower upper : NodeId) (i : Item) :
    (m.rewrite c lower upper i).op = i.op := by
  unfold rewrite
  split <;> rfl

theorem mem_rewrite {m : Merge} {i : Item} {c lower upper y : Int}
    (h : y ∈ (m.rewrite c lower upper i).inputs) :
    y ∈ i.inputs ∨ (c = m.bottom ∧ y = m.slice) ∨ y = lower ∨ y = upper := by
  rcases Item.mem_narrow h with h | h
  · by_cases hc : c = m.bottom
    · rw [if_pos hc] at h
      exact (Item.mem_retarget h).imp_right fun h => .inl ⟨hc, h⟩
    · rw [if_neg hc] at h
      exact .inl h
  · exact .inr (.inr h)

structure Result (m : Merge) (P P' : Plan) : Prop where
  kept : ∀ x : Int, x < m.start → x ∉ m.chain → P' x = (P x).map (Item.subst m.top m.written)
  done : ∀ c ∈ m.chain, ∀ i, P c = some i → ∃ lower upper : Int,
    (m.start + 3 ≤ lower ∧ lower < m.resume) ∧ (m.start + 3 ≤ upper ∧ upper < m.resume) ∧
    P' c = some (m.rewrite c lower upper i) ∧ ∀ p j, P' p = some j → lower ∈ j.inputs → p = c
  bound : ∀ x : Int, m.start + 3 ≤ x → x < m.resume → P' x = some (.literal 1)
  one : P' m.start = some (.literal 1)
  last : P' (m.start + 1) = some (.literal m.width)
  slice : P' m.slice =
    some (.readWhole m.axis m.base m.index m.start (m.start + 1) m.profile)
  one' : P' m.resume = some (.literal 1)
  last' : P' (m.resume + 1) = some (.literal m.width)
  written : P' m.written =
    some (.writeWhole m.axis m.base m.top m.index m.resume (m.resume + 1) m.whole)
  none : ∀ x : Int, m.written < x → P' x = none

namespace Chained
variable {m : Merge} {P : Plan}

theorem top_mem (h : m.Chained P) : m.top ∈ m.chain := h.chain.head_mem

theorem bottom_mem (h : m.Chained P) : m.bottom ∈ m.chain := List.mem_of_getLast? h.last

theorem bottomAt (h : m.Chained P) : ∃ i, P.WriteAt m.axis m.index m.bottom m.base i := by
  obtain ⟨b, i, hb, hi⟩ := h.chain.bottom
  rw [h.last] at hb
  cases hb
  exact ⟨i, hi⟩

theorem topAt (h : m.Chained P) : ∃ t i, P.WriteAt m.axis m.index m.top t i :=
  h.chain.writeAt h.top_mem

theorem index_not_mem (h : m.Chained P) (hP : P.Acyclic) : m.index ∉ m.chain := by
  obtain ⟨rank, hrank⟩ := hP
  obtain ⟨i, hi⟩ := h.bottomAt
  obtain ⟨t, k, hk⟩ := h.topAt
  intro hmem
  by_cases hx : m.index = m.top
  · have hlt := hrank hk.item hk.lower_mem
    rw [hx] at hlt
    omega
  · -- The row of a write is no target, so it is no write of the chain.
    have h0 := (h.chain.users hmem hx hi.item hi.lower).2
    cases haxis : m.axis <;> rw [haxis] at h0 <;> cases h0

theorem old_of_mem (h : m.Chained P) {c : Int} (hc : c ∈ m.chain) : c < m.start := by
  obtain ⟨t, i, hi⟩ := h.chain.writeAt hc
  exact h.old hi.item

theorem base_old (h : m.Chained P) (hc : P.Closed) : @LT.lt Int _ m.base m.start := by
  obtain ⟨i, hi⟩ := h.bottomAt
  obtain ⟨j, hj⟩ := hc hi.item m.base hi.target_mem
  exact h.old hj

theorem index_old (h : m.Chained P) (hc : P.Closed) : @LT.lt Int _ m.index m.start := by
  obtain ⟨i, hi⟩ := h.bottomAt
  obtain ⟨j, hj⟩ := hc hi.item m.index hi.lower_mem
  exact h.old hj

theorem operand_not_mem (h : m.Chained P) {x y : NodeId} {i : Item} (hi : P x = some i)
    (hx : x ∉ m.chain) (hy : y ∈ i.inputs) (hne : y ≠ m.top) : y ∉ m.chain := by
  intro hmem
  obtain ⟨pos, hpos⟩ := List.mem_iff_getElem?.1 hy
  exact hx (h.chain.users hmem hne hi hpos).1

end Chained

theorem Applies.top_profile {m : Merge} {P : Plan} (h : m.Applies P) (hs : P.Sized)
    (hc : P.Closed) {i : Item} (hi : P m.top = some i) :
    i.profile = m.whole ∧ i.op.literalInt? = none := by
  obtain ⟨b, hb, -, -, hwhole⟩ := h.wide
  obtain ⟨t, k, hk⟩ := h.topAt
  obtain ⟨flags, hop, -⟩ := hk.op
  have hik : i = k := Option.some.inj (hi.symm.trans hk.item)
  refine ⟨(h.chain.profile_eq hs hc hb h.top_mem hi).trans hwhole.symm, ?_⟩
  rw [hik, hop]
  rfl

namespace Result
variable {m : Merge} {P P' : Plan}

theorem new_items (h : m.Result P P') {x : Int} (hs : m.start ≤ x) (hle : x ≤ m.written) :
    (x ≠ m.slice ∧ x ≠ m.written ∧ ∃ n, P' x = some (.literal n)) ∨
    (x = m.slice ∧
      P' x = some (.readWhole m.axis m.base m.index m.start (m.start + 1) m.profile)) ∨
    (x = m.written ∧
      P' x = some (.writeWhole m.axis m.base m.top m.index m.resume (m.resume + 1) m.whole)) := by
  have hslice : m.slice = m.start + 2 := rfl
  have hresume : m.resume = m.start + 3 + 2 * m.chain.length := rfl
  have hwritten : m.written = m.resume + 2 := rfl
  by_cases h₀ : x = m.slice
  · exact .inr (.inl ⟨h₀, h₀ ▸ h.slice⟩)
  by_cases h₁ : x = m.written
  · exact .inr (.inr ⟨h₁, h₁ ▸ h.written⟩)
  refine .inl ⟨h₀, h₁, ?_⟩
  by_cases h₂ : x = m.start
  · exact ⟨1, h₂ ▸ h.one⟩
  by_cases h₃ : x = m.start + 1
  · exact ⟨m.width, h₃ ▸ h.last⟩
  by_cases h₄ : x = m.resume
  · exact ⟨1, h₄ ▸ h.one'⟩
  by_cases h₅ : x = m.resume + 1
  · exact ⟨m.width, h₅ ▸ h.last'⟩
  exact ⟨1, h.bound x (by omega) (by omega)⟩

theorem new_cases (h : m.Result P P') {x : Int} {i : Item} (hx : P' x = some i)
    (hs : m.start ≤ x) :
    (x ≠ m.slice ∧ x ≠ m.written ∧ ∃ n, i = .literal n) ∨
    (x = m.slice ∧ i = .readWhole m.axis m.base m.index m.start (m.start + 1) m.profile) ∨
    (x = m.written ∧
      i = .writeWhole m.axis m.base m.top m.index m.resume (m.resume + 1) m.whole) := by
  have hle : x ≤ m.written := by
    by_contra hgt
    rw [h.none x (not_le.1 hgt)] at hx
    cases hx
  have hitems := h.new_items hs hle
  simpa only [hx, Option.some.injEq] using hitems

theorem kept_of_not_mem (h : m.Result P P') (ha : m.Chained P) {x : NodeId} {i : Item}
    (hx : P x = some i) (hxc : x ∉ m.chain) : P' x = some (i.subst m.top m.written) := by
  rw [h.kept x (ha.old hx) hxc, hx]
  rfl

theorem operand_of_mem (h : m.Result P P') (ha : m.Chained P) {c y : Int} {j : Item}
    (hc : c ∈ m.chain) (hj : P' c = some j) (hy : y ∈ j.inputs) :
    ∃ i, P c = some i ∧ (y ∈ i.inputs ∨ (c = m.bottom ∧ y = m.slice) ∨
      (m.start + 3 ≤ y ∧ y < m.resume)) := by
  obtain ⟨t, i, hi⟩ := ha.chain.writeAt hc
  obtain ⟨lower, upper, hlower, hupper, hitem, -⟩ := h.done c hc i hi.item
  rw [hj] at hitem
  cases hitem
  refine ⟨i, hi.item, ?_⟩
  rcases mem_rewrite hy with hy | hy | rfl | rfl
  · exact .inl hy
  · exact .inr (.inl hy)
  · exact .inr (.inr hlower)
  · exact .inr (.inr hupper)

theorem alike (h : m.Result P P') (ha : m.Applies P) (hs : P.Sized) (hc : P.Closed)
    {x y : NodeId} {i : Item} (hi : P x = some i) (hx : x ∉ m.chain) (hy : y ∈ i.inputs) :
    ∃ j j', P y = some j ∧ P' (if y = m.top then m.written else y) = some j' ∧ j.Alike j' := by
  obtain ⟨j, hj⟩ := hc hi y hy
  by_cases hyt : y = m.top
  · obtain ⟨hp, hl⟩ := ha.top_profile hs hc (hyt ▸ hj)
    rw [if_pos hyt]
    exact ⟨j, _, hj, h.written, hp, hl⟩
  · rw [if_neg hyt]
    exact ⟨j, _, hj, h.kept_of_not_mem ha.toChained hj (ha.operand_not_mem hi hx hy hyt), .subst j⟩

theorem target_profile (h : m.Result P P') (ha : m.Chained P) (hP : P.Acyclic) {c : NodeId}
    {i : Item} (hc : c ∈ m.chain) (hi : P c = some i) :
    ∃ t j, (if c = m.bottom then i.retarget m.slice else i).inputs[0]? = some t ∧
      P' t = some j ∧ j.profile = m.profile := by
  rcases ha.chain.target_cases hP ha.last hc hi with ⟨hb, ht⟩ | ⟨hb, y, hy, ht⟩
  · rw [if_pos hb]
    exact ⟨m.slice, _, Item.retarget_target ht, h.slice, rfl⟩
  · rw [if_neg hb]
    obtain ⟨t, k, hk⟩ := ha.chain.writeAt hy
    obtain ⟨lower, upper, -, -, hitem, -⟩ := h.done y hy k hk.item
    exact ⟨y, _, ht, hitem, rfl⟩

theorem sized (h : m.Result P P') (ha : m.Applies P) (hs : P.Sized) (hc : P.Closed)
    (hP : P.Acyclic) : P'.Sized := by
  obtain ⟨b, hb, -, -, hwhole⟩ := ha.wide
  obtain ⟨k, hk⟩ := ha.bottomAt
  obtain ⟨j, hj⟩ := hc hk.item m.index hk.lower_mem
  have hb' := h.kept_of_not_mem ha.toChained hb (ha.chain.base_not_mem hP)
  have hj' := h.kept_of_not_mem ha.toChained hj (ha.index_not_mem hP)
  intro x i hx
  by_cases hxs : (x : Int) < m.start
  · by_cases hxc : x ∈ m.chain
    · obtain ⟨t, k, hk⟩ := ha.chain.writeAt hxc
      obtain ⟨flags, hop, -⟩ := hk.op
      obtain ⟨lower, upper, -, -, hitem, -⟩ := h.done x hxc k hk.item
      rw [hx] at hitem
      cases hitem
      obtain ⟨t, j, ht, hj, hp⟩ := h.target_profile ha.toChained hP hxc hk.item
      have hop' : (m.rewrite x lower upper k).op = .leftIndexing flags := by
        rw [rewrite_op, hop]
      have ht' := (Item.narrow_target m.axis lower upper m.profile _).trans ht
      refine (Plan.sizeFrom_write hop' ht' hj).trans ?_
      rw [hp]
      exact congrArg some (m.axis.sliceProfile_eq m.width)
    · rw [h.kept x hxs hxc] at hx
      obtain ⟨k, hk, rfl⟩ := Option.map_eq_some_iff.1 hx
      rw [Item.subst_op, Item.subst_profile,
        Plan.sizeFrom_subst fun y hy => h.alike ha hs hc hk hxc hy, hs hk]
  · rcases h.new_cases hx (not_lt.1 hxs) with
      ⟨-, -, n, rfl⟩ | ⟨-, rfl⟩ | ⟨-, rfl⟩
    · rfl
    · exact Plan.sizeFrom_readWhole _ hb' hj' h.one h.last _
    · exact (Plan.sizeFrom_write (t := m.base) rfl rfl hb').trans (congrArg some hwhole.symm)

/-- The rank of the nodes after a merge: the reading comes right below the last write of the chain,
and the write right above the first one. -/
def rankOf (m : Merge) (rank : NodeId → Nat) (x : Int) : Nat :=
  if x < m.start then 4 * rank x
  else if x = m.slice then 4 * rank m.bottom - 1
  else if x = m.written then 4 * rank m.top + 2
  else 0

theorem rankOf_old {rank : NodeId → Nat} {x : Int} (h : x < m.start) :
    rankOf m rank x = 4 * rank x := if_pos h

theorem rankOf_slice {rank : NodeId → Nat} : rankOf m rank m.slice = 4 * rank m.bottom - 1 := by
  have hs : ¬ m.slice < m.start := by
    unfold Merge.slice
    omega
  rw [rankOf, if_neg hs, if_pos rfl]

theorem rankOf_written {rank : NodeId → Nat} : rankOf m rank m.written = 4 * rank m.top + 2 := by
  have hs : ¬ m.written < m.start := by
    unfold Merge.written Merge.resume
    omega
  have hne : m.written ≠ m.slice := by
    unfold Merge.written Merge.resume Merge.slice
    omega
  rw [rankOf, if_neg hs, if_neg hne, if_pos rfl]

theorem rankOf_literal {rank : NodeId → Nat} {x : Int} (hs : m.start ≤ x) (h₀ : x ≠ m.slice)
    (h₁ : x ≠ m.written) : rankOf m rank x = 0 := by
  rw [rankOf, if_neg (not_lt.2 hs), if_neg h₀, if_neg h₁]

theorem acyclic (h : m.Result P P') (ha : m.Chained P) (hc : P.Closed) (hP : P.Acyclic) :
    P'.Acyclic := by
  obtain ⟨rank, hrank⟩ := hP
  obtain ⟨k, hk⟩ := ha.bottomAt
  obtain ⟨t, l, hl⟩ := ha.topAt
  have hbase := hrank hk.item hk.target_mem
  have hindex := hrank hk.item hk.lower_mem
  have htop := hrank hl.item hl.lower_mem
  have hbot := ha.chain.rank_le hrank ha.bottom_mem
  have hbase_old := ha.base_old hc
  have htop_old := ha.old_of_mem ha.top_mem
  have hindex_old := ha.index_old hc
  have hslice : m.slice = m.start + 2 := rfl
  have hresume : m.resume = m.start + 3 + 2 * m.chain.length := rfl
  have hwritten : m.written = m.resume + 2 := rfl
  have hlit : ∀ {y : Int}, m.start ≤ y → y ≠ m.slice → y ≠ m.written → rankOf m rank y = 0 :=
    rankOf_literal
  have hold : ∀ {x y : NodeId} {i : Item}, P x = some i → y ∈ i.inputs →
      rankOf m rank y = 4 * rank y ∧ rank y < rank x := by
    intro x y i hx hy
    obtain ⟨j, hj⟩ := hc hx y hy
    exact ⟨rankOf_old (ha.old hj), hrank hx hy⟩
  refine ⟨rankOf m rank, fun {x i y} hx hy => ?_⟩
  by_cases hxs : (x : Int) < m.start
  · rw [rankOf_old hxs]
    by_cases hxc : x ∈ m.chain
    · obtain ⟨t, j, hj⟩ := ha.chain.writeAt hxc
      have hpos := hrank hj.item hj.target_mem
      obtain ⟨i, hi, hy | ⟨hb, rfl⟩ | hy⟩ := h.operand_of_mem ha hxc hx hy
      · obtain ⟨he, hlt⟩ := hold hi hy
        omega
      · rw [rankOf_slice, hb]
        omega
      · have h0 := hlit (y := y) (by omega) (by omega) (by omega)
        omega
    · rw [h.kept x hxs hxc] at hx
      obtain ⟨j, hj, rfl⟩ := Option.map_eq_some_iff.1 hx
      rcases Item.mem_subst.1 hy with ⟨hy, -⟩ | ⟨rfl, ht⟩
      · obtain ⟨he, hlt⟩ := hold hj hy
        omega
      · have hlt := hrank hj ht
        rw [rankOf_written]
        omega
  · rcases h.new_cases hx (not_lt.1 hxs) with
      ⟨-, -, n, rfl⟩ | ⟨rfl, rfl⟩ | ⟨rfl, rfl⟩
    · cases hy
    · rw [rankOf_slice]
      rcases Item.mem_readWhole.1 hy with rfl | rfl | rfl | rfl
      · rw [rankOf_old hbase_old]
        omega
      · rw [rankOf_old hindex_old]
        omega
      · have h0 := hlit (y := m.start) (by omega) (by omega) (by omega)
        omega
      · have h0 := hlit (y := m.start + 1) (by omega) (by omega) (by omega)
        omega
    · rw [rankOf_written]
      rcases Item.mem_writeWhole.1 hy with rfl | rfl | rfl | rfl | rfl
      · rw [rankOf_old hbase_old]
        omega
      · rw [rankOf_old htop_old]
        omega
      · rw [rankOf_old hindex_old]
        omega
      · have h0 := hlit (y := m.resume) (by omega) (by omega) (by omega)
        omega
      · have h0 := hlit (y := m.resume + 1) (by omega) (by omega) (by omega)
        omega

end Result
end Merge
end LinearPlan
