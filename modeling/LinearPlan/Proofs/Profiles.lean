import LinearPlan.Proofs.Sizing
import Mathlib.Data.Finset.Lattice.Fold
import Mathlib.Order.Lattice

/-!
# Profiles

Of a shape, sizing an operation depends on the type and on which dimensions are known; that is its
profile. Element-wise operations join the profiles of their operands, and profiles form a
semilattice: the result of a product does not depend on the order of its factors, nor on how often
one of them occurs, and if the whole product can be sized then so can every part of it.

Unlike shapes, profiles have an element for a conflict, two dimensions that do not fit. A profile is
proper when it has none.
-/
namespace LinearPlan

/-- A dimension: one, not known, some number other than one, or a conflict. -/
inductive Dim where
  | one
  | any
  | known (n : Nat)
  | clash
deriving DecidableEq, Repr

namespace Dim

def ofInt (d : Int) : Dim := if d < 0 then .any else if d = 1 then .one else .known d.toNat

/-- A common dimension. A dimension of one fits all, an unknown one all but one. -/
def join : Dim → Dim → Dim
  | .one, d => d
  | d, .one => d
  | .any, d => d
  | d, .any => d
  | .known m, .known n => if m = n then .known m else .clash
  | .clash, _ => .clash
  | _, .clash => .clash

instance : Max Dim := ⟨join⟩

theorem join_comm (a b : Dim) : join a b = join b a := by
  cases a <;> cases b <;> simp only [join, eq_comm]
  rename_i m n
  by_cases h : m = n <;> simp [h]

theorem join_assoc (a b c : Dim) : join (join a b) c = join a (join b c) := by
  cases a <;> cases b <;> cases c <;> simp only [join] <;> grind [join]

theorem join_self (a : Dim) : join a a = a := by
  cases a <;> simp [join]

instance : SemilatticeSup Dim := SemilatticeSup.mk' join_comm join_assoc join_self

theorem sup_eq_join (a b : Dim) : a ⊔ b = join a b := rfl

theorem le_clash (a : Dim) : a ≤ .clash := by
  rw [← sup_eq_right, sup_eq_join]
  cases a <;> rfl

theorem ne_clash_of_le {a b : Dim} (h : a ≤ b) (hb : b ≠ .clash) : a ≠ .clash := by
  rintro rfl
  exact hb (le_antisymm (le_clash b) h)

theorem ofInt_ne_clash (d : Int) : ofInt d ≠ .clash := by
  unfold ofInt
  split
  · exact nofun
  · split <;> exact nofun

theorem ofInt_of_neg {d : Int} (h : d < 0) : ofInt d = .any := if_pos h

theorem ofInt_of_nonneg {d : Int} (h : 0 ≤ d) (h1 : d ≠ 1) : ofInt d = .known d.toNat := by
  rw [ofInt, if_neg (by omega), if_neg h1]

theorem eq_of_ofInt {d : Int} {n : Nat} (h : ofInt d = .known n) : (n : Int) = d := by
  unfold ofInt at h
  split at h
  · cases h
  · split at h <;> cases h
    omega

theorem any_sup_ofInt {d : Int} (h : d ≠ 1) : .any ⊔ ofInt d = ofInt d := by
  unfold ofInt
  split <;> rfl

theorem ofInt_broadcast {a b c : Int} (h : Shape.broadcast? a b = some c) :
    ofInt c = ofInt a ⊔ ofInt b := by
  have hone : ofInt 1 = .one := rfl
  unfold Shape.broadcast? at h
  split at h
  · rename_i hab
    cases h
    rw [hab, sup_idem]
  split at h
  · rename_i hab
    cases h
    rcases hab with ⟨rfl, hb⟩ | ⟨rfl, ha⟩
    · rw [hone, ofInt_of_neg hb]
      rfl
    · rw [hone, ofInt_of_neg ha]
      rfl
  split at h
  · rename_i ha
    cases h
    rw [ha, hone]
    rfl
  split at h
  · rename_i hb
    cases h
    rw [hb, hone, sup_comm]
    rfl
  split at h
  · rename_i hb1 ha
    cases h
    rw [ofInt_of_neg ha, any_sup_ofInt hb1]
  split at h
  · rename_i ha1 _ _ hb
    cases h
    rw [ofInt_of_neg hb, sup_comm, any_sup_ofInt ha1]
  · cases h

theorem clash_of_broadcast {a b : Int} (h : Shape.broadcast? a b = none) :
    ofInt a ⊔ ofInt b = .clash := by
  unfold Shape.broadcast? at h
  split at h
  · cases h
  split at h
  · cases h
  split at h
  · cases h
  split at h
  · cases h
  split at h
  · cases h
  split at h
  · cases h
  · rename_i hab _ ha1 hb1 ha hb
    rw [ofInt_of_nonneg (by omega) ha1, ofInt_of_nonneg (by omega) hb1, sup_eq_join, join,
      if_neg (by omega)]

end Dim

/-- A type with the dimensions it has if it is a matrix. Types other than scalars and matrices are
told apart by their code. -/
inductive Profile where
  | scalar
  | other (code : Int)
  | matrix (rows cols : Dim)
deriving DecidableEq, Repr

namespace Profile

def join : Profile → Profile → Profile
  | .scalar, p => p
  | p, .scalar => p
  | .other a, .other b => .other (max a b)
  | .other _, .matrix r c => .matrix r c
  | .matrix r c, .other _ => .matrix r c
  | .matrix r c, .matrix r' c' => .matrix (r ⊔ r') (c ⊔ c')

instance : Max Profile := ⟨join⟩

theorem join_comm (p q : Profile) : join p q = join q p := by
  cases p <;> cases q <;> simp [join, max_comm, sup_comm]

theorem join_assoc (p q r : Profile) : join (join p q) r = join p (join q r) := by
  cases p <;> cases q <;> cases r <;> simp [join, max_assoc, sup_assoc]

theorem join_self (p : Profile) : join p p = p := by
  cases p <;> simp [join]

instance : SemilatticeSup Profile := SemilatticeSup.mk' join_comm join_assoc join_self

theorem sup_eq_join (p q : Profile) : p ⊔ q = join p q := rfl

def Proper : Profile → Prop
  | .matrix rows cols => rows ≠ .clash ∧ cols ≠ .clash
  | _ => True

instance : OrderBot Profile where
  bot := .scalar
  bot_le _ := sup_eq_right.1 rfl

theorem Proper.of_le {p q : Profile} (h : p ≤ q) (hq : q.Proper) : p.Proper := by
  rw [← sup_eq_right, sup_eq_join] at h
  cases p with
  | scalar => trivial
  | other _ => trivial
  | matrix r c =>
    cases q with
    | scalar => cases h
    | other _ => cases h
    | matrix r' c' =>
      obtain ⟨hr, hc⟩ := matrix.inj h
      exact ⟨Dim.ne_clash_of_le (sup_eq_right.1 hr) hq.1, Dim.ne_clash_of_le (sup_eq_right.1 hc) hq.2⟩

def rows : Profile → Dim
  | .scalar => .known 0
  | .other _ => .any
  | .matrix rows _ => rows

def cols : Profile → Dim
  | .scalar => .known 0
  | .other _ => .any
  | .matrix _ cols => cols

def swap : Profile → Profile
  | .matrix rows cols => .matrix cols rows
  | p => p

end Profile

namespace Shape

def profile (s : Shape) : Profile :=
  match s.dataType with
  | .scalar => .scalar
  | .matrix => .matrix (Dim.ofInt s.rows) (Dim.ofInt s.cols)
  | t => .other t.rank

/-- Only matrices have dimensions, and types other than scalars and matrices have their own code
above these. -/
def Legal (s : Shape) : Prop :=
  match s.dataType with
  | .scalar => s.rows = 0 ∧ s.cols = 0
  | .matrix => True
  | t => s.rows < 0 ∧ s.cols < 0 ∧ 2 ≤ t.rank ∧ t = .ofCode t.rank

theorem profile_proper (s : Shape) : s.profile.Proper := by
  unfold profile
  split
  · trivial
  · exact ⟨Dim.ofInt_ne_clash _, Dim.ofInt_ne_clash _⟩
  · trivial

theorem profile_matrix (vt : ValueType) (r c nnz : Int) :
    profile ⟨.matrix, vt, r, c, nnz⟩ = .matrix (Dim.ofInt r) (Dim.ofInt c) := rfl

theorem legal_matrix (vt : ValueType) (r c nnz : Int) : Legal ⟨.matrix, vt, r, c, nnz⟩ := trivial

theorem legal_ofScalar (vt : ValueType) : (ofScalar vt).Legal := ⟨rfl, rfl⟩

theorem Legal.rows_eq {s : Shape} (h : s.Legal) : Dim.ofInt s.rows = s.profile.rows := by
  unfold Legal at h
  unfold profile
  split at h
  · rw [h.1]
    rfl
  · rfl
  · exact Dim.ofInt_of_neg h.1

theorem Legal.cols_eq {s : Shape} (h : s.Legal) : Dim.ofInt s.cols = s.profile.cols := by
  unfold Legal at h
  unfold profile
  split at h
  · rw [h.2]
    rfl
  · rfl
  · exact Dim.ofInt_of_neg h.2.1

theorem isMatrix_iff {s : Shape} : s.isMatrix = true ↔ ∃ r c, s.profile = .matrix r c := by
  unfold isMatrix profile
  cases s.dataType <;> simp

theorem isScalar_iff {s : Shape} : s.isScalar = true ↔ s.profile = .scalar := by
  unfold isScalar profile
  cases s.dataType <;> simp

theorem profile_of_isMatrix {s : Shape} (h : s.isMatrix = true) :
    s.profile = .matrix (Dim.ofInt s.rows) (Dim.ofInt s.cols) := by
  unfold isMatrix at h
  unfold profile
  rw [eq_of_beq h]

theorem profile_of_not {s : Shape} (hm : s.isMatrix = false) (hs : s.isScalar = false) :
    s.profile = .other s.dataType.rank := by
  unfold isMatrix at hm
  unfold isScalar at hs
  unfold profile
  cases h : s.dataType <;> simp [h] at hm hs ⊢

def Coded (s : Shape) : Prop := s.isMatrix = false → s.isScalar = false →
  2 ≤ s.dataType.rank ∧ s.dataType = .ofCode s.dataType.rank

theorem Legal.other {s : Shape} (h : s.Legal) (hm : s.isMatrix = false) (hs : s.isScalar = false) :
    2 ≤ s.dataType.rank ∧ s.dataType = .ofCode s.dataType.rank := by
  unfold isMatrix at hm
  unfold isScalar at hs
  unfold Legal at h
  cases ht : s.dataType <;> rw [ht] at h hm hs <;> first | exact h.2.2 | simp at hm hs

theorem legal_unsized {t : DataType} (vt : ValueType) (nnz : Int) (h2 : 2 ≤ t.rank)
    (ht : t = .ofCode t.rank) :
    Legal ⟨t, vt, -1, -1, nnz⟩ ∧ profile ⟨t, vt, -1, -1, nnz⟩ = .other t.rank := by
  have hneg : (-1 : Int) < 0 := by decide
  cases t with
  | scalar => simp [DataType.rank] at h2
  | matrix => simp [DataType.rank] at h2
  | _ => exact ⟨⟨hneg, hneg, h2, ht⟩, rfl⟩

theorem matrix_sup_profile {s : Shape} (h : s.isMatrix = false) (r c : Dim) :
    .matrix r c ⊔ s.profile = .matrix r c := by
  cases hs : s.isScalar with
  | true =>
    rw [isScalar_iff.1 hs]
    rfl
  | false =>
    rw [profile_of_not h hs]
    rfl

theorem profile_higher {lhs rhs : Shape} (hl : lhs.Coded) (hr : rhs.Coded)
    (hlm : lhs.isMatrix = false) (hrm : rhs.isMatrix = false)
    (hs : (lhs.isScalar && rhs.isScalar) = false) :
    ∃ t, lhs.dataType.higher rhs.dataType = t ∧ 2 ≤ t.rank ∧ t = .ofCode t.rank ∧
      lhs.profile ⊔ rhs.profile = .other t.rank := by
  cases hls : lhs.isScalar with
  | true =>
    have hrs : rhs.isScalar = false := by simpa [hls] using hs
    obtain ⟨h2, hcode⟩ := hr hrm hrs
    refine ⟨rhs.dataType, ?_, h2, hcode, ?_⟩
    · rw [eq_of_beq hls]
      exact if_pos (by show (0 : Int) < _; omega)
    · rw [isScalar_iff.1 hls, profile_of_not hrm hrs]
      rfl
  | false =>
    obtain ⟨hl2, hlcode⟩ := hl hlm hls
    rw [profile_of_not hlm hls]
    cases hrs : rhs.isScalar with
    | true =>
      refine ⟨lhs.dataType, ?_, hl2, hlcode, ?_⟩
      · rw [eq_of_beq hrs]
        exact if_neg (by show ¬ _ < (0 : Int); omega)
      · rw [isScalar_iff.1 hrs]
        rfl
    | false =>
      obtain ⟨hr2, hrcode⟩ := hr hrm hrs
      rw [profile_of_not hrm hrs]
      have hmax : ∀ a b : Int, Profile.other a ⊔ .other b = .other (max a b) := fun _ _ => rfl
      rw [hmax]
      unfold DataType.higher
      split
      · exact ⟨_, rfl, hr2, hrcode, by rw [max_eq_right (by omega)]⟩
      · exact ⟨_, rfl, hl2, hlcode, by rw [max_eq_left (by omega)]⟩

theorem ofBinary_cases (node : NodeRef) (op : BinaryOp) (own : Shape) {lhs rhs : Shape}
    (e : Option Int) (hl : lhs.Coded) (hr : rhs.Coded) :
    (∃ s, ofBinary node op own lhs rhs e = .ok s ∧ s.Legal ∧
      s.profile = lhs.profile ⊔ rhs.profile) ∨
    (∃ fault, ofBinary node op own lhs rhs e = .error fault) ∧
      ¬ (lhs.profile ⊔ rhs.profile).Proper := by
  unfold ofBinary
  dsimp only
  cases hlm : lhs.isMatrix with
  | true =>
    rw [profile_of_isMatrix hlm]
    cases hrm : rhs.isMatrix with
    | true =>
      rw [profile_of_isMatrix hrm]
      have hsup : ∀ r c r' c' : Dim,
          Profile.matrix r c ⊔ .matrix r' c' = .matrix (r ⊔ r') (c ⊔ c') := fun _ _ _ _ => rfl
      cases hrows : broadcast? lhs.rows rhs.rows with
      | none =>
        refine .inr ⟨⟨_, rfl⟩, fun hp => ?_⟩
        rw [hsup, Dim.clash_of_broadcast hrows] at hp
        exact hp.1 rfl
      | some rows =>
        cases hcols : broadcast? lhs.cols rhs.cols with
        | none =>
          refine .inr ⟨⟨_, rfl⟩, fun hp => ?_⟩
          rw [hsup, Dim.clash_of_broadcast hcols] at hp
          exact hp.2 rfl
        | some cols =>
          refine .inl ⟨_, rfl, trivial, ?_⟩
          rw [profile_matrix, hsup, Dim.ofInt_broadcast hrows, Dim.ofInt_broadcast hcols]
    | false =>
      refine .inl ⟨_, rfl, trivial, ?_⟩
      rw [profile_matrix, matrix_sup_profile hrm]
  | false =>
    cases hrm : rhs.isMatrix with
    | true =>
      refine .inl ⟨_, rfl, trivial, ?_⟩
      rw [profile_matrix, profile_of_isMatrix hrm, sup_comm, matrix_sup_profile hlm]
    | false =>
      left
      cases hs : lhs.isScalar && rhs.isScalar with
      | true =>
        obtain ⟨hls, hrs⟩ := Bool.and_eq_true_iff.1 hs
        refine ⟨_, rfl, legal_ofScalar _, ?_⟩
        rw [isScalar_iff.1 hls, isScalar_iff.1 hrs]
        rfl
      | false =>
        obtain ⟨t, rfl, h2, hcode, hsup⟩ := profile_higher hl hr hlm hrm hs
        obtain ⟨hlegal, hprof⟩ := legal_unsized (binaryValueType op lhs rhs) (-1) h2 hcode
        exact ⟨_, rfl, hlegal, hprof.trans hsup.symm⟩

end Shape
end LinearPlan
