import LinearPlan.Proofs.ExactArithmetic
import LinearPlan.Proofs.ValueShapes

/-!
# Numbers as binary64 elements

A number with a mantissa of at most 53 bits and an exponent in the range of binary64 becomes a float
with the same value, and the integer that it is can be read back from the float. So literals mean the
same in a plan and in an evaluation with floats, and small integers can serve as bounds. Nothing is
said about the arithmetic of floats.
-/
namespace LinearPlan

namespace Number
variable {negative : Bool} {mantissa : Nat} {exponent : Int}

def isBinary64 : Number → Bool
  | .finite _ mantissa exponent =>
    decide (mantissa < 2 ^ 53 ∧ -1074 ≤ exponent ∧ exponent ≤ 971)
  | _ => true

theorem toInt?_zero (negative : Bool) (exponent : Int) :
    (finite negative 0 exponent).toInt? = some 0 := by
  unfold toInt?
  cases negative <;> simp

theorem toInt?_scaled (negative : Bool) (mantissa : Nat) (exponent : Int) (shift : Nat) :
    (finite negative (mantissa * 2 ^ shift) (exponent - shift)).toInt? =
      (finite negative mantissa exponent).toInt? := by
  unfold toInt?
  simp only [Nat.pow_eq]
  by_cases he : 0 ≤ exponent
  · rw [if_pos he]
    by_cases hs : 0 ≤ exponent - shift
    · rw [if_pos hs, mul_assoc, ← pow_add,
        show shift + (exponent - shift).toNat = exponent.toNat by omega]
    · have hsplit : 2 ^ shift = 2 ^ exponent.toNat * 2 ^ (-(exponent - shift)).toNat := by
        rw [← pow_add]
        congr 1
        omega
      rw [if_neg hs, hsplit, ← mul_assoc, if_pos (Nat.mul_mod_left _ _),
        Nat.mul_div_cancel _ (Nat.two_pow_pos _)]
  · have hsplit : 2 ^ (-(exponent - shift)).toNat = 2 ^ (-exponent).toNat * 2 ^ shift := by
      rw [← pow_add]
      congr 1
      omega
    rw [if_neg he, if_neg (by omega), hsplit, Nat.mul_mod_mul_right,
      Nat.mul_div_mul_right _ _ (Nat.two_pow_pos _)]
    simp only [Nat.mul_eq_zero, (Nat.two_pow_pos shift).ne', or_false]

structure Fields (bits : UInt64) (negative : Bool) (biased fraction : Nat) : Prop where
  eq : bits.toNat = (if negative then 2 ^ 63 else 0) + biased * 2 ^ 52 + fraction
  biased : biased < 2047
  fraction : fraction < 2 ^ 52

theorem Fields.ofBits {bits : UInt64} {biased fraction : Nat}
    (h : Fields bits negative biased fraction) : ofBits bits =
      if biased = 0 then finite negative fraction (-1074)
      else finite negative (2 ^ 52 + fraction) (biased - 1075) := by
  obtain ⟨heq, hb, hf⟩ := h
  have hbiased : bits.toNat / 2 ^ 52 % 2048 = biased := by
    split at heq <;> omega
  have hfraction : bits.toNat % 2 ^ 52 = fraction := by
    split at heq <;> omega
  have hsign : decide (2 ^ 63 ≤ bits.toNat) = negative := by
    cases negative with
    | true => exact decide_eq_true (by rw [heq, if_pos rfl]; omega)
    | false => exact decide_eq_false (by rw [heq, if_neg nofun]; omega)
  unfold Number.ofBits signBit leadingBit
  simp only [Nat.pow_eq, hbiased, hfraction, hsign]
  rw [if_neg (by omega)]

theorem normal_eq {m : Nat} {e : Int} (hm : m < 2 ^ 53) (he : -1074 ≤ e) :
    ∃ shift : Nat, normal m e = (m * 2 ^ shift, e - shift) ∧ m * 2 ^ shift < 2 ^ 53 ∧
      -1074 ≤ e - shift ∧ (m ≠ 0 → m * 2 ^ shift < 2 ^ 52 → e - shift = -1074) := by
  refine ⟨min (52 - m.log2) (e + 1074).toNat, rfl, ?_, by omega, fun hne hlt => ?_⟩
  · have hlog : m.log2 < 53 := by
      rcases Nat.eq_zero_or_pos m with rfl | hpos
      · decide
      · exact (Nat.log2_lt (by omega)).2 hm
    calc m * 2 ^ min (52 - m.log2) (e + 1074).toNat
      _ ≤ m * 2 ^ (52 - m.log2) :=
        Nat.mul_le_mul_left m (Nat.pow_le_pow_right (by decide) (min_le_left _ _))
      _ < 2 ^ (m.log2 + 1) * 2 ^ (52 - m.log2) :=
        Nat.mul_lt_mul_of_pos_right Nat.lt_log2_self (Nat.two_pow_pos _)
      _ = 2 ^ 53 := by
        rw [← pow_add]
        congr 1
        omega
  · rcases min_cases (52 - m.log2) (e + 1074).toNat with ⟨hmin, -⟩ | ⟨hmin, -⟩
    · -- The leading bit would be set.
      rw [hmin] at hlt
      have hle : 2 ^ m.log2 * 2 ^ (52 - m.log2) ≤ m * 2 ^ (52 - m.log2) :=
        Nat.mul_le_mul_right _ (Nat.log2_self_le hne)
      rw [← pow_add] at hle
      have hpow : 2 ^ 52 ≤ 2 ^ (m.log2 + (52 - m.log2)) :=
        Nat.pow_le_pow_right (by decide) (by omega)
      omega
    · omega

theorem toBits_fields (h : (finite negative mantissa exponent).isBinary64 = true) :
    ∃ shift biased fraction : Nat, Fields (finite negative mantissa exponent).toBits negative biased
        fraction ∧
      (biased = 0 → fraction = mantissa * 2 ^ shift ∧ (mantissa ≠ 0 → exponent - shift = -1074)) ∧
      (biased ≠ 0 → 2 ^ 52 + fraction = mantissa * 2 ^ shift ∧
        (biased : Int) - 1075 = exponent - shift) := by
  obtain ⟨hm, hlo, hhi⟩ := of_decide_eq_true h
  obtain ⟨shift, hnormal, hlt, hexp, hsub⟩ := normal_eq hm hlo
  have hbits : (finite negative mantissa exponent).toBits =
      UInt64.ofNat ((if negative then 2 ^ 63 else 0) +
        if mantissa * 2 ^ shift < 2 ^ 52 then mantissa * 2 ^ shift
        else (exponent - shift + 1075).toNat * 2 ^ 52 + (mantissa * 2 ^ shift - 2 ^ 52)) := by
    simp only [toBits, hnormal]
    rfl
  rw [hbits]
  by_cases hs : mantissa * 2 ^ shift < 2 ^ 52
  · refine ⟨shift, 0, mantissa * 2 ^ shift, ⟨?_, by omega, hs⟩, fun _ => ⟨rfl, (hsub · hs)⟩,
      fun hne => absurd rfl hne⟩
    rw [if_pos hs, UInt64.toNat_ofNat', Nat.mod_eq_of_lt (by split <;> omega)]
    omega
  · refine ⟨shift, (exponent - shift + 1075).toNat, mantissa * 2 ^ shift - 2 ^ 52,
      ⟨?_, by omega, by omega⟩, fun hzero => by omega, fun _ => ⟨by omega, by omega⟩⟩
    rw [if_neg hs, UInt64.toNat_ofNat', Nat.mod_eq_of_lt (by split <;> omega)]
    omega

theorem toInt?_ofBits_toBits (h : (finite negative mantissa exponent).isBinary64 = true) :
    (ofBits (finite negative mantissa exponent).toBits).toInt? =
      (finite negative mantissa exponent).toInt? := by
  obtain ⟨shift, biased, fraction, hfields, hzero, hpos⟩ := toBits_fields h
  rw [hfields.ofBits]
  by_cases hb : biased = 0
  · obtain ⟨rfl, hexp⟩ := hzero hb
    rw [if_pos hb]
    by_cases hm : mantissa = 0
    · rw [hm, Nat.zero_mul, toInt?_zero, toInt?_zero]
    · rw [← hexp hm, toInt?_scaled]
  · obtain ⟨hfrac, hexp⟩ := hpos hb
    rw [if_neg hb, hfrac, hexp, toInt?_scaled]

end Number

namespace Binary64
open Float.Model Float.Model.UnpackedFloat
variable {b : BitVec Format.binary64.numBits}

theorem packComponents_fields (b : BitVec Format.binary64.numBits) :
    packComponents .binary64 (Sign.ofBitVec (unpackSign b)) (unpackExponent b) (unpackMantissa b) =
      b := by
  have hsign : ∀ s : BitVec 1, (Sign.ofBitVec s).toBitVec = s := by decide
  refine BitVec.eq_of_getLsbD_eq fun i hi => ?_
  rw [packComponents, hsign]
  delta unpackSign unpackExponent unpackMantissa
  simp only [BitVec.getLsbD_append, BitVec.getLsbD_cast, BitVec.getLsbD_extractLsb]
  by_cases hm : i < 52
  · simp [hm]
  · by_cases he : i < 63
    · simp [hm, show i - 52 < 11 by omega, show 52 + (i - 52) = i by omega]
    · have hlast : i = 63 := by
        have hlt : i < 64 := hi
        omega
      simp [hlast]

theorem toNat_unpackExponent (b : BitVec Format.binary64.numBits) :
    (unpackExponent b).toNat = b.toNat / 2 ^ 52 % 2 ^ 11 := by
  rw [unpackExponent, BitVec.toNat_cast, BitVec.extractLsb_toNat, Nat.shiftRight_eq_div_pow]
  rfl

theorem pack_unpack (h : (unpackExponent b).toNat < 2047) :
    UnpackedFloat.pack .binary64 (UnpackedFloat.unpack .binary64 b) = b := by
  have hall : unpackExponent b ≠ -1#_ := fun he => by
    rw [he] at h
    exact absurd h (by decide)
  have hm : (unpackMantissa b).toNat < 2 ^ 52 := (unpackMantissa b).isLt
  have hpack := packComponents_fields b
  unfold UnpackedFloat.unpack
  dsimp only
  rw [if_neg hall]
  by_cases he : unpackExponent b = 0#_
  · rw [if_pos he]
    rw [he] at hpack
    by_cases hz : unpackMantissa b = 0#_
    · rw [dif_pos hz]
      rw [hz] at hpack
      exact hpack
    · -- A mantissa without its leading bit is packed with the least exponent.
      have hlog : (unpackMantissa b).toNat.log2 < 52 := by
        refine (Nat.log2_lt fun h0 => hz (BitVec.eq_of_toNat_eq ?_)).2 hm
        rw [h0]
        rfl
      rw [dif_neg hz, he]
      unfold UnpackedFloat.pack
      dsimp only
      rw [if_neg (by decide), if_neg (by show ¬ _ = 53; omega), BitVec.ofNat_toNat,
        BitVec.setWidth_eq]
      exact hpack
  · have hmant : (1#1 ++ unpackMantissa b).toNat = 2 ^ 52 + (unpackMantissa b).toNat := by
      rw [BitVec.toNat_append, ← Nat.shiftLeft_add_eq_or_of_lt hm]
      rfl
    have hlog : (1#1 ++ unpackMantissa b).toNat.log2 = 52 := by
      rw [hmant]
      exact (Nat.log2_eq_iff (by omega)).2 ⟨by omega, by omega⟩
    have hexp : ((unpackExponent b).toNat - (Format.binary64.exponentBias +
        Format.binary64.mantissaBitsWithoutImplicit) + Format.binary64.exponentBias +
        Format.binary64.mantissaBitsWithoutImplicit : Int).toNat = (unpackExponent b).toNat := by
      omega
    have hfraction : BitVec.ofNat 52 (1#1 ++ unpackMantissa b).toNat = unpackMantissa b := by
      refine BitVec.eq_of_toNat_eq ?_
      rw [BitVec.toNat_ofNat, hmant, Nat.add_mod_left, Nat.mod_eq_of_lt hm]
    rw [if_neg he]
    unfold UnpackedFloat.pack
    dsimp only
    rw [hexp, if_neg (by show ¬ 2048 ≤ _; omega), if_pos (by rw [hlog]; rfl), hfraction,
      BitVec.ofNat_toNat, BitVec.setWidth_eq]
    exact hpack

end Binary64

namespace Number
variable {negative : Bool} {mantissa : Nat} {exponent : Int}

theorem Fields.toBits_ofBits {bits : UInt64} {biased fraction : Nat}
    (h : Fields bits negative biased fraction) : (Float.ofBits bits).toBits = bits := by
  have hexp : bits.toBitVec.toNat / 2 ^ 52 % 2 ^ 11 < 2047 := by
    obtain ⟨heq, hb, hf⟩ := h
    have heq : bits.toBitVec.toNat = _ := heq
    split at heq <;> omega
  refine UInt64.toBitVec_inj.1 (Binary64.pack_unpack ?_)
  rw [Binary64.toNat_unpackExponent]
  exact hexp

theorem toInt?_ofFloat_toFloat {x : Number} (h : x.isBinary64 = true) :
    (ofFloat x.toFloat).toInt? = x.toInt? := by
  cases x with
  | nan => decide +kernel
  | infinite negative => cases negative <;> decide +kernel
  | finite negative mantissa exponent =>
    obtain ⟨_, _, _, hfields, -⟩ := toBits_fields h
    unfold ofFloat toFloat
    rw [hfields.toBits_ofBits, toInt?_ofBits_toBits h]

theorem isBinary64_ofInt {n : Int} (h : n.natAbs < 2 ^ 53) : (ofInt n).isBinary64 = true := by
  have hsmall : n.natAbs < Nat.pow 2 53 := h
  unfold ofInt
  rw [if_pos hsmall]
  exact decide_eq_true ⟨h, by decide, by decide⟩

end Number

instance : IndexElement Float where
  toInt?_ofInt h :=
    (Number.toInt?_ofFloat_toFloat (Number.isBinary64_ofInt h)).trans (Number.toInt?_ofInt h)

def Op.holdsBinary64 : Op → Bool
  | .literal value => value.isBinary64
  | _ => true

theorem Graph.readsLiterals_float {g : Graph}
    (h : ∀ x ∈ g.ids, ∀ n ∈ g.get? x, n.op.holdsBinary64 = true) : g.ReadsLiterals Float := by
  intro x n value hn hop
  have hvalue := h x (mem_ids.2 (range_of_get? hn)) n hn
  rw [hop] at hvalue
  exact Number.toInt?_ofFloat_toFloat hvalue

end LinearPlan
