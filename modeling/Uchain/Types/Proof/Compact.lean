import Mathlib.Tactic.NormNum
import Uchain.Lib.Truncate
import Uchain.Types.Network

/-!
# Compact targets are truncated numbers

`from_u256` writes a size and a mantissa of 23 bits. The size is one byte more than the number has
full bytes (`canonicalSize`), also where the source gets there by the adjustment of a mantissa that
would read as negative. Decoding gives the number back without its low bytes (`decoded_eq`): the
format is a `Precision`, so encoding is a rounding downwards.
-/

namespace Uchain.Compact

open Lib

/-! ## Sizes and mantissas -/

/-- The size that an encoded number has. -/
def canonicalSize (v : Nat) : Nat := if v = 0 then 0 else Nat.size v / 8 + 1

/-- The leading three bytes of a number of `size` bytes. -/
def scaled (size v : Nat) : Nat := v * 2 ^ (8 * (3 - size)) / 2 ^ (8 * (size - 3))

def mantissa (v : Nat) : Nat := scaled (canonicalSize v) v

section Scaled

variable {size v j : Nat}

theorem scaled_lt (hj : j ≤ 24) (hsize : j ≤ 8 * size) (hv : v < 2 ^ (8 * size - j)) :
    scaled size v < 2 ^ (24 - j) := by
  rw [scaled, Nat.div_lt_iff_lt_mul (by positivity)]
  calc v * 2 ^ (8 * (3 - size)) < 2 ^ (8 * size - j) * 2 ^ (8 * (3 - size)) :=
        Nat.mul_lt_mul_of_pos_right hv (by positivity)
    _ = 2 ^ (24 - j) * 2 ^ (8 * (size - 3)) := by
        rw [← pow_add, ← pow_add]
        congr 1
        omega

theorem le_scaled (hj : j ≤ 24) (hsize : j ≤ 8 * size) (hv : 2 ^ (8 * size - j) ≤ v) :
    2 ^ (24 - j) ≤ scaled size v := by
  rw [scaled, Nat.le_div_iff_mul_le (by positivity)]
  calc 2 ^ (24 - j) * 2 ^ (8 * (size - 3)) = 2 ^ (8 * size - j) * 2 ^ (8 * (3 - size)) := by
        rw [← pow_add, ← pow_add]
        congr 1
        omega
    _ ≤ v * 2 ^ (8 * (3 - size)) := Nat.mul_le_mul_right _ hv

theorem scaled_succ (size v : Nat) : scaled (size + 1) v = scaled size v / 2 ^ 8 := by
  unfold scaled
  by_cases hsize : size < 3
  · rw [show 3 - size = (3 - (size + 1)) + 1 by omega, show size - 3 = 0 by omega,
      show size + 1 - 3 = 0 by omega, Nat.mul_add, pow_add, ← Nat.mul_assoc]
    simp
  · rw [show 3 - size = 0 by omega, show 3 - (size + 1) = 0 by omega,
      show size + 1 - 3 = (size - 3) + 1 by omega, Nat.mul_add, pow_add, Nat.div_div_eq_div_mul]

end Scaled

theorem lt_pow_canonicalSize (v : Nat) (hv : v ≠ 0) : v < 2 ^ (8 * canonicalSize v - 1) := by
  refine (Nat.lt_size_self v).trans_le (Nat.pow_le_pow_right (by omega) ?_)
  rw [canonicalSize, if_neg hv]
  omega

theorem mantissa_lt (v : Nat) : mantissa v < 2 ^ 23 := by
  by_cases hv : v = 0
  · subst hv
    simp [mantissa, scaled]
  · refine scaled_lt (by omega) ?_ (lt_pow_canonicalSize v hv)
    rw [canonicalSize, if_neg hv]
    omega

theorem canonicalSize_eq (v : Nat) : canonicalSize v =
    if v ≠ 0 ∧ Nat.size v % 8 = 0 then (Nat.size v + 7) / 8 + 1 else (Nat.size v + 7) / 8 := by
  unfold canonicalSize
  by_cases hv : v = 0
  · simp [hv]
  · rw [if_neg hv]
    split
    · omega
    · rename_i hmod
      have : Nat.size v % 8 ≠ 0 := fun h => hmod ⟨hv, h⟩
      omega

theorem le_scaled_iff (v : Nat) :
    2 ^ 23 ≤ scaled ((Nat.size v + 7) / 8) v ↔ v ≠ 0 ∧ Nat.size v % 8 = 0 := by
  constructor
  · intro h
    have hv : v ≠ 0 := by
      rintro rfl
      simp [scaled] at h
    refine ⟨hv, ?_⟩
    by_contra hmod
    have hlt : scaled ((Nat.size v + 7) / 8) v < 2 ^ (24 - 1) := by
      refine scaled_lt (by omega) (by omega) ?_
      exact (Nat.lt_size_self v).trans_le (Nat.pow_le_pow_right (by omega) (by omega))
    omega
  · intro h
    have hsize : 0 < Nat.size v := Nat.size_pos.2 (Nat.pos_of_ne_zero h.1)
    refine le_scaled (j := 1) (by omega) (by omega) (Nat.lt_size.1 ?_)
    omega

theorem scaled_lt_pow (v : Nat) : scaled ((Nat.size v + 7) / 8) v < 2 ^ 24 := by
  refine scaled_lt (j := 0) (by omega) (by omega) ?_
  exact (Nat.lt_size_self v).trans_le (Nat.pow_le_pow_right (by omega) (by omega))

/-! ## Encoding -/

theorem raw_eq (v : Nat) :
    (if (Nat.size v + 7) / 8 ≤ 3 then (v <<< (8 * (3 - (Nat.size v + 7) / 8))) % 2 ^ 32
      else (v >>> (8 * ((Nat.size v + 7) / 8 - 3))) % 2 ^ 32) =
      scaled ((Nat.size v + 7) / 8) v := by
  have hlt : scaled ((Nat.size v + 7) / 8) v < 2 ^ 32 := (scaled_lt_pow v).trans (by norm_num)
  generalize (Nat.size v + 7) / 8 = size at hlt ⊢
  split
  · rename_i hsize
    rw [scaled, show size - 3 = 0 by omega] at hlt ⊢
    simpa [Nat.shiftLeft_eq] using hlt
  · rename_i hsize
    rw [scaled, show 3 - size = 0 by omega] at hlt ⊢
    simpa [Nat.shiftRight_eq_div_pow] using hlt

theorem and_signBit_ne_zero {c : Nat} (hc : c < 2 ^ 24) : c &&& 0x00800000 ≠ 0 ↔ 2 ^ 23 ≤ c := by
  rw [show 0x00800000 = 2 ^ 23 by norm_num, Nat.and_two_pow]
  have hbit : c.testBit 23 = decide (2 ^ 23 ≤ c) := by
    rw [Nat.testBit_eq_decide_div_mod_eq]
    congr 1
    rw [eq_iff_iff]
    omega
  rw [hbit]
  by_cases h : 2 ^ 23 ≤ c
  · rw [decide_eq_true h]
    exact iff_of_true (by decide) h
  · rw [decide_eq_false h]
    exact iff_of_false (by decide) h

theorem and_high_eq_zero {c : Nat} (hc : c < 2 ^ 23) : c &&& 0xff800000 = 0 := by
  refine Nat.eq_of_testBit_eq fun i => ?_
  rw [Nat.testBit_and, show 0xff800000 = 511 <<< 23 by decide, Nat.testBit_shiftLeft,
    Nat.zero_testBit]
  by_cases hi : 23 ≤ i
  · rw [Nat.testBit_lt_two_pow (hc.trans_le (Nat.pow_le_pow_right (by omega) hi)), Bool.false_and]
  · simp [hi]

/-- The word of a mantissa and a size. -/
def ofParts (m size : Nat) : Compact := ⟨.ofNat (m + size * 2 ^ 24)⟩

theorem ofParts_eq {m : Nat} (hm : m < 2 ^ 23) (size : Nat) :
    (⟨.ofNat (m ||| (size <<< 24))⟩ : Compact) = ofParts m size := by
  rw [ofParts, Nat.or_comm, ← Nat.shiftLeft_add_eq_or_of_lt (hm.trans (by norm_num)),
    Nat.shiftLeft_eq, Nat.add_comm]

theorem mantissa_eq (v : Nat) : mantissa v =
    if v ≠ 0 ∧ Nat.size v % 8 = 0 then scaled ((Nat.size v + 7) / 8) v >>> 8
    else scaled ((Nat.size v + 7) / 8) v := by
  rw [mantissa, canonicalSize_eq]
  split
  · rw [scaled_succ, Nat.shiftRight_eq_div_pow]
  · rfl

theorem fromU256_eq (v : U256) :
    fromU256 v = ofParts (mantissa v.toNat) (canonicalSize v.toNat) := by
  have hadjust := (and_signBit_ne_zero (scaled_lt_pow v.toNat)).trans (le_scaled_iff v.toNat)
  unfold fromU256
  simp only [raw_eq]
  rw [← ofParts_eq (mantissa_lt _), mantissa_eq, canonicalSize_eq]
  by_cases h : v.toNat ≠ 0 ∧ Nat.size v.toNat % 8 = 0
  · rw [if_pos (hadjust.2 h), if_pos h, if_pos h]
  · rw [if_neg fun hc => h (hadjust.1 hc), if_neg h, if_neg h]

theorem canonicalSize_le (v : U256) : canonicalSize v.toNat ≤ 33 := by
  have hsize : Nat.size v.toNat ≤ 256 := Nat.size_le.2 v.isLt
  unfold canonicalSize
  split
  · omega
  · omega

/-- The assertions of `from_u256` hold. -/
theorem fromU256?_eq (v : U256) : fromU256? v = some (fromU256 v) := by
  have hadjust := (and_signBit_ne_zero (scaled_lt_pow v.toNat)).trans (le_scaled_iff v.toNat)
  have hparts : (if scaled ((Nat.size v.toNat + 7) / 8) v.toNat &&& 0x00800000 ≠ 0 then
      (scaled ((Nat.size v.toNat + 7) / 8) v.toNat >>> 8, (Nat.size v.toNat + 7) / 8 + 1)
      else (scaled ((Nat.size v.toNat + 7) / 8) v.toNat, (Nat.size v.toNat + 7) / 8)) =
      (mantissa v.toNat, canonicalSize v.toNat) := by
    rw [mantissa_eq, canonicalSize_eq]
    by_cases h : v.toNat ≠ 0 ∧ Nat.size v.toNat % 8 = 0
    · rw [if_pos (hadjust.2 h), if_pos h, if_pos h]
    · rw [if_neg fun hc => h (hadjust.1 hc), if_neg h, if_neg h]
  have hsize := canonicalSize_le v
  unfold fromU256?
  simp only [raw_eq, hparts]
  rw [if_pos ⟨and_high_eq_zero (mantissa_lt _), by omega⟩, ofParts_eq (mantissa_lt _), fromU256_eq]

/-! ## Decoding -/

/-- What a mantissa and a size stand for. -/
def decoded (m size : Nat) : Nat := m / 2 ^ (8 * (3 - size)) * 2 ^ (8 * (size - 3))

section Decode

variable {m size : Nat}

theorem ofParts_toNat (hm : m < 2 ^ 23) (hsize : size < 256) :
    (ofParts m size).bits.toNat = m + size * 2 ^ 24 := by
  refine UInt32.toNat_ofNat_of_lt' ?_
  simp only [UInt32.size]
  omega

theorem ofParts_size (hm : m < 2 ^ 23) (hsize : size < 256) :
    (ofParts m size).bits.toNat >>> 24 = size := by
  rw [ofParts_toNat hm hsize, Nat.shiftRight_eq_div_pow]
  omega

theorem ofParts_word (hm : m < 2 ^ 23) (hsize : size < 256) :
    (ofParts m size).bits.toNat &&& 0x007fffff = m := by
  rw [ofParts_toNat hm hsize, show 0x007fffff = 2 ^ 23 - 1 by norm_num,
    Nat.and_two_pow_sub_one_eq_mod]
  omega

theorem ofParts_sign (hm : m < 2 ^ 23) (hsize : size < 256) :
    (ofParts m size).bits.toNat &&& 0x00800000 = 0 := by
  rw [ofParts_toNat hm hsize, show 0x00800000 = 2 ^ 23 by norm_num, Nat.and_two_pow,
    Nat.testBit_eq_decide_div_mod_eq]
  rw [decide_eq_false (by omega), Bool.toNat_false, Nat.zero_mul]

theorem toU256?_ofParts (hm : m < 2 ^ 23) (hsize : size ≤ 33) (hlarge : size = 33 → m < 2 ^ 16) :
    (ofParts m size).toU256? = some (BitVec.ofNat 256 (decoded m size)) := by
  have hbyte : size < 256 := by omega
  unfold toU256? decodeTarget
  simp only [ofParts_size hm hbyte, ofParts_word hm hbyte, ofParts_sign hm hbyte]
  have hword : (if size ≤ 3 then m >>> (8 * (3 - size)) else m) ≤ m := by
    split
    · exact Nat.shiftRight_le m _
    · exact le_rfl
  rw [if_neg]
  · congr 1
    unfold decoded
    split
    · rename_i h
      rw [Nat.shiftRight_eq_div_pow, show size - 3 = 0 by omega]
      simp
    · rename_i h
      rw [show 3 - size = 0 by omega]
      refine BitVec.eq_of_toNat_eq ?_
      simp [BitVec.toNat_shiftLeft, Nat.shiftLeft_eq]
  · simp only [ne_eq, not_true_eq_false, and_false, false_or, decide_eq_true_eq]
    omega

end Decode

/-- The bytes below the leading ones are lost. -/
def precision : Precision where
  drop v := 8 * (Nat.size v / 8 - 2)
  mono v w h := by
    have hsize := Nat.size_le_size h
    simp only
    omega
  stable v := by
    by_cases h : Nat.size v / 8 ≤ 2
    · simp [Nat.sub_eq_zero_of_le h]
    · rw [size_div_mul_pow (by omega)]

theorem decoded_eq (v : Nat) : decoded (mantissa v) (canonicalSize v) = precision.truncate v := by
  by_cases hv : v = 0
  · subst hv
    simp [decoded, mantissa, scaled, Precision.truncate]
  · have hsize : canonicalSize v = Nat.size v / 8 + 1 := if_neg hv
    rw [decoded, mantissa, scaled, Precision.truncate]
    simp only [precision]
    rw [hsize, show 8 * (Nat.size v / 8 + 1 - 3) = 8 * (Nat.size v / 8 - 2) by omega]
    by_cases h : Nat.size v / 8 ≤ 2
    · rw [Nat.sub_eq_zero_of_le h]
      simp
    · rw [show 3 - (Nat.size v / 8 + 1) = 0 by omega]
      simp

theorem toU256?_fromU256 (v : U256) :
    (fromU256 v).toU256? = some (BitVec.ofNat 256 (precision.truncate v.toNat)) := by
  rw [fromU256_eq, toU256?_ofParts (mantissa_lt _) (canonicalSize_le v), decoded_eq]
  intro hsize
  refine scaled_lt (j := 8) (by omega) (by omega) ?_
  rw [hsize]
  exact v.isLt

/-- The target of the encoding of `v`. -/
def rounded (v : U256) : U256 := BitVec.ofNat 256 (precision.truncate v.toNat)

theorem rounded_toNat (v : U256) : (rounded v).toNat = precision.truncate v.toNat := by
  rw [rounded, BitVec.toNat_ofNat]
  exact Nat.mod_eq_of_lt ((precision.truncate_le _).trans_lt v.isLt)

theorem rounded_le (v : U256) : rounded v ≤ v := by
  rw [BitVec.le_def, rounded_toNat]
  exact precision.truncate_le _

theorem rounded_mono {v w : U256} (h : v ≤ w) : rounded v ≤ rounded w := by
  rw [BitVec.le_def, rounded_toNat, rounded_toNat]
  exact precision.truncate_mono h

theorem fromU256_rounded (v : U256) : fromU256 (rounded v) = fromU256 v := by
  have hsize : Nat.size (precision.truncate v.toNat) = Nat.size v.toNat := by
    by_cases h : Nat.size v.toNat / 8 ≤ 2
    · simp [Precision.truncate, precision, Nat.sub_eq_zero_of_le h]
    · exact size_div_mul_pow (by simp only [precision]; omega)
  have hcanonical : canonicalSize (precision.truncate v.toNat) = canonicalSize v.toNat := by
    have hzero : precision.truncate v.toNat = 0 ↔ v.toNat = 0 := by
      rw [← Nat.size_eq_zero, hsize, Nat.size_eq_zero]
    simp only [canonicalSize, hsize, hzero]
  rw [fromU256_eq, fromU256_eq, rounded_toNat, hcanonical]
  congr 1
  rw [mantissa, mantissa, hcanonical]
  by_cases hv : v.toNat = 0
  · simp [hv, Precision.truncate]
  · have hpart : canonicalSize v.toNat = Nat.size v.toNat / 8 + 1 := if_neg hv
    rw [scaled, scaled, Precision.truncate]
    simp only [precision]
    rw [hpart, show 8 * (Nat.size v.toNat / 8 + 1 - 3) = 8 * (Nat.size v.toNat / 8 - 2) by omega]
    by_cases h : Nat.size v.toNat / 8 ≤ 2
    · rw [Nat.sub_eq_zero_of_le h]
      simp
    · rw [show 3 - (Nat.size v.toNat / 8 + 1) = 0 by omega]
      simp

theorem sub_rounded_lt {v : U256} (hv : 0 < v.toNat) :
    (v.toNat - (rounded v).toNat) * 2 ^ 15 < v.toNat := by
  rw [rounded_toNat]
  by_cases h : Nat.size v.toNat / 8 ≤ 2
  · simpa [Precision.truncate, precision, Nat.sub_eq_zero_of_le h] using hv
  · have hlead : 2 ^ (Nat.size v.toNat - 1) ≤ v.toNat := Nat.lt_size.1 (by omega)
    calc (v.toNat - precision.truncate v.toNat) * 2 ^ 15
        < 2 ^ (8 * (Nat.size v.toNat / 8 - 2)) * 2 ^ 15 :=
          Nat.mul_lt_mul_of_pos_right (precision.sub_truncate_lt _) (by positivity)
      _ = 2 ^ (8 * (Nat.size v.toNat / 8 - 2) + 15) := (pow_add ..).symm
      _ ≤ 2 ^ (Nat.size v.toNat - 1) := Nat.pow_le_pow_right (by omega) (by omega)
      _ ≤ v.toNat := hlead

/-- **Compact encoding is a rounding**: the assertions hold, the target of the encoding is the number
up to a small error below, encoding the target again changes nothing, and larger numbers have larger
targets. -/
theorem fromU256_rounds (v : U256) :
    fromU256? v = some (fromU256 v) ∧
      ∃ t, (fromU256 v).toU256? = some t ∧ t ≤ v ∧
        (0 < v.toNat → (v.toNat - t.toNat) * 2 ^ 15 < v.toNat) ∧
        fromU256 t = fromU256 v ∧
        ∀ w t', v ≤ w → (fromU256 w).toU256? = some t' → t ≤ t' := by
  refine ⟨fromU256?_eq v, rounded v, toU256?_fromU256 v, rounded_le v, sub_rounded_lt,
    fromU256_rounded v, fun w t' h ht' => ?_⟩
  rw [toU256?_fromU256 w] at ht'
  rw [← Option.some.inj ht']
  exact rounded_mono h

end Uchain.Compact
