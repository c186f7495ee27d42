import Mathlib
import TreeInsertion.Decimal.Nearest

/-!
# Floats and their words

A number in double precision is its word.  The word unpacks to a sign, a mantissa and an
exponent, which pack to the same word again, and there is one word only for what is not
a number.
-/

namespace TreeInsertion

namespace Decimal

open Float.Model Float.Model.UnpackedFloat

abbrev Word64 : Type :=
  BitVec Format.binary64.numBits

/-- A word is made of its sign, its exponent and its fraction. -/
theorem packComponents_unpacked (v : Word64) :
    packComponents Format.binary64 (Sign.ofBitVec (unpackSign v)) (unpackExponent v)
      (unpackMantissa v) = v := by
  have hsign : (Sign.ofBitVec (unpackSign v)).toBitVec = unpackSign v := by
    generalize unpackSign v = s
    revert s
    decide
  rw [packComponents, hsign]
  simp only [unpackSign, unpackExponent, unpackMantissa, BitVec.extractLsb]
  ext i hi
  grind

/-- The leading bit of a normal number stands before the fraction of its word. -/
theorem toNat_append_fraction (m : BitVec 52) : (1#1 ++ m).toNat = 2 ^ 52 + m.toNat := by
  rw [BitVec.toNat_append, ← Nat.shiftLeft_add_eq_or_of_lt m.isLt]
  simp [Nat.shiftLeft_eq]

theorem pack_subnormal (s : Sign) {m : BitVec 52} (hm : 0 < m.toNat) :
    pack Format.binary64 (.finite s m.toNat (-1074) hm) =
      packComponents Format.binary64 s 0#_ m := by
  have hlog : ¬ m.toNat.log2 + 1 = Format.binary64.mantissaBits := by
    have hlt : m.toNat.log2 < 52 := (Nat.log2_lt (Nat.ne_of_gt hm)).2 m.isLt
    have hbits : Format.binary64.mantissaBits = 53 := rfl
    omega
  simp only [UnpackedFloat.pack]
  rw [if_neg (by decide), if_neg hlog, BitVec.ofNat_toNat, BitVec.setWidth_eq]

theorem pack_normal (s : Sign) {e : BitVec 11} (he : e ≠ -1#11) (m : BitVec 52)
    (hm : 0 < (1#1 ++ m).toNat) :
    pack Format.binary64 (.finite s (1#1 ++ m).toNat ((e.toNat : Int) - 1075) hm) =
      packComponents Format.binary64 s e m := by
  have hexponent : ((e.toNat : Int) - 1075 + Format.binary64.exponentBias +
      Format.binary64.mantissaBitsWithoutImplicit).toNat = e.toNat := by
    have hbias : (Format.binary64.exponentBias : Int) = 1023 := rfl
    have hbits : (Format.binary64.mantissaBitsWithoutImplicit : Int) = 52 := rfl
    omega
  have hfinite : ¬ 2 ^ Format.binary64.exponentBits ≤ e.toNat + 1 := by
    have hne : e.toNat ≠ 2047 := fun heq => he (BitVec.eq_of_toNat_eq heq)
    have hlt : e.toNat < 2048 := e.isLt
    have hbits : 2 ^ Format.binary64.exponentBits = 2048 := rfl
    omega
  have hlog : (1#1 ++ m).toNat.log2 + 1 = Format.binary64.mantissaBits := by
    have hlt := m.isLt
    have hvalue := toNat_append_fraction m
    have hlog : (1#1 ++ m).toNat.log2 = 52 :=
      (Nat.log2_eq_iff (Nat.ne_of_gt hm)).2 ⟨by omega, by omega⟩
    rw [hlog]
    rfl
  have hfraction : BitVec.ofNat 52 (1#1 ++ m).toNat = m := by
    refine BitVec.eq_of_toNat_eq ?_
    rw [BitVec.toNat_ofNat, toNat_append_fraction, Nat.add_mod_left, Nat.mod_eq_of_lt m.isLt]
  simp only [UnpackedFloat.pack, hexponent]
  rw [if_neg hfinite, if_pos hlog, hfraction, BitVec.ofNat_toNat, BitVec.setWidth_eq]

/-- A word is what it unpacks to, packed again. -/
theorem pack_unpack {v : Word64} (hv : Format.binary64.Valid v) :
    pack Format.binary64 (unpack Format.binary64 v) = v := by
  have hv' := packComponents_unpacked v
  rw [UnpackedFloat.unpack]
  split
  · rename_i hlast
    split
    · rename_i hzero
      rw [hlast, hzero] at hv'
      exact hv'
    · rename_i hsome
      exact (hv.eq_packedNaN hlast hsome).symm
  · rename_i hexponent
    split
    · rename_i hfirst
      split
      · rename_i hzero
        rw [hfirst, hzero] at hv'
        exact hv'
      · rename_i hsome
        rw [hfirst] at hv' ⊢
        exact (pack_subnormal _ _).trans hv'
    · exact (pack_normal _ hexponent _ _).trans hv'

theorem ofBits_toBits (x : Float) : Float.ofBits x.toBits = x := by
  obtain ⟨⟨bits, hbits⟩⟩ := x
  have hpack : UInt64.ofBitVec (pack Format.binary64 (unpack Format.binary64 bits.toBitVec)) =
      bits := by
    rw [pack_unpack hbits]
  simp only [Float.ofBits, Float.toBits, Float.Model.ofBits, Float.Model.pack, hpack]

theorem toNat_unpackExponent (v : Word64) :
    (unpackExponent v).toNat = v.toNat / 2 ^ 52 % 2 ^ 11 := by
  simp only [unpackExponent, BitVec.toNat_cast, BitVec.extractLsb_toNat, Nat.shiftRight_eq_div_pow]

theorem toNat_unpackMantissa (v : Word64) : (unpackMantissa v).toNat = v.toNat % 2 ^ 52 := by
  simp only [unpackMantissa, BitVec.toNat_cast, BitVec.extractLsb_toNat]
  rfl

/-- No word up to that for infinity stands for what is not a number. -/
theorem valid_of_le {v : Word64} (h : v.toNat ≤ infinity) : Format.binary64.Valid v where
  eq_packedNaN hlast hsome := by
    have hexponent : v.toNat / 2 ^ 52 % 2 ^ 11 = 2047 := by
      rw [← toNat_unpackExponent, hlast]
      rfl
    have hfraction : v.toNat % 2 ^ 52 ≠ 0 := by
      rw [← toNat_unpackMantissa]
      exact fun hzero => hsome (BitVec.eq_of_toNat_eq hzero)
    have hinfinity : infinity = 2047 * 2 ^ 52 := rfl
    omega

theorem toBits_ofBits {w : Nat} (h : w ≤ infinity) :
    (Float.ofBits (UInt64.ofNat w)).toBits.toNat = w := by
  have hinfinity : infinity = 2047 * 2 ^ 52 := rfl
  have hw : (UInt64.ofNat w).toNat = w := UInt64.toNat_ofNat_of_lt' (by show w < 2 ^ 64; omega)
  have hpack := pack_unpack (valid_of_le (v := (UInt64.ofNat w).toBitVec) (hw.le.trans h))
  simp only [Float.ofBits, Float.toBits, Float.Model.ofBits, Float.Model.pack, hpack]
  exact hw

end Decimal

end TreeInsertion
