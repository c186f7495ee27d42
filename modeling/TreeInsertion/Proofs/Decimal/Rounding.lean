import Mathlib.Algebra.Order.Ring.Nat
import Mathlib.Data.Nat.Log
import TreeInsertion.Decimal.Nearest

/-!
# Rounding to double precision

The nearest word depends on the value of a quotient only, not on how it is written, and of
the value of a finite word it is the word itself.  For decimals this means that a power of
ten can be moved between the digits and the exponent.
-/

namespace TreeInsertion

namespace Decimal

/-! ## Quotients -/

theorem roundHalfEven_mul (num den : Nat) {m : Nat} (hm : 0 < m) :
    roundHalfEven (num * m) (den * m) = roundHalfEven num den := by
  have hleft : 2 * (num % den * m) < den * m ↔ 2 * (num % den) < den := by
    rw [← Nat.mul_assoc, Nat.mul_lt_mul_right hm]
  have hright : den * m < 2 * (num % den * m) ↔ den < 2 * (num % den) := by
    rw [← Nat.mul_assoc, Nat.mul_lt_mul_right hm]
  simp only [roundHalfEven, Nat.mul_div_mul_right _ _ hm, Nat.mul_mod_mul_right, hleft, hright]

theorem roundHalfEven_exact (n : Nat) {den : Nat} (hden : 0 < den) :
    roundHalfEven (n * den) den = n := by
  simp [roundHalfEven, Nat.mul_div_cancel n hden, hden]

theorem nearest_mul (num den : Nat) {m : Nat} (hm : 0 < m) :
    nearest (num * m) (den * m) = nearest num den := by
  have hunits : num * m * Nat.pow 2 1074 = num * Nat.pow 2 1074 * m := Nat.mul_right_comm _ _ _
  have hscaled (s : Nat) : den * m * Nat.pow 2 s = den * Nat.pow 2 s * m :=
    Nat.mul_right_comm _ _ _
  simp only [nearest, hunits, hscaled, Nat.mul_div_mul_right _ _ hm, roundHalfEven_mul _ _ hm]

/-- Equal quotients have the same nearest word. -/
theorem nearest_congr {num den num' den' : Nat} (hden : 0 < den) (hden' : 0 < den')
    (h : num * den' = num' * den) : nearest num den = nearest num' den' := by
  rw [← nearest_mul num den hden', h, Nat.mul_comm den, nearest_mul num' den' hden]

/-- Five to a power goes over to ten in the denominator. -/
theorem nearest_mul_five_pow (n k : Nat) : nearest (n * 5 ^ k) (10 ^ k) = nearest n (2 ^ k) := by
  have hten : 10 ^ k = 2 ^ k * 5 ^ k := Nat.mul_pow 2 5 k
  rw [hten, nearest_mul _ _ (Nat.pow_pos (by decide))]

/-! ## Finite words -/

/-- The scale of a number that a mantissa of 53 bits can write exactly. -/
theorem log2_sub_eq {m s : Nat} (hm : m < 2 ^ 53) (hs : s = 0 ∨ 2 ^ 52 ≤ m) :
    (m * 2 ^ s).log2 - 52 = s := by
  rcases hs with rfl | hs
  · by_cases hzero : m = 0
    · simp [hzero]
    · have hlt := (Nat.log2_lt hzero).2 hm
      rw [Nat.pow_zero, Nat.mul_one]
      omega
  · have hpos : 0 < 2 ^ s := Nat.two_pow_pos s
    have hne : m * 2 ^ s ≠ 0 := Nat.ne_of_gt (Nat.mul_pos (by omega) hpos)
    have hlog : (m * 2 ^ s).log2 = 52 + s := by
      refine (Nat.log2_eq_iff hne).2 ⟨?_, ?_⟩
      · rw [Nat.pow_add]
        exact Nat.mul_le_mul_right _ hs
      · rw [Nat.add_right_comm, Nat.pow_add]
        exact Nat.mul_lt_mul_of_pos_right hm hpos
    omega

/-- What a mantissa and a scale write exactly is not rounded. -/
theorem nearest_exact {m s : Nat} (hm : m < 2 ^ 53) (hs : s = 0 ∨ 2 ^ 52 ≤ m) :
    nearest (m * 2 ^ s) (2 ^ 1074) = min infinity (s * 2 ^ 52 + m) := by
  have hquotient (k : Nat) : m * 2 ^ s * 2 ^ k / 2 ^ k = m * 2 ^ s :=
    Nat.mul_div_cancel _ (Nat.two_pow_pos k)
  have hround (k : Nat) : roundHalfEven (m * 2 ^ s * 2 ^ k) (2 ^ k * 2 ^ s) = m := by
    rw [Nat.mul_assoc, Nat.mul_comm (2 ^ s)]
    exact roundHalfEven_exact m (Nat.mul_pos (Nat.two_pow_pos k) (Nat.two_pow_pos s))
  simp only [nearest, Nat.pow_eq, hquotient, log2_sub_eq hm hs, hround]

theorem decode_spec (word : Nat) :
    (decode word).1 < 2 ^ 53 ∧ ((decode word).2 = 0 ∨ 2 ^ 52 ≤ (decode word).1) ∧
      (decode word).2 * 2 ^ 52 + (decode word).1 = word := by
  have hsplit := Nat.div_add_mod word (2 ^ 52)
  have hlt := Nat.mod_lt word (Nat.two_pow_pos 52)
  simp only [decode, Nat.pow_eq]
  split
  · rename_i hzero
    dsimp only
    omega
  · rename_i hnormal
    dsimp only
    omega

theorem nearest_decode {word : Nat} (h : word < infinity) :
    nearest ((decode word).1 * 2 ^ (decode word).2) (2 ^ 1074) = word := by
  obtain ⟨hm, hs, hvalue⟩ := decode_spec word
  rw [nearest_exact hm hs, hvalue]
  exact Nat.min_eq_right (Nat.le_of_lt h)

/-! ## Decimals -/

theorem digitCount_le_iff {n k : Nat} (hk : 0 < k) : digitCount n ≤ k ↔ n < 10 ^ k :=
  Nat.length_toDigits_le_iff (by decide) hk

theorem digitCount_pos (n : Nat) : 0 < digitCount n :=
  Nat.length_toDigits_pos

theorem lt_digitCount_of_pow_le {n k : Nat} (h : 10 ^ k ≤ n) : k < digitCount n := by
  refine Nat.lt_of_not_le fun hle => ?_
  have hk : 0 < k := Nat.lt_of_lt_of_le (digitCount_pos n) hle
  exact Nat.not_lt.2 h ((digitCount_le_iff hk).1 hle)

theorem pow_le_of_pos {n : Nat} (hn : 0 < n) : 10 ^ (digitCount n - 1) ≤ n := by
  refine Nat.le_of_not_lt fun hlt => ?_
  have hpos := digitCount_pos n
  by_cases hone : digitCount n = 1
  · rw [hone, Nat.sub_self, Nat.pow_zero] at hlt
    omega
  · have hle := (digitCount_le_iff (n := n) (k := digitCount n - 1) (by omega)).2 hlt
    omega

/-- Zeros at the end count as digits. -/
theorem digitCount_mul_pow {n : Nat} (hn : 0 < n) (k : Nat) :
    digitCount (n * 10 ^ k) = digitCount n + k := by
  have hpos := digitCount_pos n
  refine Nat.le_antisymm ?_ ?_
  · have hlt := (digitCount_le_iff hpos).1 (Nat.le_refl _)
    refine (digitCount_le_iff (Nat.add_pos_left hpos k)).2 ?_
    rw [Nat.pow_add]
    exact Nat.mul_lt_mul_of_pos_right hlt (Nat.pow_pos (by decide))
  · have hle : 10 ^ (digitCount n - 1 + k) ≤ n * 10 ^ k := by
      rw [Nat.pow_add]
      exact Nat.mul_le_mul_right _ (pow_le_of_pos hn)
    have hlt := lt_digitCount_of_pow_le hle
    omega

/-- A decimal within the bounds is the nearest word to its value as a quotient. -/
theorem ofDecimal_eq_nearest {digits : Nat} {exponent : Int} (hdigits : digits ≠ 0)
    (hlow : -330 ≤ digitCount digits + exponent) (hhigh : digitCount digits + exponent ≤ 310) :
    ofDecimal digits exponent =
      nearest (digits * 10 ^ exponent.toNat) (10 ^ (-exponent).toNat) := by
  have hlow' : ¬ digitCount digits + exponent < -330 := Int.not_lt.2 hlow
  have hhigh' : ¬ 310 < digitCount digits + exponent := Int.not_lt.2 hhigh
  simp only [ofDecimal, hdigits, hlow', decide_false, Bool.or_self, Bool.false_eq_true,
    if_false, hhigh']
  cases exponent with
  | ofNat e => simp
  | negSucc e => simp

/-- A power of ten may stand in the digits or in the exponent. -/
theorem ofDecimal_mul_pow (digits k : Nat) (exponent : Int) :
    ofDecimal (digits * 10 ^ k) (exponent - k) = ofDecimal digits exponent := by
  by_cases hdigits : digits = 0
  · simp [ofDecimal, hdigits]
  have hpow : 0 < 10 ^ k := Nat.pow_pos (by decide)
  have hdigits' : digits * 10 ^ k ≠ 0 := Nat.mul_ne_zero hdigits (Nat.ne_of_gt hpow)
  have hcount := digitCount_mul_pow (Nat.pos_of_ne_zero hdigits) k
  have hmagnitude : ((digitCount (digits * 10 ^ k) : Nat) : Int) + (exponent - k) =
      digitCount digits + exponent := by
    omega
  by_cases hlow : (digitCount digits : Int) + exponent < -330
  · simp [ofDecimal, hmagnitude, hlow]
  by_cases hhigh : 310 < (digitCount digits : Int) + exponent
  · simp [ofDecimal, hmagnitude, hlow, hhigh, hdigits]
  rw [ofDecimal_eq_nearest hdigits' (by omega) (by omega),
    ofDecimal_eq_nearest hdigits (by omega) (by omega)]
  -- Neither exponent has a known sign, so the equation is between sums of their two parts.
  refine nearest_congr (Nat.pow_pos (by decide)) (Nat.pow_pos (by decide)) ?_
  have hexponents : k + (exponent - k).toNat + (-exponent).toNat =
      exponent.toNat + (-(exponent - k)).toNat := by
    omega
  rw [Nat.mul_assoc, Nat.mul_assoc, Nat.mul_assoc, ← Nat.pow_add, ← Nat.pow_add, ← Nat.pow_add,
    ← Nat.add_assoc, hexponents]

end Decimal

end TreeInsertion
