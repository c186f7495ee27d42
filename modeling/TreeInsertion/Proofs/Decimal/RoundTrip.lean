import TreeInsertion.Decimal.Numeral
import TreeInsertion.Proofs.Decimal.Bits
import TreeInsertion.Proofs.Decimal.Rounding

/-!
# Numbers and their numerals

The shortest decimal of a finite word reads back to it, whether a short one is found or the
exact expansion has to do.  In positional notation zeros are added and left out, none of
which changes the value.
-/

namespace TreeInsertion

namespace Decimal

/-! ## Shortest decimals -/

theorem ofDecimal_candidate {word exact dropped digits : Nat} {exponent : Int}
    (h : candidate? word exact dropped = some (digits, exponent)) :
    ofDecimal digits exponent = word := by
  simp only [candidate?] at h
  split at h
  · rename_i hlower
    cases h
    simp only [Bool.and_eq_true, beq_iff_eq] at hlower
    exact hlower.1
  · split at h
    · rename_i hupper
      cases h
      exact beq_iff_eq.1 hupper
    · cases h

theorem expansion_eq (word : Nat) :
    expansion word = (decode word).1 * 2 ^ (decode word).2 * 5 ^ 1074 := by
  rw [expansion]
  generalize 1074 = k
  rfl

theorem le_mul_pow {m : Nat} (hm : 0 < m) (s k : Nat) : 5 ^ k ≤ m * 2 ^ s * 5 ^ k :=
  Nat.le_mul_of_pos_left _ (Nat.mul_pos hm (Nat.two_pow_pos s))

theorem mul_pow_lt {m s t : Nat} (hm : m < 2 ^ 53) (hs : s ≤ t) (k : Nat) :
    m * 2 ^ s * 5 ^ k < 2 ^ 53 * 2 ^ t * 5 ^ k := by
  have hle : 2 ^ 53 * 2 ^ s ≤ 2 ^ 53 * 2 ^ t :=
    Nat.mul_le_mul_left _ (Nat.pow_le_pow_right (by decide) hs)
  have hlt : m * 2 ^ s < 2 ^ 53 * 2 ^ s := Nat.mul_lt_mul_of_pos_right hm (Nat.two_pow_pos s)
  exact Nat.mul_lt_mul_of_pos_right (Nat.lt_of_lt_of_le hlt hle) (Nat.pow_pos (by decide))

/-- The expansion of a finite number is neither too small nor too large to be written out. -/
theorem digitCount_expansion {word : Nat} (hpos : 0 < word) (h : word < infinity) :
    744 < digitCount (expansion word) ∧ digitCount (expansion word) ≤ 1384 := by
  obtain ⟨hm, hs, hvalue⟩ := decode_spec word
  rw [expansion_eq]
  generalize (decode word).1 = m at *
  generalize (decode word).2 = s at *
  have hbound : infinity = 2047 * 2 ^ 52 := rfl
  have hscale : s ≤ 2045 := by omega
  have hmantissa : 0 < m := by omega
  -- Both ends are products of powers, which one comparison of large numbers settles.
  have hlow : 10 ^ 744 ≤ 5 ^ 1074 := by decide +kernel
  have hhigh : 2 ^ 53 * 2 ^ 2045 * 5 ^ 1074 ≤ 10 ^ 1384 := by decide +kernel
  exact ⟨lt_digitCount_of_pow_le (Nat.le_trans hlow (le_mul_pow hmantissa s 1074)),
    (digitCount_le_iff (by decide)).2 (Nat.lt_of_lt_of_le (mul_pow_lt hm hscale 1074) hhigh)⟩

/-- A number of units of `10 ^ (-k)` with few enough places is read like the quotient. -/
theorem ofDecimal_units {n : Nat} (k : Nat) (hn : 0 < n)
    (hlow : k ≤ digitCount (n * 5 ^ k) + 330) (hhigh : digitCount (n * 5 ^ k) ≤ k + 310) :
    ofDecimal (n * 5 ^ k) (-(k : Int)) = nearest n (2 ^ k) := by
  have hne : n * 5 ^ k ≠ 0 := Nat.ne_of_gt (Nat.mul_pos hn (Nat.pow_pos (by decide)))
  have hwhole : (-(k : Int)).toNat = 0 := by omega
  have hplaces : (-(-(k : Int))).toNat = k := by omega
  rw [ofDecimal_eq_nearest hne (by omega) (by omega), hwhole, hplaces, Nat.pow_zero, Nat.mul_one,
    nearest_mul_five_pow]

theorem ofDecimal_expansion {word : Nat} (hpos : 0 < word) (h : word < infinity) :
    ofDecimal (expansion word) (-1074) = word := by
  obtain ⟨hlow, hhigh⟩ := digitCount_expansion hpos h
  obtain ⟨-, hscale, hvalue⟩ := decode_spec word
  have hmantissa : 0 < (decode word).1 := by omega
  have hunits := Nat.mul_pos hmantissa (Nat.two_pow_pos (decode word).2)
  rw [expansion_eq] at hlow hhigh ⊢
  exact (ofDecimal_units 1074 hunits (by omega) (by omega)).trans (nearest_decode h)

/-- The decimal found is a short one that reads back, or else the expansion. -/
theorem shortest_eq {word : Nat} (hne : word ≠ 0) :
    (∃ dropped, candidate? word (expansion word) dropped = some (shortest word)) ∨
      shortest word = (expansion word, -1074) := by
  simp only [shortest, hne, if_false]
  generalize hfound : List.findSome? _ _ = found
  cases found with
  | none => exact .inr rfl
  | some decimal =>
      obtain ⟨count, -, hcandidate⟩ := List.exists_of_findSome?_eq_some hfound
      exact .inl ⟨_, hcandidate⟩

/-- The shortest decimal reads back to the word. -/
theorem ofDecimal_shortest {word : Nat} (h : word < infinity) :
    ofDecimal (shortest word).1 (shortest word).2 = word := by
  by_cases hzero : word = 0
  · simp [shortest, ofDecimal, hzero]
  · obtain ⟨dropped, hcandidate⟩ | hexpansion := shortest_eq hzero
    · exact ofDecimal_candidate hcandidate
    · rw [hexpansion]
      exact ofDecimal_expansion (Nat.pos_of_ne_zero hzero) h

/-! ## Positional notation -/

/-- Digits with a point before the fraction, and without one where there is no fraction. -/
def layout (whole fraction : List Char) : List Char :=
  match fraction with
  | [] => whole
  | places => whole ++ '.' :: places

def significant (fraction : List Char) : List Char :=
  (fraction.reverse.dropWhile (· == '0')).reverse

theorem ofDigits_toDigits (n : Nat) : ofDigits (Nat.toDigits 10 n) = n :=
  Nat.ofDigitChars_ten_toDigits

theorem ofDigits_append_zeros (ds : List Char) (k : Nat) :
    ofDigits (ds ++ List.replicate k '0') = ofDigits ds * 10 ^ k := by
  rw [ofDigits, Nat.ofDigitChars_append, Nat.ofDigitChars_replicate_zero, Nat.mul_comm]
  rfl

theorem ofDigits_zeros_append (ds : List Char) (k : Nat) :
    ofDigits (List.replicate k '0' ++ ds) = ofDigits ds := by
  rw [ofDigits, Nat.ofDigitChars_append, Nat.ofDigitChars_replicate_zero, Nat.mul_zero]
  rfl

theorem exists_significant_append (fraction : List Char) :
    ∃ k, fraction = significant fraction ++ List.replicate k '0' := by
  have hzeros : fraction.reverse.takeWhile (· == '0') =
      List.replicate (fraction.reverse.takeWhile (· == '0')).length '0' :=
    List.eq_replicate_iff.2 ⟨rfl, fun c hc =>
      beq_iff_eq.1 (List.all_eq_true.1 List.all_takeWhile c hc)⟩
  refine ⟨(fraction.reverse.takeWhile (· == '0')).length, ?_⟩
  rw [← List.reverse_replicate, ← hzeros, significant, ← List.reverse_append,
    List.takeWhile_append_dropWhile, List.reverse_reverse]

/-- The zeros at the end of a fraction do not change the value. -/
theorem ofDecimal_significant (whole fraction : List Char) :
    ofDecimal (ofDigits (whole ++ significant fraction)) (-((significant fraction).length : Int)) =
      ofDecimal (ofDigits (whole ++ fraction)) (-(fraction.length : Int)) := by
  obtain ⟨k, hk⟩ := exists_significant_append fraction
  have hplaces : -(fraction.length : Int) = -((significant fraction).length : Int) - k := by
    have hlength := congrArg List.length hk
    rw [List.length_append, List.length_replicate] at hlength
    omega
  have hdigits : ofDigits (whole ++ fraction) =
      ofDigits (whole ++ significant fraction) * 10 ^ k := by
    rw [← ofDigits_append_zeros, List.append_assoc, ← hk]
  rw [hplaces, hdigits, ofDecimal_mul_pow]

theorem isDigit_of_mem_padded (digits k : Nat) {c : Char}
    (hc : c ∈ List.replicate k '0' ++ Nat.toDigits 10 digits) : c.isDigit := by
  rcases List.mem_append.1 hc with hc | hc
  · rw [List.eq_of_mem_replicate hc]
    rfl
  · exact Nat.isDigit_of_mem_toDigits (by decide) (by decide) hc

/-- Before a point stands at least one digit, and after it as many as there are places. -/
theorem positional_negSucc (digits n : Nat) : ∃ k whole fraction,
    positional digits (Int.negSucc n) = layout whole (significant fraction) ∧ whole ≠ [] ∧
      fraction.length = n + 1 ∧
      whole ++ fraction = List.replicate k '0' ++ Nat.toDigits 10 digits := by
  -- With these zeros in front there is one digit more than there are places.
  let k := n + 1 + 1 - (Nat.toDigits 10 digits).length
  let padded := List.replicate k '0' ++ Nat.toDigits 10 digits
  have hlength : padded.length = k + (Nat.toDigits 10 digits).length := by
    rw [List.length_append, List.length_replicate]
  refine ⟨k, padded.take (padded.length - (n + 1)), padded.drop (padded.length - (n + 1)), ?_, ?_,
    ?_, List.take_append_drop _ _⟩
  · rfl
  · refine List.ne_nil_of_length_pos ?_
    rw [List.length_take]
    omega
  · rw [List.length_drop]
    omega

/-- A decimal in positional notation has digits before the point and after it for its value. -/
theorem positional_eq_layout (digits : Nat) (exponent : Int) : ∃ whole fraction,
    positional digits exponent = layout whole fraction ∧ whole ≠ [] ∧
      (∀ c ∈ whole ++ fraction, c.isDigit) ∧
      ofDecimal (ofDigits (whole ++ fraction)) (-(fraction.length : Int)) =
        ofDecimal digits exponent := by
  cases exponent with
  | ofNat zeros =>
      refine ⟨Nat.toDigits 10 digits ++ List.replicate zeros '0', [], rfl, ?_, ?_, ?_⟩
      · exact List.append_ne_nil_of_left_ne_nil Nat.toDigits_ne_nil _
      · intro c hc
        rw [List.append_nil, List.mem_append] at hc
        exact isDigit_of_mem_padded digits zeros (List.mem_append.2 hc.symm)
      · have hvalue := ofDecimal_mul_pow digits zeros zeros
        rw [Int.sub_self] at hvalue
        rw [List.append_nil, ofDigits_append_zeros, ofDigits_toDigits]
        exact hvalue
  | negSucc n =>
      obtain ⟨k, whole, fraction, htext, hne, hplaces, hsplit⟩ := positional_negSucc digits n
      refine ⟨whole, significant fraction, htext, hne, fun c hc => ?_, ?_⟩
      · obtain ⟨k', hk'⟩ := exists_significant_append fraction
        refine isDigit_of_mem_padded digits k ?_
        rw [← hsplit, hk', ← List.append_assoc]
        exact List.mem_append_left _ hc
      · rw [ofDecimal_significant, hsplit, ofDigits_zeros_append, ofDigits_toDigits, hplaces]
        rfl

/-! ## Numbers -/

/-- The numeral of a finite number without a sign is read as that number. -/
theorem render_eq_layout {x : Float} (h : x.toBits.toNat < infinity) : ∃ whole fraction,
    (render x).toList = layout whole fraction ∧ whole ≠ [] ∧
      (∀ c ∈ whole ++ fraction, c.isDigit) ∧ ofParts whole fraction 0 = x := by
  have hbound : infinity = 2047 * 2 ^ 52 := rfl
  have hmagnitude : x.toBits.toNat % Nat.pow 2 63 = x.toBits.toNat :=
    Nat.mod_eq_of_lt (by show _ < 2 ^ 63; omega)
  have hsign : ¬ Nat.pow 2 63 ≤ x.toBits.toNat := by
    show ¬ 2 ^ 63 ≤ _
    omega
  have htext : render x =
      String.ofList (positional (shortest x.toBits.toNat).1 (shortest x.toBits.toNat).2) := by
    simp only [render, hmagnitude, hsign, Nat.lt_asymm h, Nat.ne_of_lt h, if_false]
    exact String.empty_append
  obtain ⟨whole, fraction, hlayout, hne, hdigits, hvalue⟩ :=
    positional_eq_layout (shortest x.toBits.toNat).1 (shortest x.toBits.toNat).2
  refine ⟨whole, fraction, ?_, hne, hdigits, ?_⟩
  · rw [htext, String.toList_ofList, hlayout]
  · rw [ofParts, Int.zero_sub, hvalue, ofDecimal_shortest h, UInt64.ofNat_toNat, ofBits_toBits]

end Decimal

end TreeInsertion
