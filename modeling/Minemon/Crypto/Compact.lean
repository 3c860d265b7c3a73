import Minemon.Core.ProofOfWork

/-!
# Compact targets

`SetCompact` and `GetCompact` of `uint256`: a byte for the size and three bytes for the mantissa, whose highest bit
is a sign.

* `getCompact_eq`: the mantissa and the size.
* `setCompact_getCompact`: what is left of a number.
* `compact_rounds_down`: **compact targets round down and are stable**.
-/

namespace Minemon

open WordArith

section

variable {x y : ℕ}

theorem bits_pos (hx : x ≠ 0) : 0 < bits x := by simp [bits, hx]

theorem shift_eq (x n : ℕ) : (if n ≤ 3 then x * 2 ^ (8 * (3 - n)) else x / 2 ^ (8 * (n - 3))) =
    x * 2 ^ 24 / 2 ^ (8 * n) := by
  split_ifs with h
  · rw [show 24 = 8 * (3 - n) + 8 * n by omega, pow_add, ← mul_assoc, Nat.mul_div_cancel _ (by positivity)]
  · rw [show 8 * n = 8 * (n - 3) + 24 by omega, pow_add, Nat.mul_div_mul_right _ _ (by positivity)]

/-- The mantissa of the compact form, of 16 to 23 bits. -/
def compactMantissa (x : ℕ) : ℕ := x * 2 ^ 16 / 2 ^ (8 * (bits x / 8))

theorem compactMantissa_lt (x : ℕ) : compactMantissa x < 2 ^ (16 + bits x % 8) := by
  rw [compactMantissa, Nat.div_lt_iff_lt_mul (by positivity), ← pow_add, mul_comm,
    show 16 + bits x % 8 + 8 * (bits x / 8) = 16 + bits x by omega, pow_add]
  exact Nat.mul_lt_mul_of_pos_left (lt_two_pow_bits x) (by positivity)

theorem compactMantissa_lt_sign (x : ℕ) : compactMantissa x < 2 ^ 23 :=
  (compactMantissa_lt x).trans_le (Nat.pow_le_pow_right (by norm_num) (by omega))

theorem le_compactMantissa (hx : x ≠ 0) : 2 ^ 15 ≤ compactMantissa x := by
  have hle : 2 ^ (bits x - 1) ≤ x := two_pow_le_of_bits (bits_pos hx).ne'
  rw [compactMantissa, Nat.le_div_iff_mul_le (by positivity), ← pow_add]
  calc 2 ^ (15 + 8 * (bits x / 8)) ≤ 2 ^ (bits x - 1 + 16) := Nat.pow_le_pow_right (by norm_num) (by omega)
    _ = 2 ^ (bits x - 1) * 2 ^ 16 := pow_add ..
    _ ≤ x * 2 ^ 16 := Nat.mul_le_mul_right _ hle

/-- **The compact form**: there is one byte more than full ones. -/
theorem getCompact_eq (hx : x ≠ 0) : getCompact x = compactMantissa x + (bits x / 8 + 1) * 2 ^ 24 := by
  have hle := le_compactMantissa hx
  have hlt := compactMantissa_lt x
  have hsign := compactMantissa_lt_sign x
  unfold getCompact
  dsimp only
  rw [shift_eq]
  by_cases hr : bits x % 8 = 0
  · have hdiv : x * 2 ^ 24 / 2 ^ (8 * (bits x / 8)) / 2 ^ 8 = compactMantissa x := by
      rw [Nat.div_div_eq_div_mul, show 2 ^ 24 = 2 ^ 16 * 2 ^ 8 by norm_num, ← mul_assoc,
        Nat.mul_div_mul_right _ _ (by norm_num), compactMantissa]
    rw [hr] at hlt
    rw [show (bits x + 7) / 8 = bits x / 8 by omega, Nat.testBit_eq_decide_div_mod_eq, hdiv, if_pos]
    rw [decide_eq_true_eq]
    omega
  · have hdiv : x * 2 ^ 24 / 2 ^ (8 * (bits x / 8 + 1)) = compactMantissa x := by
      rw [show 8 * (bits x / 8 + 1) = 8 * (bits x / 8) + 8 by omega, pow_add,
        show 2 ^ 24 = 2 ^ 16 * 2 ^ 8 by norm_num, ← mul_assoc, Nat.mul_div_mul_right _ _ (by norm_num),
        compactMantissa]
    rw [show (bits x + 7) / 8 = bits x / 8 + 1 by omega, Nat.testBit_eq_decide_div_mod_eq, hdiv, if_neg]
    rw [decide_eq_true_eq]
    omega

/-- A number with its low bytes cleared, but for the leading 16 bits or more. -/
def roundCompact (x : ℕ) : ℕ := x / 2 ^ (8 * (bits x / 8 - 2)) * 2 ^ (8 * (bits x / 8 - 2))

theorem roundCompact_le (x : ℕ) : roundCompact x ≤ x := Nat.div_mul_le_self x _

theorem roundCompact_of_small (h : bits x / 8 ≤ 2) : roundCompact x = x := by
  simp [roundCompact, Nat.sub_eq_zero_of_le h]

theorem compactMantissa_of_large (h : 2 ≤ bits x / 8) : compactMantissa x = x / 2 ^ (8 * (bits x / 8 - 2)) := by
  rw [compactMantissa, show 8 * (bits x / 8) = 8 * (bits x / 8 - 2) + 16 by omega, pow_add,
    Nat.mul_div_mul_right _ _ (by norm_num)]

/-- **A compact target rounds down**, and neither flag is raised. -/
theorem setCompact_getCompact (hx : x < 2 ^ 256) :
    setCompact (getCompact x) = roundCompact x ∧ compactNegative (getCompact x) = false ∧
      compactOverflow (getCompact x) = false := by
  by_cases h0 : x = 0
  · subst h0
    decide
  have hsign := compactMantissa_lt_sign x
  have hlt := compactMantissa_lt x
  have hle := roundCompact_le x
  have hbits : bits x ≤ 256 := by
    by_contra hgt
    have := two_pow_le_of_bits (bits_pos h0).ne'
    have := Nat.pow_le_pow_right (show 0 < 2 by norm_num) (show 256 ≤ bits x - 1 by omega)
    omega
  have hsize : (compactMantissa x + (bits x / 8 + 1) * 2 ^ 24) / 2 ^ 24 = bits x / 8 + 1 := by omega
  have hmod : (compactMantissa x + (bits x / 8 + 1) * 2 ^ 24) % 2 ^ 23 = compactMantissa x := by omega
  rw [getCompact_eq h0, setCompact, compactNegative, compactOverflow, compactWord, hsize, hmod]
  refine ⟨?_, ?_, ?_⟩
  · split_ifs with h
    · rw [roundCompact_of_small (by omega), compactMantissa,
        show 16 = 8 * (3 - (bits x / 8 + 1)) + 8 * (bits x / 8) by omega, pow_add, ← mul_assoc,
        Nat.mul_div_cancel _ (by positivity), Nat.mul_div_cancel _ (by positivity)]
    · rw [compactMantissa_of_large (by omega), show bits x / 8 + 1 - 3 = bits x / 8 - 2 by omega, ← roundCompact,
        Nat.mod_eq_of_lt (by omega)]
  · rw [Nat.testBit_eq_decide_div_mod_eq, decide_eq_false (by omega), Bool.and_false]
  · rw [Bool.and_eq_false_imp]
    intro _
    simp only [Bool.or_eq_false_iff, Bool.and_eq_false_imp, decide_eq_false_iff_not, decide_eq_true_eq]
    refine ⟨⟨by omega, by omega⟩, fun h => ?_⟩
    -- with 33 bytes, two of them are left
    by_cases h256 : bits x = 256
    · have hword : compactMantissa x < 2 ^ 16 := by simpa [h256] using hlt
      rw [if_neg (by omega)] at h
      omega
    · omega

theorem roundCompact_div {c : ℕ} (hc : 8 * (bits x / 8 - 2) ≤ c) : roundCompact x / 2 ^ c = x / 2 ^ c := by
  obtain ⟨d, rfl⟩ := Nat.exists_eq_add_of_le hc
  rw [roundCompact, pow_add, ← Nat.div_div_eq_div_mul, ← Nat.div_div_eq_div_mul, Nat.mul_div_cancel _ (by positivity)]

theorem two_pow_le_roundCompact (hx : x ≠ 0) : 2 ^ (bits x - 1) ≤ roundCompact x := by
  have hle := two_pow_le_of_bits (bits_pos hx).ne'
  have hdiv : 0 < roundCompact x / 2 ^ (bits x - 1) := by
    rw [roundCompact_div (by omega)]
    exact Nat.div_pos hle (by positivity)
  exact (Nat.div_pos_iff.1 hdiv).2

theorem bits_roundCompact (x : ℕ) : bits (roundCompact x) = bits x := by
  by_cases hx : x = 0
  · subst hx
    rfl
  have hle := two_pow_le_roundCompact hx
  have hlt := (roundCompact_le x).trans_lt (lt_two_pow_bits x)
  have hpos := bits_pos hx
  have hne : roundCompact x ≠ 0 := ((by positivity : 0 < 2 ^ (bits x - 1)).trans_le hle).ne'
  have hlog : Nat.log2 (roundCompact x) = bits x - 1 :=
    (Nat.log2_eq_iff hne).2 ⟨hle, by rwa [Nat.sub_add_cancel hpos]⟩
  rw [bits, if_neg hne, hlog, Nat.sub_add_cancel hpos]

theorem roundCompact_mono (h : x ≤ y) : roundCompact x ≤ roundCompact y := by
  have hx := lt_two_pow_bits x
  have hy := lt_two_pow_bits y
  rcases lt_trichotomy (bits x) (bits y) with hb | hb | hb
  · have hpow : 2 ^ bits x ≤ 2 ^ (bits y - 1) := Nat.pow_le_pow_right (by norm_num) (by omega)
    have hround := two_pow_le_roundCompact (x := y) fun h0 => by simp [h0, bits] at hb
    exact ((roundCompact_le x).trans_lt hx).le.trans (hpow.trans hround)
  · unfold roundCompact
    rw [hb]
    exact Nat.mul_le_mul_right _ (Nat.div_le_div_right h)
  · have hpow : 2 ^ bits y ≤ 2 ^ (bits x - 1) := Nat.pow_le_pow_right (by norm_num) (by omega)
    have hle := two_pow_le_of_bits (x := x) (by omega)
    omega

theorem getCompact_roundCompact (x : ℕ) : getCompact (roundCompact x) = getCompact x := by
  by_cases hsmall : bits x / 8 ≤ 2
  · rw [roundCompact_of_small hsmall]
  have hbits := bits_roundCompact x
  have hx : x ≠ 0 := fun h0 => hsmall (by simp [h0, bits])
  have hr : roundCompact x ≠ 0 := fun h0 => hsmall (by rw [← hbits, h0]; simp [bits])
  rw [getCompact_eq hx, getCompact_eq hr, compactMantissa_of_large (by omega), compactMantissa_of_large (by omega),
    hbits, roundCompact_div le_rfl]

/-- **Compact targets round down and are stable.** -/
theorem compact_rounds_down (hx : x < 2 ^ 256) :
    compactNegative (getCompact x) = false ∧ compactOverflow (getCompact x) = false ∧
      setCompact (getCompact x) ≤ x ∧
      setCompact (getCompact x) / 2 ^ (bits x - 15) = x / 2 ^ (bits x - 15) ∧
      (∀ y < 2 ^ 256, x ≤ y → setCompact (getCompact x) ≤ setCompact (getCompact y)) ∧
      getCompact (setCompact (getCompact x)) = getCompact x := by
  obtain ⟨hround, hneg, hover⟩ := setCompact_getCompact hx
  rw [hround]
  refine ⟨hneg, hover, roundCompact_le x, roundCompact_div (by omega), fun y hy h => ?_, getCompact_roundCompact x⟩
  rw [(setCompact_getCompact hy).1]
  exact roundCompact_mono h

end

theorem compact_rounds_down_max : 2 ^ 256 - 1 < 2 ^ 256 ∧ setCompact (getCompact (2 ^ 256 - 1)) ≤ 2 ^ 256 - 1 :=
  ⟨by norm_num, (compact_rounds_down (by norm_num)).2.2.1⟩

end Minemon
