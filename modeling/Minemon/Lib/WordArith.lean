import Mathlib.Data.Nat.Log
import Mathlib.Tactic.Ring
import Mathlib.Tactic.Positivity

/-!
# Arithmetic on words

Digits, the number of bits, and the division that shifts the divisor under the leading bit and subtracts it on the
way back.

* `WordArith.digit_add_mod`: a lowest digit is kept apart from the rest, modulo the width.
* `WordArith.shiftDiv_eq`: the quotient.
-/

namespace WordArith

variable {B : ℕ}

/-- The number with these digits in base `B`. -/
def value (B : ℕ) : List ℕ → ℕ
  | [] => 0
  | w :: ws => w + B * value B ws

theorem digit_add_mod {w : ℕ} (hw : w < B) (x n : ℕ) : (w + B * x) % B ^ (n + 1) = w + B * (x % B ^ n) := by
  rw [pow_succ', Nat.mod_mul, Nat.add_mul_mod_self_left, Nat.mod_eq_of_lt hw, Nat.add_mul_div_left _ _ (by omega),
    Nat.div_eq_of_lt hw, Nat.zero_add]

def bits (x : ℕ) : ℕ := if x = 0 then 0 else Nat.log2 x + 1

def divLoop : ℕ → ℕ → ℕ → ℕ → ℕ
  | 0, _, _, q => q
  | k + 1, num, div, q =>
    if num ≥ div then divLoop k (num - div) (div / 2) (q + 2 ^ k) else divLoop k num (div / 2) q

def shiftDiv (num div : ℕ) : ℕ :=
  if bits div = 0 ∨ bits div > bits num then 0
  else divLoop (bits num - bits div + 1) num (div * 2 ^ (bits num - bits div)) 0

theorem divLoop_eq {d : ℕ} (hd : 0 < d) (k num q : ℕ) (hnum : num < d * 2 ^ (k + 1)) :
    divLoop (k + 1) num (d * 2 ^ k) q = q + num / d := by
  induction k generalizing num q with
  | zero =>
    rw [pow_zero, Nat.mul_one, divLoop]
    split_ifs with h
    · have hone : num / d = 1 := Nat.div_eq_of_lt_le (by omega) (by omega)
      rw [divLoop, hone, pow_zero]
    · rw [divLoop, Nat.div_eq_of_lt (by omega)]
      rfl
  | succ k ih =>
    have hhalf : d * 2 ^ (k + 1) / 2 = d * 2 ^ k := by
      rw [pow_succ, ← Nat.mul_assoc, Nat.mul_div_cancel _ (by norm_num)]
    have hpow : d * 2 ^ (k + 1 + 1) = d * 2 ^ (k + 1) + d * 2 ^ (k + 1) := by
      rw [pow_succ]
      ring
    rw [divLoop, hhalf]
    split_ifs with h
    · obtain ⟨r, rfl⟩ := Nat.exists_eq_add_of_le h
      rw [ih _ _ (by omega), Nat.add_sub_cancel_left, Nat.mul_add_div hd]
      ring
    · exact ih _ _ (by omega)

theorem lt_two_pow_bits (x : ℕ) : x < 2 ^ bits x := by
  unfold bits
  split_ifs with h
  · simp [h]
  · exact Nat.lt_log2_self

theorem two_pow_le_of_bits {x : ℕ} (h : bits x ≠ 0) : 2 ^ (bits x - 1) ≤ x := by
  unfold bits at h ⊢
  split_ifs at h ⊢ with hx
  · exact absurd rfl h
  · exact Nat.log2_self_le hx

/-- **The quotient**, with 0 for a division by 0. -/
theorem shiftDiv_eq (num div : ℕ) : shiftDiv num div = num / div := by
  unfold shiftDiv
  split_ifs with h
  · rcases h with h | h
    · rw [show div = 0 by by_contra hne; simp [bits, hne] at h, Nat.div_zero]
    · have hle : 2 ^ bits num ≤ 2 ^ (bits div - 1) := Nat.pow_le_pow_right (by norm_num) (by omega)
      have := lt_two_pow_bits num
      have := two_pow_le_of_bits (x := div) (by omega)
      rw [Nat.div_eq_of_lt (by omega)]
  · have hdiv := two_pow_le_of_bits (x := div) (by omega)
    have hpos : 0 < div := (by positivity : 0 < 2 ^ (bits div - 1)).trans_le hdiv
    rw [divLoop_eq hpos, Nat.zero_add]
    calc num < 2 ^ bits num := lt_two_pow_bits num
      _ = 2 ^ (bits div - 1) * 2 ^ (bits num - bits div + 1) := by
        rw [← pow_add]
        congr 1
        omega
      _ ≤ div * 2 ^ (bits num - bits div + 1) := Nat.mul_le_mul_right _ hdiv

end WordArith
