import Mathlib

/-!
# Rewards that halve

A quantity that is halved, with truncation, once every period, and its sum over an initial segment.

* `halvingSum x H j c`: `c` terms, beginning with `x` halved `j` times.
* `halvingSum_period`, `halvingSum_short`: the sum, one period at a time.
* `halvingSum_le`: all of it is at most two periods of the first term.
-/

/-- The sum of `x / 2 ^ (j + i / H)` over `i < c`. -/
def halvingSum (x H j c : ℕ) : ℕ := ∑ i ∈ Finset.range c, x / 2 ^ (j + i / H)

section

variable {x H j c : ℕ}

@[simp] theorem halvingSum_zero : halvingSum x H j 0 = 0 := rfl

theorem halvingSum_short (h : c ≤ H) : halvingSum x H j c = x / 2 ^ j * c := by
  unfold halvingSum
  have hterm : ∀ i ∈ Finset.range c, x / 2 ^ (j + i / H) = x / 2 ^ j := by
    intro i hi
    have hi' : i < H := lt_of_lt_of_le (Finset.mem_range.1 hi) h
    rw [Nat.div_eq_of_lt hi', Nat.add_zero]
  rw [Finset.sum_congr rfl hterm, Finset.sum_const, Finset.card_range, smul_eq_mul, Nat.mul_comm]

theorem halvingSum_period (hH : 0 < H) : halvingSum x H j (H + c) = x / 2 ^ j * H + halvingSum x H (j + 1) c := by
  rw [← halvingSum_short (x := x) (j := j) (le_refl H)]
  unfold halvingSum
  rw [Finset.sum_range_add]
  congr 1
  refine Finset.sum_congr rfl fun i _ => ?_
  rw [Nat.add_div_left i hH, show j + (i / H).succ = j + 1 + i / H by omega]

theorem two_mul_halved_le (x j : ℕ) : 2 * (x / 2 ^ (j + 1)) ≤ x / 2 ^ j := by
  rw [pow_succ, ← Nat.div_div_eq_div_mul]
  omega

/-- **The whole series is at most twice its first period.** -/
theorem halvingSum_le (hH : 0 < H) : halvingSum x H j c ≤ 2 * (x / 2 ^ j) * H := by
  induction c using Nat.strong_induction_on generalizing j with
  | _ c ih =>
    by_cases hc : c ≤ H
    · rw [halvingSum_short hc]
      nlinarith [Nat.zero_le (x / 2 ^ j)]
    · obtain ⟨d, rfl⟩ := Nat.exists_eq_add_of_lt (not_le.1 hc)
      have hd := ih (d + 1) (by omega) (j := j + 1)
      have h2 := two_mul_halved_le x j
      rw [Nat.add_assoc, halvingSum_period hH]
      nlinarith

end
