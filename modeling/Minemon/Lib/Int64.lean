import Mathlib

/-!
# Sixty-four bit arithmetic

Signed machine words as integers: every operation is followed by `wrap64`, which brings its result
back into the word.

* `wrap64_eq`: nothing happens to a value that fits.
* `wrap64_add_left`, `wrap64_add_right`, `wrap64_sub_right`: wrapping early or late is the same.
-/

/-- A value brought into a signed word of 64 bits. -/
def wrap64 (x : ℤ) : ℤ := x.bmod (2 ^ 64)

/-- A value converted to an unsigned word of 128 bits. -/
def u128 (x : ℤ) : ℤ := x % 2 ^ 128

/-- The values of a signed word of 64 bits. -/
def Fits64 (x : ℤ) : Prop := -2 ^ 63 ≤ x ∧ x < 2 ^ 63

instance (x : ℤ) : Decidable (Fits64 x) := inferInstanceAs (Decidable (_ ∧ _))

theorem fits64_of_nonneg {x : ℤ} (h0 : 0 ≤ x) (h : x < 2 ^ 63) : Fits64 x := ⟨by omega, h⟩

theorem wrap64_fits (x : ℤ) : Fits64 (wrap64 x) := by
  have h1 := Int.le_bmod (x := x) (m := 2 ^ 64) (by norm_num)
  have h2 := Int.bmod_lt (x := x) (m := 2 ^ 64) (by norm_num)
  constructor
  · unfold wrap64; norm_num at h1 ⊢; omega
  · unfold wrap64; norm_num at h2 ⊢; omega

theorem wrap64_eq {x : ℤ} (h : Fits64 x) : wrap64 x = x := by
  obtain ⟨h1, h2⟩ := h
  apply Int.bmod_eq_of_le_mul_two
  · norm_num at h1 ⊢; omega
  · norm_num at h2 ⊢; omega

theorem wrap64_add_left (x y : ℤ) : wrap64 (wrap64 x + y) = wrap64 (x + y) := Int.bmod_add_bmod

theorem wrap64_add_right (x y : ℤ) : wrap64 (x + wrap64 y) = wrap64 (x + y) := Int.add_bmod_bmod

theorem wrap64_sub_left (x y : ℤ) : wrap64 (wrap64 x - y) = wrap64 (x - y) := Int.bmod_sub_bmod

theorem wrap64_sub_right (x y : ℤ) : wrap64 (x - wrap64 y) = wrap64 (x - y) := Int.sub_bmod_bmod

theorem wrap64_eq_sub (x : ℤ) : ∃ k : ℤ, wrap64 x = x - k * 2 ^ 64 :=
  ⟨x.bdiv (2 ^ 64), by unfold wrap64; rw [Int.bmod_eq_self_sub_bdiv_mul]; norm_num⟩

theorem u128_eq {x : ℤ} (h0 : 0 ≤ x) (h : x < 2 ^ 128) : u128 x = x := Int.emod_eq_of_lt h0 h
