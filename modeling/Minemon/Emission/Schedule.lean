import Minemon.Core.Reward
import Minemon.Lib.Halving

/-!
# The schedule in closed form

`getMintTotalReward` runs over the halving periods; here it is the sum of the rewards of the heights,
and no step of it leaves the word.

* `getMintTotalReward_eq_sum`: the loop computes the sum of `getMintWorkReward`.
* `scheduleSafe_iff`: the heights at which no operation overflows.
-/

namespace Minemon

def initReward : ℕ := 100000000

theorem initReward_cast : (initReward : ℤ) = BPX_INIT_BLOCK_REWARD_TOKEN := by
  norm_num [initReward, BPX_INIT_BLOCK_REWARD_TOKEN, COIN]

theorem halve_height_pos : 0 < BPX_REWARD_HALVE_HEIGHT := by norm_num [BPX_REWARD_HALVE_HEIGHT]

/-! ## One height -/

theorem initReward_div_eq_zero {k : ℕ} (h : 27 ≤ k) : initReward / 2 ^ k = 0 := by
  apply Nat.div_eq_of_lt
  calc initReward < 2 ^ 27 := by norm_num [initReward]
    _ ≤ 2 ^ k := Nat.pow_le_pow_right (by norm_num) h

@[simp] theorem getMintWorkReward_zero : getMintWorkReward 0 = 0 := rfl

theorem getMintWorkReward_succ (n : ℕ) :
    getMintWorkReward (n + 1) = ((initReward / 2 ^ (n / BPX_REWARD_HALVE_HEIGHT) : ℕ) : ℤ) := by
  unfold getMintWorkReward int64Pow2
  rw [if_neg (by omega), Nat.add_sub_cancel, ← initReward_cast]
  split_ifs with h
  · push_cast
    exact Int.tdiv_eq_ediv_of_nonneg (by positivity)
  · rw [initReward_div_eq_zero (by omega)]
    decide

theorem getMintWorkReward_nonneg (n : ℕ) : 0 ≤ getMintWorkReward n := by
  cases n with
  | zero => simp
  | succ n => rw [getMintWorkReward_succ]; positivity

theorem getMintWorkReward_le (n : ℕ) : getMintWorkReward n ≤ 100000000 := by
  cases n with
  | zero => simp
  | succ n =>
    rw [getMintWorkReward_succ]
    exact_mod_cast Nat.div_le_self initReward _

theorem getBlockPowReward_eq (n : ℕ) : getBlockPowReward n = getMintWorkReward n * 382 / 1000 := by
  have h0 := getMintWorkReward_nonneg n
  have h1 := getMintWorkReward_le n
  unfold getBlockPowReward BPX_POW_REWARD_RATE BPX_TOTAL_REWARD_RATE
  rw [wrap64_eq ⟨by omega, by omega⟩]
  exact Int.tdiv_eq_ediv_of_nonneg (by positivity)

theorem getBlockPledgeReward_eq (n : ℕ) : getBlockPledgeReward n = getMintWorkReward n * 618 / 1000 := by
  have h0 := getMintWorkReward_nonneg n
  have h1 := getMintWorkReward_le n
  unfold getBlockPledgeReward BPX_POW_REWARD_RATE BPX_TOTAL_REWARD_RATE
  rw [wrap64_eq ⟨by omega, by omega⟩]
  exact Int.tdiv_eq_ediv_of_nonneg (by omega)

theorem getBlockPowReward_nonneg (n : ℕ) : 0 ≤ getBlockPowReward n := by
  have := getMintWorkReward_nonneg n
  rw [getBlockPowReward_eq]
  positivity

theorem getBlockPledgeReward_nonneg (n : ℕ) : 0 ≤ getBlockPledgeReward n := by
  have := getMintWorkReward_nonneg n
  rw [getBlockPledgeReward_eq]
  positivity

theorem getBlockPledgeReward_le (n : ℕ) : getBlockPledgeReward n ≤ 61800000 := by
  have := getMintWorkReward_le n
  rw [getBlockPledgeReward_eq]
  omega

theorem pow_add_pledge_le (n : ℕ) : getBlockPowReward n + getBlockPledgeReward n ≤ getMintWorkReward n := by
  rw [getBlockPowReward_eq, getBlockPledgeReward_eq]
  omega

/-! ## All heights -/

theorem halvingSum_initReward_le (j c : ℕ) : halvingSum initReward BPX_REWARD_HALVE_HEIGHT j c ≤ 210240000000000 := by
  have h1 := halvingSum_le (x := initReward) (j := j) (c := c) halve_height_pos
  have h2 : initReward / 2 ^ j ≤ 100000000 := Nat.div_le_self initReward _
  have h3 : BPX_REWARD_HALVE_HEIGHT = 1051200 := rfl
  rw [h3] at h1 ⊢
  omega

theorem halved_tdiv_two (j : ℕ) : (((initReward / 2 ^ j : ℕ) : ℤ)).tdiv 2 = ((initReward / 2 ^ (j + 1) : ℕ) : ℤ) := by
  rw [pow_succ, ← Nat.div_div_eq_div_mul, Int.tdiv_eq_ediv_of_nonneg (by positivity)]
  norm_cast

theorem mintTotalLoop_eq (fuel j c : ℕ) (acc : ℤ) (hfuel : c / BPX_REWARD_HALVE_HEIGHT < fuel)
    (h0 : 0 ≤ acc) (hacc : acc + halvingSum initReward BPX_REWARD_HALVE_HEIGHT j c < 2 ^ 63) :
    mintTotalLoop fuel ((initReward / 2 ^ j : ℕ) : ℤ) c acc =
      acc + halvingSum initReward BPX_REWARD_HALVE_HEIGHT j c := by
  induction fuel generalizing j c acc with
  | zero => exact absurd hfuel (Nat.not_lt_zero _)
  | succ fuel ih =>
    rw [mintTotalLoop]
    by_cases hc0 : c = 0
    · simp [hc0]
    rw [if_neg hc0]
    by_cases hcH : c < BPX_REWARD_HALVE_HEIGHT
    · -- the last, shorter period
      rw [halvingSum_short hcH.le] at hacc ⊢
      rw [if_pos hcH, wrap64_add_right]
      push_cast at hacc ⊢
      exact wrap64_eq (fits64_of_nonneg (by positivity) hacc)
    · obtain ⟨d, rfl⟩ := Nat.exists_eq_add_of_le (not_lt.1 hcH)
      rw [halvingSum_period halve_height_pos] at hacc ⊢
      rw [if_neg hcH, wrap64_add_right, Nat.add_sub_cancel_left]
      push_cast at hacc
      have hstep : wrap64 (acc + ((initReward / 2 ^ j : ℕ) : ℤ) * (BPX_REWARD_HALVE_HEIGHT : ℤ)) =
          acc + ((initReward / 2 ^ j : ℕ) : ℤ) * (BPX_REWARD_HALVE_HEIGHT : ℤ) := by
        apply wrap64_eq
        apply fits64_of_nonneg
        · positivity
        · push_cast
          omega
      have hd : d / BPX_REWARD_HALVE_HEIGHT < fuel := by
        rw [Nat.add_div_left d halve_height_pos] at hfuel
        omega
      rw [hstep, halved_tdiv_two, ih (j + 1) d _ hd (by positivity) (by push_cast; omega)]
      push_cast
      ring

theorem getMintTotalReward_eq (n : ℕ) :
    getMintTotalReward n = (halvingSum initReward BPX_REWARD_HALVE_HEIGHT 0 n : ℤ) := by
  have h := halvingSum_initReward_le 0 n
  unfold getMintTotalReward
  rw [← initReward_cast]
  have := mintTotalLoop_eq (n / BPX_REWARD_HALVE_HEIGHT + 1) 0 n 0 (Nat.lt_succ_self _) le_rfl (by omega)
  simpa using this

/-- **The loop computes the schedule.** -/
theorem getMintTotalReward_eq_sum (n : ℕ) : getMintTotalReward n = ∑ i ∈ Finset.range n, getMintWorkReward (i + 1) := by
  rw [getMintTotalReward_eq, halvingSum]
  push_cast
  refine Finset.sum_congr rfl fun i _ => ?_
  rw [getMintWorkReward_succ, Nat.zero_add]
  push_cast
  rfl

theorem getMintTotalReward_succ (n : ℕ) :
    getMintTotalReward (n + 1) = getMintTotalReward n + getMintWorkReward (n + 1) := by
  rw [getMintTotalReward_eq_sum, getMintTotalReward_eq_sum, Finset.sum_range_succ]

theorem getMintTotalReward_nonneg (n : ℕ) : 0 ≤ getMintTotalReward n := by
  rw [getMintTotalReward_eq]; positivity

theorem getMintTotalReward_le (n : ℕ) : getMintTotalReward n ≤ 210240000000000 := by
  rw [getMintTotalReward_eq]
  exact_mod_cast halvingSum_initReward_le 0 n

/-! ## Overflow -/

/-- `(int64)pow(2, k)` has a value. -/
def MintWorkRewardSafe (nHeight : ℕ) : Prop :=
  1 ≤ nHeight → Fits64 (2 ^ ((nHeight - 1) / BPX_REWARD_HALVE_HEIGHT))

/-- No product and no sum of the loop of `GetMintTotalReward` overflows. -/
def MintTotalLoopSafe : ℕ → ℤ → ℕ → ℤ → Prop
  | 0, _, _, _ => True
  | fuel + 1, nSectReward, nCalcHeight, nTotalReward =>
    if nCalcHeight = 0 then True
    else if nCalcHeight < BPX_REWARD_HALVE_HEIGHT then
      Fits64 (nSectReward * nCalcHeight) ∧ Fits64 (nTotalReward + nSectReward * nCalcHeight)
    else
      Fits64 (nSectReward * BPX_REWARD_HALVE_HEIGHT) ∧
        Fits64 (nTotalReward + nSectReward * BPX_REWARD_HALVE_HEIGHT) ∧
        MintTotalLoopSafe fuel (nSectReward.tdiv 2) (nCalcHeight - BPX_REWARD_HALVE_HEIGHT)
          (nTotalReward + nSectReward * BPX_REWARD_HALVE_HEIGHT)

/-- No operation of the schedule overflows at the height `n`. -/
structure ScheduleSafe (n : ℕ) : Prop where
  work : MintWorkRewardSafe n
  pow : Fits64 (getMintWorkReward n * BPX_POW_REWARD_RATE)
  pledge : Fits64 (getMintWorkReward n * (BPX_TOTAL_REWARD_RATE - BPX_POW_REWARD_RATE))
  total : MintTotalLoopSafe (n / BPX_REWARD_HALVE_HEIGHT + 1) BPX_INIT_BLOCK_REWARD_TOKEN n 0

theorem mintWorkRewardSafe_iff (n : ℕ) : MintWorkRewardSafe n ↔ n ≤ 63 * BPX_REWARD_HALVE_HEIGHT := by
  unfold MintWorkRewardSafe
  constructor
  · intro h
    by_contra hn
    have hk : 63 ≤ (n - 1) / BPX_REWARD_HALVE_HEIGHT :=
      (Nat.le_div_iff_mul_le halve_height_pos).2 (by omega)
    have hle : (2 : ℤ) ^ 63 ≤ 2 ^ ((n - 1) / BPX_REWARD_HALVE_HEIGHT) := pow_le_pow_right₀ (by norm_num) hk
    exact absurd (h (by omega)).2 (not_lt.2 hle)
  · intro hn h1
    have hk : (n - 1) / BPX_REWARD_HALVE_HEIGHT < 63 :=
      (Nat.div_lt_iff_lt_mul halve_height_pos).2 (by omega)
    exact fits64_of_nonneg (by positivity) (pow_lt_pow_right₀ (by norm_num) hk)

theorem mintTotalLoopSafe (fuel j c : ℕ) (acc : ℤ) (h0 : 0 ≤ acc)
    (hacc : acc + halvingSum initReward BPX_REWARD_HALVE_HEIGHT j c < 2 ^ 63) :
    MintTotalLoopSafe fuel ((initReward / 2 ^ j : ℕ) : ℤ) c acc := by
  induction fuel generalizing j c acc with
  | zero => trivial
  | succ fuel ih =>
    rw [MintTotalLoopSafe]
    split_ifs with hc0 hcH
    · rw [halvingSum_short hcH.le] at hacc
      push_cast at hacc ⊢
      exact ⟨fits64_of_nonneg (by positivity) (by omega), fits64_of_nonneg (by positivity) hacc⟩
    · obtain ⟨d, rfl⟩ := Nat.exists_eq_add_of_le (not_lt.1 hcH)
      rw [halvingSum_period halve_height_pos] at hacc
      rw [halved_tdiv_two, Nat.add_sub_cancel_left]
      push_cast at hacc ⊢
      refine ⟨fits64_of_nonneg (by positivity) (by omega), fits64_of_nonneg (by positivity) (by omega), ?_⟩
      have := ih (j + 1) d (acc + ((initReward / 2 ^ j : ℕ) : ℤ) * (BPX_REWARD_HALVE_HEIGHT : ℤ))
        (by positivity) (by push_cast; omega)
      push_cast at this
      exact this

/-- **Only the power of two can overflow**: beyond 63 halvings. -/
theorem scheduleSafe_iff (n : ℕ) : ScheduleSafe n ↔ n ≤ 63 * BPX_REWARD_HALVE_HEIGHT := by
  have h0 := getMintWorkReward_nonneg n
  have h1 := getMintWorkReward_le n
  have h2 := halvingSum_initReward_le 0 n
  rw [← mintWorkRewardSafe_iff]
  constructor
  · exact fun h => h.work
  · intro h
    refine ⟨h, ?_, ?_, ?_⟩
    · unfold BPX_POW_REWARD_RATE
      exact fits64_of_nonneg (by positivity) (by omega)
    · unfold BPX_TOTAL_REWARD_RATE BPX_POW_REWARD_RATE
      exact fits64_of_nonneg (by omega) (by omega)
    · rw [← initReward_cast]
      have := mintTotalLoopSafe (n / BPX_REWARD_HALVE_HEIGHT + 1) 0 n 0 le_rfl (by omega)
      simpa using this

end Minemon
