import Minemon.Chain.PledgeReward
import Minemon.Emission.Schedule

/-!
# The reward of a block in bounds

`CalcPledgeRewardValue` multiplies in 128 bits and comes back to 64: here are the bounds that keep every
step of it exact.

* `calcPledgeRewardValue_bounds`: the reward lies between 0 and the surplus with the next share.
-/

namespace Minemon

/-! ## Products in 128 bits -/

theorem mulDiv_eq {a b c : ℤ} (ha : 0 ≤ a) (hb : 0 ≤ b) (hc : 0 < c) (ha' : a < 2 ^ 63)
    (hb' : b < 2 ^ 63) (hc' : c < 2 ^ 63) (hq : a * b / c < 2 ^ 63) : mulDiv a b c = a * b / c := by
  have hab : a * b < 2 ^ 128 := by nlinarith
  unfold mulDiv
  rw [u128_eq ha (by omega), u128_eq hb (by omega), u128_eq hc.le (by omega),
    u128_eq (by positivity) hab]
  exact wrap64_eq (fits64_of_nonneg (by positivity) hq)

theorem mul_div_le_left {a b c : ℤ} (ha : 0 ≤ a) (hc : 0 < c) (hbc : b ≤ c) : a * b / c ≤ a := by
  apply Int.ediv_le_of_le_mul hc
  exact mul_le_mul_of_nonneg_left hbc ha

theorem mulDiv_le {a b c : ℤ} (ha : 0 ≤ a) (hb : 0 ≤ b) (hc : 0 < c) (ha' : a < 2 ^ 63)
    (hc' : c < 2 ^ 63) (hbc : b ≤ c) : mulDiv a b c = a * b / c ∧ 0 ≤ a * b / c ∧ a * b / c ≤ a := by
  have hle := mul_div_le_left ha hc hbc
  exact ⟨mulDiv_eq ha hb hc ha' (by omega) hc' (by omega), by positivity, hle⟩

/-! ## Bounds on a pledge -/

structure PledgeRange.Valid (r : PledgeRange) : Prop where
  pow_pos : 0 < r.nPowMinPledge
  pow_le : r.nPowMinPledge ≤ r.nMaxPledge
  stake_pos : 0 < r.nStakeMinPledge
  max_lt : r.nMaxPledge < 2 ^ 63

theorem stakeMinLoop_ge (fuel j c : ℕ) (acc : ℤ) (h0 : 0 ≤ acc)
    (hacc : acc + 2 * ((initReward / 2 ^ j : ℕ) : ℤ) < 2 ^ 63) :
    acc ≤ stakeMinLoop fuel ((initReward / 2 ^ j : ℕ) : ℤ) c acc := by
  induction fuel generalizing j c acc with
  | zero => exact le_rfl
  | succ fuel ih =>
    have h2 := two_mul_halved_le initReward j
    rw [stakeMinLoop]
    split_ifs with hc
    · exact le_rfl
    · rw [halved_tdiv_two, wrap64_eq (fits64_of_nonneg (by positivity) (by omega))]
      have := ih (j + 1) (c - BPX_REWARD_HALVE_HEIGHT) (acc + ((initReward / 2 ^ j : ℕ) : ℤ))
        (by positivity) (by omega)
      omega

theorem stakeMinLoop_pos (c : ℕ) :
    0 < stakeMinLoop ((c + 1) / BPX_REWARD_HALVE_HEIGHT + 1) BPX_INIT_BLOCK_REWARD_TOKEN (c + 1) 0 := by
  have hI : initReward = 100000000 := rfl
  rw [stakeMinLoop, if_neg (by omega), ← initReward_cast]
  have h := halved_tdiv_two 0
  simp only [pow_zero, Nat.div_one] at h
  rw [h, wrap64_eq (fits64_of_nonneg (by omega) (by omega))]
  have := stakeMinLoop_ge ((c + 1) / BPX_REWARD_HALVE_HEIGHT) (0 + 1) (c + 1 - BPX_REWARD_HALVE_HEIGHT)
    (0 + (initReward : ℤ)) (by omega) (by omega)
  omega

/-- No sum of the loop for `nStakeMinPledge` overflows. -/
def StakeMinLoopSafe : ℕ → ℤ → ℕ → ℤ → Prop
  | 0, _, _, _ => True
  | fuel + 1, nSectValue, nCalcHeight, nStakeMinPledge =>
    if nCalcHeight = 0 then True
    else
      Fits64 (nStakeMinPledge + nSectValue) ∧
        StakeMinLoopSafe fuel (nSectValue.tdiv 2) (nCalcHeight - BPX_REWARD_HALVE_HEIGHT)
          (nStakeMinPledge + nSectValue)

theorem stakeMinLoopSafe (fuel j c : ℕ) (acc : ℤ) (h0 : 0 ≤ acc)
    (hacc : acc + 2 * ((initReward / 2 ^ j : ℕ) : ℤ) < 2 ^ 63) :
    StakeMinLoopSafe fuel ((initReward / 2 ^ j : ℕ) : ℤ) c acc := by
  induction fuel generalizing j c acc with
  | zero => trivial
  | succ fuel ih =>
    have h2 := two_mul_halved_le initReward j
    rw [StakeMinLoopSafe]
    split_ifs with hc
    rw [halved_tdiv_two]
    exact ⟨fits64_of_nonneg (by positivity) (by omega), ih (j + 1) _ _ (by positivity) (by omega)⟩

theorem stakeMinSafe (nCalcHeight : ℕ) :
    StakeMinLoopSafe (nCalcHeight / BPX_REWARD_HALVE_HEIGHT + 1) BPX_INIT_BLOCK_REWARD_TOKEN nCalcHeight 0 := by
  have hI : initReward = 100000000 := rfl
  rw [← initReward_cast]
  have := stakeMinLoopSafe (nCalcHeight / BPX_REWARD_HALVE_HEIGHT + 1) 0 nCalcHeight 0 le_rfl
    (by simp only [pow_zero, Nat.div_one]; omega)
  simpa using this

theorem getBlockPledgeMinMaxValue_valid (hashGenesisBlock hashPrevBlock : ℕ) {nMoneySupply : ℤ}
    (h0 : 0 ≤ nMoneySupply) (hs : nMoneySupply < 2 ^ 63) :
    (getBlockPledgeMinMaxValue hashGenesisBlock hashPrevBlock nMoneySupply).Valid := by
  have hmax : wrap64 (BPX_MIN_PLEDGE_COIN * 100) = 10000000000 := by decide
  have hmin : BPX_MIN_PLEDGE_COIN = 100000000 := by decide
  have hstake := stakeMinLoop_pos (getBlockHeightByHash hashPrevBlock)
  unfold getBlockPledgeMinMaxValue
  simp only
  split_ifs with h1 h2
  · exact ⟨by decide, by decide, by decide, by decide⟩
  · refine ⟨?_, ?_, hstake, ?_⟩ <;> simp only <;> omega
  · rw [Int.tdiv_eq_ediv_of_nonneg h0] at h2 ⊢
    rw [Int.tdiv_eq_ediv_of_nonneg h0]
    refine ⟨?_, ?_, hstake, ?_⟩ <;> simp only <;> omega

section

variable (E : Env) {s : CBlockBase} {hash : ℕ} {r : PledgeRange}

theorem getPledgeMinMaxValue_valid (hs : Fits64 (getBlockMoneySupply s hash))
    (h : getPledgeMinMaxValue E s hash = some r) : r.Valid ∧ 0 ≤ getBlockMoneySupply s hash := by
  unfold getPledgeMinMaxValue at h
  simp only at h
  split_ifs at h with h1
  obtain rfl := Option.some.inj h
  exact ⟨getBlockPledgeMinMaxValue_valid _ _ (by omega) hs.2, by omega⟩

/-! ## The reward -/

theorem surplusReward_eq (h0 : 0 ≤ getBlockMoneySupply s hash) (hs : Fits64 (getBlockMoneySupply s hash)) :
    surplusReward s hash = getMintTotalReward (getBlockHeightByHash hash) - getBlockMoneySupply s hash := by
  have h1 := getMintTotalReward_nonneg (getBlockHeightByHash hash)
  have h2 := getMintTotalReward_le (getBlockHeightByHash hash)
  have h3 := hs.2
  exact wrap64_eq ⟨by omega, by omega⟩

/-- Every operation of `CalcPledgeRewardValue` is exact. -/
structure RewardValueSafe (s : CBlockBase) (hash : ℕ) (nTotalPledge nMaxPledge : ℤ) : Prop where
  surplus : Fits64 (getMintTotalReward (getBlockHeightByHash hash) - getBlockMoneySupply s hash)
  add : Fits64 (surplusReward s hash + getBlockPledgeReward (getBlockHeightByHash hash + 1))
  divisor : nMaxPledge ≠ 0
  product : 0 ≤ surplusReward s hash →
    0 ≤ (surplusReward s hash + getBlockPledgeReward (getBlockHeightByHash hash + 1)) * min nTotalPledge nMaxPledge
      ∧ (surplusReward s hash + getBlockPledgeReward (getBlockHeightByHash hash + 1))
          * min nTotalPledge nMaxPledge < 2 ^ 128
  quotient : 0 ≤ surplusReward s hash →
    Fits64 ((surplusReward s hash + getBlockPledgeReward (getBlockHeightByHash hash + 1))
      * min nTotalPledge nMaxPledge / nMaxPledge)

variable {nTotalPledge : ℤ}

theorem rewardValueSafe (hr : r.Valid) (h0 : 0 ≤ getBlockMoneySupply s hash)
    (hs : Fits64 (getBlockMoneySupply s hash)) (ht : r.nPowMinPledge ≤ nTotalPledge) :
    RewardValueSafe s hash nTotalPledge r.nMaxPledge := by
  have h1 := getMintTotalReward_nonneg (getBlockHeightByHash hash)
  have h2 := getMintTotalReward_le (getBlockHeightByHash hash)
  have h3 := getBlockPledgeReward_nonneg (getBlockHeightByHash hash + 1)
  have h4 := getBlockPledgeReward_le (getBlockHeightByHash hash + 1)
  have h5 := hs.2
  have hp := hr.pow_pos
  have hm := hr.max_lt
  have hpl := hr.pow_le
  have heq := surplusReward_eq h0 hs
  have hmin0 : 0 ≤ min nTotalPledge r.nMaxPledge := le_min (by omega) (by omega)
  have hmin1 : min nTotalPledge r.nMaxPledge ≤ r.nMaxPledge := min_le_right _ _
  refine ⟨⟨by omega, by omega⟩, ⟨by omega, by omega⟩, by omega, fun hn => ?_, fun hn => ?_⟩
  · exact ⟨mul_nonneg (by omega) hmin0, by nlinarith⟩
  · have := mul_div_le_left (a := surplusReward s hash + getBlockPledgeReward (getBlockHeightByHash hash + 1))
      (by omega) (show 0 < r.nMaxPledge by omega) hmin1
    exact fits64_of_nonneg (Int.ediv_nonneg (mul_nonneg (by omega) hmin0) (by omega)) (by omega)

/-- **The reward of a block** is a share of the surplus and the share of the next height. -/
theorem calcPledgeRewardValue_bounds (nTotalPledge : ℤ) (hr : r.Valid) (h0 : 0 ≤ getBlockMoneySupply s hash)
    (hs : Fits64 (getBlockMoneySupply s hash)) (hsur : 0 ≤ surplusReward s hash) :
    0 ≤ calcPledgeRewardValue s hash nTotalPledge r.nPowMinPledge r.nMaxPledge ∧
      calcPledgeRewardValue s hash nTotalPledge r.nPowMinPledge r.nMaxPledge ≤
        surplusReward s hash + getBlockPledgeReward (getBlockHeightByHash hash + 1) := by
  have h1 := getMintTotalReward_nonneg (getBlockHeightByHash hash)
  have h2 := getMintTotalReward_le (getBlockHeightByHash hash)
  have h3 := getBlockPledgeReward_nonneg (getBlockHeightByHash hash + 1)
  have h4 := getBlockPledgeReward_le (getBlockHeightByHash hash + 1)
  have heq := surplusReward_eq h0 hs
  have hp := hr.pow_pos
  have hpl := hr.pow_le
  unfold calcPledgeRewardValue
  by_cases ht : nTotalPledge < r.nPowMinPledge
  · rw [if_pos ht]
    exact ⟨le_rfl, by omega⟩
  · rw [if_neg ht]
    simp only
    rw [if_neg (by omega), wrap64_eq (fits64_of_nonneg (by omega) (by omega))]
    have hcalc : 0 ≤ (if nTotalPledge > r.nMaxPledge then r.nMaxPledge else nTotalPledge) ∧
        (if nTotalPledge > r.nMaxPledge then r.nMaxPledge else nTotalPledge) ≤ r.nMaxPledge := by
      split_ifs <;> omega
    obtain ⟨he, hge, hle⟩ := mulDiv_le (a := surplusReward s hash
      + getBlockPledgeReward (getBlockHeightByHash hash + 1)) (by omega) hcalc.1
      (show 0 < r.nMaxPledge by omega) (by omega) hr.max_lt hcalc.2
    rw [he]
    exact ⟨hge, hle⟩

end

end Minemon
