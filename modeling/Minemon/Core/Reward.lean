import Minemon.Common.Block

/-!
# The emission schedule

The reward functions of `CCoreProtocol` in `minemon/core.cpp`. Every `int64` operation wraps, as the
compiled code does.

* `getMintWorkReward`, `getBlockPowReward`, `getBlockPledgeReward`: what a height mints.
* `getMintTotalReward`: the schedule up to a height, by its loop over the halving periods.
-/

namespace Minemon

/-- `(int64)pow(2, k)`: the power is exact, and a value that no `int64` holds becomes the least one. -/
def int64Pow2 (k : ℕ) : ℤ := if k < 63 then 2 ^ k else -2 ^ 63

def getMintWorkReward (nHeight : ℕ) : ℤ :=
  if nHeight < 1 then 0
  else BPX_INIT_BLOCK_REWARD_TOKEN.tdiv (int64Pow2 ((nHeight - 1) / BPX_REWARD_HALVE_HEIGHT))

def getBlockPowReward (nHeight : ℕ) : ℤ :=
  (wrap64 (getMintWorkReward nHeight * BPX_POW_REWARD_RATE)).tdiv BPX_TOTAL_REWARD_RATE

def getBlockPledgeReward (nHeight : ℕ) : ℤ :=
  (wrap64 (getMintWorkReward nHeight * (BPX_TOTAL_REWARD_RATE - BPX_POW_REWARD_RATE))).tdiv
    BPX_TOTAL_REWARD_RATE

/-- The loop of `GetMintTotalReward`: one halving period a turn. -/
def mintTotalLoop : ℕ → ℤ → ℕ → ℤ → ℤ
  | 0, _, _, nTotalReward => nTotalReward
  | fuel + 1, nSectReward, nCalcHeight, nTotalReward =>
    if nCalcHeight = 0 then nTotalReward
    else if nCalcHeight < BPX_REWARD_HALVE_HEIGHT then
      wrap64 (nTotalReward + wrap64 (nSectReward * nCalcHeight))
    else
      mintTotalLoop fuel (nSectReward.tdiv 2) (nCalcHeight - BPX_REWARD_HALVE_HEIGHT)
        (wrap64 (nTotalReward + wrap64 (nSectReward * BPX_REWARD_HALVE_HEIGHT)))

def getMintTotalReward (nHeight : ℕ) : ℤ :=
  mintTotalLoop (nHeight / BPX_REWARD_HALVE_HEIGHT + 1) BPX_INIT_BLOCK_REWARD_TOKEN nHeight 0

/-! ## Bounds on a pledge -/

structure PledgeRange where
  nPowMinPledge : ℤ
  nStakeMinPledge : ℤ
  nMaxPledge : ℤ
deriving DecidableEq, Repr

def stakeMinLoop : ℕ → ℤ → ℕ → ℤ → ℤ
  | 0, _, _, nStakeMinPledge => nStakeMinPledge
  | fuel + 1, nSectValue, nCalcHeight, nStakeMinPledge =>
    if nCalcHeight = 0 then nStakeMinPledge
    else
      stakeMinLoop fuel (nSectValue.tdiv 2) (nCalcHeight - BPX_REWARD_HALVE_HEIGHT)
        (wrap64 (nStakeMinPledge + nSectValue))

/-- `GetBlockPledgeMinMaxValue`, on the hash of the genesis block. -/
def getBlockPledgeMinMaxValue (hashGenesisBlock hashPrevBlock : ℕ) (nMoneySupply : ℤ) : PledgeRange :=
  if hashPrevBlock = hashGenesisBlock then
    ⟨BPX_MIN_PLEDGE_COIN, BPX_INIT_BLOCK_REWARD_TOKEN, wrap64 (BPX_MIN_PLEDGE_COIN * 100)⟩
  else
    let nCalcHeight := getBlockHeightByHash hashPrevBlock + 1
    let nStakeMinPledge :=
      stakeMinLoop (nCalcHeight / BPX_REWARD_HALVE_HEIGHT + 1) BPX_INIT_BLOCK_REWARD_TOKEN nCalcHeight 0
    if nMoneySupply.tdiv 10000 < BPX_MIN_PLEDGE_COIN then
      ⟨BPX_MIN_PLEDGE_COIN, nStakeMinPledge, wrap64 (BPX_MIN_PLEDGE_COIN * 100)⟩
    else ⟨nMoneySupply.tdiv 10000, nStakeMinPledge, nMoneySupply.tdiv 100⟩

/-! ## Rewards in a block -/

/-- The size of the data of a `CTemplateProof`, at the address `15taqq…` as at every other. -/
def PROOF_TEMPLATE_SIZE : ℕ := 33 + 4

/-- The space that the mint transaction and a proof of full size leave, in reward transactions, less 100. -/
def calcSingleBlockDistributePledgeRewardTxCount : ℕ :=
  let block : CBlock :=
    { vchProof := List.replicate PROOFHASHWORK_SIZE 0
      txMint :=
        { vchSig := List.replicate PROOF_TEMPLATE_SIZE 0
          vchData := int64Bytes 0 } }
  let nMaxTxSize := MAX_BLOCK_SIZE - block.getSerializeSize
  let txDistributePledge : CTransaction := { vchData := CDestination.null.toBytes }
  let nDistributeTxCount := nMaxTxSize / txDistributePledge.getSerializeSize
  if nDistributeTxCount > 100 then nDistributeTxCount - 100 else nDistributeTxCount

theorem calcSingleBlockDistributePledgeRewardTxCount_pos :
    0 < calcSingleBlockDistributePledgeRewardTxCount := by decide +kernel

end Minemon
