import Minemon.Chain.PledgeReward

/-!
# Pledge-reward transactions

`GetDistributePledgeRewardTxList` of `minemon/blockchain.cpp`: the rewards of an epoch as mint
transactions, cut into one list for each of the blocks that follow, with the cache of those lists.

* `getDistributePledgeRewardTxList`: the answer and the cache after the call.
-/

namespace Minemon

/-- `mapCacheDistributePledgeReward`: last block of an epoch to its lists. -/
abbrev RewardCache := OrdMap ℕ (List (List CTransaction))

section

variable (E : Env) (s : CBlockBase)

/-- The transaction that pays one reward, its time left at 0; `some none` is an address it refuses. -/
def rewardTx (dest : CDestination) (nReward : ℤ) : Option (Option CTransaction) :=
  let tx (sendTo : CDestination) : CTransaction :=
    { nType := CTransaction.TX_STAKE, sendTo := sendTo, nAmount := nReward, vchData := dest.toBytes }
  if !dest.isTemplate then some none
  else if dest.templateType = TEMPLATE_MINTPLEDGE then
    match getPledgeTemplateParam s dest with
    | none => none
    | some none => some none
    | some (some pledge) =>
      some (some (if pledge.nRewardMode = 1 then tx dest else tx pledge.destOwner))
  else if dest.templateType = TEMPLATE_PROOF then some (some (tx dest))
  else some none

/-- The loop that fills `vRewardList`: the flag it leaves with, and the list as it is then. -/
def fillRewardList (nSingleBlockTxCount : ℕ) :
    List (CDestination × ℤ) → ℕ → List (List CTransaction) → Option (Bool × List (List CTransaction))
  | [], _, vRewardList => some (true, vRewardList)
  | kv :: l, nAddTxCount, vRewardList =>
    match rewardTx s kv.1 kv.2 with
    | none => none
    | some none => some (false, vRewardList)
    | some (some tx) =>
      fillRewardList nSingleBlockTxCount l (nAddTxCount + 1)
        (vRewardList.modify (nAddTxCount / nSingleBlockTxCount) (· ++ [tx]))

/-- The lists for the epoch that ends in `hashCalcEndBlock`, computed afresh: the flag, and what is
left in the cache. -/
def calcRewardList (hashCalcEndBlock : ℕ) : Option (Bool × List (List CTransaction)) :=
  match calcDistributePledgeReward E s hashCalcEndBlock with
  | none => none
  | some none => some (false, [])
  | some (some mapPledgeReward) =>
    if mapPledgeReward.toList.isEmpty then some (true, [])
    else
      let nSingleBlockTxCount := calcSingleBlockDistributePledgeRewardTxCount
      let nAddBlockCount := mapPledgeReward.size / nSingleBlockTxCount
        + (if mapPledgeReward.size % nSingleBlockTxCount > 0 then 1 else 0)
      fillRewardList s nSingleBlockTxCount mapPledgeReward.toList 0 (List.replicate nAddBlockCount [])

/-- The eviction loop: the least entries go, but not that of the epoch asked for, until 16 are left. -/
def evictRewardCache (hashCalcEndBlock : ℕ) (cache : RewardCache) : RewardCache :=
  ((cache.keys.filter (· ≠ hashCalcEndBlock)).take (cache.size - 16)).foldl OrdMap.erase cache

/-- The last block of the last epoch that ended at or before `hashPrevBlock`. -/
def calcEndBlock (hashPrevBlock : ℕ) : Option CBlockIndex :=
  ((s.mapIndex hashPrevBlock).dropWhile fun p =>
    p.nHeight % BPX_PLEDGE_REWARD_DISTRIBUTE_HEIGHT E > 0).head?

/-- The part of the lists for the block after `hashPrevBlock`, with the time of that block. -/
def selectRewardList (hashPrevBlock nPrevBlockTime : ℕ) (vRewardList : List (List CTransaction)) :
    List CTransaction :=
  (vRewardList.getD (getBlockHeightByHash hashPrevBlock % BPX_PLEDGE_REWARD_DISTRIBUTE_HEIGHT E) []).map
    fun tx => { tx with nTimeStamp := (nPrevBlockTime + 1) % 2 ^ 32 }

/-- `GetDistributePledgeRewardTxList`: the list, `none` for `false`, and the cache after the call. -/
def getDistributePledgeRewardTxList (cache : RewardCache) (hashPrevBlock nPrevBlockTime : ℕ) :
    Option (Option (List CTransaction) × RewardCache) :=
  if getBlockHeightByHash hashPrevBlock < BPX_PLEDGE_REWARD_DISTRIBUTE_HEIGHT E then some (some [], cache)
  else
    match calcEndBlock E s hashPrevBlock with
    | none => some (none, cache)
    | some pEnd =>
      let cache1 := evictRewardCache pEnd.hashBlock cache
      match cache1.find? pEnd.hashBlock with
      | some vRewardList => some (some (selectRewardList E hashPrevBlock nPrevBlockTime vRewardList), cache1)
      | none =>
        match calcRewardList E s pEnd.hashBlock with
        | none => none
        | some (fOk, vRewardList) =>
          some (if fOk then some (selectRewardList E hashPrevBlock nPrevBlockTime vRewardList) else none,
            cache1.insert pEnd.hashBlock vRewardList)

end

end Minemon
