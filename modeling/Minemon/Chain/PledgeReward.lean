import Minemon.Core.Reward
import Minemon.Storage.BlockBase

/-!
# Pledge rewards of a block

From `minemon/blockchain.cpp`: the reward that the pledges to a mining address earn in one block, its
division among the pledge addresses, and the sum over the blocks of an epoch.

* `getMintPledgeReward`: what the source expects a mint transaction to declare.
* `calcBlockPledgeReward`, `calcDistributePledgeReward`: what is paid, one epoch later.
-/

namespace Minemon

abbrev RewardMap := OrdMap CDestination ℤ

section

variable (E : Env) (s : CBlockBase)

def getBlockMoneySupply (hashBlock : ℕ) : ℤ :=
  match s.mapIndex hashBlock with
  | [] => -1
  | p :: _ => p.nMoneySupply

def getPledgeMinMaxValue (hashPrevBlock : ℕ) : Option PledgeRange :=
  let nMoneySupply := getBlockMoneySupply s hashPrevBlock
  if nMoneySupply < 0 then none
  else some (getBlockPledgeMinMaxValue (hashGenesisBlock E) hashPrevBlock nMoneySupply)

/-- The loop of `GetMintPledgeData`: the pledges that are large enough, each cut at the maximum, and
their sum. -/
def validPledgesLoop (nMinPledge nMaxPledge : ℤ) :
    List (CDestination × (ℤ × ℕ)) → RewardMap → ℤ → RewardMap × ℤ
  | [], mapValidPledge, nTotalPledge => (mapValidPledge, nTotalPledge)
  | kv :: l, mapValidPledge, nTotalPledge =>
    if kv.2.1 ≥ nMinPledge then
      let pledge := if kv.2.1 > nMaxPledge then nMaxPledge else kv.2.1
      validPledgesLoop nMinPledge nMaxPledge l (mapValidPledge.insert kv.1 pledge)
        (wrap64 (nTotalPledge + pledge))
    else validPledgesLoop nMinPledge nMaxPledge l mapValidPledge nTotalPledge

def getMintPledgeData (hashBlock : ℕ) (destMintPow : CDestination) (nMinPledge nMaxPledge : ℤ) :
    Option (RewardMap × ℤ) :=
  match getPowPledgeList E s.dbPledge hashBlock destMintPow with
  | none => none
  | some mapPowPledgeList => some (validPledgesLoop nMinPledge nMaxPledge mapPowPledgeList.toList OrdMap.empty 0)

/-- `nSurplusReward` before the reward of the next block is added. -/
def surplusReward (hashPrevBlock : ℕ) : ℤ :=
  wrap64 (getMintTotalReward (getBlockHeightByHash hashPrevBlock) - getBlockMoneySupply s hashPrevBlock)

/-- `(int64)((__uint128_t)a * b / c)` -/
def mulDiv (a b c : ℤ) : ℤ := wrap64 (u128 (u128 a * u128 b) / u128 c)

def calcPledgeRewardValue (hashPrevBlock : ℕ) (nTotalPledge nPowMinPledge nMaxPledge : ℤ) : ℤ :=
  if nTotalPledge < nPowMinPledge then 0
  else
    let nCalcTotalPledge := if nTotalPledge > nMaxPledge then nMaxPledge else nTotalPledge
    let nSurplusReward := surplusReward s hashPrevBlock
    if nSurplusReward < 0 then -1
    else
      mulDiv (wrap64 (nSurplusReward + getBlockPledgeReward (getBlockHeightByHash hashPrevBlock + 1)))
        nCalcTotalPledge nMaxPledge

def getMintPledgeReward (hashPrevBlock : ℕ) (destMintPow : CDestination) : ℤ :=
  match getPledgeMinMaxValue E s hashPrevBlock with
  | none => -1
  | some r =>
    match getMintPledgeData E s hashPrevBlock destMintPow r.nStakeMinPledge r.nMaxPledge with
    | none => 0
    | some (_, nTotalPledge) =>
      let nReward := calcPledgeRewardValue s hashPrevBlock nTotalPledge r.nPowMinPledge r.nMaxPledge
      if nReward < 0 then -1 else nReward

/-! ## Templates of mining and pledge addresses -/

/-- `GetPledgeTemplateParam`; `some none` is `false`. -/
def getPledgeTemplateParam (destMintPledge : CDestination) : Option (Option CTemplateMintPledge) :=
  if !isTemplateOf destMintPledge TEMPLATE_MINTPLEDGE then some none
  else
    match s.dbTemplateData destMintPledge with
    | none => some none
    | some vTemplateData => createMintPledgePtr vTemplateData

/-- `GetPowMintTemplateParam`; `some none` is `false`. -/
def getPowMintTemplateParam (destMint : CDestination) : Option (Option CTemplateProof) :=
  if !isTemplateOf destMint TEMPLATE_PROOF then some none
  else
    match s.dbTemplateData destMint with
    | none => some none
    | some vTemplateData => createProofPtr vTemplateData

/-! ## The reward of a block, divided -/

/-- What one pledge earns: its share of the reward, less the fee of the pool. -/
def destReward (nBlockPledgeReward nTotalPledge : ℤ) (nPledgeFee : ℕ) (pledge : ℤ) : ℤ :=
  let nDestReward := mulDiv nBlockPledgeReward pledge nTotalPledge
  if nPledgeFee > 0 && nPledgeFee ≤ 1000 then wrap64 (nDestReward - mulDiv nDestReward nPledgeFee 1000)
  else nDestReward

/-- `mapPledgeReward[dest] += nReward` -/
def addReward (m : RewardMap) (dest : CDestination) (nReward : ℤ) : RewardMap :=
  m.upsert dest fun old => wrap64 (old.getD 0 + nReward)

/-- The loop over `mapValidPledge`: the rewards and `nDistributeTotalReward`. -/
def distributeLoop (nBlockPledgeReward nTotalPledge : ℤ) (nPledgeFee : ℕ) :
    List (CDestination × ℤ) → RewardMap → ℤ → RewardMap × ℤ
  | [], m, nDistributeTotalReward => (m, nDistributeTotalReward)
  | kv :: l, m, nDistributeTotalReward =>
    let nDestReward := destReward nBlockPledgeReward nTotalPledge nPledgeFee kv.2
    distributeLoop nBlockPledgeReward nTotalPledge nPledgeFee l (addReward m kv.1 nDestReward)
      (wrap64 (nDistributeTotalReward + nDestReward))

/-- The end of `CalcBlockPledgeReward`: what is left goes to the mining address. -/
def distributeReward (nBlockPledgeReward nTotalPledge : ℤ) (nPledgeFee : ℕ) (mapValidPledge : RewardMap)
    (destMint : CDestination) (m : RewardMap) : RewardMap :=
  let (m1, nDistributeTotalReward) :=
    distributeLoop nBlockPledgeReward nTotalPledge nPledgeFee mapValidPledge.toList m 0
  if wrap64 (nBlockPledgeReward - nDistributeTotalReward) > 0 then
    addReward m1 destMint (wrap64 (nBlockPledgeReward - nDistributeTotalReward))
  else m1

/-- The first half of `CalcBlockPledgeReward`, `none` where that returns `false`. -/
def blockPledgeRewardData (p prev : CBlockIndex) : Option (ℤ × RewardMap × ℤ) :=
  let hashPrevBlock := prev.hashBlock
  match getPledgeMinMaxValue E s hashPrevBlock with
  | none => none
  | some r =>
    match getMintPledgeData E s hashPrevBlock p.destMint r.nStakeMinPledge r.nMaxPledge with
    | none => none
    | some (mapValidPledge, nTotalPledge) =>
      let nReward := calcPledgeRewardValue s hashPrevBlock nTotalPledge r.nPowMinPledge r.nMaxPledge
      if nReward < 0 then none else some (nReward, mapValidPledge, nTotalPledge)

/-- `CalcBlockPledgeReward`; `some none` is `false`. -/
def calcBlockPledgeReward (pIndex : CBlockIndexPtr) (mapPledgeReward : RewardMap) :
    Option (Option RewardMap) :=
  match pIndex with
  | p :: prev :: _ =>
    match blockPledgeRewardData E s p prev with
    | none => some none
    | some (nBlockPledgeReward, mapValidPledge, nTotalPledge) =>
      if nBlockPledgeReward = 0 || mapValidPledge.toList.isEmpty then some (some mapPledgeReward)
      else
        match getPowMintTemplateParam s p.destMint with
        | none => none
        | some none => some none
        | some (some proof) =>
          some (some (distributeReward nBlockPledgeReward nTotalPledge proof.nPledgeFee mapValidPledge
            p.destMint mapPledgeReward))
  | _ => some none

/-! ## The rewards of an epoch -/

/-- The loop of `CalcDistributePledgeReward`: `n` blocks back, and not the genesis block. -/
def calcDistributeLoop : ℕ → CBlockIndexPtr → RewardMap → Option (Option RewardMap)
  | 0, _, m => some (some m)
  | _ + 1, [], m => some (some m)
  | _ + 1, [_], m => some (some m)
  | n + 1, p :: prev :: rest, m =>
    match calcBlockPledgeReward E s (p :: prev :: rest) m with
    | none => none
    | some none => some none
    | some (some m') => calcDistributeLoop n (prev :: rest) m'

/-- `CalcDistributePledgeReward`; `some none` is `false`. -/
def calcDistributePledgeReward (hashBlock : ℕ) : Option (Option RewardMap) :=
  if getBlockHeightByHash hashBlock % BPX_PLEDGE_REWARD_DISTRIBUTE_HEIGHT E ≠ 0 then some none
  else
    match s.mapIndex hashBlock with
    | [] => some none
    | pIndex => calcDistributeLoop E s (BPX_PLEDGE_REWARD_DISTRIBUTE_HEIGHT E) pIndex OrdMap.empty

end

end Minemon
