import Minemon.Chain.AddNewBlock

/-!
# Work

The block that `CService::GetWorkTx` and `CBlockMaker` in `minemon/` put together: the mint transaction
with the reward it declares, the Merkle root, and a merged-mining proof whose coinbase is the commitment.

* `workBlock`: a block on a given parent, from the transactions and the declared reward.
* `toyEnv`: a test network with a hash that is cheap to evaluate; `toyRun`: runs on given blocks.
-/

namespace Minemon

def CProofOfHashWorkCompact.save (p : CProofOfHashWorkCompact) : List UInt8 :=
  p.headerBytes ++ leBytes 2 p.auxOffset ++ streamBytes p.coinbase
    ++ (varInt p.auxMerkleBranch.length ++ (p.auxMerkleBranch.map (leBytes 32)).flatten)
    ++ (varInt p.trMerkleBranch.length ++ (p.trMerkleBranch.map (leBytes 32)).flatten)

section

variable (E : Env)

def powHash (block : CBlock) : ℕ :=
  E.sha256 (leBytes 2 block.nVersion ++ leBytes 2 block.nType ++ leBytes 32 block.hashPrev
    ++ leBytes 32 block.hashMerkle ++ leBytes 4 block.nBits)

/-- A proof for `block` whose coinbase is the commitment alone. -/
def workProof (block : CBlock) : CProofOfHashWorkCompact :=
  let coinbase := (leBytes 32 (powHash E block)).reverse
  ⟨1, 0, E.sha256D coinbase, block.nTimeStamp, block.nBits, 0, 0, coinbase, [], []⟩

def CTemplateProof.dest (t : CTemplateProof) : CDestination :=
  ⟨CDestination.PREFIX_TEMPLATE, (CTemplate.proof t).getTemplateId E⟩

def CTemplateMintPledge.dest (t : CTemplateMintPledge) : CDestination :=
  ⟨CDestination.PREFIX_TEMPLATE, (CTemplate.mintpledge t).getTemplateId E⟩

def CTemplateMintRedeem.dest (t : CTemplateMintRedeem) : CDestination :=
  ⟨CDestination.PREFIX_TEMPLATE, (CTemplate.mintredeem t).getTemplateId E⟩

/-- The mint transaction of `GetWorkTx`, with the reward it declares. -/
def workMintTx (templMint : CTemplateProof) (nHeight nPrevBlockTime : ℕ) (nPledgeReward : ℤ)
    (vtx : List CTransaction) : CTransaction where
  nType := CTransaction.TX_WORK
  nTimeStamp := (nPrevBlockTime + 1) % 2 ^ 32
  sendTo := templMint.dest E
  nAmount := getBlockPowReward nHeight + CTransaction.totalFee vtx
  vchSig := (CTemplate.proof templMint).buildTemplateData
  vchData := int64Bytes nPledgeReward

def workBlock (templMint : CTemplateProof) (hashPrev nPrevBlockTime nTimeStamp nBits : ℕ)
    (nPledgeReward : ℤ) (vtx : List CTransaction) : CBlock :=
  let block : CBlock :=
    { nType := CBlock.BLOCK_PRIMARY
      nTimeStamp := nTimeStamp
      hashPrev := hashPrev
      nBits := nBits
      txMint := workMintTx E templMint (getBlockHeightByHash hashPrev + 1) nPrevBlockTime nPledgeReward vtx
      vtx := vtx }
  let block := { block with hashMerkle := block.buildMerkleTree E }
  { block with vchProof := (workProof E block).save }

end

/-! ## A toy network -/

/-- The bytes as a number, reduced to 224 bits. -/
def toyHash (bs : List UInt8) : Fin (2 ^ 256) :=
  ⟨ofLeBytes bs % (2 ^ 224 - 63), lt_of_lt_of_le (Nat.mod_lt _ (by norm_num)) (by norm_num)⟩

instance instNeZeroWord : NeZero (2 ^ 256) := ⟨by norm_num⟩

def toyEnv : Env := ⟨true, toyHash, toyHash, fun _ _ _ => true⟩

def toyMiner : CTemplateProof := ⟨⟨CDestination.PREFIX_PUBKEY, 7⟩, 0⟩

/-- A block to come: its miner, how many seconds after the last block, what it declares, its transactions. -/
structure ToyPlan where
  miner : CTemplateProof := toyMiner
  nSeconds : ℕ := 60
  nPledgeReward : ℤ := 0
  vtx : CBlockChain → List CTransaction := fun _ => []

def ToyPlan.block (x : ToyPlan) (c : CBlockChain) : CBlock :=
  match c.cntrBlock.pIndexLast with
  | [] => {}
  | p :: _ =>
    workBlock toyEnv x.miner p.hashBlock p.nTimeStamp (p.nTimeStamp + x.nSeconds)
      (getCompact (nProofOfWorkInit toyEnv)) x.nPledgeReward (x.vtx c)

/-- The block that a miner puts on the last block of the chain, a minute later. -/
def toyBlock (miner : CTemplateProof) (c : CBlockChain) (nPledgeReward : ℤ) (vtx : List CTransaction) : CBlock :=
  ToyPlan.block { miner, nPledgeReward, vtx := fun _ => vtx } c

def toyMine (miner : CTemplateProof) (nPledgeReward : ℤ) (vtx : List CTransaction) (c : CBlockChain) :
    Option CBlockChain :=
  let block := toyBlock miner c nPledgeReward vtx
  match addNewBlock toyEnv block.nTimeStamp c block with
  | some (.OK, c') => some c'
  | _ => none

theorem exists_some_of_any {α : Type*} {o : Option α} {P : α → Prop} [DecidablePred P]
    (h : o.any (fun x => decide (P x)) = true) : ∃ x, o = some x ∧ P x := by
  simpa only [Option.any_eq_true, decide_eq_true_eq] using h

/-- The template under which the miner pledges to themselves, the rewards joining the pledge. -/
def toyPledge : CTemplateMintPledge := ⟨toyMiner.destSpent, toyMiner.dest toyEnv, 1⟩

def toyTipHash (c : CBlockChain) : ℕ := (c.cntrBlock.pIndexLast.head?.map CBlockIndex.hashBlock).getD 0

def toyTipTime (c : CBlockChain) : ℕ := (c.cntrBlock.pIndexLast.head?.map CBlockIndex.nTimeStamp).getD 0

def toyMints (c : CBlockChain) : List CTxOutPoint :=
  (c.cntrBlock.pIndexLast.filter fun p => p.nHeight > 0).map fun p => ⟨p.txidMint, 0⟩

/-- A pledge of `nAmount`, from what the miner earned. -/
def toyPledgeTx (vInput : List CTxOutPoint) (nTimeStamp : ℕ) (nAmount : ℤ) : CTransaction where
  nTimeStamp := nTimeStamp
  vInput := vInput
  sendTo := toyPledge.dest toyEnv
  nAmount := nAmount
  nTxFee := MIN_TX_FEE
  vchSig := (CTemplate.mintpledge toyPledge).buildTemplateData
    ++ (CTemplate.proof toyMiner).buildTemplateData ++ List.replicate 64 0

def toyRewards (c : CBlockChain) : List CTransaction :=
  match getDistributePledgeRewardTxList toyEnv c.cntrBlock c.mapCacheDistributePledgeReward (toyTipHash c)
      (toyTipTime c) with
  | some (some vPledgeRewardTxList, _) => vPledgeRewardTxList
  | _ => []

/-- An address that the miner redeems to. -/
def toyRedeem : CTemplateMintRedeem := ⟨toyMiner.destSpent, 1⟩

/-- A withdrawal of `nAmount` from the pledge. -/
def toyWithdrawTx (vInput : List CTxOutPoint) (nTimeStamp : ℕ) (nAmount : ℤ) : CTransaction where
  nTimeStamp := nTimeStamp
  vInput := vInput
  sendTo := toyRedeem.dest toyEnv
  nAmount := nAmount
  nTxFee := MIN_TX_FEE
  vchSig := (CTemplate.mintredeem toyRedeem).buildTemplateData
    ++ (CTemplate.mintpledge toyPledge).buildTemplateData ++ List.replicate 64 0

/-- The chain after the blocks, with the blocks; `none` when one of them does not meet `Q` or is not
accepted. -/
def toyRun (Q : CBlockChain → CBlock → Bool) : List ToyPlan → CBlockChain → Option (CBlockChain × List CBlock)
  | [], c => some (c, [])
  | x :: l, c =>
    if Q c (x.block c) then
      match addNewBlock toyEnv (x.block c).nTimeStamp c (x.block c) with
      | some (.OK, c') => (toyRun Q l c').map fun r => (r.1, x.block c :: r.2)
      | _ => none
    else none

/-- Four blocks, with a pledge of 100 coins in the fourth. -/
def toyPledgePlans : List ToyPlan :=
  [{}, {}, {}, { vtx := fun c => [toyPledgeTx (toyMints c) (toyTipTime c + 60) 100000000] }]

/-- The same with a first block that declares `nPledgeReward`. -/
def toyPledged (nPledgeReward : ℤ) : Option CBlockChain :=
  (toyRun (fun _ _ => true) ({ nPledgeReward } :: toyPledgePlans.tail) (genesisChain toyEnv)).map Prod.fst

end Minemon
