import Minemon.Chain.Distribute
import Minemon.Core.Validate
import Minemon.Core.VerifyTx

/-!
# Adding a block

`CBlockChain::AddNewBlock` of `minemon/blockchain.cpp`.

* `CBlockChain`: the storage and the cache of reward lists.
* `addNewBlock`: the error code and the state after the call; `none` where the source has no defined
  behaviour.
-/

namespace Minemon

structure CBlockChain where
  cntrBlock : CBlockBase
  mapCacheDistributePledgeReward : RewardCache

section

variable (E : Env)

def genesisChain : CBlockChain := ⟨CBlockBase.initiate E (getGenesisBlock E), OrdMap.empty⟩

/-! ## Checks of the block -/

def verifyBlock (block : CBlock) (p : CBlockIndex) (pPrev : CBlockIndexPtr) : Option Errno :=
  if block.isOrigin then some .ERR_BLOCK_INVALID_FORK
  else if !block.isPrimary then some .ERR_BLOCK_TYPE_INVALID
  else if !p.isPrimary then some .ERR_BLOCK_INVALID_FORK
  else verifyProofOfWork E block p pPrev

/-- `VerifyRepeatMint`: no block among the last ones paid to the same address. -/
def verifyRepeatMint (s : CBlockBase) (block : CBlock) : Bool :=
  match s.mapIndex block.hashPrev with
  | [] => false
  | pIndex =>
    (pIndex.take (BPX_REPEAT_MINT_HEIGHT E - 1)).all fun p => p.destMint != block.txMint.sendTo

def verifyPowRewardTx (block : CBlock) (nPrevBlockTime : ℕ) : Bool :=
  let tx := block.txMint
  tx.nLockUntil == 0 && tx.vInput.isEmpty
    && (block.getBlockHeight == 0
      || (tx.vchData.length == 8 && tx.vchSig.length == PROOF_TEMPLATE_SIZE))
    && tx.nType == CTransaction.TX_WORK && tx.nTxFee == 0
    && tx.nTimeStamp == (nPrevBlockTime + 1) % 2 ^ 32
    && !tx.sendTo.isNull && isTemplateOf tx.sendTo TEMPLATE_PROOF
    && tx.nAmount == wrap64 (CTransaction.totalFee block.vtx + getBlockPowReward block.getBlockHeight)

structure PowRewardTx (block : CBlock) (nPrevBlockTime : ℕ) : Prop where
  inputs : block.txMint.vInput = []
  data : block.getBlockHeight ≠ 0 → block.txMint.vchData.length = 8
  type : block.txMint.nType = CTransaction.TX_WORK
  fee : block.txMint.nTxFee = 0
  time : block.txMint.nTimeStamp = (nPrevBlockTime + 1) % 2 ^ 32
  sendTo : isTemplateOf block.txMint.sendTo TEMPLATE_PROOF = true
  amount : block.txMint.nAmount =
    wrap64 (CTransaction.totalFee block.vtx + getBlockPowReward block.getBlockHeight)

theorem verifyPowRewardTx_true {block : CBlock} {nPrevBlockTime : ℕ}
    (h : verifyPowRewardTx block nPrevBlockTime = true) : PowRewardTx block nPrevBlockTime := by
  simp only [verifyPowRewardTx, Bool.and_eq_true, Bool.or_eq_true, beq_iff_eq, List.isEmpty_iff] at h
  obtain ⟨⟨⟨⟨⟨⟨⟨⟨-, h1⟩, h2⟩, h3⟩, h4⟩, h5⟩, -⟩, h6⟩, h7⟩ := h
  exact ⟨h1, fun h0 => (h2.resolve_left h0).1, h3, h4, h5, h6, h7⟩

theorem PowRewardTx.not_isNull {block : CBlock} {nPrevBlockTime : ℕ} (h : PowRewardTx block nPrevBlockTime) :
    block.txMint.sendTo.isNull = false := by
  have hsend := h.sendTo
  simp only [isTemplateOf, Bool.and_eq_true] at hsend
  exact CDestination.not_isNull_of_isTemplate hsend.1

/-! ## Checks of the transactions -/

def txContxtLoop (s : CBlockBase) (view : CBlockView) :
    List CTxOutPoint → CTxContxt → Except Errno CTxContxt
  | [], txContxt => .ok txContxt
  | prevout :: vInput, txContxt =>
    match view.retrieveUnspent s.dbUnspent prevout with
    | none => .error .ERR_MISSING_PREV
    | some output =>
      if txContxt.destIn.isNull then
        txContxtLoop s view vInput ⟨output.destTo, txContxt.vin ++ [CTxInContxt.ofOut output]⟩
      else if txContxt.destIn ≠ output.destTo then .error .ERR_TRANSACTION_INVALID
      else txContxtLoop s view vInput ⟨txContxt.destIn, txContxt.vin ++ [CTxInContxt.ofOut output]⟩

def getTxContxt (s : CBlockBase) (view : CBlockView) (tx : CTransaction) : Except Errno CTxContxt :=
  txContxtLoop s view tx.vInput {}

/-- The loop over `block.vtx`: the first must be those of `vPledgeRewardTxList`, the others pass `VerifyBlockTx`. -/
def checkTxLoop (s : CBlockBase) (p : CBlockIndex) (nBlockTime : ℕ) :
    List CTransaction → List CTransaction → CBlockView → List CTxContxt →
      Option (Except Errno (CBlockView × List CTxContxt))
  | [], _, view, vTxContxt => some (.ok (view, vTxContxt))
  | tx :: vtx, vPledgeRewardTxList, view, vTxContxt =>
    match getTxContxt s view tx with
    | .error err => some (.error err)
    | .ok txContxt =>
      let err : Option Errno :=
        match vPledgeRewardTxList with
        | reward :: _ => some (if tx ≠ reward then .ERR_BLOCK_TRANSACTIONS_INVALID else .OK)
        | [] => verifyBlockTx E s tx txContxt p (p.nHeight + 1) p.hashOrigin
      match err with
      | none => none
      | some .OK =>
        if tx.nTimeStamp > nBlockTime then some (.error .ERR_BLOCK_TIMESTAMP_OUT_OF_RANGE)
        else
          checkTxLoop s p nBlockTime vtx vPledgeRewardTxList.tail
            (view.addTx (tx.getHash E) tx txContxt) (vTxContxt ++ [txContxt])
      | some err => some (.error err)

/-- The loop of `VerifyBlockMintRedeem`. An address that cannot be read ends it with `-1`, which is `true`. -/
def mintRedeemLoop (s : CBlockBase) (hashPrev nHeight : ℕ) :
    List (CTransaction × CTxContxt) → List CDestination → (CDestination → ℤ) → Bool
  | [], _, _ => true
  | (tx, txContxt) :: l, setBlockRedeem, mapRedeemValue =>
    let setBlockRedeem :=
      if isTemplateOf tx.sendTo TEMPLATE_MINTREDEEM then tx.sendTo :: setBlockRedeem else setBlockRedeem
    let dest := txContxt.destIn
    if isTemplateOf dest TEMPLATE_MINTREDEEM then
      if dest ∈ setBlockRedeem then false
      else
        match getAddressRedeem E s.dbRedeem hashPrev dest with
        | none => true
        | some redeem =>
          if redeem.nLockBeginHeight > 0 then
            let nLockHeightCount : ℤ := nHeight - redeem.nLockBeginHeight
            let nSpent := wrap64 (tx.nAmount + tx.nTxFee)
            if nLockHeightCount ≤ 0 then false
            else if nLockHeightCount < BPX_REDEEM_DAY_COUNT E * BPX_REDEEM_DAY_HEIGHT E
                && wrap64 (wrap64 (redeem.nBalance - mapRedeemValue dest) - tx.nAmount - tx.nTxFee)
                  < wrap64 (redeem.nLockAmount - redeem.nLockAmount.tdiv (BPX_REDEEM_DAY_COUNT E)
                      * nLockHeightCount.tdiv (BPX_REDEEM_DAY_HEIGHT E)) then false
            else
              mintRedeemLoop s hashPrev nHeight l setBlockRedeem
                (Function.update mapRedeemValue dest (wrap64 (mapRedeemValue dest + nSpent)))
          else mintRedeemLoop s hashPrev nHeight l setBlockRedeem mapRedeemValue
    else mintRedeemLoop s hashPrev nHeight l setBlockRedeem mapRedeemValue

def verifyBlockMintRedeem (s : CBlockBase) (b : CBlockEx) : Bool :=
  mintRedeemLoop E s b.block.hashPrev b.block.getBlockHeight (b.block.vtx.zip b.vTxContxt) [] fun _ => 0

/-! ## AddNewBlock -/

def isShortChain (pIndexFork pIndexNew : CBlockIndexPtr) : Bool :=
  match pIndexFork, pIndexNew with
  | fork :: _, new :: _ =>
    fork.nChainTrust > new.nChainTrust
      || (fork.nChainTrust == new.nChainTrust && !isEquivalent pIndexFork pIndexNew)
  | _, _ => false

/-- The last part of `AddNewBlock`: store the block, and move the fork to it if its chain is not the
shorter one. -/
def storeBlock (s : CBlockBase) (hash : ℕ) (b : CBlockEx) (view : CBlockView) : Option (Errno × CBlockBase) :=
  match getBlockTrust b.block with
  | none => some (.ERR_BLOCK_TRANSACTIONS_INVALID, s)
  | some nChainTrust =>
    match s.addNew E hash b nChainTrust with
    | none => none
    | some (none, s1) => some (.ERR_SYS_STORAGE_ERROR, s1)
    | some (some pIndexNew, s1) =>
      if isShortChain s1.pIndexLast pIndexNew then some (.OK, s1)
      else
        match s1.commitBlockView E view pIndexNew with
        | none => none
        | some (false, s2) => some (.ERR_SYS_STORAGE_ERROR, s2)
        | some (true, s2) => some (.OK, s2)

/-- The middle part. `VerifyBlockMintRedeem` reads the redeem database as `seen` has it. -/
def processBlock (seen : ℕ → Option CRedeemContext) (s : CBlockBase) (p : CBlockIndex) (hash : ℕ)
    (block : CBlock) (view : CBlockView) (vPledgeRewardTxList : List CTransaction) : Option (Errno × CBlockBase) :=
  match checkTxLoop E s p block.nTimeStamp block.vtx vPledgeRewardTxList view [] with
  | none => none
  | some (.error err) => some (err, s)
  | some (.ok (view1, vTxContxt)) =>
    let b : CBlockEx := ⟨block, vTxContxt⟩
    if !verifyBlockMintRedeem E { s with dbRedeem := seen } b then some (.ERR_BLOCK_TRANSACTIONS_INVALID, s)
    else storeBlock E s hash b (view1.addBlock hash b)

/-- The view of the previous block with the mint transaction, which `VerifyPowRewardTx` has not yet seen. -/
def mintView (s : CBlockBase) (block : CBlock) : Option (Option CBlockView) :=
  match s.getBlockView E block.hashPrev with
  | none => none
  | some none => some none
  | some (some view) =>
    if block.txMint.sendTo.isNull then some (some view)
    else if contextDefined block.txMint {} then
      some (some (view.addTx (block.txMint.getHash E) block.txMint {}))
    else none

/-- The checks that need no view: what comes before `GetBlockView`. -/
def precheckBlock (s : CBlockBase) (nNetTime : ℤ) (block : CBlock) :
    Option (Except Errno CBlockIndex) :=
  if s.mapIndex (block.getHash E) ≠ [] then some (.error .ERR_ALREADY_HAVE)
  else
    match validateBlock E nNetTime block with
    | .OK =>
      match s.mapIndex block.hashPrev with
      | [] => some (.error .ERR_SYS_STORAGE_ERROR)
      | p :: pPrev =>
        match verifyBlock E block p pPrev with
        | none => none
        | some .OK =>
          if verifyRepeatMint E s block then some (.ok p) else some (.error .ERR_SYS_STORAGE_ERROR)
        | some err => some (.error err)
    | err => some (.error err)

/-- `AddNewBlock` at the network time `nNetTime`, when `VerifyBlockMintRedeem` reads `seen`. -/
def addNewBlockSeeing (seen : ℕ → Option CRedeemContext) (nNetTime : ℤ) (chain : CBlockChain) (block : CBlock) :
    Option (Errno × CBlockChain) :=
  let s := chain.cntrBlock
  match precheckBlock E s nNetTime block with
  | none => none
  | some (.error err) => some (err, chain)
  | some (.ok p) =>
    match mintView E s block with
    | none => none
    | some none => some (.ERR_SYS_STORAGE_ERROR, chain)
    | some (some view) =>
      if !verifyPowRewardTx block p.nTimeStamp then some (.ERR_BLOCK_TRANSACTIONS_INVALID, chain)
      else
        match getDistributePledgeRewardTxList E s chain.mapCacheDistributePledgeReward block.hashPrev
            p.nTimeStamp with
        | none => none
        | some (none, cache) => some (.ERR_BLOCK_TRANSACTIONS_INVALID, ⟨s, cache⟩)
        | some (some vPledgeRewardTxList, cache) =>
          match processBlock E seen s p (block.getHash E) block view vPledgeRewardTxList with
          | none => none
          | some (err, s') => some (err, ⟨s', cache⟩)

def addNewBlock (nNetTime : ℤ) (chain : CBlockChain) (block : CBlock) : Option (Errno × CBlockChain) :=
  addNewBlockSeeing E chain.cntrBlock.dbRedeem nNetTime chain block

end

end Minemon
