import Minemon.Core.VerifyTx
import Minemon.Pool.Data

/-!
# Transactions for the pool

`VerifyTransaction` of `minemon/core.cpp`: the check of a transaction that enters the pool, with the
questions it asks the chain and the pool. `none` as in `Minemon.Core.VerifyTx`.
-/

namespace Minemon

section

variable (E : Env) (s : CBlockBase) (mapTx : MapTx)

/-! ## Redeem addresses -/

/-- `GetRedeemLockAmount`: the locked amount, `-1` for a failure, and `nLastBlockBalance`. -/
def getRedeemLockAmount (destRedeem : CDestination) : ℤ × ℤ :=
  match s.pIndexLast with
  | [] => (-1, 0)
  | last :: _ =>
    match getAddressRedeem E s.dbRedeem last.hashBlock destRedeem with
    | none => (-1, 0)
    | some redeem =>
      if redeem.nLockAmount > 0 && redeem.nLockBeginHeight > 0 then
        let nLockHeightCount : ℤ := last.nHeight + 1 - redeem.nLockBeginHeight
        if nLockHeightCount ≤ 0 then (-1, 0)
        else if nLockHeightCount < BPX_REDEEM_DAY_COUNT E * BPX_REDEEM_DAY_HEIGHT E then
          (wrap64 (redeem.nLockAmount - redeem.nLockAmount.tdiv (BPX_REDEEM_DAY_COUNT E)
            * nLockHeightCount.tdiv (BPX_REDEEM_DAY_HEIGHT E)), redeem.nBalance)
        else (0, redeem.nBalance)
      else (0, 0)

def verifyTxMintRedeem (tx : CTransaction) (destIn : CDestination) : Bool :=
  let nDestTxPoolAmount := getDestAmount mapTx destIn
  if nDestTxPoolAmount > 0 then false
  else
    let (nLockAmount, nLastBlockBalance) := getRedeemLockAmount E s destIn
    if nLockAmount < 0 then false
    else if nLockAmount > 0 then
      nLockAmount ≤
        wrap64 (wrap64 (nLastBlockBalance + nDestTxPoolAmount) - wrap64 (tx.nAmount + tx.nTxFee))
    else true

/-! ## Pledge addresses -/

/-- `VerifyTxPledgeTrans` outside a block: no pooled transaction may pay to the address that is spent. -/
def verifyTxPledgeTransPool (hashPrev : ℕ) (tx : CTransaction) (destIn : CDestination) : Option Bool :=
  match verifyTxPledgeTrans E s hashPrev tx destIn with
  | some true => some (verifyPledgeTx mapTx destIn)
  | r => r

def verifyMintPledgeTxPool (hashPrev : ℕ) (tx : CTransaction) (destIn : CDestination) : Option Errno :=
  if isTemplateOf tx.sendTo TEMPLATE_MINTPLEDGE then
    match verifyTxPledgeTransPool E s mapTx hashPrev tx destIn with
    | none => none
    | some false => some .ERR_TRANSACTION_INVALID
    | some true => some .OK
  else verifyMintPledgeTx E s hashPrev tx destIn

/-! ## Any transaction -/

def verifyFromTemplatePool (hashLastBlock : ℕ) (tx : CTransaction) (destIn : CDestination) (nValueIn : ℤ)
    (nForkHeight fork : ℕ) : Option Errno :=
  if isTemplateOf destIn TEMPLATE_DEXORDER then verifyDexOrderTx E tx destIn (nForkHeight + 1)
  else if isTemplateOf destIn TEMPLATE_DEXMATCH then verifyDexMatchTx E tx nValueIn (nForkHeight + 1)
  else if isTemplateOf destIn TEMPLATE_MINTPLEDGE then
    verifyMintPledgeTxPool E s mapTx hashLastBlock tx destIn
  else if isTemplateOf destIn TEMPLATE_MINTREDEEM then
    if fork ≠ (getGenesisBlock E).getHash E then some .ERR_TRANSACTION_INVALID
    else if !verifyTxMintRedeem E s mapTx tx destIn then some .ERR_TRANSACTION_INVALID
    else some .OK
  else some .OK

/-- The end of `VerifyTransaction`: the signature, at the height of the next block. -/
def verifyTransactionSignature (tx : CTransaction) (destIn : CDestination) (nForkHeight fork : ℕ) :
    Option Errno :=
  match verifyDestRecorded E tx with
  | none => none
  | some none => some .ERR_TRANSACTION_SIGNATURE_INVALID
  | some (some vchSig) =>
    match destIn.verifyTxSignature E (tx.getSignatureHash E) tx.sendTo vchSig (nForkHeight + 1) fork with
    | none => none
    | some false => some .ERR_TRANSACTION_SIGNATURE_INVALID
    | some true => some .OK

/-- `VerifyTransaction`. The source reads `vPrevOutput[0]` without asking whether there is one. -/
def verifyTransaction (tx : CTransaction) (vPrevOutput : List CTxOut) (nForkHeight hashLastBlock fork : ℕ) :
    Option Errno :=
  match vPrevOutput with
  | [] => none
  | first :: _ =>
    let destIn := first.destTo
    let nValueIn := vPrevOutput.foldl (fun n output => wrap64 (n + output.nAmount)) 0
    if !vPrevOutput.all (fun output =>
        destIn = output.destTo && output.nTxTime ≤ tx.nTimeStamp && !output.isLocked nForkHeight) then
      some .ERR_TRANSACTION_INPUT_INVALID
    else if !moneyRange nValueIn then some .ERR_TRANSACTION_INPUT_INVALID
    else if !moneyRange tx.nTxFee
        || (tx.nType ≠ CTransaction.TX_TOKEN && tx.nTxFee ≠ 0)
        || (tx.nType = CTransaction.TX_TOKEN && tx.nTxFee < calcMinTxFee tx) then
      some .ERR_TRANSACTION_OUTPUT_INVALID
    else if nValueIn < wrap64 (tx.nAmount + tx.nTxFee) then some .ERR_TRANSACTION_INPUT_INVALID
    else if isTemplateOf tx.sendTo TEMPLATE_MINTREDEEM && !isTemplateOf destIn TEMPLATE_MINTPLEDGE then
      some .ERR_TRANSACTION_INVALID
    else
      match verifyFromTemplatePool E s mapTx hashLastBlock tx destIn nValueIn nForkHeight fork with
      | some .OK => verifyTransactionSignature E tx destIn nForkHeight fork
      | r => r

end

end Minemon
