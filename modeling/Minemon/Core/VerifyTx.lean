import Minemon.Common.Signature
import Minemon.Storage.BlockBase

/-!
# Transactions in a block

`VerifyBlockTx` of `minemon/core.cpp` with the rules of the DEX and pledge templates. A result of
`none` is one the source does not define.

* `verifyBlockTx_ok`: what a transaction that passed has been checked for.
-/

namespace Minemon

/-- `CalcMinTxFee`, in `uint32`. -/
def calcMinTxFee (tx : CTransaction) : ℤ :=
  let nVchData := tx.vchData.length
  if nVchData = 0 then 10000
  else
    let multiplier := nVchData / 200 + (if nVchData % 200 > 0 then 1 else 0)
    (((if multiplier > 5 then 10000 + 10000 * 10 + (multiplier - 5) * 10000 * 4
      else 10000 + multiplier * 10000 * 2) % 2 ^ 32 : ℕ) : ℤ)

section

variable (E : Env)

/-! ## DEX -/

def verifyDexOrderTx (tx : CTransaction) (destIn : CDestination) (nHeight : ℕ) : Option Errno :=
  match verifyDestRecorded E tx with
  | none => none
  | some none => some .ERR_TRANSACTION_SIGNATURE_INVALID
  | some (some vchSig) =>
    match createTemplatePtr TEMPLATE_DEXORDER vchSig with
    | some none => some .ERR_TRANSACTION_SIGNATURE_INVALID
    | some (some (.dexorder order)) =>
      if isTemplateOf tx.sendTo TEMPLATE_DEXMATCH then
        match createTemplatePtr TEMPLATE_DEXMATCH tx.vchSig with
        | some none => some .ERR_TRANSACTION_SIGNATURE_INVALID
        | some (some (.dexmatch m)) =>
          match getSignDestination (.dexorder order) tx.sendTo 0 nHeight tx.vchSig with
          | none => some .ERR_TRANSACTION_SIGNATURE_INVALID
          | some (setSubDest, _) =>
            if setSubDest.head? ≠ some m.destMatch then some .ERR_TRANSACTION_SIGNATURE_INVALID
            else if m.destSellerOrder ≠ destIn then some .ERR_TRANSACTION_SIGNATURE_INVALID
            else if m.destSeller ≠ order.destSeller then some .ERR_TRANSACTION_SIGNATURE_INVALID
            else if tx.nAmount ≠ m.nMatchAmount
                || tx.nAmount < TNS_DEX_MIN_TX_FEE * 3 + TNS_DEX_MIN_MATCH_AMOUNT then
              some .ERR_TRANSACTION_SIGNATURE_INVALID
            else if m.nFee ≠ order.nFee then some .ERR_TRANSACTION_SIGNATURE_INVALID
            else some .OK
        | _ => none
      else some .OK
    | _ => none

/-- A share of the match amount less three fees: `uint64` arithmetic. -/
def matchShare (nMatchAmount nRate : ℤ) : ℤ :=
  wrap64 ((nMatchAmount - TNS_DEX_MIN_TX_FEE * 3) % 2 ^ 64 * nRate % 2 ^ 64 / FEE_PRECISION)

/-- The values that `VerifyDexMatchTx` asks for while the seller is valid; `none` for another receiver. -/
def matchPayout (m : CTemplateDexMatch) (sendTo destDeal : CDestination) (nValueIn : ℤ) :
    Option (ℤ × ℤ) :=
  let nBuyerAmount := matchShare m.nMatchAmount (FEE_PRECISION - m.nFee)
  let nRewardAmount := matchShare m.nMatchAmount (m.nFee.tdiv 2)
  if sendTo = m.destBuyer then some (m.nMatchAmount, nBuyerAmount)
  else if sendTo = m.destMatch then
    some (wrap64 (m.nMatchAmount - nBuyerAmount - TNS_DEX_MIN_TX_FEE), nRewardAmount)
  else if sendTo = destDeal then
    some (wrap64 (m.nMatchAmount - nBuyerAmount - nRewardAmount - TNS_DEX_MIN_TX_FEE * 2),
      wrap64 (nValueIn - TNS_DEX_MIN_TX_FEE))
  else none

/-- The check of the buyer's secret at the end of `VerifyDexMatchTx`. -/
def verifyMatchSecret (m : CTemplateDexMatch) (sendTo : CDestination) (vchSig : List UInt8) : Option Errno :=
  match getSignDestination (.dexmatch m) sendTo 0 0 vchSig with
  | none => some .ERR_TRANSACTION_SIGNATURE_INVALID
  | some (_, vchSigOut) =>
    match threeBytes.dec vchSigOut with
    | .error .undefined => none
    | .error .exception => some .ERR_TRANSACTION_SIGNATURE_INVALID
    | .ok ((_, vss, _), _) =>
      if E.sha256 vss ≠ m.hashBuyerSecret then some .ERR_TRANSACTION_SIGNATURE_INVALID else some .OK

def verifyDexMatchTx (tx : CTransaction) (nValueIn : ℤ) (nHeight : ℕ) : Option Errno :=
  match verifyDestRecorded E tx with
  | none => none
  | some none => some .ERR_TRANSACTION_SIGNATURE_INVALID
  | some (some vchSig) =>
    match createTemplatePtr TEMPLATE_DEXMATCH vchSig with
    | some none => some .ERR_TRANSACTION_SIGNATURE_INVALID
    | some (some (.dexmatch m)) =>
      if (nHeight : ℤ) ≤ m.nSellerValidHeight then
        -- the deal address is asked for only when the receiver is neither the buyer nor the matcher
        if tx.sendTo ≠ m.destBuyer && tx.sendTo ≠ m.destMatch
            && (getSignDestination (.dexmatch m) tx.sendTo 0 nHeight tx.vchSig).isNone then
          some .ERR_TRANSACTION_SIGNATURE_INVALID
        else
          match matchPayout m tx.sendTo m.destSellerDeal nValueIn with
          | none => some .ERR_TRANSACTION_SIGNATURE_INVALID
          | some (nNeedIn, nNeedAmount) =>
            if nValueIn ≠ nNeedIn then some .ERR_TRANSACTION_SIGNATURE_INVALID
            else if tx.nAmount ≠ nNeedAmount then some .ERR_TRANSACTION_SIGNATURE_INVALID
            else if tx.nTxFee ≠ TNS_DEX_MIN_TX_FEE then some .ERR_TRANSACTION_SIGNATURE_INVALID
            else verifyMatchSecret E m tx.sendTo vchSig
      else some .OK
    | _ => none

/-! ## Pledges -/

/-- `VerifyTxPledgeTrans` for a transaction in a block. -/
def verifyTxPledgeTrans (s : CBlockBase) (hashPrev : ℕ) (tx : CTransaction) (destIn : CDestination) :
    Option Bool :=
  match createMintPledgePtr tx.vchSig with
  | none => none
  | some none => some false
  | some (some objSendTo) =>
    match getSignDestination (.mintpledge objSendTo) tx.sendTo 0 0 tx.vchSig with
    | none => some false
    | some (_, vDestInData) =>
      match createMintPledgePtr vDestInData with
      | none => none
      | some none => some false
      | some (some objDestIn) =>
        if objSendTo.destOwner ≠ objDestIn.destOwner then some false
        else
          match getAddressPledgeData E s.dbPledge hashPrev objDestIn.destPowMint destIn with
          | none => some false
          | some (nPledgeAmount, nPledgeHeight) =>
            if nPledgeAmount ≤ 0 || nPledgeHeight = 0 then some false
            else if (getBlockHeightByHash hashPrev : ℤ) + 1 - nPledgeHeight < BPX_REDEEM_DAY_HEIGHT E then
              some false
            else some true

def verifyMintPledgeTx (s : CBlockBase) (hashPrev : ℕ) (tx : CTransaction) (destIn : CDestination) :
    Option Errno :=
  if isTemplateOf tx.sendTo TEMPLATE_MINTPLEDGE then
    match verifyTxPledgeTrans E s hashPrev tx destIn with
    | none => none
    | some false => some .ERR_TRANSACTION_INVALID
    | some true => some .OK
  else if isTemplateOf tx.sendTo TEMPLATE_MINTREDEEM then
    match verifyDestRecorded E tx with
    | none => none
    | some none => some .ERR_TRANSACTION_INVALID
    | some (some vchSig) =>
      match createTemplatePtr TEMPLATE_MINTREDEEM tx.vchSig with
      | some none => some .ERR_TRANSACTION_INVALID
      | some (some (.mintredeem redeem)) =>
        match createMintPledgePtr vchSig with
        | none => none
        | some none => some .ERR_TRANSACTION_INVALID
        | some (some pledge) =>
          if pledge.destOwner ≠ redeem.destOwner then some .ERR_TRANSACTION_INVALID else some .OK
      | _ => none
  else some .ERR_TRANSACTION_INVALID

/-! ## Any transaction -/

def verifyFromTemplate (s : CBlockBase) (hashPrev : ℕ) (tx : CTransaction) (destIn : CDestination)
    (nValueIn : ℤ) (nForkHeight : ℕ) : Option Errno :=
  if isTemplateOf destIn TEMPLATE_DEXORDER then verifyDexOrderTx E tx destIn nForkHeight
  else if isTemplateOf destIn TEMPLATE_DEXMATCH then verifyDexMatchTx E tx nValueIn nForkHeight
  else if isTemplateOf destIn TEMPLATE_MINTPLEDGE then verifyMintPledgeTx E s hashPrev tx destIn
  else some .OK

/-- The end of `VerifyBlockTx`: the signature, at the height of the previous block. -/
def verifyBlockTxSignature (tx : CTransaction) (destIn : CDestination) (nForkHeight fork : ℕ) :
    Option Errno :=
  match verifyDestRecorded E tx with
  | none => none
  | some none => some .ERR_TRANSACTION_SIGNATURE_INVALID
  | some (some vchSig) =>
    match destIn.verifyTxSignature E (tx.getSignatureHash E) tx.sendTo vchSig (nForkHeight - 1) fork with
    | none => none
    | some false => some .ERR_TRANSACTION_SIGNATURE_INVALID
    | some true => some .OK

/-- `VerifyBlockTx` on the entry `p` of the previous block. -/
def verifyBlockTx (s : CBlockBase) (tx : CTransaction) (txContxt : CTxContxt) (p : CBlockIndex)
    (nForkHeight fork : ℕ) : Option Errno :=
  let destIn := txContxt.destIn
  let nValueIn := txContxt.getValueIn
  if tx.isMintTx then some .ERR_TRANSACTION_INVALID
  else if !txContxt.vin.all (fun i => i.nTxTime ≤ tx.nTimeStamp && !i.isLocked p.nHeight) then
    some .ERR_TRANSACTION_INPUT_INVALID
  else if !moneyRange nValueIn then some .ERR_TRANSACTION_INPUT_INVALID
  else if !moneyRange tx.nTxFee
      || (tx.nType ≠ CTransaction.TX_TOKEN && tx.nTxFee ≠ 0)
      || (tx.nType = CTransaction.TX_TOKEN && tx.nTxFee < calcMinTxFee tx) then
    some .ERR_TRANSACTION_OUTPUT_INVALID
  else if nValueIn < wrap64 (tx.nAmount + tx.nTxFee) then some .ERR_TRANSACTION_INPUT_INVALID
  else if isTemplateOf tx.sendTo TEMPLATE_MINTREDEEM && !isTemplateOf destIn TEMPLATE_MINTPLEDGE then
    some .ERR_TRANSACTION_INVALID
  else
    match verifyFromTemplate E s p.hashBlock tx destIn nValueIn nForkHeight with
    | some .OK => verifyBlockTxSignature E tx destIn nForkHeight fork
    | r => r

structure VerifiedTx (tx : CTransaction) (txContxt : CTxContxt) : Prop where
  not_mint : tx.isMintTx = false
  valueIn : moneyRange txContxt.getValueIn = true
  fee : moneyRange tx.nTxFee = true
  enough : wrap64 (tx.nAmount + tx.nTxFee) ≤ txContxt.getValueIn
  redeem : isTemplateOf tx.sendTo TEMPLATE_MINTREDEEM = true →
    isTemplateOf txContxt.destIn TEMPLATE_MINTPLEDGE = true

theorem verifyBlockTx_ok {s : CBlockBase} {tx : CTransaction} {txContxt : CTxContxt} {p : CBlockIndex}
    {nForkHeight fork : ℕ} (h : verifyBlockTx E s tx txContxt p nForkHeight fork = some .OK) :
    VerifiedTx tx txContxt ∧
      verifyFromTemplate E s p.hashBlock tx txContxt.destIn txContxt.getValueIn nForkHeight = some .OK ∧
      verifyBlockTxSignature E tx txContxt.destIn nForkHeight fork = some .OK := by
  unfold verifyBlockTx at h
  simp only at h
  split_ifs at h with h1 h2 h3 h4 h5 h6 <;> try exact absurd h (by decide)
  simp only [Bool.or_eq_true, not_or] at h4
  have hfrom : verifyFromTemplate E s p.hashBlock tx txContxt.destIn txContxt.getValueIn nForkHeight
      = some .OK := by
    split at h
    · assumption
    · exact h
  rw [hfrom] at h
  refine ⟨⟨by simpa using h1, by simpa using h3, by simpa using h4.1.1, by omega, ?_⟩, hfrom, h⟩
  intro hr
  simpa [hr] using h6

end

end Minemon
