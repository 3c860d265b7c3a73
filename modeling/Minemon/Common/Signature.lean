import Minemon.Common.Template

/-!
# Signatures

`CryptoMultiVerify`, the signature rule of each template, and `CDestination::VerifyTxSignature`.
A result is the pair of the returned flag and `fCompleted`; `none` as in `Minemon.Common.Template`.
-/

namespace Minemon

section

variable (E : Env)

def Env.verify (pubkey hash : ℕ) (vchSig : List UInt8) : Bool :=
  E.cryptoVerify pubkey (leBytes 32 hash) vchSig

/-! ## Multiple signatures -/

def isSigned (pIndex : List UInt8) (nLen nIndex : ℕ) : Bool :=
  nIndex < nLen * 8 && (pIndex.getD (nLen - 1 - nIndex / 8) 0).toNat.testBit (nIndex % 8)

/-- The loop of `CryptoMultiVerify` over the keys from index `i` on. -/
def multiVerifyLoop (pM vchSig : List UInt8) (nIndexLen : ℕ) :
    List ℕ → ℕ → ℕ → List ℕ → Option (ℕ × List ℕ)
  | [], _, nPosRS, setPartKey => some (nPosRS, setPartKey)
  | pk :: keys, i, nPosRS, setPartKey =>
    if isSigned vchSig nIndexLen i then
      if nPosRS + 64 > vchSig.length then none
      else if !E.cryptoVerify pk pM ((vchSig.drop nPosRS).take 64) then none
      else multiVerifyLoop pM vchSig nIndexLen keys (i + 1) (nPosRS + 64) (setPartKey ++ [pk])
    else multiVerifyLoop pM vchSig nIndexLen keys (i + 1) nPosRS setPartKey

/-- `CryptoMultiVerify`: the keys that signed, `none` when it returns `false`. -/
def cryptoMultiVerify (setPubKey : List ℕ) (pM vchSig : List UInt8) : Option (List ℕ) :=
  if setPubKey.isEmpty then none
  else
    let nIndexLen := (setPubKey.length - 1) / 8 + 1
    if vchSig.length < nIndexLen + 64 then none
    else
      match multiVerifyLoop E pM vchSig nIndexLen setPubKey 0 nIndexLen [] with
      | none => none
      | some (nPosRS, setPartKey) => if nPosRS ≠ vchSig.length then none else some setPartKey

def CTemplateWeighted.verifyTxSignature (t : CTemplateWeighted) (hash : ℕ) (vchSig : List UInt8)
    (fCompleted : Bool) : Bool × Bool :=
  match cryptoMultiVerify E t.mapPubKeyWeight.keys (leBytes 32 hash) vchSig with
  | none => (false, fCompleted)
  | some setPartKey =>
    (true, t.nRequired ≤ (setPartKey.map fun k => (t.mapPubKeyWeight.find? k).getD 0).sum)

/-! ## Destinations -/

def threeBytes : Codec (List UInt8 × List UInt8 × List UInt8) :=
  Codec.bytes.pair (Codec.bytes.pair Codec.bytes)

/-- `CDestination::VerifyTxSignature` with `fCompleted`. A template's rule asks for at most one more template:
`depth` is 2 at the top. -/
def verifyTxSignatureAt (hash : ℕ) (destTo : CDestination) (nForkHeight : ℕ) :
    ℕ → CDestination → List UInt8 → Bool → Option (Bool × Bool)
  | 0, dest, vchSig, fCompleted =>
    if dest.isPubKey then
      some (E.verify dest.getPubKey hash vchSig, E.verify dest.getPubKey hash vchSig)
    else some (false, fCompleted)
  | depth + 1, dest, vchSig, fCompleted =>
    if dest.isPubKey then
      some (E.verify dest.getPubKey hash vchSig, E.verify dest.getPubKey hash vchSig)
    else if dest.isTemplate then
      match createTemplatePtr dest.templateType vchSig with
      | none => none
      | some none => some (false, fCompleted)
      | some (some t) =>
        if t.getTemplateId E ≠ dest.getTemplateId then some (false, fCompleted)
        else
          let vchSubSig := vchSig.drop t.buildTemplateData.length
          match t with
          | .weighted w => some (w.verifyTxSignature E hash vchSubSig fCompleted)
          | .multisig w => some (w.verifyTxSignature E hash vchSubSig fCompleted)
          | .proof p =>
            verifyTxSignatureAt hash destTo nForkHeight depth p.destSpent vchSubSig fCompleted
          | .exchange _ => some (true, fCompleted)
          | .dexorder o =>
            verifyTxSignatureAt hash destTo nForkHeight depth
              (if isTemplateOf destTo TEMPLATE_DEXMATCH then o.destMatch else o.destSeller)
              vchSubSig fCompleted
          | .dexmatch m =>
            let dest := if (nForkHeight : ℤ) ≤ m.nSellerValidHeight then m.destSellerDeal else m.destSeller
            if vchSubSig.length ≤ 64 then
              verifyTxSignatureAt hash destTo nForkHeight depth dest vchSubSig fCompleted
            else
              match threeBytes.dec vchSubSig with
              | .error .undefined => none
              | .error .exception => some (false, fCompleted)
              | .ok ((_, _, vchSigSub), _) =>
                verifyTxSignatureAt hash destTo nForkHeight depth dest vchSigSub fCompleted
          | .mintpledge p =>
            verifyTxSignatureAt hash destTo nForkHeight depth p.destOwner vchSubSig fCompleted
          | .mintredeem r =>
            verifyTxSignatureAt hash destTo nForkHeight depth r.destOwner vchSubSig fCompleted
    else some (false, fCompleted)

def EXCHANGE_DATA_LEN : ℕ := (1 + 32 + 4 + 32) * 2

/-- `CTemplateExchange::VerifySignature`, on the exchange read from the same signature. -/
def CTemplateExchange.verifySignature (t : CTemplateExchange) (hash : ℕ) (vchSig : List UInt8)
    (height fork : ℕ) : Option Bool :=
  if vchSig.length ≠ 354 then some false
  else
    match threeBytes.dec (vchSig.drop EXCHANGE_DATA_LEN) with
    | .error .undefined => none
    | .error .exception => some false
    | .ok ((signM, signS, vchSig'), _) =>
      let id := mkTemplateId TEMPLATE_EXCHANGE (E.hash (vchSig.take EXCHANGE_DATA_LEN))
      let both := E.verify t.destSpendM.getPubKey id signM && E.verify t.destSpendS.getPubKey id signS
      if fork = t.forkM then
        if height > t.heightM then some (E.verify t.destSpendM.getPubKey hash vchSig')
        else some (both && E.verify t.destSpendS.getPubKey hash vchSig')
      else if fork = t.forkS then
        if height > t.heightS then some (E.verify t.destSpendS.getPubKey hash vchSig')
        else some (both && E.verify t.destSpendM.getPubKey hash vchSig')
      else some false

/-- `CDestination::VerifyTxSignature` with the fork. Nobody catches what the constructor of an exchange throws. -/
def CDestination.verifyTxSignature (dest : CDestination) (hash : ℕ) (destTo : CDestination)
    (vchSig : List UInt8) (nForkHeight fork : ℕ) : Option Bool :=
  if isTemplateOf dest TEMPLATE_EXCHANGE then
    match CTemplateExchange.codec.dec vchSig with
    | .error _ => none
    | .ok (t, _) => t.verifySignature E hash vchSig nForkHeight fork
  else
    match verifyTxSignatureAt E hash destTo nForkHeight 2 dest vchSig false with
    | none => none
    | some (r, fCompleted) => some (r && fCompleted)

end

end Minemon
