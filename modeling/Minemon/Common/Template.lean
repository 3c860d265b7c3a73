import Minemon.Common.Transaction

/-!
# Templates

`common/template`: the eight address templates. A template is read from the front of a signature
(`createTemplatePtr`), checked, written again, and its identifier is the hash of what was written.
The first `Option` of a result is `none` where the source has no defined result: a read past the end
of a buffer, or an exception that nobody catches.
-/

namespace Minemon

def TEMPLATE_WEIGHTED : ℕ := 1
def TEMPLATE_MULTISIG : ℕ := 2
def TEMPLATE_PROOF : ℕ := 4
def TEMPLATE_EXCHANGE : ℕ := 6
def TEMPLATE_DEXORDER : ℕ := 9
def TEMPLATE_DEXMATCH : ℕ := 10
def TEMPLATE_MINTPLEDGE : ℕ := 11
def TEMPLATE_MINTREDEEM : ℕ := 12

def FEE_PRECISION : ℤ := 10000
def MAX_STRING_ADDRESS_LEN : ℕ := 128
def MAX_STRING_AMOUNT_LEN : ℕ := 64
def TNS_DEX_MIN_TX_FEE : ℤ := 10000
def TNS_DEX_MIN_MATCH_AMOUNT : ℤ := 10000
def TNS_DEX_MAX_MATCH_TOKEN : ℤ := 1844674407
def MAX_KEY_NUMBER : ℕ := 16

/-! ## Parameters of each template -/

/-- `CTemplateWeighted`, and `CTemplateMultiSig` on top of it. -/
structure CTemplateWeighted where
  nRequired : ℕ
  mapPubKeyWeight : OrdMap ℕ ℕ

structure CTemplateProof where
  destSpent : CDestination
  nPledgeFee : ℕ
deriving DecidableEq, Repr

structure CTemplateExchange where
  destSpendM : CDestination
  destSpendS : CDestination
  heightM : ℕ
  heightS : ℕ
  forkM : ℕ
  forkS : ℕ
deriving DecidableEq, Repr

structure CTemplateDexOrder where
  destSeller : CDestination
  vCoinPair : List UInt8
  nPrice : ℕ
  nFee : ℤ
  vRecvDest : List UInt8
  nValidHeight : ℤ
  destMatch : CDestination
  vDealDest : List UInt8
  nTimeStamp : ℕ
deriving DecidableEq, Repr

structure CTemplateDexMatch where
  destMatch : CDestination
  vCoinPair : List UInt8
  nFinalPrice : ℕ
  nMatchAmount : ℤ
  nFee : ℤ
  hashSecret : ℕ
  encSecret : List UInt8
  destSellerOrder : CDestination
  destSeller : CDestination
  destSellerDeal : CDestination
  nSellerValidHeight : ℤ
  destBuyer : CDestination
  vBuyerAmount : List UInt8
  hashBuyerSecret : ℕ
  nBuyerValidHeight : ℤ
deriving DecidableEq, Repr

structure CTemplateMintPledge where
  destOwner : CDestination
  destPowMint : CDestination
  nRewardMode : ℤ
deriving DecidableEq, Repr

structure CTemplateMintRedeem where
  destOwner : CDestination
  nNonce : ℤ
deriving DecidableEq, Repr

inductive CTemplate
  | weighted (t : CTemplateWeighted)
  | multisig (t : CTemplateWeighted)
  | proof (t : CTemplateProof)
  | exchange (t : CTemplateExchange)
  | dexorder (t : CTemplateDexOrder)
  | dexmatch (t : CTemplateDexMatch)
  | mintpledge (t : CTemplateMintPledge)
  | mintredeem (t : CTemplateMintRedeem)

/-! ## Bytes -/

section Bytes

open Codec

def CTemplateProof.codec : Codec CTemplateProof :=
  (CDestination.codec.pair (uint 4)).iso (fun p => ⟨p.1, p.2⟩) (fun t => (t.destSpent, t.nPledgeFee))
    (fun _ => rfl) (fun _ => rfl)

def CTemplateExchange.codec : Codec CTemplateExchange :=
  (CDestination.codec.pair (CDestination.codec.pair ((uint 4).pair ((uint 4).pair
      ((uint 32).pair (uint 32)))))).iso
    (fun p => ⟨p.1, p.2.1, p.2.2.1, p.2.2.2.1, p.2.2.2.2.1, p.2.2.2.2.2⟩)
    (fun t => (t.destSpendM, t.destSpendS, t.heightM, t.heightS, t.forkM, t.forkS))
    (fun _ => rfl) (fun _ => rfl)

def CTemplateDexOrder.codec : Codec CTemplateDexOrder :=
  (CDestination.codec.pair (bytes.pair ((uint 8).pair ((int 4).pair (bytes.pair ((int 4).pair
      (CDestination.codec.pair (bytes.pair (uint 4))))))))).iso
    (fun p => ⟨p.1, p.2.1, p.2.2.1, p.2.2.2.1, p.2.2.2.2.1, p.2.2.2.2.2.1, p.2.2.2.2.2.2.1,
      p.2.2.2.2.2.2.2.1, p.2.2.2.2.2.2.2.2⟩)
    (fun t => (t.destSeller, t.vCoinPair, t.nPrice, t.nFee, t.vRecvDest, t.nValidHeight, t.destMatch,
      t.vDealDest, t.nTimeStamp))
    (fun _ => rfl) (fun _ => rfl)

def CTemplateDexMatch.codec : Codec CTemplateDexMatch :=
  (CDestination.codec.pair (bytes.pair ((uint 8).pair ((int 8).pair ((int 4).pair ((uint 32).pair
      (bytes.pair (CDestination.codec.pair (CDestination.codec.pair (CDestination.codec.pair
      ((int 4).pair (CDestination.codec.pair (bytes.pair ((uint 32).pair (int 4))))))))))))))).iso
    (fun p => ⟨p.1, p.2.1, p.2.2.1, p.2.2.2.1, p.2.2.2.2.1, p.2.2.2.2.2.1, p.2.2.2.2.2.2.1,
      p.2.2.2.2.2.2.2.1, p.2.2.2.2.2.2.2.2.1, p.2.2.2.2.2.2.2.2.2.1, p.2.2.2.2.2.2.2.2.2.2.1,
      p.2.2.2.2.2.2.2.2.2.2.2.1, p.2.2.2.2.2.2.2.2.2.2.2.2.1, p.2.2.2.2.2.2.2.2.2.2.2.2.2.1,
      p.2.2.2.2.2.2.2.2.2.2.2.2.2.2⟩)
    (fun t => (t.destMatch, t.vCoinPair, t.nFinalPrice, t.nMatchAmount, t.nFee, t.hashSecret,
      t.encSecret, t.destSellerOrder, t.destSeller, t.destSellerDeal, t.nSellerValidHeight,
      t.destBuyer, t.vBuyerAmount, t.hashBuyerSecret, t.nBuyerValidHeight))
    (fun _ => rfl) (fun _ => rfl)

def CTemplateMintPledge.codec : Codec CTemplateMintPledge :=
  (CDestination.codec.pair (CDestination.codec.pair (int 4))).iso (fun p => ⟨p.1, p.2.1, p.2.2⟩)
    (fun t => (t.destOwner, t.destPowMint, t.nRewardMode)) (fun _ => rfl) (fun _ => rfl)

def CTemplateMintRedeem.codec : Codec CTemplateMintRedeem :=
  (CDestination.codec.pair (int 8)).iso (fun p => ⟨p.1, p.2⟩) (fun t => (t.destOwner, t.nNonce))
    (fun _ => rfl) (fun _ => rfl)

/-- The entries of a map, read one by one; a key met twice throws. -/
def readWeights : ℕ → List UInt8 → OrdMap ℕ ℕ → Except Fault (OrdMap ℕ ℕ)
  | 0, _, m => .ok m
  | n + 1, bs, m =>
    match ((uint 32).pair (uint 1)).dec bs with
    | .error e => .error e
    | .ok ((key, weight), r) =>
      if (m.find? key).isSome then .error .exception else readWeights n r (m.insert key weight)

def CTemplateWeighted.dec (bs : List UInt8) : Except Fault CTemplateWeighted :=
  match ((uint 1).pair (uint 8)).dec bs with
  | .error e => .error e
  | .ok ((nRequired, size), r) =>
    match readWeights size r OrdMap.empty with
    | .error e => .error e
    | .ok m => .ok ⟨nRequired, m⟩

def CTemplateWeighted.enc (t : CTemplateWeighted) : List UInt8 :=
  leBytes 1 t.nRequired ++ leBytes 8 t.mapPubKeyWeight.size
    ++ (t.mapPubKeyWeight.toList.map fun kv => leBytes 32 kv.1 ++ leBytes 1 kv.2).flatten

def readTemplate {α : Type} (c : Codec α) (f : α → CTemplate) (bs : List UInt8) :
    Except Fault CTemplate :=
  match c.dec bs with
  | .error e => .error e
  | .ok (t, _) => .ok (f t)

end Bytes

namespace CTemplate

def nType : CTemplate → ℕ
  | weighted _ => TEMPLATE_WEIGHTED
  | multisig _ => TEMPLATE_MULTISIG
  | proof _ => TEMPLATE_PROOF
  | exchange _ => TEMPLATE_EXCHANGE
  | dexorder _ => TEMPLATE_DEXORDER
  | dexmatch _ => TEMPLATE_DEXMATCH
  | mintpledge _ => TEMPLATE_MINTPLEDGE
  | mintredeem _ => TEMPLATE_MINTREDEEM

def buildTemplateData : CTemplate → List UInt8
  | weighted t => t.enc
  | multisig t => t.enc
  | proof t => CTemplateProof.codec.enc t
  | exchange t => CTemplateExchange.codec.enc t
  | dexorder t => CTemplateDexOrder.codec.enc t
  | dexmatch t => CTemplateDexMatch.codec.enc t
  | mintpledge t => CTemplateMintPledge.codec.enc t
  | mintredeem t => CTemplateMintRedeem.codec.enc t

/-- `GetTypeInfoByType` and `SetTemplateData`; `none` for a type that is not in the table. -/
def setTemplateData (nType : ℕ) (vchData : List UInt8) : Option (Except Fault CTemplate) :=
  if nType = TEMPLATE_WEIGHTED then some ((CTemplateWeighted.dec vchData).map weighted)
  else if nType = TEMPLATE_MULTISIG then some ((CTemplateWeighted.dec vchData).map multisig)
  else if nType = TEMPLATE_PROOF then some (readTemplate CTemplateProof.codec proof vchData)
  else if nType = TEMPLATE_EXCHANGE then some (readTemplate CTemplateExchange.codec exchange vchData)
  else if nType = TEMPLATE_DEXORDER then some (readTemplate CTemplateDexOrder.codec dexorder vchData)
  else if nType = TEMPLATE_DEXMATCH then some (readTemplate CTemplateDexMatch.codec dexmatch vchData)
  else if nType = TEMPLATE_MINTPLEDGE then some (readTemplate CTemplateMintPledge.codec mintpledge vchData)
  else if nType = TEMPLATE_MINTREDEEM then some (readTemplate CTemplateMintRedeem.codec mintredeem vchData)
  else none

def getTemplateId (E : Env) (t : CTemplate) : ℕ := mkTemplateId t.nType (E.hash t.buildTemplateData)

theorem nType_lt (t : CTemplate) : t.nType < 2 ^ 16 := by
  cases t <;> exact of_decide_eq_true rfl

theorem getTemplateId_lt (E : Env) (t : CTemplate) : t.getTemplateId E < 2 ^ 256 := by
  have := t.nType_lt
  unfold getTemplateId mkTemplateId
  omega

end CTemplate

/-! ## Address classes -/

/-- `IsTxSpendable`: a public key, or one of the two templates marked `CSpendableTemplate`. -/
def isTxSpendable (dest : CDestination) : Bool :=
  dest.isPubKey || (dest.isTemplate &&
    (dest.templateType == TEMPLATE_WEIGHTED || dest.templateType == TEMPLATE_MULTISIG))

/-- `IsDestInRecorded`: the templates marked `CSendToRecordedTemplate`. -/
def isDestInRecorded (dest : CDestination) : Bool :=
  dest.isTemplate &&
    (dest.templateType == TEMPLATE_PROOF || dest.templateType == TEMPLATE_DEXORDER
      || dest.templateType == TEMPLATE_DEXMATCH || dest.templateType == TEMPLATE_MINTPLEDGE
      || dest.templateType == TEMPLATE_MINTREDEEM)

def isTemplateOf (dest : CDestination) (nType : ℕ) : Bool := dest.isTemplate && dest.templateType == nType

/-! ## Validation -/

def CTemplateWeighted.validateParam (t : CTemplateWeighted) : Bool :=
  1 ≤ t.nRequired && 1 < t.mapPubKeyWeight.size && t.mapPubKeyWeight.size ≤ MAX_KEY_NUMBER
    && t.mapPubKeyWeight.toList.all (fun kv => 1 ≤ kv.2)
    && t.nRequired ≤ (t.mapPubKeyWeight.toList.map Prod.snd).sum

def CTemplateProof.validateParam (t : CTemplateProof) : Bool :=
  isTxSpendable t.destSpent && t.nPledgeFee ≤ 1000

def CTemplateExchange.validateParam (t : CTemplateExchange) : Bool :=
  t.destSpendM.isPubKey && t.destSpendS.isPubKey && t.forkM != 0 && t.forkS != 0
    && t.heightM != 0 && t.heightS != 0 && t.heightM != t.heightS

def CTemplateDexOrder.validateParam (t : CTemplateDexOrder) : Bool :=
  isTxSpendable t.destSeller && !t.vCoinPair.isEmpty && t.nPrice != 0
    && 1 < t.nFee && t.nFee < FEE_PRECISION
    && !t.vRecvDest.isEmpty && t.vRecvDest.length ≤ MAX_STRING_ADDRESS_LEN
    && 0 < t.nValidHeight && isTxSpendable t.destMatch
    && !t.vDealDest.isEmpty && t.vDealDest.length ≤ MAX_STRING_ADDRESS_LEN

def CTemplateDexMatch.validateParam (t : CTemplateDexMatch) : Bool :=
  isTxSpendable t.destMatch && !t.vCoinPair.isEmpty && t.nFinalPrice != 0
    && 0 < t.nMatchAmount && t.nMatchAmount ≤ TNS_DEX_MAX_MATCH_TOKEN * COIN
    && 1 < t.nFee && t.nFee < FEE_PRECISION
    && t.hashSecret != 0 && !t.encSecret.isEmpty
    && isTemplateOf t.destSellerOrder TEMPLATE_DEXORDER
    && isTxSpendable t.destSeller && isTxSpendable t.destSellerDeal && 0 < t.nSellerValidHeight
    && isTxSpendable t.destBuyer
    && !t.vBuyerAmount.isEmpty && t.vBuyerAmount.length ≤ MAX_STRING_AMOUNT_LEN
    && t.hashBuyerSecret != 0 && 0 < t.nBuyerValidHeight

def CTemplateMintPledge.validateParam (t : CTemplateMintPledge) : Bool :=
  isTxSpendable t.destOwner && isTemplateOf t.destPowMint TEMPLATE_PROOF
    && (t.nRewardMode == 1 || t.nRewardMode == 2)

def CTemplateMintRedeem.validateParam (t : CTemplateMintRedeem) : Bool := isTxSpendable t.destOwner

def CTemplate.validateParam : CTemplate → Bool
  | weighted t => t.validateParam
  | multisig t => t.validateParam
  | proof t => t.validateParam
  | exchange t => t.validateParam
  | dexorder t => t.validateParam
  | dexmatch t => t.validateParam
  | mintpledge t => t.validateParam
  | mintredeem t => t.validateParam

/-- `CreateTemplatePtr(nType, vchData)`: `some none` is the null pointer. -/
def createTemplatePtr (nType : ℕ) (vchData : List UInt8) : Option (Option CTemplate) :=
  match CTemplate.setTemplateData nType vchData with
  | none => some none
  | some (.error .undefined) => none
  | some (.error .exception) => some none
  | some (.ok t) => if t.validateParam then some (some t) else some none

section

variable {α : Type} {c : Codec α} {f : α → CTemplate} {bs rest : List UInt8} {a : α} {t : CTemplate}

theorem readTemplate_ok (h : readTemplate c f bs = .ok t) : ∃ a rest, t = f a ∧ c.dec bs = .ok (a, rest) := by
  unfold readTemplate at h
  cases hdec : c.dec bs with
  | error e => simp [hdec] at h
  | ok r =>
    simp only [hdec] at h
    exact ⟨r.1, r.2, (Except.ok.inj h).symm, rfl⟩

theorem readTemplate_again (h : c.dec bs = .ok (a, rest)) : readTemplate c f (c.enc a) = .ok (f a) := by
  have hagain := c.dec_enc a [] (c.valid_dec _ _ _ h)
  rw [List.append_nil] at hagain
  rw [readTemplate, hagain]

end

def CTemplate.ReadFrom (vchData : List UInt8) : CTemplate → Prop
  | weighted t => CTemplateWeighted.dec vchData = .ok t
  | multisig t => CTemplateWeighted.dec vchData = .ok t
  | proof t => ∃ rest, CTemplateProof.codec.dec vchData = .ok (t, rest)
  | exchange t => ∃ rest, CTemplateExchange.codec.dec vchData = .ok (t, rest)
  | dexorder t => ∃ rest, CTemplateDexOrder.codec.dec vchData = .ok (t, rest)
  | dexmatch t => ∃ rest, CTemplateDexMatch.codec.dec vchData = .ok (t, rest)
  | mintpledge t => ∃ rest, CTemplateMintPledge.codec.dec vchData = .ok (t, rest)
  | mintredeem t => ∃ rest, CTemplateMintRedeem.codec.dec vchData = .ok (t, rest)

variable {vchData : List UInt8} {t : CTemplate}

theorem CTemplate.setTemplateData_ok {nType : ℕ}
    (h : CTemplate.setTemplateData nType vchData = some (.ok t)) : t.nType = nType ∧ t.ReadFrom vchData := by
  have hmap : ∀ {f : CTemplateWeighted → CTemplate} {r : Except Fault CTemplateWeighted},
      r.map f = .ok t → ∃ w, t = f w ∧ r = .ok w := by
    intro f r hr
    cases r with
    | error e => cases hr
    | ok w => exact ⟨w, (Except.ok.inj hr).symm, rfl⟩
  unfold CTemplate.setTemplateData at h
  split_ifs at h with h1 h2 h3 h4 h5 h6 h7 h8
  · obtain ⟨w, rfl, hw⟩ := hmap (Option.some.inj h)
    exact ⟨h1.symm, hw⟩
  · obtain ⟨w, rfl, hw⟩ := hmap (Option.some.inj h)
    exact ⟨h2.symm, hw⟩
  all_goals
    obtain ⟨a, rest, rfl, hdec⟩ := readTemplate_ok (Option.some.inj h)
    exact ⟨Eq.symm (by assumption), rest, hdec⟩

theorem CTemplate.setTemplateData_nType {nType : ℕ}
    (h : CTemplate.setTemplateData nType vchData = some (.ok t)) : t.nType = nType := (setTemplateData_ok h).1

theorem createTemplatePtr_eq_some {nType : ℕ} :
    createTemplatePtr nType vchData = some (some t) ↔
      CTemplate.setTemplateData nType vchData = some (.ok t) ∧ t.validateParam = true := by
  unfold createTemplatePtr
  split
  · rename_i h
    simp [h]
  · rename_i h
    simp [h]
  · rename_i h
    simp [h]
  · rename_i t' h
    rw [h]
    split_ifs with hv
    · simp only [Option.some.injEq, Except.ok.injEq]
      exact ⟨fun he => ⟨he, he ▸ hv⟩, fun he => he.1⟩
    · simp only [Option.some.injEq, reduceCtorEq, Except.ok.injEq, false_iff]
      rintro ⟨rfl, hv'⟩
      exact hv hv'

theorem createTemplatePtr_proof
    (h : createTemplatePtr TEMPLATE_PROOF vchData = some (some t)) :
    ∃ p, t = .proof p ∧ createTemplatePtr TEMPLATE_PROOF t.buildTemplateData = some (some (.proof p)) := by
  rw [createTemplatePtr_eq_some] at h
  obtain ⟨p, rest, rfl, hdec⟩ := readTemplate_ok (Option.some.inj h.1)
  exact ⟨p, rfl, createTemplatePtr_eq_some.2 ⟨congrArg some (readTemplate_again hdec), h.2⟩⟩

theorem createTemplatePtr_mintpledge
    (h : createTemplatePtr TEMPLATE_MINTPLEDGE vchData = some (some t)) :
    ∃ p, t = .mintpledge p ∧
      createTemplatePtr TEMPLATE_MINTPLEDGE t.buildTemplateData = some (some (.mintpledge p)) := by
  rw [createTemplatePtr_eq_some] at h
  obtain ⟨p, rest, rfl, hdec⟩ := readTemplate_ok (Option.some.inj h.1)
  exact ⟨p, rfl, createTemplatePtr_eq_some.2 ⟨congrArg some (readTemplate_again hdec), h.2⟩⟩

/-! ## Signatures behind a template -/

/-- The signature behind the template data: `CTemplate::GetSignDestination`. -/
def subSig (t : CTemplate) (vchSig : List UInt8) : Option (List UInt8) :=
  if vchSig.isEmpty then some []
  else if vchSig.length < t.buildTemplateData.length then none
  else some (vchSig.drop t.buildTemplateData.length)

/-- `GetSignDestination`: the destinations that sign, and the signature behind the template data.
`none` is `false`. -/
def getSignDestination (t : CTemplate) (sendTo : CDestination) (hashFork nHeight : ℕ)
    (vchSig : List UInt8) : Option (List CDestination × List UInt8) :=
  match t with
  | .weighted w => (subSig t vchSig).map fun s =>
      (w.mapPubKeyWeight.keys.map fun k => ⟨CDestination.PREFIX_PUBKEY, k⟩, s)
  | .multisig w => (subSig t vchSig).map fun s =>
      (w.mapPubKeyWeight.keys.map fun k => ⟨CDestination.PREFIX_PUBKEY, k⟩, s)
  | .proof p => (subSig t vchSig).map fun s => ([p.destSpent], s)
  | .exchange x =>
    if !x.destSpendM.isPubKey || !x.destSpendS.isPubKey then none
    else if hashFork = x.forkM then
      some ([if nHeight > x.heightM then x.destSpendM else x.destSpendS], [])
    else if hashFork = x.forkS then
      some ([if nHeight > x.heightS then x.destSpendS else x.destSpendM], [])
    else none
  | .dexorder o => (subSig t vchSig).map fun s =>
      ([if isTemplateOf sendTo TEMPLATE_DEXMATCH then o.destMatch else o.destSeller], s)
  | .dexmatch m => (subSig t vchSig).map fun s =>
      ([if (nHeight : ℤ) ≤ m.nSellerValidHeight then m.destSellerDeal else m.destSeller], s)
  | .mintpledge p => (subSig t vchSig).map fun s => ([p.destOwner], s)
  | .mintredeem r => (subSig t vchSig).map fun s => ([r.destOwner], s)

/-- `VerifyDestRecorded`: the signature behind the template of a recorded destination; `some none` is `false`. -/
def verifyDestRecorded (E : Env) (tx : CTransaction) : Option (Option (List UInt8)) :=
  if tx.vchSig.isEmpty then some (some [])
  else if tx.sendTo.isTemplate && isDestInRecorded tx.sendTo then
    match createTemplatePtr tx.sendTo.templateType tx.vchSig with
    | none => none
    | some none => some none
    | some (some t) =>
      if t.getTemplateId E ≠ tx.sendTo.getTemplateId then some none
      else some ((getSignDestination t tx.sendTo 0 0 tx.vchSig).map Prod.snd)
  else some (some tx.vchSig)

end Minemon
