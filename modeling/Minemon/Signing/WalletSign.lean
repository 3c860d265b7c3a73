import Minemon.Run.Templates
import Minemon.Signing.Malleable

/-!
# Signing a transaction

`CWallet::SignTransaction` strips the recorded template of `sendTo` from the signature, adds the signatures of
the wallet's own keys to the rest, and puts the recorded template back in front. A template checks what it
was given before it is written (`BuildTxSignature`), with the rule that consensus uses.

* `signDestinationAt_verify`: what `SignDestination` leaves passes `CDestination::VerifyTxSignature`.
* `signTransaction_accepted`: a completed signature is accepted.
-/

namespace Minemon

/-! ## The wallet's keys -/

/-- What `CKey` knows about itself. -/
structure CKey where
  isPrivKey : Bool
  isNull : Bool
  isLocked : Bool

/-- Keys by their public keys, and templates from `CreateTemplatePtr` by their identifiers. -/
structure CKeyStore (E : Env) where
  mapKeyStore : ℕ → Option CKey
  mapTemplatePtr : ℕ → Option CTemplate
  inRange : ∀ tid t, mapTemplatePtr tid = some t → t.InRange
  validateParam : ∀ tid t, mapTemplatePtr tid = some t → t.validateParam = true
  getTemplateId : ∀ tid t, mapTemplatePtr tid = some t → t.getTemplateId E = tid

section

variable {E : Env} (K : CKeyStore E) (S : Signer)

/-- The wallet has the private key of `pubkey`, and it is unlocked. -/
def CKeyStore.Holds (pubkey : ℕ) : Prop :=
  ∃ key, K.mapKeyStore pubkey = some key ∧ (key.isPrivKey && !key.isNull && !key.isLocked) = true

/-- `CKey::MultiSign`: the answer of `CryptoMultiSign` is not looked at. -/
def CKey.multiSign (key : CKey) (pubkey : ℕ) (setPubKey : List ℕ) (hash : ℕ) (vchSig : List UInt8) :
    Bool × List UInt8 :=
  if !key.isNull && !key.isLocked then
    (true, (cryptoMultiSign S setPubKey pubkey (leBytes 32 hash) vchSig).2)
  else (false, vchSig)

def signPubKey (pubkey hash : ℕ) : Option (List UInt8) :=
  match K.mapKeyStore pubkey with
  | none => none
  | some key =>
    if key.isPrivKey && !key.isNull && !key.isLocked then some (S.cryptoSign pubkey (leBytes 32 hash))
    else none

def signMultiPubKey (setPubKey : List ℕ) (hash : ℕ) (vchSig : List UInt8) : Bool × List UInt8 :=
  setPubKey.foldl (fun s pubkey =>
    match K.mapKeyStore pubkey with
    | none => s
    | some key =>
      if key.isPrivKey then
        let r := key.multiSign S pubkey setPubKey hash s.2
        (s.1 || r.1, r.2)
      else s) (false, vchSig)

/-! ## Building a signature -/

variable (hash : ℕ) (destTo : CDestination) (nForkHeight : ℕ)

/-- `CTemplate::BuildTxSignature` with `fCompleted`: the signature and the flag. -/
def CTemplate.buildTxSignature (t : CTemplate) (depth : ℕ) (vchPreSig : List UInt8) (fCompleted : Bool) :
    Option (Option (List UInt8 × Bool)) :=
  match t.verifyTxSignature E hash destTo nForkHeight depth vchPreSig fCompleted with
  | none => none
  | some (false, _) => some none
  | some (true, fCompleted) => some (some (t.buildTemplateData ++ vchPreSig, fCompleted))

/-- `CTemplateExchange::BuildTxSignature`, on the signature of the transaction. -/
def CTemplateExchange.buildTxSignature (x : CTemplateExchange) (vchPreSig vchSig : List UInt8) :
    Option (Option (List UInt8)) :=
  match (Codec.bytes.pair (Codec.bytes.pair ((Codec.uint 32).pair (Codec.int 4)))).dec vchSig with
  | .error .undefined => none
  | .error .exception => some none
  | .ok ((vsm, vss, _), _) =>
    some (some ((CTemplate.exchange x).buildTemplateData ++ threeBytes.enc (vsm, vss, vchPreSig)))

def CTemplateDexMatch.buildDexMatchTxSignature (m : CTemplateDexMatch) (vchSignExtraData vchPreSig : List UInt8) :
    Option (Option (List UInt8)) :=
  if vchSignExtraData.isEmpty then
    some (some ((CTemplate.dexmatch m).buildTemplateData ++ threeBytes.enc ([], [], vchPreSig)))
  else
    match (Codec.bytes.pair Codec.bytes).dec vchSignExtraData with
    | .error .undefined => none
    | .error .exception => some none
    | .ok ((vsm, vss), _) =>
      some (some ((CTemplate.dexmatch m).buildTemplateData ++ threeBytes.enc (vsm, vss, vchPreSig)))

/-! ## Signing -/

/-- `CWallet::SignDestination` behind the signatures below the template: each template writes its own. -/
def buildDestination (tx : CTransaction) (vchSignExtraData : List UInt8) (depth : ℕ) (t : CTemplate)
    (vchSubSig : List UInt8) (fCompleted : Bool) : Option (Option (List UInt8 × Bool)) :=
  match t with
  | .exchange x => (x.buildTxSignature vchSubSig tx.vchSig).map fun r => r.map fun vchSig => (vchSig, fCompleted)
  | .dexmatch m =>
    (m.buildDexMatchTxSignature vchSignExtraData vchSubSig).map fun r => r.map fun vchSig => (vchSig, fCompleted)
  | t => t.buildTxSignature hash tx.sendTo nForkHeight (E := E) depth vchSubSig fCompleted

/-- `CWallet::SignDestination`: the signature and `fCompleted`, with `depth` as in `verifyTxSignatureAt`. -/
def signDestinationAt (tx : CTransaction) (vchSignExtraData : List UInt8) (hashFork : ℕ) :
    ℕ → CDestination → List UInt8 → Bool → Option (Option (List UInt8 × Bool))
  | 0, destIn, _, _ =>
    if destIn.isPubKey then some ((signPubKey K S destIn.getPubKey hash).map fun vchSig => (vchSig, true))
    else some none
  | depth + 1, destIn, vchSig, fCompleted =>
    if destIn.isPubKey then some ((signPubKey K S destIn.getPubKey hash).map fun vchSig => (vchSig, true))
    else if destIn.isTemplate then
      match K.mapTemplatePtr destIn.getTemplateId with
      | none => some none
      | some t =>
        match getSignDestination t tx.sendTo hashFork nForkHeight vchSig with
        | none => some none
        | some ([], _) => some none
        | some ([dest], vchSubSig) =>
          match signDestinationAt tx vchSignExtraData hashFork depth dest vchSubSig fCompleted with
          | none => none
          | some none => some none
          | some (some (vchSubSig, fCompleted)) =>
            buildDestination (E := E) hash nForkHeight tx vchSignExtraData depth t vchSubSig fCompleted
        | some (setSubDest, vchSubSig) =>
          if !setSubDest.all CDestination.isPubKey then some none
          else
            let (fSigned, vchSubSig) := signMultiPubKey K S (setSubDest.map CDestination.getPubKey) hash vchSubSig
            if !fSigned then some none
            else buildDestination (E := E) hash nForkHeight tx vchSignExtraData depth t vchSubSig fCompleted
    else some none

def importTemplate (vchTemplate : List UInt8) : Option (Option CTemplate) :=
  if vchTemplate.length < 2 then some none
  else createTemplatePtr (ofLeBytes (vchTemplate.take 2)) (vchTemplate.drop 2)

/-- The template data of an address that the wallet has, or else the chain. -/
def ownTemplateData (dbTemplateData : TemplateDB) (dest : CDestination) : Option (List UInt8) :=
  match K.mapTemplatePtr dest.getTemplateId with
  | some t => some t.buildTemplateData
  | none => dbTemplateData dest

/-- `CWallet::GetSendToDestRecorded`, with the template data of the chain. -/
def getSendToDestRecorded (dbTemplateData : TemplateDB) (tx : CTransaction) (vchSendToData : List UInt8) :
    Option (Option (List UInt8)) :=
  if tx.sendTo.isTemplate && isDestInRecorded tx.sendTo then
    if vchSendToData.isEmpty then some (ownTemplateData K dbTemplateData tx.sendTo)
    else
      match importTemplate vchSendToData with
      | none => none
      | some none => some (ownTemplateData K dbTemplateData tx.sendTo)
      | some (some t) =>
        if t.getTemplateId E = tx.sendTo.getTemplateId then some (some t.buildTemplateData)
        else some (ownTemplateData K dbTemplateData tx.sendTo)
  else some (some [])

/-- `CWallet::SignTransaction`: the signed transaction and `fCompleted`. -/
def signTransaction (dbTemplateData : TemplateDB) (destIn : CDestination) (tx : CTransaction)
    (vchSendToData vchSignExtraData : List UInt8) (hashFork nForkHeight : ℕ) (fCompleted : Bool) :
    Option (Option (CTransaction × Bool)) :=
  match verifyDestRecorded E tx with
  | none => none
  | some none => some none
  | some (some vchSig) =>
    match signDestinationAt K S (tx.getSignatureHash E) nForkHeight tx vchSignExtraData hashFork 2 destIn
        vchSig fCompleted with
    | none => none
    | some none => some none
    | some (some (vchSig, fCompleted)) =>
      match getSendToDestRecorded K dbTemplateData tx vchSendToData with
      | none => none
      | some none => some none
      | some (some vchDestData) => some (some ({ tx with vchSig := vchDestData ++ vchSig }, fCompleted))

end

/-! ## What signing leaves -/

section

variable {E : Env} {K : CKeyStore E} {S : Signer} {hash nForkHeight hashFork : ℕ} {tx : CTransaction}
  {vchSignExtraData : List UInt8}

variable {dest : CDestination} {t : CTemplate}

theorem templateType_eq_nType (hid : t.getTemplateId E = dest.getTemplateId) : dest.templateType = t.nType := by
  rw [CDestination.templateType, ← hid]
  exact templateIdType_mkTemplateId t.nType_lt _

theorem createTemplatePtr_dest (hrange : t.InRange)
    (hvalid : t.validateParam = true) (hid : t.getTemplateId E = dest.getTemplateId) (rest : List UInt8) :
    createTemplatePtr dest.templateType (t.buildTemplateData ++ rest) = some (some t) := by
  rw [templateType_eq_nType hid]
  exact createTemplatePtr_append hrange hvalid rest

theorem buildDestination_verify {depth : ℕ} {vchSubSig vchSig : List UInt8}
    {f r : Bool} (hrange : t.InRange) (hvalid : t.validateParam = true)
    (hid : t.getTemplateId E = dest.getTemplateId) (ht : dest.isTemplate = true)
    (hex : isTemplateOf dest TEMPLATE_EXCHANGE = false) (hdm : isTemplateOf dest TEMPLATE_DEXMATCH = false)
    (h : buildDestination (E := E) hash nForkHeight tx vchSignExtraData depth t vchSubSig f
      = some (some (vchSig, r))) (f' : Bool) :
    verifyTxSignatureAt E hash tx.sendTo nForkHeight (depth + 1) dest vchSig f' = some (true, r) := by
  have hnt : t.nType ≠ TEMPLATE_EXCHANGE ∧ t.nType ≠ TEMPLATE_DEXMATCH := by
    rw [isTemplateOf, ht, templateType_eq_nType hid] at hex hdm
    exact ⟨by simpa using hex, by simpa using hdm⟩
  have hbuild : buildDestination (E := E) hash nForkHeight tx vchSignExtraData depth t vchSubSig f
      = t.buildTxSignature hash tx.sendTo nForkHeight (E := E) depth vchSubSig f := by
    cases t with
    | exchange x => exact absurd rfl hnt.1
    | dexmatch m => exact absurd rfl hnt.2
    | _ => rfl
  rw [hbuild, CTemplate.buildTxSignature] at h
  cases hcheck : t.verifyTxSignature E hash tx.sendTo nForkHeight depth vchSubSig f with
  | none => simp [hcheck] at h
  | some p =>
    obtain ⟨fOk, r'⟩ := p
    cases fOk with
    | false => simp [hcheck] at h
    | true =>
      simp only [hcheck, Option.some.injEq, Prod.mk.injEq] at h
      obtain ⟨rfl, rfl⟩ := h
      refine (verifyTxSignatureAt_true_iff ht).2 ⟨t, createTemplatePtr_dest hrange hvalid hid _, hid, ?_⟩
      rw [List.drop_left]
      exact CTemplate.verifyTxSignature_congr hvalid (Or.inl hnt.1) (Or.inr rfl) (fun d sig hd hsig =>
        verifyTxSignatureAt_congr depth (Or.inl (not_isTemplateOf_of_isTxSpendable hd (by decide) (by decide)))
          (Or.inr rfl) hsig) hcheck

theorem signPubKey_verify (hlaw : ∀ pubkey, K.Holds pubkey → S.Verifies E pubkey (leBytes 32 hash)) {pubkey : ℕ}
    {vchSig : List UInt8} (h : signPubKey K S pubkey hash = some vchSig) : E.verify pubkey hash vchSig = true := by
  unfold signPubKey at h
  cases hkey : K.mapKeyStore pubkey with
  | none => simp [hkey] at h
  | some key =>
    simp only [hkey] at h
    split_ifs at h with hsigns
    rw [← Option.some.inj h]
    exact hlaw pubkey ⟨key, hkey, hsigns⟩

/-- **What `SignDestination` leaves is accepted** for the address, with the same flag. -/
theorem signDestinationAt_verify (hlaw : ∀ pubkey, K.Holds pubkey → S.Verifies E pubkey (leBytes 32 hash))
    (depth : ℕ) {vchSig vchSig' : List UInt8} {f r : Bool}
    (hex : isTemplateOf dest TEMPLATE_EXCHANGE = false) (hdm : isTemplateOf dest TEMPLATE_DEXMATCH = false)
    (h : signDestinationAt K S hash nForkHeight tx vchSignExtraData hashFork depth dest vchSig f
      = some (some (vchSig', r))) (f' : Bool) :
    verifyTxSignatureAt E hash tx.sendTo nForkHeight depth dest vchSig' f' = some (true, r) := by
  have hpubkey : some ((signPubKey K S dest.getPubKey hash).map fun vchSig => (vchSig, true))
      = some (some (vchSig', r)) → E.verify dest.getPubKey hash vchSig' = true ∧ r = true := by
    intro hs
    obtain ⟨sig, hsig, hp⟩ := Option.map_eq_some_iff.1 (Option.some.inj hs)
    obtain ⟨rfl, rfl⟩ := Prod.mk.inj hp
    exact ⟨signPubKey_verify hlaw hsig, rfl⟩
  cases depth with
  | zero =>
    rw [signDestinationAt] at h
    rw [verifyTxSignatureAt]
    split_ifs at h ⊢
    · obtain ⟨hverify, rfl⟩ := hpubkey h
      rw [hverify]
    · simp at h
  | succ depth =>
    rw [signDestinationAt] at h
    by_cases hkey : dest.isPubKey = true
    · rw [if_pos hkey] at h
      obtain ⟨hverify, rfl⟩ := hpubkey h
      rw [verifyTxSignatureAt, if_pos hkey, hverify]
    rw [if_neg hkey] at h
    by_cases ht : dest.isTemplate = true
    · rw [if_pos ht] at h
      cases hown : K.mapTemplatePtr dest.getTemplateId with
      | none => simp [hown] at h
      | some t =>
        -- whoever signed below, the template checks the result before it writes it
        have hbuild : ∀ {sub c}, buildDestination (E := E) hash nForkHeight tx vchSignExtraData depth t sub c
            = some (some (vchSig', r)) →
              verifyTxSignatureAt E hash tx.sendTo nForkHeight (depth + 1) dest vchSig' f' = some (true, r) :=
          fun hb => buildDestination_verify (K.inRange _ _ hown) (K.validateParam _ _ hown)
            (K.getTemplateId _ _ hown) ht hex hdm hb f'
        simp only [hown] at h
        split at h
        · simp at h
        · simp at h
        · split at h
          · simp at h
          · simp at h
          · exact hbuild h
        · split_ifs at h
          · simp at h
          · simp at h
          · exact hbuild h
    · rw [if_neg ht] at h
      simp at h

/-! ## The recorded template of `sendTo` -/

theorem Records.template {db : TemplateDB} (h : Records E (fun _ => none) db)
    {vchData : List UInt8} (hd : db dest = some vchData) :
    ∃ t : CTemplate, t.InRange ∧ t.validateParam = true ∧ t.getTemplateId E = dest.getTemplateId ∧
      vchData = t.buildTemplateData := by
  induction h with
  | refl => cases hd
  | @write _ dest' _ t _ read id ih =>
    by_cases he : dest = dest'
    · subst he
      rw [Function.update_self] at hd
      obtain ⟨hdata, hvalid⟩ := createTemplatePtr_eq_some.1 read
      exact ⟨t, inRange_of_setTemplateData hdata, hvalid, id, (Option.some.inj hd).symm⟩
    · rw [Function.update_of_ne he] at hd
      exact ih hd

theorem importTemplate_some {vchTemplate : List UInt8}
    (h : importTemplate vchTemplate = some (some t)) : t.InRange ∧ t.validateParam = true := by
  unfold importTemplate at h
  split_ifs at h
  · simp at h
  · obtain ⟨hdata, hvalid⟩ := createTemplatePtr_eq_some.1 h
    exact ⟨inRange_of_setTemplateData hdata, hvalid⟩

theorem ownTemplateData_some {db : TemplateDB} (hdb : Records E (fun _ => none) db)
    {vchData : List UInt8} (h : ownTemplateData K db dest = some vchData) :
    ∃ t : CTemplate, t.InRange ∧ t.validateParam = true ∧ t.getTemplateId E = dest.getTemplateId ∧
      vchData = t.buildTemplateData := by
  unfold ownTemplateData at h
  cases hown : K.mapTemplatePtr dest.getTemplateId with
  | none =>
    simp only [hown] at h
    exact hdb.template h
  | some t =>
    simp only [hown] at h
    exact ⟨t, K.inRange _ _ hown, K.validateParam _ _ hown, K.getTemplateId _ _ hown, (Option.some.inj h).symm⟩

theorem getSendToDestRecorded_some {db : TemplateDB} {vchSendToData vchDestData : List UInt8}
    (hdb : Records E (fun _ => none) db) (hrec : (tx.sendTo.isTemplate && isDestInRecorded tx.sendTo) = true)
    (h : getSendToDestRecorded K db tx vchSendToData = some (some vchDestData)) :
    ∃ t : CTemplate, t.InRange ∧ t.validateParam = true ∧ t.getTemplateId E = tx.sendTo.getTemplateId ∧
      vchDestData = t.buildTemplateData := by
  rw [getSendToDestRecorded, if_pos hrec] at h
  split_ifs at h
  · exact ownTemplateData_some hdb (Option.some.inj h)
  · split at h
    · simp at h
    · exact ownTemplateData_some hdb (Option.some.inj h)
    · rename_i t himport
      split_ifs at h with hid
      · obtain ⟨hrange, hvalid⟩ := importTemplate_some himport
        exact ⟨t, hrange, hvalid, hid, (Option.some.inj (Option.some.inj h)).symm⟩
      · exact ownTemplateData_some hdb (Option.some.inj h)

theorem subSig_append {vchSig : List UInt8} (hne : t.buildTemplateData ++ vchSig ≠ []) :
    subSig t (t.buildTemplateData ++ vchSig) = some vchSig := by
  unfold subSig
  rw [if_neg (by simpa using hne), if_neg (by rw [List.length_append]; omega), List.drop_left]

theorem verifyDestRecorded_append {vchSig : List UInt8} (hrange : t.InRange)
    (hvalid : t.validateParam = true) (hid : t.getTemplateId E = tx.sendTo.getTemplateId)
    (hrec : (tx.sendTo.isTemplate && isDestInRecorded tx.sendTo) = true) :
    verifyDestRecorded E { tx with vchSig := t.buildTemplateData ++ vchSig } = some (some vchSig) := by
  have hne : t.nType ≠ TEMPLATE_EXCHANGE := by
    rw [← templateType_eq_nType hid]
    intro he
    rw [isDestInRecorded, he] at hrec
    simp [TEMPLATE_EXCHANGE, TEMPLATE_PROOF, TEMPLATE_DEXORDER, TEMPLATE_DEXMATCH, TEMPLATE_MINTPLEDGE,
      TEMPLATE_MINTREDEEM] at hrec
  rw [verifyDestRecorded]
  by_cases hempty : t.buildTemplateData ++ vchSig = []
  · rw [if_pos (by simpa using hempty), (List.append_eq_nil_iff.1 hempty).2]
  · rw [if_neg (by simpa using hempty), if_pos hrec]
    simp only [createTemplatePtr_dest hrange hvalid hid vchSig]
    rw [if_neg (not_not.2 hid), ← subSig_append hempty]
    cases t with
    | exchange x => exact absurd rfl hne
    | _ =>
      rw [getSignDestination, Option.map_map]
      cases subSig _ _ <;> rfl

/-! ## Whole transactions -/

/-- A key, or a template whose rule is that of its keys or of its owner. -/
def isPlainSigner (dest : CDestination) : Bool :=
  dest.isPubKey || isTemplateOf dest TEMPLATE_WEIGHTED || isTemplateOf dest TEMPLATE_MULTISIG
    || isTemplateOf dest TEMPLATE_PROOF || isTemplateOf dest TEMPLATE_MINTPLEDGE
    || isTemplateOf dest TEMPLATE_MINTREDEEM

theorem not_isTemplateOf_of_isPlainSigner (h : isPlainSigner dest = true) :
    isTemplateOf dest TEMPLATE_EXCHANGE = false ∧ isTemplateOf dest TEMPLATE_DEXMATCH = false := by
  simp only [isPlainSigner, isTemplateOf, Bool.or_eq_true, Bool.and_eq_true, beq_iff_eq] at h
  simp only [isTemplateOf]
  rcases h with ((((h | h) | h) | h) | h) | h
  · simp only [CDestination.isPubKey, beq_iff_eq] at h
    simp [CDestination.isTemplate, h, CDestination.PREFIX_PUBKEY, CDestination.PREFIX_TEMPLATE]
  all_goals
    rw [h.2]
    simp [TEMPLATE_WEIGHTED, TEMPLATE_MULTISIG, TEMPLATE_PROOF, TEMPLATE_MINTPLEDGE, TEMPLATE_MINTREDEEM,
      TEMPLATE_EXCHANGE, TEMPLATE_DEXMATCH]

/-- **A completed wallet signature is accepted by consensus**, if what the private keys of the wallet sign verifies. -/
theorem signTransaction_accepted (K : CKeyStore E) (S : Signer) {db : TemplateDB}
    (hdb : Records E (fun _ => none) db) {destIn : CDestination} (hdest : isPlainSigner destIn = true)
    (tx : CTransaction)
    (hlaw : ∀ pubkey, K.Holds pubkey → S.Verifies E pubkey (leBytes 32 (tx.getSignatureHash E)))
    (vchSendToData vchSignExtraData : List UInt8) (hashFork nForkHeight : ℕ) (f : Bool)
    {tx' : CTransaction}
    (h : signTransaction K S db destIn tx vchSendToData vchSignExtraData hashFork nForkHeight f
      = some (some (tx', true))) :
    ∃ vchSig, verifyDestRecorded E tx' = some (some vchSig) ∧
      ∀ fork, destIn.verifyTxSignature E (tx'.getSignatureHash E) tx'.sendTo vchSig nForkHeight fork
        = some true := by
  obtain ⟨hex, hdm⟩ := not_isTemplateOf_of_isPlainSigner hdest
  unfold signTransaction at h
  split at h
  · simp at h
  · simp at h
  split at h
  · simp at h
  · simp at h
  rename_i vchSig r hsign
  split at h
  · simp at h
  · simp at h
  rename_i vchDestData hrecorded
  obtain ⟨rfl, rfl⟩ := Prod.mk.inj (Option.some.inj (Option.some.inj h))
  refine ⟨vchSig, ?_, fun fork => ?_⟩
  · by_cases hrec : (tx.sendTo.isTemplate && isDestInRecorded tx.sendTo) = true
    · obtain ⟨t, hrange, hvalid, hid, rfl⟩ := getSendToDestRecorded_some hdb hrec hrecorded
      exact verifyDestRecorded_append hrange hvalid hid hrec
    · rw [getSendToDestRecorded, if_neg hrec] at hrecorded
      rw [← Option.some.inj (Option.some.inj hrecorded), verifyDestRecorded, if_neg hrec]
      simp only [List.nil_append]
      split_ifs with hempty
      · rw [List.isEmpty_iff.1 hempty]
      · rfl
  · -- what is signed does not contain the signature
    exact (verifyTxSignature_iff hex).2 (signDestinationAt_verify hlaw 2 hex hdm hsign false)

end

/-- Both keys have to sign. -/
def toyBoth : CTemplateWeighted := { toyWeighted with nRequired := 2 }

def toyBothDest : CDestination :=
  ⟨CDestination.PREFIX_TEMPLATE, (CTemplate.weighted toyBoth).getTemplateId toySignEnv⟩

/-- The wallet that has the first key of `toyBoth`. -/
def toyKeyStore : CKeyStore toySignEnv where
  mapKeyStore pubkey := if pubkey = 3 then some ⟨true, false, false⟩ else none
  mapTemplatePtr tid := if tid = toyBothDest.data then some (.weighted toyBoth) else none
  inRange tid t h := by
    split_ifs at h
    rw [← Option.some.inj h]
    exact ⟨by decide, by decide⟩
  validateParam tid t h := by
    split_ifs at h
    rw [← Option.some.inj h]
    decide
  getTemplateId tid t h := by
    split_ifs at h with htid
    rw [← Option.some.inj h, htid]
    rfl

/-- A pledge from `toyBothDest` with the signatures `vchSigs` behind the index. -/
def toyBothTx (index : UInt8) (vchSigs : List UInt8) : CTransaction :=
  { toyPledgeTx [⟨1, 0⟩] GENESIS_TIME 100000000 with
    vchSig := (CTemplate.mintpledge toyPledge).buildTemplateData
      ++ (CTemplate.weighted toyBoth).buildTemplateData ++ index :: vchSigs }

/-- The pledge that the second key has signed, and the one to which the first has added its signature. -/
def toyHalfSigned : CTransaction := toyBothTx 2 (List.replicate 64 5)

def toyBothSigned : CTransaction := toyBothTx 3 (List.replicate 64 3 ++ List.replicate 64 5)

/-- The second key has signed the pledge, and the wallet adds the signature of the first. -/
theorem signTransaction_accepted_toy :
    signTransaction toyKeyStore toySigner (fun _ => none) toyBothDest toyHalfSigned
        (leBytes 2 TEMPLATE_MINTPLEDGE ++ (CTemplate.mintpledge toyPledge).buildTemplateData) [] 0 0 false
      = some (some (toyBothSigned, true)) ∧
    ∃ vchSig, verifyDestRecorded toySignEnv toyBothSigned = some (some vchSig) ∧
      ∀ fork, toyBothDest.verifyTxSignature toySignEnv (toyBothSigned.getSignatureHash toySignEnv) toyBothSigned.sendTo
        vchSig 0 fork = some true := by
  have hlaw : ∀ pubkey, toyKeyStore.Holds pubkey →
      toySigner.Verifies toySignEnv pubkey (leBytes 32 (toyHalfSigned.getSignatureHash toySignEnv)) := by
    rintro pubkey ⟨key, hkey, -⟩
    by_cases hpubkey : pubkey = 3
    · rw [hpubkey]
      decide +kernel
    · simp [toyKeyStore, hpubkey] at hkey
  refine (and_iff_left_of_imp fun hsign => ?_).2 (by decide +kernel)
  exact signTransaction_accepted toyKeyStore toySigner .refl (by decide +kernel) _ hlaw _ [] 0 0 false hsign

end Minemon
