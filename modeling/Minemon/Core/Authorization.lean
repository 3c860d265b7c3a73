import Minemon.Service.Work

/-!
# Who signs for a template address

A template address is the hash of its parameters. To spend from it, a transaction shows the parameters and
a signature by a key that they name; some of them name another address, whose rule is asked then.

* `Authorized`: the bytes of a signature show the template of an address and a signature by such a key.
* `verifyTxSignature_authorized_iff`: when `VerifyTxSignature` grants no more than that.
-/

namespace Minemon

/-- The address whose rule a template takes over, for a height and the address that is sent to. -/
def CTemplate.signDest (destTo : CDestination) (nForkHeight : ℕ) : CTemplate → Option CDestination
  | .proof t => some t.destSpent
  | .dexorder t => some (if isTemplateOf destTo TEMPLATE_DEXMATCH then t.destMatch else t.destSeller)
  | .dexmatch t => some (if (nForkHeight : ℤ) ≤ t.nSellerValidHeight then t.destSellerDeal else t.destSeller)
  | .mintpledge t => some t.destOwner
  | .mintredeem t => some t.destOwner
  | _ => none

/-- The side of an exchange that spends on the fork, before and after the height it agreed on. -/
def CTemplateExchange.signDest (nForkHeight fork : ℕ) (t : CTemplateExchange) : Option CDestination :=
  if fork = t.forkM then some (if nForkHeight > t.heightM then t.destSpendM else t.destSpendS)
  else if fork = t.forkS then some (if nForkHeight > t.heightS then t.destSpendS else t.destSpendM)
  else none

/-- The keys that the parameters of a template name. -/
inductive NamesKey (E : Env) (destTo : CDestination) (nForkHeight fork : ℕ) : CTemplate → ℕ → Prop
  | weighted {t : CTemplateWeighted} {k : ℕ} (hk : k ∈ t.mapPubKeyWeight.keys) :
      NamesKey E destTo nForkHeight fork (.weighted t) k
  | multisig {t : CTemplateWeighted} {k : ℕ} (hk : k ∈ t.mapPubKeyWeight.keys) :
      NamesKey E destTo nForkHeight fork (.multisig t) k
  | exchange {t : CTemplateExchange} {d : CDestination} (hd : t.signDest nForkHeight fork = some d)
      (hkey : d.isPubKey = true) : NamesKey E destTo nForkHeight fork (.exchange t) d.getPubKey
  | pubkey {t : CTemplate} {d : CDestination} (hd : t.signDest destTo nForkHeight = some d)
      (hkey : d.isPubKey = true) : NamesKey E destTo nForkHeight fork t d.getPubKey
  | template {t t' : CTemplate} {d : CDestination} {k : ℕ} (hd : t.signDest destTo nForkHeight = some d)
      (htempl : d.isTemplate = true) (id : t'.getTemplateId E = d.getTemplateId)
      (hk : NamesKey E destTo nForkHeight fork t' k) : NamesKey E destTo nForkHeight fork t k

/-- `vchSig` shows the template of the address, and a part of it is a signature of `hash` by a key it names. -/
def Authorized (E : Env) (hash : ℕ) (destTo : CDestination) (nForkHeight fork : ℕ) (dest : CDestination)
    (vchSig : List UInt8) : Prop :=
  ∃ t, CTemplate.setTemplateData dest.templateType vchSig = some (.ok t) ∧
    t.getTemplateId E = dest.getTemplateId ∧
    ∃ k sig, NamesKey E destTo nForkHeight fork t k ∧ sig <:+: vchSig ∧ E.verify k hash sig = true

section

variable {E : Env} {hash : ℕ} {destTo : CDestination} {nForkHeight fork : ℕ}

/-! ## Multiple signatures -/

theorem multiVerifyLoop_signed {pM vchSig : List UInt8} {nIndexLen : ℕ} (keys : List ℕ) (i nPosRS : ℕ)
    (setPartKey : List ℕ) {r : ℕ × List ℕ}
    (h : multiVerifyLoop E pM vchSig nIndexLen keys i nPosRS setPartKey = some r) :
    r.1 = nPosRS ∨ ∃ k ∈ keys, ∃ sig, sig <:+: vchSig ∧ E.cryptoVerify k pM sig = true := by
  induction keys generalizing i nPosRS setPartKey with
  | nil =>
    rw [multiVerifyLoop, Option.some.injEq] at h
    exact Or.inl (by rw [← h])
  | cons pk keys ih =>
    rw [multiVerifyLoop] at h
    split_ifs at h with hsigned hroom hverify
    · right
      refine ⟨pk, List.mem_cons_self, (vchSig.drop nPosRS).take 64, ?_, by simpa using hverify⟩
      exact (List.take_prefix _ _).isInfix.trans (List.drop_suffix _ _).isInfix
    · rcases ih _ _ _ h with hpos | ⟨k, hk, hsig⟩
      · exact Or.inl hpos
      · exact Or.inr ⟨k, List.mem_cons_of_mem _ hk, hsig⟩

/-- **`CryptoMultiVerify`** needs a signature by one of the keys. -/
theorem cryptoMultiVerify_signed {keys : List ℕ} {pM vchSig : List UInt8} {setPartKey : List ℕ}
    (h : cryptoMultiVerify E keys pM vchSig = some setPartKey) :
    ∃ k ∈ keys, ∃ sig, sig <:+: vchSig ∧ E.cryptoVerify k pM sig = true := by
  unfold cryptoMultiVerify at h
  simp only at h
  split_ifs at h with hempty hlen
  split at h
  · simp at h
  · rename_i nPosRS part hloop
    split_ifs at h with hpos
    -- the whole of `vchSig` was read, and it is longer than the index in front
    refine (multiVerifyLoop_signed _ _ _ _ hloop).resolve_left fun heq => ?_
    rw [show nPosRS = _ from heq] at hpos
    omega

variable {vchSig : List UInt8} {dest d : CDestination} {t : CTemplate} {depth : ℕ} {fCompleted r : Bool}

theorem threeBytes_isInfix {bs a b sig r : List UInt8} (h : threeBytes.dec bs = .ok ((a, b, sig), r)) :
    sig <:+: bs := by
  rw [(threeBytes.enc_dec _ _ _ h).2]
  refine ⟨Codec.bytes.enc a ++ (Codec.bytes.enc b ++ leBytes 8 sig.length), r, ?_⟩
  show _ = Codec.bytes.enc a ++ (Codec.bytes.enc b ++ (leBytes 8 sig.length ++ sig)) ++ r
  simp only [List.append_assoc]

/-! ## The rules of the templates -/

/-- A signature by the key of the address, or by a key that its template names. -/
def Granted (E : Env) (hash : ℕ) (destTo : CDestination) (nForkHeight fork : ℕ) (dest : CDestination)
    (vchSig : List UInt8) : Prop :=
  (dest.isPubKey = true ∧ E.verify dest.getPubKey hash vchSig = true) ∨
    (dest.isTemplate = true ∧ Authorized E hash destTo nForkHeight fork dest vchSig)

theorem not_isTemplateOf_of_isTxSpendable (h : isTxSpendable d = true) {nType : ℕ}
    (hw : nType ≠ TEMPLATE_WEIGHTED) (hm : nType ≠ TEMPLATE_MULTISIG) : isTemplateOf d nType = false := by
  unfold isTxSpendable at h
  unfold isTemplateOf
  rcases Bool.or_eq_true_iff.1 h with h | h
  · simp only [CDestination.isPubKey, beq_iff_eq] at h
    simp [CDestination.isTemplate, h, CDestination.PREFIX_PUBKEY, CDestination.PREFIX_TEMPLATE]
  · rcases Bool.or_eq_true_iff.1 (Bool.and_eq_true_iff.1 h).2 with h | h
    · simp [beq_iff_eq.1 h, hw.symm]
    · simp [beq_iff_eq.1 h, hm.symm]

theorem signDest_spendable (hvalid : t.validateParam = true)
    (hd : t.signDest destTo nForkHeight = some d) : isTxSpendable d = true := by
  cases t with
  | weighted t => cases hd
  | multisig t => cases hd
  | exchange t => cases hd
  | proof t =>
    obtain rfl := Option.some.inj hd
    simp only [CTemplate.validateParam, CTemplateProof.validateParam, Bool.and_eq_true] at hvalid
    exact hvalid.1
  | dexorder t =>
    obtain rfl := Option.some.inj hd
    simp only [CTemplate.validateParam, CTemplateDexOrder.validateParam, Bool.and_eq_true] at hvalid
    split_ifs
    · exact hvalid.1.1.2
    · exact hvalid.1.1.1.1.1.1.1.1.1.1
  | dexmatch t =>
    obtain rfl := Option.some.inj hd
    simp only [CTemplate.validateParam, CTemplateDexMatch.validateParam, Bool.and_eq_true] at hvalid
    split_ifs
    · exact hvalid.1.1.1.1.1.1.2
    · exact hvalid.1.1.1.1.1.1.1.2
  | mintpledge t =>
    obtain rfl := Option.some.inj hd
    simp only [CTemplate.validateParam, CTemplateMintPledge.validateParam, Bool.and_eq_true] at hvalid
    exact hvalid.1.1
  | mintredeem t =>
    obtain rfl := Option.some.inj hd
    exact hvalid

/-- `VerifyTxSignature` of each template, on the signature behind its data. -/
def CTemplate.verifyTxSignature (E : Env) (hash : ℕ) (destTo : CDestination) (nForkHeight depth : ℕ)
    (t : CTemplate) (vchSubSig : List UInt8) (fCompleted : Bool) : Option (Bool × Bool) :=
  match t with
  | .weighted w => some (w.verifyTxSignature E hash vchSubSig fCompleted)
  | .multisig w => some (w.verifyTxSignature E hash vchSubSig fCompleted)
  | .proof p => verifyTxSignatureAt E hash destTo nForkHeight depth p.destSpent vchSubSig fCompleted
  | .exchange _ => some (true, fCompleted)
  | .dexorder o =>
    verifyTxSignatureAt E hash destTo nForkHeight depth
      (if isTemplateOf destTo TEMPLATE_DEXMATCH then o.destMatch else o.destSeller) vchSubSig fCompleted
  | .dexmatch m =>
    let dest := if (nForkHeight : ℤ) ≤ m.nSellerValidHeight then m.destSellerDeal else m.destSeller
    if vchSubSig.length ≤ 64 then
      verifyTxSignatureAt E hash destTo nForkHeight depth dest vchSubSig fCompleted
    else
      match threeBytes.dec vchSubSig with
      | .error .undefined => none
      | .error .exception => some (false, fCompleted)
      | .ok ((_, _, vchSigSub), _) =>
        verifyTxSignatureAt E hash destTo nForkHeight depth dest vchSigSub fCompleted
  | .mintpledge p => verifyTxSignatureAt E hash destTo nForkHeight depth p.destOwner vchSubSig fCompleted
  | .mintredeem r => verifyTxSignatureAt E hash destTo nForkHeight depth r.destOwner vchSubSig fCompleted

theorem isPubKey_of_isTemplate (ht : dest.isTemplate = true) : dest.isPubKey = false := by
  rw [CDestination.isTemplate_iff] at ht
  simp [CDestination.isPubKey, ht, CDestination.PREFIX_TEMPLATE, CDestination.PREFIX_PUBKEY]

theorem verifyTxSignatureAt_true_iff (ht : dest.isTemplate = true) :
    verifyTxSignatureAt E hash destTo nForkHeight (depth + 1) dest vchSig fCompleted = some (true, r) ↔
      ∃ t, createTemplatePtr dest.templateType vchSig = some (some t) ∧
        t.getTemplateId E = dest.getTemplateId ∧
        t.verifyTxSignature E hash destTo nForkHeight depth (vchSig.drop t.buildTemplateData.length) fCompleted
          = some (true, r) := by
  rw [verifyTxSignatureAt, isPubKey_of_isTemplate ht, if_neg (by simp), if_pos ht]
  rcases createTemplatePtr dest.templateType vchSig with _ | _ | t
  · simp
  · simp
  by_cases hid : t.getTemplateId E = dest.getTemplateId
  · simp only [hid, ne_eq, not_true_eq_false, if_false, Option.some.injEq, exists_eq_left', true_and]
    cases t <;> rfl
  · simp [hid]

/-- A template asks its keys or the address that it names. An exchange asks nobody. -/
theorem CTemplate.verifyTxSignature_rule
    (h : t.verifyTxSignature E hash destTo nForkHeight depth vchSig fCompleted = some (true, r)) :
    (∃ x, t = .exchange x) ∨
      (∃ w, (t = .weighted w ∨ t = .multisig w) ∧ w.verifyTxSignature E hash vchSig fCompleted = (true, r)) ∨
      ∃ d sub, t.signDest destTo nForkHeight = some d ∧ sub <:+: vchSig ∧
        verifyTxSignatureAt E hash destTo nForkHeight depth d sub fCompleted = some (true, r) := by
  cases t with
  | weighted w => exact Or.inr (Or.inl ⟨w, Or.inl rfl, Option.some.inj h⟩)
  | multisig w => exact Or.inr (Or.inl ⟨w, Or.inr rfl, Option.some.inj h⟩)
  | exchange x => exact Or.inl ⟨x, rfl⟩
  | dexmatch m =>
    simp only [CTemplate.verifyTxSignature] at h
    by_cases hlen : vchSig.length ≤ 64
    · rw [if_pos hlen] at h
      exact Or.inr (Or.inr ⟨_, _, rfl, List.infix_rfl, h⟩)
    · rw [if_neg hlen] at h
      split at h
      · simp at h
      · simp at h
      · rename_i hdec
        exact Or.inr (Or.inr ⟨_, _, rfl, threeBytes_isInfix hdec, h⟩)
  | _ => exact Or.inr (Or.inr ⟨_, _, rfl, List.infix_rfl, h⟩)

/-- **The overload with `fCompleted`** grants an address but an exchange what its template says. -/
theorem verifyTxSignatureAt_granted (depth : ℕ) (hne : isTemplateOf dest TEMPLATE_EXCHANGE = false)
    (h : verifyTxSignatureAt E hash destTo nForkHeight depth dest vchSig fCompleted = some (true, r)) :
    Granted E hash destTo nForkHeight fork dest vchSig := by
  induction depth generalizing dest vchSig with
  | zero =>
    rw [verifyTxSignatureAt] at h
    split_ifs at h with hkey
    · exact Or.inl ⟨hkey, (Prod.mk.inj (Option.some.inj h)).1⟩
    · simp at h
  | succ depth ih =>
    by_cases hkey : dest.isPubKey = true
    · rw [verifyTxSignatureAt, if_pos hkey] at h
      exact Or.inl ⟨hkey, (Prod.mk.inj (Option.some.inj h)).1⟩
    by_cases ht : dest.isTemplate = true
    · refine Or.inr ⟨ht, ?_⟩
      obtain ⟨t, hread, id, h⟩ := (verifyTxSignatureAt_true_iff ht).1 h
      obtain ⟨read, hvalid⟩ := createTemplatePtr_eq_some.1 hread
      have hdrop : vchSig.drop t.buildTemplateData.length <:+: vchSig := (List.drop_suffix _ _).isInfix
      rcases CTemplate.verifyTxSignature_rule h with ⟨x, rfl⟩ | ⟨w, ht, hw⟩ | ⟨d, sub, hd, hsub, hnext⟩
      · -- the type of the address is that of the template
        rw [isTemplateOf, ht, ← CTemplate.setTemplateData_nType read] at hne
        exact absurd hne (by simp [CTemplate.nType])
      · unfold CTemplateWeighted.verifyTxSignature at hw
        split at hw
        · simp at hw
        rename_i hpart
        obtain ⟨k, hk, sig, hsig, hverify⟩ := cryptoMultiVerify_signed hpart
        refine ⟨t, read, id, k, sig, ?_, hsig.trans hdrop, hverify⟩
        rcases ht with rfl | rfl
        · exact .weighted hk
        · exact .multisig hk
      · have hne' : isTemplateOf d TEMPLATE_EXCHANGE = false :=
          not_isTemplateOf_of_isTxSpendable (signDest_spendable hvalid hd) (by decide) (by decide)
        rcases ih hne' hnext with ⟨hkey, hverify⟩ | ⟨htempl, t', -, id', k, sig, hk, hsig, hverify⟩
        · exact ⟨t, read, id, _, sub, .pubkey hd hkey, hsub.trans hdrop, hverify⟩
        · exact ⟨t, read, id, k, sig, .template hd htempl id' hk, hsig.trans (hsub.trans hdrop), hverify⟩
    · rw [verifyTxSignatureAt, if_neg hkey, if_neg ht] at h
      simp at h

theorem CTemplateWeighted.verifyTxSignature_flag {w : CTemplateWeighted} {f : Bool}
    (h : w.verifyTxSignature E hash vchSig f = (true, r)) (f' : Bool) :
    w.verifyTxSignature E hash vchSig f' = (true, r) := by
  unfold CTemplateWeighted.verifyTxSignature at h ⊢
  cases hpart : cryptoMultiVerify E w.mapPubKeyWeight.keys (leBytes 32 hash) vchSig with
  | none => simp [hpart] at h
  | some part => simpa only [hpart] using h

/-- A template that accepts answers as the addresses below it do. -/
theorem CTemplate.verifyTxSignature_congr {n : ℕ} {f f' : Bool}
    (hvalid : t.validateParam = true) (hf : t.nType ≠ TEMPLATE_EXCHANGE ∨ f = f')
    (hn : t.nType ≠ TEMPLATE_DEXMATCH ∨ nForkHeight = n)
    (hbelow : ∀ d sig, isTxSpendable d = true →
      verifyTxSignatureAt E hash destTo nForkHeight depth d sig f = some (true, r) →
      verifyTxSignatureAt E hash destTo n depth d sig f' = some (true, r))
    (h : t.verifyTxSignature E hash destTo nForkHeight depth vchSig f = some (true, r)) :
    t.verifyTxSignature E hash destTo n depth vchSig f' = some (true, r) := by
  have hspend : ∀ {d}, t.signDest destTo nForkHeight = some d → isTxSpendable d = true :=
    fun hd => signDest_spendable hvalid hd
  cases t with
  | weighted w => exact congrArg some (w.verifyTxSignature_flag (Option.some.inj h) f')
  | multisig w => exact congrArg some (w.verifyTxSignature_flag (Option.some.inj h) f')
  | exchange x => exact hf.resolve_left (fun hne => hne rfl) ▸ h
  | dexmatch m =>
    obtain rfl := hn.resolve_left fun hne => hne rfl
    simp only [CTemplate.verifyTxSignature] at h ⊢
    by_cases hlen : vchSig.length ≤ 64
    · rw [if_pos hlen] at h ⊢
      exact hbelow _ _ (hspend rfl) h
    · rw [if_neg hlen] at h ⊢
      cases hdec : threeBytes.dec vchSig with
      | error e => cases e <;> simp [hdec] at h
      | ok p =>
        simp only [hdec] at h ⊢
        exact hbelow _ _ (hspend rfl) h
  | _ => exact hbelow _ _ (hspend rfl) h

/-- **The answer at another height, for another flag**: the same, but for a DEX match and an exchange. -/
theorem verifyTxSignatureAt_congr (depth : ℕ) {n : ℕ} {f f' : Bool}
    (hf : isTemplateOf dest TEMPLATE_EXCHANGE = false ∨ f = f')
    (hn : isTemplateOf dest TEMPLATE_DEXMATCH = false ∨ nForkHeight = n)
    (h : verifyTxSignatureAt E hash destTo nForkHeight depth dest vchSig f = some (true, r)) :
    verifyTxSignatureAt E hash destTo n depth dest vchSig f' = some (true, r) := by
  induction depth generalizing dest vchSig with
  | zero =>
    rw [verifyTxSignatureAt] at h ⊢
    split_ifs at h ⊢
    · exact h
    · simp at h
  | succ depth ih =>
    by_cases hkey : dest.isPubKey = true
    · rw [verifyTxSignatureAt, if_pos hkey] at h ⊢
      exact h
    by_cases ht : dest.isTemplate = true
    · obtain ⟨t, hread, hid, h⟩ := (verifyTxSignatureAt_true_iff ht).1 h
      obtain ⟨hdata, hvalid⟩ := createTemplatePtr_eq_some.1 hread
      simp only [isTemplateOf, ht, ← CTemplate.setTemplateData_nType hdata, Bool.true_and, beq_eq_false_iff_ne]
        at hf hn
      refine (verifyTxSignatureAt_true_iff ht).2 ⟨t, hread, hid, ?_⟩
      refine CTemplate.verifyTxSignature_congr hvalid hf hn (fun d sig hd hsig => ih ?_ ?_ hsig) h
      · exact Or.inl (not_isTemplateOf_of_isTxSpendable hd (by decide) (by decide))
      · exact Or.inl (not_isTemplateOf_of_isTxSpendable hd (by decide) (by decide))
    · rw [verifyTxSignatureAt, if_neg hkey, if_neg ht] at h
      simp at h

theorem verifyTxSignature_iff (hex : isTemplateOf dest TEMPLATE_EXCHANGE = false) :
    dest.verifyTxSignature E hash destTo vchSig nForkHeight fork = some true ↔
      verifyTxSignatureAt E hash destTo nForkHeight 2 dest vchSig false = some (true, true) := by
  unfold CDestination.verifyTxSignature
  rw [if_neg (by simp [hex])]
  cases verifyTxSignatureAt E hash destTo nForkHeight 2 dest vchSig false with
  | none => simp
  | some r => simp [Prod.ext_iff]

/-! ## Exchanges -/

/-- **`CTemplateExchange::VerifySignature`** needs a signature for the side that spends. -/
theorem CTemplateExchange.verifySignature_signed {t : CTemplateExchange}
    (h : t.verifySignature E hash vchSig nForkHeight fork = some true) :
    ∃ d sig, t.signDest nForkHeight fork = some d ∧ sig <:+: vchSig ∧ E.verify d.getPubKey hash sig = true := by
  unfold CTemplateExchange.verifySignature at h
  simp only at h
  by_cases hlen : vchSig.length = 354
  · rw [if_neg (not_not.2 hlen)] at h
    split at h
    · simp at h
    · simp at h
    · rename_i signM signS sig r hdec
      have hsig : sig <:+: vchSig := (threeBytes_isInfix hdec).trans (List.drop_suffix _ _).isInfix
      unfold CTemplateExchange.signDest
      split_ifs at h with hM hMafter hS hSafter
      · rw [if_pos hM, if_pos hMafter]
        exact ⟨_, sig, rfl, hsig, Option.some.inj h⟩
      · rw [if_pos hM, if_neg hMafter]
        exact ⟨_, sig, rfl, hsig, (Bool.and_eq_true_iff.1 (Option.some.inj h)).2⟩
      · rw [if_neg hM, if_pos hS, if_pos hSafter]
        exact ⟨_, sig, rfl, hsig, Option.some.inj h⟩
      · rw [if_neg hM, if_pos hS, if_neg hSafter]
        exact ⟨_, sig, rfl, hsig, (Bool.and_eq_true_iff.1 (Option.some.inj h)).2⟩
      · simp at h
  · rw [if_pos hlen] at h
    simp at h

/-- The exchange in front of the signature is that of the address, and the side that spends has a key. -/
def ShowsExchange (E : Env) (nForkHeight fork : ℕ) (dest : CDestination) (vchSig : List UInt8) : Prop :=
  ∃ x rest, CTemplateExchange.codec.dec vchSig = .ok (x, rest) ∧
    (CTemplate.exchange x).getTemplateId E = dest.getTemplateId ∧
    ∀ d, x.signDest nForkHeight fork = some d → d.isPubKey = true

/-- **Spending from a template address needs its template and a signature by a key it names**: for every
address but an exchange, and for an exchange exactly when the template in front of the signature is its
own. The second part is the overload that returns `fCompleted`. -/
theorem verifyTxSignature_authorized_iff (dest : CDestination) (vchSig : List UInt8)
    (ht : dest.isTemplate = true) :
    (dest.verifyTxSignature E hash destTo vchSig nForkHeight fork = some true →
      (Authorized E hash destTo nForkHeight fork dest vchSig ↔
        (isTemplateOf dest TEMPLATE_EXCHANGE = true → ShowsExchange E nForkHeight fork dest vchSig))) ∧
    ∀ fCompleted r, isTemplateOf dest TEMPLATE_EXCHANGE = false →
      verifyTxSignatureAt E hash destTo nForkHeight 2 dest vchSig fCompleted = some (true, r) →
        Authorized E hash destTo nForkHeight fork dest vchSig := by
  have hother : ∀ fCompleted r, isTemplateOf dest TEMPLATE_EXCHANGE = false →
      verifyTxSignatureAt E hash destTo nForkHeight 2 dest vchSig fCompleted = some (true, r) →
        Authorized E hash destTo nForkHeight fork dest vchSig := by
    intro fCompleted r hne h
    rcases verifyTxSignatureAt_granted 2 hne h with ⟨hkey, -⟩ | ⟨-, hauth⟩
    · simp [isPubKey_of_isTemplate ht] at hkey
    · exact hauth
  refine ⟨fun h => ?_, hother⟩
  by_cases hex : isTemplateOf dest TEMPLATE_EXCHANGE = true
  · rw [CDestination.verifyTxSignature, if_pos hex] at h
    have htype : dest.templateType = TEMPLATE_EXCHANGE := by
      simpa using (Bool.and_eq_true_iff.1 hex).2
    have hset : CTemplate.setTemplateData dest.templateType vchSig =
        some (readTemplate CTemplateExchange.codec .exchange vchSig) := by
      rw [htype]
      rfl
    split at h
    · simp at h
    · rename_i x rest hdec
      obtain ⟨d, sig, hd, hsig, hverify⟩ := CTemplateExchange.verifySignature_signed h
      have hread : CTemplate.setTemplateData dest.templateType vchSig = some (.ok (.exchange x)) := by
        rw [hset, readTemplate, hdec]
      constructor
      · rintro ⟨t, hread', id, k, sig', hk, -, -⟩ -
        rw [hread, Option.some.injEq, Except.ok.injEq] at hread'
        subst hread'
        cases hk with
        | exchange hd' hkey =>
          exact ⟨x, rest, hdec, id, fun d'' hd'' => Option.some.inj (hd'.symm.trans hd'') ▸ hkey⟩
        | pubkey hd' _ => cases hd'
        | template hd' _ _ _ => cases hd'
      · intro hshow
        obtain ⟨x', rest', hdec', id, hkey⟩ := hshow hex
        obtain ⟨rfl, -⟩ := Prod.mk.inj (Except.ok.inj (hdec.symm.trans hdec'))
        exact ⟨_, hread, id, _, sig, .exchange hd (hkey d hd), hsig, hverify⟩
  · have hne : isTemplateOf dest TEMPLATE_EXCHANGE = false := by simpa using hex
    have hauth := hother _ _ hne ((verifyTxSignature_iff hne).1 h)
    exact ⟨fun _ hex' => absurd hex' hex, fun _ => hauth⟩

end

/-! ## On the toy network -/

/-- The toy network, where the key 9 signs everything and no other key signs anything. -/
def toyKeyEnv : Env := { toyEnv with ed25519Verify := fun pk _ _ => pk == 9 }

/-- An exchange between two keys, up to the height 100 on the fork 5 and up to 200 on the fork 6. -/
def toyExchange (keyM keyS : ℕ) : CTemplateExchange :=
  ⟨⟨CDestination.PREFIX_PUBKEY, keyM⟩, ⟨CDestination.PREFIX_PUBKEY, keyS⟩, 100, 200, 5, 6⟩

def CTemplateExchange.dest (E : Env) (t : CTemplateExchange) : CDestination :=
  ⟨CDestination.PREFIX_TEMPLATE, (CTemplate.exchange t).getTemplateId E⟩

/-- The exchange and three signatures of 64 bytes. -/
def toyExchangeSig (t : CTemplateExchange) : List UInt8 :=
  CTemplateExchange.codec.enc t ++ threeBytes.enc (List.replicate 64 0, List.replicate 64 0, List.replicate 64 0)

theorem verifyTxSignature_authorized_toy :
    ((toyExchange 9 8).dest toyKeyEnv).verifyTxSignature toyKeyEnv 1 CDestination.null
        (toyExchangeSig (toyExchange 9 8)) 150 5 = some true ∧
      Authorized toyKeyEnv 1 CDestination.null 150 5 ((toyExchange 9 8).dest toyKeyEnv)
        (toyExchangeSig (toyExchange 9 8)) := by
  have hverify : ((toyExchange 9 8).dest toyKeyEnv).verifyTxSignature toyKeyEnv 1 CDestination.null
      (toyExchangeSig (toyExchange 9 8)) 150 5 = some true := by decide +kernel
  refine ⟨hverify, ((verifyTxSignature_authorized_iff _ _ rfl).1 hverify).2 fun _ => ?_⟩
  refine ⟨toyExchange 9 8, threeBytes.enc (List.replicate 64 0, List.replicate 64 0, List.replicate 64 0),
    by decide +kernel, rfl, fun d hd => ?_⟩
  obtain rfl : (toyExchange 9 8).destSpendM = d := Option.some.inj hd
  rfl

/-- Key 9 spends from the exchange between the keys 7 and 8: it shows another exchange, in which it is both
sides, and nobody compares the two. -/
theorem verifyTxSignature_exchange_stolen :
    ((toyExchange 7 8).dest toyKeyEnv).verifyTxSignature toyKeyEnv 1 CDestination.null
        (toyExchangeSig (toyExchange 9 9)) 150 5 = some true ∧
      ((toyExchange 7 8).dest toyKeyEnv).isTemplate = true ∧
      (∀ sig, toyKeyEnv.verify 7 1 sig = false ∧ toyKeyEnv.verify 8 1 sig = false) ∧
      ¬Authorized toyKeyEnv 1 CDestination.null 150 5 ((toyExchange 7 8).dest toyKeyEnv)
        (toyExchangeSig (toyExchange 9 9)) := by
  refine ⟨by decide +kernel, rfl, fun sig => ?_, ?_⟩
  · have hkey : ∀ k, k ≠ 9 → toyKeyEnv.verify k 1 sig = false := by
      intro k hk
      simp [Env.verify, Env.cryptoVerify, toyKeyEnv, hk]
    exact ⟨hkey 7 (by decide), hkey 8 (by decide)⟩
  · rintro ⟨t, hread, id, -⟩
    have htype : ((toyExchange 7 8).dest toyKeyEnv).templateType = TEMPLATE_EXCHANGE := by decide +kernel
    rw [htype] at hread
    have hread' : readTemplate CTemplateExchange.codec .exchange (toyExchangeSig (toyExchange 9 9)) = .ok t :=
      Option.some.inj hread
    have hdec : CTemplateExchange.codec.dec (toyExchangeSig (toyExchange 9 9)) = .ok (toyExchange 9 9,
        threeBytes.enc (List.replicate 64 0, List.replicate 64 0, List.replicate 64 0)) := by decide +kernel
    rw [readTemplate, hdec] at hread'
    obtain rfl := Except.ok.inj hread'
    exact absurd id (by decide +kernel)

end Minemon
