import Minemon.Accounts.Balances
import Minemon.Core.Authorization
import Minemon.Core.VerifyTransaction

/-!
# Admission and block validation

`VerifyTransaction` and `VerifyBlockTx` are two copies of one list of checks. The copy for the pool leaves
out the check of the type, and asks for the signature of the next block where the copy for a block asks for
that of the previous one. The two heights have different signers where a DEX match or an exchange changes
sides.

* `verifyTransaction_agrees_iff`: when a transaction that the pool admits is valid in the next block.
* `outputs_agree_iff`: when the chain and the pool lock the same outputs.
-/

namespace Minemon

variable {E : Env} {hash : ℕ} {destTo : CDestination}

/-! ## Signatures at two heights -/

/-! ### DEX matches -/

/-- What signs behind a DEX match: the rest of the signature, or the last of its three parts. -/
def CTemplateDexMatch.signature (m : CTemplateDexMatch) (vchSig : List UInt8) : Except Fault (List UInt8) :=
  let vchSubSig := vchSig.drop (CTemplate.dexmatch m).buildTemplateData.length
  if vchSubSig.length ≤ 64 then .ok vchSubSig
  else (threeBytes.dec vchSubSig).map fun r => r.1.2.2

/-- The seller's side of a match: the deal address up to the height agreed on, then the seller. -/
def CTemplateDexMatch.signer (m : CTemplateDexMatch) (nForkHeight : ℕ) : CDestination :=
  if (nForkHeight : ℤ) ≤ m.nSellerValidHeight then m.destSellerDeal else m.destSeller

theorem verifyTxSignatureAt_dexmatch_iff {depth n : ℕ} {dest : CDestination} {vchSig : List UInt8}
    {fCompleted r : Bool} (ht : isTemplateOf dest TEMPLATE_DEXMATCH = true) :
    verifyTxSignatureAt E hash destTo n (depth + 1) dest vchSig fCompleted = some (true, r) ↔
      ∃ m sub, createTemplatePtr TEMPLATE_DEXMATCH vchSig = some (some (.dexmatch m)) ∧
        (CTemplate.dexmatch m).getTemplateId E = dest.getTemplateId ∧ m.signature vchSig = .ok sub ∧
        verifyTxSignatureAt E hash destTo n depth (m.signer n) sub fCompleted = some (true, r) := by
  obtain ⟨htempl, htype⟩ := isTemplateOf_type ht
  rw [verifyTxSignatureAt_true_iff htempl, htype]
  -- the rule of a match is that of its signer
  have hrule (m : CTemplateDexMatch) : (CTemplate.dexmatch m).verifyTxSignature E hash destTo n depth
        (vchSig.drop (CTemplate.dexmatch m).buildTemplateData.length) fCompleted = some (true, r) ↔
      ∃ sub, m.signature vchSig = .ok sub ∧
        verifyTxSignatureAt E hash destTo n depth (m.signer n) sub fCompleted = some (true, r) := by
    simp only [CTemplate.verifyTxSignature, CTemplateDexMatch.signature, CTemplateDexMatch.signer]
    by_cases hlen : (vchSig.drop (CTemplate.dexmatch m).buildTemplateData.length).length ≤ 64
    · rw [if_pos hlen, if_pos hlen]
      simp
    · rw [if_neg hlen, if_neg hlen]
      cases threeBytes.dec (vchSig.drop (CTemplate.dexmatch m).buildTemplateData.length) with
      | error e => cases e <;> simp [Except.map]
      | ok x => simp [Except.map]
  constructor
  · rintro ⟨t, hread, hid, h⟩
    obtain ⟨m, -, rfl, -⟩ := readTemplate_ok (Option.some.inj (createTemplatePtr_eq_some.1 hread).1)
    obtain ⟨sub, hsub, hnext⟩ := (hrule m).1 h
    exact ⟨m, sub, hread, hid, hsub, hnext⟩
  · rintro ⟨m, sub, hread, hid, hsub, hnext⟩
    exact ⟨_, hread, hid, (hrule m).2 ⟨sub, hsub, hnext⟩⟩

/-! ### Exchanges -/

namespace CTemplateExchange

/-- The height at which the sides of an exchange change on a fork, and who spends before and after it. -/
def sides (fork : ℕ) (t : CTemplateExchange) : Option (ℕ × CDestination × CDestination) :=
  if fork = t.forkM then some (t.heightM, t.destSpendS, t.destSpendM)
  else if fork = t.forkS then some (t.heightS, t.destSpendM, t.destSpendS)
  else none

/-- Both sides have signed the exchange. -/
def Agreed (E : Env) (t : CTemplateExchange) (vchSig signM signS : List UInt8) : Prop :=
  E.verify t.destSpendM.getPubKey (mkTemplateId TEMPLATE_EXCHANGE (E.hash (vchSig.take EXCHANGE_DATA_LEN))) signM
      = true ∧
    E.verify t.destSpendS.getPubKey (mkTemplateId TEMPLATE_EXCHANGE (E.hash (vchSig.take EXCHANGE_DATA_LEN))) signS
      = true

theorem verifySignature_iff {t : CTemplateExchange} {vchSig : List UInt8} {n fork : ℕ} :
    t.verifySignature E hash vchSig n fork = some true ↔
      vchSig.length = 354 ∧ ∃ signM signS sig rest,
        threeBytes.dec (vchSig.drop EXCHANGE_DATA_LEN) = .ok ((signM, signS, sig), rest) ∧
        ∃ height before after, t.sides fork = some (height, before, after) ∧
          ((height < n ∧ E.verify after.getPubKey hash sig = true) ∨
            (n ≤ height ∧ t.Agreed E vchSig signM signS ∧ E.verify before.getPubKey hash sig = true)) := by
  unfold verifySignature sides
  by_cases hlen : vchSig.length = 354
  · rw [if_neg (not_not.2 hlen)]
    cases hdec : threeBytes.dec (vchSig.drop EXCHANGE_DATA_LEN) with
    | error e => cases e <;> simp
    | ok x =>
      obtain ⟨⟨signM, signS, sig⟩, rest⟩ := x
      dsimp only
      split_ifs with hM hM' hS hS'
      · simp [hlen, hM', not_le.2 hM']
      · simp [hlen, hM', not_lt.1 hM', Agreed]
      · simp [hlen, hS', not_le.2 hS']
      · simp [hlen, hS', not_lt.1 hS', Agreed]
      · simp
  · rw [if_pos hlen]
    simp [hlen]

end CTemplateExchange

/-! ### One height earlier -/

/-- At the height where the sides of the template in front of a signature change, the side that is to leave
has signed. -/
structure SignedAtChange (E : Env) (hash : ℕ) (destTo dest : CDestination) (vchSig : List UInt8)
    (height fork : ℕ) : Prop where
  dexmatch : isTemplateOf dest TEMPLATE_DEXMATCH = true → ∀ m sub,
    createTemplatePtr TEMPLATE_DEXMATCH vchSig = some (some (.dexmatch m)) → m.signature vchSig = .ok sub →
    m.nSellerValidHeight = height →
      verifyTxSignatureAt E hash destTo height 1 m.destSellerDeal sub false = some (true, true)
  exchange : isTemplateOf dest TEMPLATE_EXCHANGE = true → ∀ t rest signM signS sig rest' before after,
    CTemplateExchange.codec.dec vchSig = .ok (t, rest) →
    threeBytes.dec (vchSig.drop EXCHANGE_DATA_LEN) = .ok ((signM, signS, sig), rest') →
    t.sides fork = some (height, before, after) →
      t.Agreed E vchSig signM signS ∧ E.verify before.getPubKey hash sig = true

section

variable {dest : CDestination} {vchSig : List UInt8} {n fork : ℕ}

theorem isTemplateOf_unique {a b : ℕ} (ha : isTemplateOf dest a = true) (hb : isTemplateOf dest b = true) : a = b := by
  simp only [isTemplateOf, Bool.and_eq_true, beq_iff_eq] at ha hb
  exact ha.2.symm.trans hb.2

theorem verifyTxSignature_exchange_previous (hex : isTemplateOf dest TEMPLATE_EXCHANGE = true)
    (h : dest.verifyTxSignature E hash destTo vchSig (n + 1) fork = some true) :
    dest.verifyTxSignature E hash destTo vchSig n fork = some true ↔
      SignedAtChange E hash destTo dest vchSig n fork := by
  unfold CDestination.verifyTxSignature at h ⊢
  rw [if_pos hex] at h ⊢
  cases hread : CTemplateExchange.codec.dec vchSig with
  | error e => simp [hread] at h
  | ok x =>
    obtain ⟨t, rest⟩ := x
    simp only [hread] at h ⊢
    rw [CTemplateExchange.verifySignature_iff] at h ⊢
    obtain ⟨hlen, signM, signS, sig, rest', hdec, height, before, after, hsides, hnext⟩ := h
    constructor
    · rintro ⟨-, signM', signS', sig', rest'', hdec', height', before', after', hsides', hnow⟩
      refine ⟨fun hmatch => absurd (isTemplateOf_unique hex hmatch) (by decide), ?_⟩
      intro _ t1 r1 signM1 signS1 sig1 r2 before1 after1 hread1 hdec1 hsides1
      obtain ⟨rfl, -⟩ := Prod.mk.inj (Except.ok.inj (hread.symm.trans hread1))
      obtain ⟨h3, -⟩ := Prod.mk.inj (Except.ok.inj (hdec'.symm.trans hdec1))
      obtain ⟨rfl, rfl, rfl⟩ := h3
      obtain ⟨rfl, rfl, rfl⟩ := Option.some.inj (hsides'.symm.trans hsides1)
      rcases hnow with ⟨hlt, -⟩ | ⟨-, hsigned⟩
      · exact absurd hlt (lt_irrefl _)
      · exact hsigned
    · intro hchange
      refine ⟨hlen, signM, signS, sig, rest', hdec, height, before, after, hsides, ?_⟩
      by_cases hheight : height = n
      · subst hheight
        exact Or.inr ⟨le_rfl, hchange.exchange hex _ _ _ _ _ _ _ _ hread hdec hsides⟩
      · rcases hnext with ⟨hlt, hsigned⟩ | ⟨hle, hsigned⟩
        · exact Or.inl ⟨by omega, hsigned⟩
        · exact Or.inr ⟨by omega, hsigned⟩

theorem verifyTxSignature_dexmatch_previous (hmatch : isTemplateOf dest TEMPLATE_DEXMATCH = true)
    (h : dest.verifyTxSignature E hash destTo vchSig (n + 1) fork = some true) :
    dest.verifyTxSignature E hash destTo vchSig n fork = some true ↔
      SignedAtChange E hash destTo dest vchSig n fork := by
  have hex : isTemplateOf dest TEMPLATE_EXCHANGE = false := by
    rw [Bool.eq_false_iff]
    intro hex
    exact absurd (isTemplateOf_unique hex hmatch) (by decide)
  rw [verifyTxSignature_iff hex, verifyTxSignatureAt_dexmatch_iff hmatch] at h ⊢
  obtain ⟨m, sub, hread, hid, hsub, hnext⟩ := h
  constructor
  · rintro ⟨m', sub', hread', -, hsub', hnow⟩
    refine ⟨fun _ m1 sub1 hread1 hsub1 hheight => ?_, fun hex' => absurd hex' (by simp [hex])⟩
    obtain rfl : m' = m1 := by simpa using hread'.symm.trans hread1
    obtain rfl : sub' = sub1 := Except.ok.inj (hsub'.symm.trans hsub1)
    rwa [CTemplateDexMatch.signer, if_pos hheight.ge] at hnow
  · intro hchange
    refine ⟨m, sub, hread, hid, hsub, ?_⟩
    by_cases hheight : m.nSellerValidHeight = n
    · rw [CTemplateDexMatch.signer, if_pos hheight.ge]
      exact hchange.dexmatch hmatch m sub hread hsub hheight
    · have hsame : m.signer n = m.signer (n + 1) := by
        unfold CTemplateDexMatch.signer
        congr 1
        push_cast
        exact propext ⟨fun h => by omega, fun h => by omega⟩
      have hdest : (CTemplate.dexmatch m).signDest destTo (n + 1) = some (m.signer (n + 1)) := rfl
      have hspend := signDest_spendable (createTemplatePtr_eq_some.1 hread).2 hdest
      rw [hsame]
      exact verifyTxSignatureAt_congr 1 (Or.inr rfl)
        (Or.inl (not_isTemplateOf_of_isTxSpendable hspend (by decide) (by decide))) hnext

/-- **A signature for one height holds for the height before** exactly when it is signed at a change. -/
theorem verifyTxSignature_previous (h : dest.verifyTxSignature E hash destTo vchSig (n + 1) fork = some true) :
    dest.verifyTxSignature E hash destTo vchSig n fork = some true ↔
      SignedAtChange E hash destTo dest vchSig n fork := by
  by_cases hex : isTemplateOf dest TEMPLATE_EXCHANGE = true
  · exact verifyTxSignature_exchange_previous hex h
  by_cases hmatch : isTemplateOf dest TEMPLATE_DEXMATCH = true
  · exact verifyTxSignature_dexmatch_previous hmatch h
  have hchange : SignedAtChange E hash destTo dest vchSig n fork :=
    ⟨fun h => absurd h hmatch, fun h => absurd h hex⟩
  rw [verifyTxSignature_iff (by simpa using hex)] at h ⊢
  exact ⟨fun _ => hchange, fun _ => verifyTxSignatureAt_congr 2 (Or.inr rfl) (Or.inl (by simpa using hmatch)) h⟩

end

/-! ## Inputs and their context -/

theorem txContxtLoop_outputs {s : CBlockBase} {view : CBlockView} {vInput : List CTxOutPoint}
    {vPrevOutput : List CTxOut} {d : CDestination} (hd : d.isNull = false) (vin : List CTxInContxt)
    (hin : vInput.map (view.retrieveUnspent s.dbUnspent) = vPrevOutput.map some)
    (hdest : ∀ o ∈ vPrevOutput, d = o.destTo) :
    txContxtLoop s view vInput ⟨d, vin⟩ = .ok ⟨d, vin ++ vPrevOutput.map CTxInContxt.ofOut⟩ := by
  induction vInput generalizing vPrevOutput vin with
  | nil =>
    obtain rfl : vPrevOutput = [] := by simpa using hin.symm
    rw [txContxtLoop, List.map_nil, List.append_nil]
  | cons prevout vInput ih =>
    cases vPrevOutput with
    | nil => simp at hin
    | cons o vPrevOutput =>
      obtain ⟨ho, hrest⟩ := List.cons.inj hin
      rw [txContxtLoop, ho]
      dsimp only
      rw [if_neg (by simp [hd]), if_neg (not_not.2 (hdest o List.mem_cons_self)),
        ih _ hrest fun o' ho' => hdest o' (List.mem_cons_of_mem _ ho'), List.map_cons, List.append_assoc,
        List.singleton_append]

/-- **The context of a transaction whose inputs are unspent**: one address, and the outputs in order. -/
theorem getTxContxt_outputs {s : CBlockBase} {view : CBlockView} {tx : CTransaction} {first : CTxOut}
    {rest : List CTxOut} (hfirst : first.isNull = false)
    (hin : tx.vInput.map (view.retrieveUnspent s.dbUnspent) = (first :: rest).map some)
    (hdest : ∀ o ∈ first :: rest, first.destTo = o.destTo) :
    getTxContxt s view tx = .ok ⟨first.destTo, (first :: rest).map CTxInContxt.ofOut⟩ := by
  have hd : first.destTo.isNull = false := by
    simp only [CTxOut.isNull, Bool.or_eq_false_iff] at hfirst
    exact hfirst.1
  unfold getTxContxt
  cases hv : tx.vInput with
  | nil => simp [hv] at hin
  | cons prevout vInput =>
    rw [hv] at hin
    obtain ⟨ho, hrest⟩ := List.cons.inj hin
    rw [txContxtLoop, ho]
    dsimp only
    rw [if_pos (show (CDestination.null).isNull = true from rfl),
      txContxtLoop_outputs hd _ hrest fun o ho' => hdest o (List.mem_cons_of_mem _ ho')]
    rfl

theorem getValueIn_outputs (d : CDestination) (vPrevOutput : List CTxOut) :
    (CTxContxt.mk d (vPrevOutput.map CTxInContxt.ofOut)).getValueIn =
      vPrevOutput.foldl (fun n output => wrap64 (n + output.nAmount)) 0 := by
  unfold CTxContxt.getValueIn
  rw [List.foldl_map]
  rfl

/-! ## The two lists of checks -/

/-- What both validators ask of a transaction and its inputs, on a last block of the given height. -/
structure TxChecks (tx : CTransaction) (c : CTxContxt) (height : ℕ) : Prop where
  inputs : ∀ i ∈ c.vin, i.nTxTime ≤ tx.nTimeStamp ∧ i.isLocked height = false
  valueIn : moneyRange c.getValueIn = true
  fee : moneyRange tx.nTxFee = true
  noFee : tx.nType ≠ CTransaction.TX_TOKEN → tx.nTxFee = 0
  minFee : tx.nType = CTransaction.TX_TOKEN → calcMinTxFee tx ≤ tx.nTxFee
  enough : wrap64 (tx.nAmount + tx.nTxFee) ≤ c.getValueIn
  redeem : isTemplateOf tx.sendTo TEMPLATE_MINTREDEEM = true → isTemplateOf c.destIn TEMPLATE_MINTPLEDGE = true

theorem feeCheck_iff {tx : CTransaction} :
    ¬(!moneyRange tx.nTxFee || (tx.nType ≠ CTransaction.TX_TOKEN && tx.nTxFee ≠ 0)
        || (tx.nType = CTransaction.TX_TOKEN && tx.nTxFee < calcMinTxFee tx)) = true ↔
      moneyRange tx.nTxFee = true ∧ (tx.nType ≠ CTransaction.TX_TOKEN → tx.nTxFee = 0) ∧
        (tx.nType = CTransaction.TX_TOKEN → calcMinTxFee tx ≤ tx.nTxFee) := by
  simp only [Bool.or_eq_true, Bool.and_eq_true, Bool.not_eq_true', decide_eq_true_eq, not_or, not_and, not_lt,
    Bool.not_eq_false, not_not, and_assoc]

section

variable {s : CBlockBase} {tx : CTransaction}

theorem ite_err_eq_ok {c : Prop} [Decidable c] {err : Errno} {x : Option Errno} (herr : err ≠ .OK) :
    (if c then some err else x) = some .OK ↔ ¬c ∧ x = some .OK := by
  split_ifs with h
  · simp [h, herr]
  · simp [h]

theorem verifyBlockTx_iff {c : CTxContxt} {p : CBlockIndex} {nForkHeight fork : ℕ} :
    verifyBlockTx E s tx c p nForkHeight fork = some .OK ↔
      tx.isMintTx = false ∧ TxChecks tx c p.nHeight ∧
        verifyFromTemplate E s p.hashBlock tx c.destIn c.getValueIn nForkHeight = some .OK ∧
        verifyBlockTxSignature E tx c.destIn nForkHeight fork = some .OK := by
  unfold verifyBlockTx
  dsimp only
  iterate 6 rw [ite_err_eq_ok (by decide)]
  rw [feeCheck_iff]
  simp only [Bool.not_eq_true, Bool.not_eq_true', Bool.not_eq_false, List.all_eq_true, Bool.and_eq_true,
    decide_eq_true_eq, not_lt, not_and]
  constructor
  · rintro ⟨hmint, hin, hvalue, ⟨hfee, hno, hmin⟩, henough, hredeem, hsig⟩
    have htempl : verifyFromTemplate E s p.hashBlock tx c.destIn c.getValueIn nForkHeight = some .OK := by
      split at hsig
      · assumption
      · exact hsig
    rw [htempl] at hsig
    exact ⟨hmint, ⟨hin, hvalue, hfee, hno, hmin, henough, hredeem⟩, htempl, hsig⟩
  · rintro ⟨hmint, ⟨hin, hvalue, hfee, hno, hmin, henough, hredeem⟩, htempl, hsig⟩
    rw [htempl]
    exact ⟨hmint, hin, hvalue, ⟨hfee, hno, hmin⟩, henough, hredeem, hsig⟩

theorem verifyTransaction_iff {mapTx : MapTx} {first : CTxOut} {rest : List CTxOut}
    {nForkHeight hashLastBlock fork : ℕ} :
    verifyTransaction E s mapTx tx (first :: rest) nForkHeight hashLastBlock fork = some .OK ↔
      (∀ o ∈ first :: rest, first.destTo = o.destTo) ∧
        TxChecks tx ⟨first.destTo, (first :: rest).map CTxInContxt.ofOut⟩ nForkHeight ∧
        verifyFromTemplatePool E s mapTx hashLastBlock tx first.destTo
          (CTxContxt.mk first.destTo ((first :: rest).map CTxInContxt.ofOut)).getValueIn nForkHeight fork
          = some .OK ∧ verifyTransactionSignature E tx first.destTo nForkHeight fork = some .OK := by
  unfold verifyTransaction
  dsimp only
  rw [← getValueIn_outputs first.destTo]
  iterate 5 rw [ite_err_eq_ok (by decide)]
  rw [feeCheck_iff]
  simp only [Bool.not_eq_true', Bool.not_eq_false, List.all_eq_true, Bool.and_eq_true, decide_eq_true_eq, not_lt,
    not_and]
  constructor
  · rintro ⟨hin, hvalue, ⟨hfee, hno, hmin⟩, henough, hredeem, hsig⟩
    have htempl : verifyFromTemplatePool E s mapTx hashLastBlock tx first.destTo
        (CTxContxt.mk first.destTo ((first :: rest).map CTxInContxt.ofOut)).getValueIn nForkHeight fork
        = some .OK := by
      split at hsig
      · assumption
      · exact hsig
    rw [htempl] at hsig
    refine ⟨fun o ho => (hin o ho).1.1, ⟨?_, hvalue, hfee, hno, hmin, henough, hredeem⟩, htempl, hsig⟩
    intro i hi
    obtain ⟨o, ho, rfl⟩ := List.mem_map.1 hi
    exact ⟨(hin o ho).1.2, (hin o ho).2⟩
  · rintro ⟨hdest, ⟨hin, hvalue, hfee, hno, hmin, henough, hredeem⟩, htempl, hsig⟩
    rw [htempl]
    refine ⟨fun o ho => ?_, hvalue, ⟨hfee, hno, hmin⟩, henough, hredeem, hsig⟩
    have hi := hin _ (List.mem_map_of_mem ho)
    exact ⟨⟨hdest o ho, hi.1⟩, hi.2⟩

/-! ## Agreement -/

theorem verifyFromTemplate_of_pool {mapTx : MapTx} {hashLastBlock nForkHeight fork : ℕ} {destIn : CDestination}
    {nValueIn : ℤ}
    (h : verifyFromTemplatePool E s mapTx hashLastBlock tx destIn nValueIn nForkHeight fork = some .OK) :
    verifyFromTemplate E s hashLastBlock tx destIn nValueIn (nForkHeight + 1) = some .OK := by
  unfold verifyFromTemplatePool at h
  unfold verifyFromTemplate
  by_cases horder : isTemplateOf destIn TEMPLATE_DEXORDER = true
  · rwa [if_pos horder] at h ⊢
  rw [if_neg horder] at h ⊢
  by_cases hmatch : isTemplateOf destIn TEMPLATE_DEXMATCH = true
  · rwa [if_pos hmatch] at h ⊢
  rw [if_neg hmatch] at h ⊢
  by_cases hpledge : isTemplateOf destIn TEMPLATE_MINTPLEDGE = true
  · rw [if_pos hpledge] at h ⊢
    -- the pool asks one question more
    unfold verifyMintPledgeTxPool verifyTxPledgeTransPool at h
    by_cases hto : isTemplateOf tx.sendTo TEMPLATE_MINTPLEDGE = true
    · rw [if_pos hto] at h
      rw [verifyMintPledgeTx, if_pos hto]
      cases htrans : verifyTxPledgeTrans E s hashLastBlock tx destIn with
      | none => simp [htrans] at h
      | some r =>
        cases r with
        | false => simp [htrans] at h
        | true => rfl
    · rwa [if_neg hto] at h
  · rw [if_neg hpledge]

/-- **Admission agrees with block validation** on every transaction that is no mint transaction and is signed
by the side that is to leave where the sides of its template change. -/
theorem verifyTransaction_agrees_iff (mapTx : MapTx) (p : CBlockIndex) (vPrevOutput : List CTxOut)
    (hin : tx.vInput.map s.dbUnspent = vPrevOutput.map some) (hnull : ∀ o ∈ vPrevOutput, o.isNull = false)
    (hok : verifyTransaction E s mapTx tx vPrevOutput p.nHeight p.hashBlock p.hashOrigin = some .OK) :
    ∃ c, getTxContxt s { hashFork := p.hashOrigin } tx = .ok c ∧
      (verifyBlockTx E s tx c p (p.nHeight + 1) p.hashOrigin = some .OK ↔
        tx.isMintTx = false ∧ ∀ vchSig, verifyDestRecorded E tx = some (some vchSig) →
          SignedAtChange E (tx.getSignatureHash E) tx.sendTo c.destIn vchSig p.nHeight p.hashOrigin) := by
  cases vPrevOutput with
  | nil => simp [verifyTransaction] at hok
  | cons first rest =>
    obtain ⟨hdest, hchecks, htempl, hsig⟩ := verifyTransaction_iff.1 hok
    refine ⟨_, getTxContxt_outputs (hnull first List.mem_cons_self) hin hdest, ?_⟩
    rw [verifyBlockTx_iff]
    have hblock := verifyFromTemplate_of_pool htempl
    simp only [hchecks, hblock, true_and]
    refine and_congr_right fun _ => ?_
    unfold verifyTransactionSignature at hsig
    unfold verifyBlockTxSignature
    cases hrec : verifyDestRecorded E tx with
    | none => simp [hrec] at hsig
    | some r =>
      cases r with
      | none => simp [hrec] at hsig
      | some vchSig =>
        simp only [hrec, Nat.add_sub_cancel] at hsig ⊢
        have hnext : first.destTo.verifyTxSignature E (tx.getSignatureHash E) tx.sendTo vchSig (p.nHeight + 1)
            p.hashOrigin = some true := by
          split at hsig <;> simp_all
        simp only [Option.some.injEq, forall_eq', ← verifyTxSignature_previous hnext]
        cases first.destTo.verifyTxSignature E (tx.getSignatureHash E) tx.sendTo vchSig p.nHeight p.hashOrigin with
        | none => simp
        | some r => cases r <;> simp

end

/-! ### On the toy network -/

/-- A DEX match whose seller signs from the height 3 on, and `deal` before. -/
def toyMatch (deal : CDestination) : CTemplateDexMatch where
  destMatch := toyMiner.destSpent
  vCoinPair := [1]
  nFinalPrice := 1
  nMatchAmount := 1000000
  nFee := 2
  hashSecret := 1
  encSecret := [1]
  destSellerOrder := ⟨CDestination.PREFIX_TEMPLATE, mkTemplateId TEMPLATE_DEXORDER 0⟩
  destSeller := toyMiner.destSpent
  destSellerDeal := deal
  nSellerValidHeight := 2
  destBuyer := toyMiner.destSpent
  vBuyerAmount := [1]
  hashBuyerSecret := 1
  nBuyerValidHeight := 2

/-- A coin of the first mint, sent to the match. -/
def toyMatchTx (deal : CDestination) (c : CBlockChain) : CTransaction where
  nTimeStamp := GENESIS_TIME + 120
  vInput := (toyMints c).getLast?.toList
  sendTo := ⟨CDestination.PREFIX_TEMPLATE, (CTemplate.dexmatch (toyMatch deal)).getTemplateId toyEnv⟩
  nAmount := 1000000
  nTxFee := 1000000
  vchSig := (CTemplate.dexmatch (toyMatch deal)).buildTemplateData
    ++ (CTemplate.proof toyMiner).buildTemplateData ++ List.replicate 64 0

/-- The seller takes it back. -/
def toySellerTx (deal : CDestination) (c : CBlockChain) : CTransaction where
  nTimeStamp := GENESIS_TIME + 180
  vInput := [⟨(toyMatchTx deal c).getHash toyEnv, 0⟩]
  sendTo := toyMiner.destSpent
  nAmount := 900000
  nTxFee := MIN_TX_FEE
  vchSig := (CTemplate.dexmatch (toyMatch deal)).buildTemplateData ++ List.replicate 64 0

def toyMatchPlans (deal : CDestination) : List ToyPlan := [{}, { vtx := fun c => [toyMatchTx deal c] }]

/-- The height of the chain, whether the seller's coin is unspent, and what the pool and the next block say. -/
def toyVerdicts (deal : CDestination) (c : CBlockChain) : ℕ × Bool × Option Errno × Except Errno (Option Errno) :=
  match c.cntrBlock.pIndexLast with
  | [] => (0, false, none, .ok none)
  | p :: _ =>
    let tx := toySellerTx deal c
    let vPrevOutput := [CTxOut.ofTx (toyMatchTx deal c)]
    (p.nHeight, tx.vInput.map c.cntrBlock.dbUnspent = vPrevOutput.map some,
      verifyTransaction toyEnv c.cntrBlock OrdMap.empty tx vPrevOutput p.nHeight p.hashBlock p.hashOrigin,
      (getTxContxt c.cntrBlock { hashFork := p.hashOrigin } tx).map fun ctx =>
        verifyBlockTx toyEnv c.cntrBlock tx ctx p (p.nHeight + 1) p.hashOrigin)

theorem toyVerdicts_run (deal : CDestination) (err : Errno)
    (h : (toyRun mintsSound (toyMatchPlans deal) (genesisChain toyEnv)).any (fun r =>
      toyDistinct r.1 (hashGenesisBlock toyEnv :: r.2.map (CBlock.getHash toyEnv)) &&
        toyVerdicts deal r.1 = (2, true, some .OK, .ok (some err))) = true) :
    ∃ c p l tx vPrevOutput ctx, Run toyEnv MintsSound c ∧ c.cntrBlock.pIndexLast = p :: l ∧ tx.vInput ≠ [] ∧
      (tx.vInput.map c.cntrBlock.dbUnspent = vPrevOutput.map some ∧ ∀ o ∈ vPrevOutput, o.isNull = false) ∧
      verifyTransaction toyEnv c.cntrBlock OrdMap.empty tx vPrevOutput p.nHeight p.hashBlock p.hashOrigin
        = some .OK ∧
      getTxContxt c.cntrBlock { hashFork := p.hashOrigin } tx = .ok ctx ∧
      verifyBlockTx toyEnv c.cntrBlock tx ctx p (p.nHeight + 1) p.hashOrigin = some err := by
  obtain ⟨c, blocks, hover, -, hx, p, l, hlast, -⟩ := toyRun_any MintsSound.of_mintsSound (toyMatchPlans deal)
    (fun c _ => toyVerdicts deal c = (2, true, some .OK, .ok (some err))) h
  simp only [toyVerdicts, hlast, decide_eq_true_eq, Prod.mk.injEq] at hx
  obtain ⟨-, hin, hok, hblock⟩ := hx
  cases hctx : getTxContxt c.cntrBlock { hashFork := p.hashOrigin } (toySellerTx deal c) with
  | error e => simp [hctx, Except.map] at hblock
  | ok ctx =>
    rw [hctx] at hblock
    refine ⟨c, p, l, _, _, ctx, hover.run, hlast, List.cons_ne_nil _ _, ⟨hin, ?_⟩, hok, hctx,
      Except.ok.inj hblock⟩
    intro o ho
    rw [List.mem_singleton.1 ho]
    rfl

/-- The deal address is a key that signs as well as the seller does. -/
theorem verifyTransaction_agrees_toy :
    ∃ c p l tx vPrevOutput ctx, Run toyEnv MintsSound c ∧ c.cntrBlock.pIndexLast = p :: l ∧
      verifyTransaction toyEnv c.cntrBlock OrdMap.empty tx vPrevOutput p.nHeight p.hashBlock p.hashOrigin
        = some .OK ∧
      verifyBlockTx toyEnv c.cntrBlock tx ctx p (p.nHeight + 1) p.hashOrigin = some .OK ∧
      tx.isMintTx = false ∧ ∀ vchSig, verifyDestRecorded toyEnv tx = some (some vchSig) →
        SignedAtChange toyEnv (tx.getSignatureHash toyEnv) tx.sendTo ctx.destIn vchSig p.nHeight p.hashOrigin := by
  obtain ⟨c, p, l, tx, vPrevOutput, ctx, hrun, hlast, -, ⟨hin, hnull⟩, hok, hctx, hblock⟩ :=
    toyVerdicts_run toyMiner.destSpent .OK (by decide +kernel)
  obtain ⟨ctx', hctx', hiff⟩ := verifyTransaction_agrees_iff OrdMap.empty p vPrevOutput hin hnull hok
  obtain rfl : ctx = ctx' := Except.ok.inj (hctx.symm.trans hctx')
  exact ⟨c, p, l, tx, vPrevOutput, ctx, hrun, hlast, hok, hblock, hiff.1 hblock⟩

/-- **The seller at the height of the change**: the deal address is a multisignature, which the seller cannot
sign for. The pool asks for the signer of the next block and admits the transaction; the block asks for that of
the last one. -/
theorem verifyTransaction_disagrees_at_change :
    ∃ c p l tx vPrevOutput ctx, Run toyEnv MintsSound c ∧ c.cntrBlock.pIndexLast = p :: l ∧ tx.vInput ≠ [] ∧
      (tx.vInput.map c.cntrBlock.dbUnspent = vPrevOutput.map some ∧ ∀ o ∈ vPrevOutput, o.isNull = false) ∧
      verifyTransaction toyEnv c.cntrBlock OrdMap.empty tx vPrevOutput p.nHeight p.hashBlock p.hashOrigin
        = some .OK ∧
      getTxContxt c.cntrBlock { hashFork := p.hashOrigin } tx = .ok ctx ∧
      verifyBlockTx toyEnv c.cntrBlock tx ctx p (p.nHeight + 1) p.hashOrigin =
        some .ERR_TRANSACTION_SIGNATURE_INVALID :=
  toyVerdicts_run ⟨CDestination.PREFIX_TEMPLATE, mkTemplateId TEMPLATE_MULTISIG 5⟩ _ (by decide +kernel)

/-! ## Outputs and their locks -/

/-- The output `n` that `AddTx` of `CBlockView` records if it is not null. -/
def chainOutput (tx : CTransaction) (destIn : CDestination) (nValueIn : ℤ) : ℕ → CTxOut
  | 0 => CTxOut.ofTx tx
  | _ => CTxOut.ofChange tx destIn nValueIn

/-- Two outputs with the same content, locked at the same heights. -/
structure CTxOut.Agrees (a b : CTxOut) : Prop where
  destTo : a.destTo = b.destTo
  nAmount : a.nAmount = b.nAmount
  nTxTime : a.nTxTime = b.nTxTime
  locked : ∀ nBlockHeight, a.isLocked nBlockHeight = b.isLocked nBlockHeight

theorem CTxOut.isLocked_eq_iff (a b : CTxOut) :
    (∀ nBlockHeight, a.isLocked nBlockHeight = b.isLocked nBlockHeight) ↔
      a.nLockUntil % 2 ^ 31 = b.nLockUntil % 2 ^ 31 := by
  constructor
  · intro h
    have hover : ∀ o : CTxOut, o.isLocked (o.nLockUntil % 2 ^ 31) = false := fun o => decide_eq_false (lt_irrefl _)
    have ha : b.isLocked (a.nLockUntil % 2 ^ 31) = false := (h _).symm.trans (hover a)
    have hb : a.isLocked (b.nLockUntil % 2 ^ 31) = false := (h _).trans (hover b)
    exact le_antisymm (not_lt.1 (of_decide_eq_false hb)) (not_lt.1 (of_decide_eq_false ha))
  · intro h nBlockHeight
    rw [isLocked, isLocked, h]

/-- **The lock of an output** is the same in the chain as in the pool and the wallet, for both outputs, exactly
when the top bit of `nLockUntil` is clear or no height is locked. -/
theorem outputs_agree_iff (tx : CTransaction) (destIn : CDestination) (nValueIn nBlockHeight : ℤ) :
    (∀ n < 2, (chainOutput tx destIn nValueIn n).Agrees
        (CAssembledTx.getOutput ⟨tx, nBlockHeight, destIn, nValueIn⟩ n)) ↔
      tx.nLockUntil < 2 ^ 31 ∨ tx.nLockUntil % 2 ^ 31 = 0 := by
  have hdiv : 0 = tx.nLockUntil / 2 ^ 31 ↔ tx.nLockUntil < 2 ^ 31 := by
    rw [eq_comm, Nat.div_eq_zero_iff]
    simp
  constructor
  · intro h
    have hlocked := (CTxOut.isLocked_eq_iff _ _).1 (h 0 (by decide)).locked
    simp only [chainOutput, CTxOut.ofTx, CAssembledTx.getOutput, CTransaction.getLockUntil, hdiv] at hlocked
    split_ifs at hlocked with hlow
    · exact Or.inl hlow
    · exact Or.inr hlocked
  · intro h n hn
    interval_cases n
    · refine ⟨rfl, rfl, rfl, (CTxOut.isLocked_eq_iff _ _).2 ?_⟩
      simp only [chainOutput, CTxOut.ofTx, CAssembledTx.getOutput, CTransaction.getLockUntil, hdiv]
      split_ifs with hlow
      · exact (Nat.mod_mod _ _).symm
      · exact h.resolve_left hlow
    · refine ⟨rfl, rfl, rfl, (CTxOut.isLocked_eq_iff _ _).2 ?_⟩
      simp only [chainOutput, CTxOut.ofChange, CAssembledTx.getOutput, CTransaction.getLockUntil]
      split_ifs with hhigh
      · have hzero : tx.nLockUntil % 2 ^ 31 = 0 := h.resolve_left fun hlow => by
          rw [Nat.div_eq_of_lt hlow] at hhigh
          exact absurd hhigh one_ne_zero
        rw [hzero]
      · rfl

/-- **A lock on the change**: the chain locks output 0 instead, until the block 5. -/
theorem outputs_disagree : ∃ tx : CTransaction, ∃ destIn nValueIn nBlockHeight n,
    tx.nLockUntil < 2 ^ 32 ∧ n < 2 ∧ (chainOutput tx destIn nValueIn n).isNull = false ∧
      ¬(chainOutput tx destIn nValueIn n).Agrees
        (CAssembledTx.getOutput ⟨tx, nBlockHeight, destIn, nValueIn⟩ n) := by
  refine ⟨{ nLockUntil := 2 ^ 31 + 5, sendTo := toyMiner.destSpent, nAmount := 1 }, toyMiner.destSpent, 1, 0, 0,
    by decide, by decide, by decide, fun h => ?_⟩
  exact absurd (h.locked 4) (by decide)

end Minemon
