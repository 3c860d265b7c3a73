import Minemon.Signing.Readable

/-!
# Transactions that are answered

`VerifyTransaction` reads templates from the signature of a transaction: that of a recorded receiver, that of
the address the inputs come from, and for a match the two secrets behind it. It also reads the first output
that is spent.

* `verifyTransaction_ne_none_iff`: when `VerifyTransaction` has an answer.
-/

namespace Minemon

/-! ## The rules of the DEX -/

section

variable {E : Env} {tx : CTransaction}

def RecordedFits (tx : CTransaction) : Prop :=
  tx.vchSig ≠ [] → isDestInRecorded tx.sendTo = true →
    LengthsFit (templateFields tx.sendTo.templateType) ⟨tx.vchSig, 0⟩

theorem verifyDestRecorded_ne_none_iff (hlen : tx.vchSig.length < 2 ^ 63) :
    verifyDestRecorded E tx ≠ none ↔ RecordedFits tx := by
  unfold verifyDestRecorded RecordedFits
  by_cases hempty : tx.vchSig = []
  · simp [hempty]
  rw [if_neg (by simpa using hempty)]
  by_cases hrec : isDestInRecorded tx.sendTo = true
  · have htempl : tx.sendTo.isTemplate = true := by
      unfold isDestInRecorded at hrec
      exact (Bool.and_eq_true_iff.1 hrec).1
    rw [if_pos (by rw [htempl, hrec]; rfl)]
    simp only [ne_eq, hempty, not_false_eq_true, hrec, forall_const]
    rw [← createTemplatePtr_ne_none_iff hlen]
    rcases createTemplatePtr tx.sendTo.templateType tx.vchSig with _ | _ | t
    · simp
    · simp
    · dsimp only
      split_ifs <;> simp
  · simp [hrec]

theorem verifyDestRecorded_suffix {rest : List UInt8} (h : verifyDestRecorded E tx = some (some rest)) :
    rest <:+ tx.vchSig := by
  unfold verifyDestRecorded at h
  split_ifs at h
  · rw [← Option.some.inj (Option.some.inj h)]
    exact List.nil_suffix
  · split at h
    · cases h
    · cases h
    · split_ifs at h
      · cases h
      · obtain ⟨r, hr, rfl⟩ := Option.map_eq_some_iff.1 (Option.some.inj h)
        exact getSignDestination_suffix hr
  · rw [← Option.some.inj (Option.some.inj h)]

theorem verifyDestRecorded_length_lt (hlen : tx.vchSig.length < 2 ^ 63) {rest : List UInt8}
    (h : verifyDestRecorded E tx = some (some rest)) : rest.length < 2 ^ 63 :=
  (verifyDestRecorded_suffix h).length_le.trans_lt hlen

theorem createTemplatePtr_receiver {rest : List UInt8} (hlen : tx.vchSig.length < 2 ^ 63)
    (hto : isTemplateOf tx.sendTo TEMPLATE_DEXMATCH = true) (hrec : verifyDestRecorded E tx = some (some rest))
    (hne : rest ≠ []) : createTemplatePtr TEMPLATE_DEXMATCH tx.vchSig ≠ none := by
  have hsig : tx.vchSig ≠ [] := by
    intro hempty
    have hsuffix := verifyDestRecorded_suffix hrec
    rw [hempty] at hsuffix
    exact hne (List.suffix_nil.1 hsuffix)
  have hfits := (verifyDestRecorded_ne_none_iff hlen).1 (by rw [hrec]; simp) hsig
  obtain ⟨htempl, htype⟩ := isTemplateOf_type hto
  rw [createTemplatePtr_ne_none_iff hlen, ← htype]
  exact hfits (by simp [isDestInRecorded, htempl, htype])

theorem verifyDexOrderTx_ne_none_iff (hlen : tx.vchSig.length < 2 ^ 63) {destIn : CDestination} {nHeight : ℕ} :
    verifyDexOrderTx E tx destIn nHeight ≠ none ↔ verifyDestRecorded E tx ≠ none ∧
      ∀ rest, verifyDestRecorded E tx = some (some rest) → createTemplatePtr TEMPLATE_DEXORDER rest ≠ none := by
  unfold verifyDexOrderTx
  rcases hrec : verifyDestRecorded E tx with _ | _ | rest
  · simp
  · simp
  simp only [ne_eq, reduceCtorEq, not_false_eq_true, Option.some.injEq, forall_eq', true_and]
  rcases hptr : createTemplatePtr TEMPLATE_DEXORDER rest with _ | _ | t
  · simp
  · simp
  obtain ⟨order, rfl⟩ := createTemplatePtr_dexorder hptr
  simp only [reduceCtorEq, not_false_eq_true, iff_true]
  by_cases hto : isTemplateOf tx.sendTo TEMPLATE_DEXMATCH = true
  swap
  · simp [hto]
  have hread := createTemplatePtr_receiver hlen hto hrec (by rintro rfl; cases hptr)
  rw [if_pos hto]
  rcases hptr' : createTemplatePtr TEMPLATE_DEXMATCH tx.vchSig with _ | _ | t
  · exact absurd hptr' hread
  · simp
  obtain ⟨m, rfl⟩ := createTemplatePtr_dexmatch hptr'
  dsimp only
  split
  · simp
  · split_ifs <;> simp

theorem subSig_of_le {t : CTemplate} {vch : List UInt8} (h : t.buildTemplateData.length ≤ vch.length) :
    subSig t vch = some (vch.drop t.buildTemplateData.length) := by
  unfold subSig
  by_cases hempty : vch.isEmpty = true
  · rw [if_pos hempty, List.isEmpty_iff.1 hempty, List.drop_nil]
  · rw [if_neg hempty, if_neg (not_lt.2 h)]

/-- While the seller is valid, the payout is the one that is due. -/
structure PayoutDue (tx : CTransaction) (nValueIn : ℤ) (nHeight : ℕ) (m : CTemplateDexMatch) : Prop where
  valid : (nHeight : ℤ) ≤ m.nSellerValidHeight
  payout : matchPayout m tx.sendTo m.destSellerDeal nValueIn = some (nValueIn, tx.nAmount)
  fee : tx.nTxFee = TNS_DEX_MIN_TX_FEE

section

variable {nValueIn : ℤ} {nHeight : ℕ} {rest : List UInt8} {m : CTemplateDexMatch}

section

variable (hrec : verifyDestRecorded E tx = some (some rest))
  (hptr : createTemplatePtr TEMPLATE_DEXMATCH rest = some (some (.dexmatch m)))

include hrec hptr

theorem verifyDexMatchTx_expired
    (hlate : m.nSellerValidHeight < nHeight) : verifyDexMatchTx E tx nValueIn nHeight = some .OK := by
  unfold verifyDexMatchTx
  simp only [hrec, hptr, if_neg (not_le.2 hlate)]

theorem verifyDexMatchTx_valid
    (hvalid : (nHeight : ℤ) ≤ m.nSellerValidHeight) :
    (PayoutDue tx nValueIn nHeight m →
      verifyDexMatchTx E tx nValueIn nHeight = verifyMatchSecret E m tx.sendTo rest) ∧
    (¬ PayoutDue tx nValueIn nHeight m →
      verifyDexMatchTx E tx nValueIn nHeight = some .ERR_TRANSACTION_SIGNATURE_INVALID) := by
  have hle := (length_buildTemplateData_le hptr).trans (verifyDestRecorded_suffix hrec).length_le
  have hdeal : (getSignDestination (.dexmatch m) tx.sendTo 0 nHeight tx.vchSig).isNone = false := by
    simp [getSignDestination, subSig_of_le hle]
  unfold verifyDexMatchTx
  simp only [hrec, hptr, if_pos hvalid, hdeal, Bool.and_false, Bool.false_eq_true, if_false]
  refine ⟨fun hdue => ?_, fun hdue => ?_⟩
  · simp only [hdue.payout, ne_eq, not_true_eq_false, hdue.fee, if_false]
  · cases hpay : matchPayout m tx.sendTo m.destSellerDeal nValueIn with
    | none => rfl
    | some need =>
      dsimp only
      split_ifs with h1 h2 h3
      · rfl
      · rfl
      · rfl
      · refine absurd ⟨hvalid, ?_, not_not.1 h3⟩ hdue
        rw [hpay, not_not.1 h1, not_not.1 h2]

end

theorem verifyDexMatchTx_ne_none_iff :
    verifyDexMatchTx E tx nValueIn nHeight ≠ none ↔ verifyDestRecorded E tx ≠ none ∧
      ∀ rest, verifyDestRecorded E tx = some (some rest) → createTemplatePtr TEMPLATE_DEXMATCH rest ≠ none ∧
        ∀ m, createTemplatePtr TEMPLATE_DEXMATCH rest = some (some (.dexmatch m)) →
          PayoutDue tx nValueIn nHeight m →
          threeBytes.dec (rest.drop (CTemplate.dexmatch m).buildTemplateData.length) ≠ .error .undefined := by
  rcases hrec : verifyDestRecorded E tx with _ | _ | rest
  · simp [verifyDexMatchTx, hrec]
  · simp [verifyDexMatchTx, hrec]
  simp only [ne_eq, reduceCtorEq, not_false_eq_true, Option.some.injEq, forall_eq', true_and]
  rcases hptr : createTemplatePtr TEMPLATE_DEXMATCH rest with _ | _ | t
  · simp [verifyDexMatchTx, hrec, hptr]
  · simp [verifyDexMatchTx, hrec, hptr]
  obtain ⟨m, rfl⟩ := createTemplatePtr_dexmatch hptr
  simp only [reduceCtorEq, not_false_eq_true, true_and, Option.some.injEq, CTemplate.dexmatch.injEq, forall_eq']
  by_cases hdue : PayoutDue tx nValueIn nHeight m
  · rw [(verifyDexMatchTx_valid hrec hptr hdue.valid).1 hdue]
    simp only [hdue, forall_const]
    simp only [verifyMatchSecret, getSignDestination, subSig_of_le (length_buildTemplateData_le hptr), Option.map_some]
    cases threeBytes.dec (rest.drop (CTemplate.dexmatch m).buildTemplateData.length) with
    | error e => cases e <;> simp
    | ok p =>
      dsimp only
      split_ifs <;> simp
  · refine ⟨fun _ h => absurd h hdue, fun _ => ?_⟩
    by_cases hvalid : (nHeight : ℤ) ≤ m.nSellerValidHeight
    · rw [(verifyDexMatchTx_valid hrec hptr hvalid).2 hdue]
      simp
    · rw [verifyDexMatchTx_expired hrec hptr (not_le.1 hvalid)]
      simp

end

end

/-! ## VerifyTransaction -/

section

variable {E : Env} {s : CBlockBase} {mapTx : MapTx} {tx : CTransaction} {destIn : CDestination}

/-- What is read of the signature `rest` behind a recorded receiver, for the address of the inputs. -/
structure OwnFits (E : Env) (tx : CTransaction) (destIn : CDestination) (nValueIn : ℤ) (nHeight : ℕ)
    (rest : List UInt8) : Prop where
  order : isTemplateOf destIn TEMPLATE_DEXORDER = true → LengthsFit (templateFields TEMPLATE_DEXORDER) ⟨rest, 0⟩
  deal : isTemplateOf destIn TEMPLATE_DEXMATCH = true → LengthsFit (templateFields TEMPLATE_DEXMATCH) ⟨rest, 0⟩ ∧
    ∀ m, createTemplatePtr TEMPLATE_DEXMATCH rest = some (some (.dexmatch m)) →
      PayoutDue tx nValueIn nHeight m ∨ m.nSellerValidHeight < nHeight ∧ SignatureRead E destIn rest m →
      LengthsFit [.bytes, .bytes, .bytes] ⟨rest.drop (CTemplate.dexmatch m).buildTemplateData.length, 0⟩
  exchange : isTemplateOf destIn TEMPLATE_EXCHANGE = true → ExchangeFits rest

/-- The reads of a signature stay in it. A redemption that its rule refuses is not read. -/
def ReadsFit (E : Env) (s : CBlockBase) (mapTx : MapTx) (tx : CTransaction) (destIn : CDestination) (nValueIn : ℤ)
    (nForkHeight fork : ℕ) : Prop :=
  isTemplateOf destIn TEMPLATE_MINTPLEDGE = true ∨
    (isTemplateOf destIn TEMPLATE_MINTREDEEM = true ∧
      (fork ≠ (getGenesisBlock E).getHash E ∨ verifyTxMintRedeem E s mapTx tx destIn = false)) ∨
    RecordedFits tx ∧ ∀ rest, verifyDestRecorded E tx = some (some rest) →
      OwnFits E tx destIn nValueIn (nForkHeight + 1) rest

theorem verifyTransactionSignature_ne_none_iff {nForkHeight fork : ℕ} :
    verifyTransactionSignature E tx destIn nForkHeight fork ≠ none ↔ verifyDestRecorded E tx ≠ none ∧
      ∀ rest, verifyDestRecorded E tx = some (some rest) →
        destIn.verifyTxSignature E (tx.getSignatureHash E) tx.sendTo rest (nForkHeight + 1) fork ≠ none := by
  unfold verifyTransactionSignature
  rcases hrec : verifyDestRecorded E tx with _ | _ | rest
  · simp
  · simp
  simp only [ne_eq, reduceCtorEq, not_false_eq_true, Option.some.injEq, forall_eq', true_and]
  rcases destIn.verifyTxSignature E (tx.getSignatureHash E) tx.sendTo rest (nForkHeight + 1) fork with _ | _ | _ <;>
    simp

theorem recordedFits_of_isTemplateOf {nType : ℕ} (h : isTemplateOf tx.sendTo nType = true)
    (horder : nType ≠ TEMPLATE_DEXORDER) (hmatch : nType ≠ TEMPLATE_DEXMATCH) : RecordedFits tx := by
  intro _ _
  rw [(isTemplateOf_type h).2]
  exact lengthsFit_of_no_bytes (no_bytes_templateFields horder hmatch) _

theorem verifyTxPledgeTrans_ne_none (hlen : tx.vchSig.length < 2 ^ 63) {hashPrev : ℕ} :
    verifyTxPledgeTrans E s hashPrev tx destIn ≠ none := by
  unfold verifyTxPledgeTrans
  rcases hto : createMintPledgePtr tx.vchSig with _ | _ | objSendTo
  · exact absurd hto (createMintPledgePtr_ne_none hlen)
  · simp
  dsimp only
  cases hsub : getSignDestination (.mintpledge objSendTo) tx.sendTo 0 0 tx.vchSig with
  | none => simp
  | some r =>
    have hlen' : r.2.length < 2 ^ 63 := (getSignDestination_suffix hsub).length_le.trans_lt hlen
    dsimp only
    rcases hin : createMintPledgePtr r.2 with _ | _ | objDestIn
    · exact absurd hin (createMintPledgePtr_ne_none hlen')
    · simp
    dsimp only
    split_ifs
    · simp
    · split
      · simp
      · split_ifs <;> simp

/-- **A pledge that is spent** is always answered, and with `OK` only if the receiver has no byte strings. -/
theorem verifyMintPledgeTxPool_answers (hlen : tx.vchSig.length < 2 ^ 63) {hashPrev : ℕ} :
    verifyMintPledgeTxPool E s mapTx hashPrev tx destIn ≠ none ∧
      (verifyMintPledgeTxPool E s mapTx hashPrev tx destIn = some .OK → RecordedFits tx) := by
  unfold verifyMintPledgeTxPool
  by_cases hpledge : isTemplateOf tx.sendTo TEMPLATE_MINTPLEDGE = true
  · rw [if_pos hpledge]
    refine ⟨?_, fun _ => recordedFits_of_isTemplateOf hpledge (by decide) (by decide)⟩
    unfold verifyTxPledgeTransPool
    rcases htrans : verifyTxPledgeTrans E s hashPrev tx destIn with _ | _ | _
    · exact absurd htrans (verifyTxPledgeTrans_ne_none hlen)
    · simp
    · cases verifyPledgeTx mapTx destIn <;> simp
  rw [if_neg hpledge, verifyMintPledgeTx, if_neg hpledge]
  by_cases hredeem : isTemplateOf tx.sendTo TEMPLATE_MINTREDEEM = true
  swap
  · rw [if_neg hredeem]
    exact ⟨by simp, by simp⟩
  have hfits := recordedFits_of_isTemplateOf hredeem (by decide) (by decide)
  rw [if_pos hredeem]
  refine ⟨?_, fun _ => hfits⟩
  rcases hrec : verifyDestRecorded E tx with _ | _ | rest
  · exact absurd hrec ((verifyDestRecorded_ne_none_iff hlen).2 hfits)
  · simp
  dsimp only
  rcases hptr : createTemplatePtr TEMPLATE_MINTREDEEM tx.vchSig with _ | _ | t
  · exact absurd hptr (createTemplatePtr_ne_none hlen (by decide) (by decide))
  · simp
  obtain ⟨redeem, rfl⟩ := createTemplatePtr_mintredeem hptr
  dsimp only
  rcases hin : createMintPledgePtr rest with _ | _ | pledge
  · exact absurd hin (createMintPledgePtr_ne_none (verifyDestRecorded_length_lt hlen hrec))
  · simp
  · dsimp only
    split_ifs <;> simp

theorem isTemplateOf_other {a b : ℕ} (ha : isTemplateOf destIn a = true) (hne : a ≠ b) :
    isTemplateOf destIn b = false := by
  rw [Bool.eq_false_iff]
  intro hb
  exact hne (isTemplateOf_unique ha hb)

section

variable {nValueIn : ℤ} {nForkHeight hashLastBlock fork : ℕ}

section

variable (horder : isTemplateOf destIn TEMPLATE_DEXORDER = false)
  (hmatch : isTemplateOf destIn TEMPLATE_DEXMATCH = false) (hex : isTemplateOf destIn TEMPLATE_EXCHANGE = false)

include horder hmatch hex

theorem ownFits_of_plain {nHeight : ℕ} {rest : List UInt8} : OwnFits E tx destIn nValueIn nHeight rest :=
  ⟨fun h => absurd h (by simp [horder]), fun h => absurd h (by simp [hmatch]), fun h => absurd h (by simp [hex])⟩

theorem verifyTransactionSignature_plain_iff (hlen : tx.vchSig.length < 2 ^ 63) :
    verifyTransactionSignature E tx destIn nForkHeight fork ≠ none ↔ RecordedFits tx := by
  rw [verifyTransactionSignature_ne_none_iff, verifyDestRecorded_ne_none_iff hlen]
  refine ⟨fun h => h.1, fun h => ⟨h, fun rest hrec => ?_⟩⟩
  rw [verifyTxSignature_ne_none_iff (verifyDestRecorded_length_lt hlen hrec) hex]
  exact ⟨fun h => absurd h (by simp [horder]), fun h => absurd h (by simp [hmatch])⟩

end

section

variable (hlen : tx.vchSig.length < 2 ^ 63)

include hlen

theorem readsFit_iff_order
    (horder : isTemplateOf destIn TEMPLATE_DEXORDER = true) :
    (verifyDexOrderTx E tx destIn (nForkHeight + 1) ≠ none ∧
      (verifyDexOrderTx E tx destIn (nForkHeight + 1) = some .OK →
        verifyTransactionSignature E tx destIn nForkHeight fork ≠ none)) ↔
      RecordedFits tx ∧ ∀ rest, verifyDestRecorded E tx = some (some rest) →
        OwnFits E tx destIn nValueIn (nForkHeight + 1) rest := by
  have hmatch := isTemplateOf_other horder (b := TEMPLATE_DEXMATCH) (by decide)
  have hex := isTemplateOf_other horder (b := TEMPLATE_EXCHANGE) (by decide)
  rw [verifyDexOrderTx_ne_none_iff hlen, verifyTransactionSignature_ne_none_iff,
    verifyDestRecorded_ne_none_iff hlen]
  constructor
  · rintro ⟨⟨hfits, hown⟩, -⟩
    refine ⟨hfits, fun rest hrec => ⟨fun _ => ?_, fun h => absurd h (by simp [hmatch]),
      fun h => absurd h (by simp [hex])⟩⟩
    exact (createTemplatePtr_ne_none_iff (verifyDestRecorded_length_lt hlen hrec) _).1 (hown rest hrec)
  · rintro ⟨hfits, hown⟩
    refine ⟨⟨hfits, fun rest hrec => ?_⟩, fun _ => ⟨hfits, fun rest hrec => ?_⟩⟩
    · rw [createTemplatePtr_ne_none_iff (verifyDestRecorded_length_lt hlen hrec)]
      exact (hown rest hrec).order horder
    · rw [verifyTxSignature_ne_none_iff (verifyDestRecorded_length_lt hlen hrec) hex]
      exact ⟨(hown rest hrec).order, fun h => absurd h (by simp [hmatch])⟩

theorem readsFit_iff_exchange
    (hex : isTemplateOf destIn TEMPLATE_EXCHANGE = true) :
    verifyTransactionSignature E tx destIn nForkHeight fork ≠ none ↔
      RecordedFits tx ∧ ∀ rest, verifyDestRecorded E tx = some (some rest) →
        OwnFits E tx destIn nValueIn (nForkHeight + 1) rest := by
  have horder := isTemplateOf_other hex (b := TEMPLATE_DEXORDER) (by decide)
  have hmatch := isTemplateOf_other hex (b := TEMPLATE_DEXMATCH) (by decide)
  rw [verifyTransactionSignature_ne_none_iff, verifyDestRecorded_ne_none_iff hlen]
  refine and_congr_right fun _ => forall_congr' fun rest => ?_
  refine imp_congr_right fun hrec => ?_
  rw [verifyTxSignature_exchange_ne_none_iff (verifyDestRecorded_length_lt hlen hrec) hex]
  exact ⟨fun h => ⟨fun h' => absurd h' (by simp [horder]), fun h' => absurd h' (by simp [hmatch]), fun _ => h⟩,
    fun h => h.exchange hex⟩

theorem readsFit_iff_match
    (hmatch : isTemplateOf destIn TEMPLATE_DEXMATCH = true) :
    (verifyDexMatchTx E tx nValueIn (nForkHeight + 1) ≠ none ∧
      (verifyDexMatchTx E tx nValueIn (nForkHeight + 1) = some .OK →
        verifyTransactionSignature E tx destIn nForkHeight fork ≠ none)) ↔
      RecordedFits tx ∧ ∀ rest, verifyDestRecorded E tx = some (some rest) →
        OwnFits E tx destIn nValueIn (nForkHeight + 1) rest := by
  have horder := isTemplateOf_other hmatch (b := TEMPLATE_DEXORDER) (by decide)
  have hex := isTemplateOf_other hmatch (b := TEMPLATE_EXCHANGE) (by decide)
  have hrest : ∀ {rest}, verifyDestRecorded E tx = some (some rest) → rest.length < 2 ^ 63 :=
    verifyDestRecorded_length_lt hlen
  rw [verifyDexMatchTx_ne_none_iff, verifyTransactionSignature_ne_none_iff, verifyDestRecorded_ne_none_iff hlen]
  constructor
  · rintro ⟨⟨hfits, hown⟩, hsig⟩
    refine ⟨hfits, fun rest hrec => ⟨fun h => absurd h (by simp [horder]), fun _ => ⟨?_, fun m hptr hread => ?_⟩,
      fun h => absurd h (by simp [hex])⟩⟩
    · exact (createTemplatePtr_ne_none_iff (hrest hrec) _).1 (hown rest hrec).1
    · rcases hread with hdue | ⟨hlate, hread⟩
      · exact (threeBytes_drop_ne_undefined_iff (hrest hrec) _).1 ((hown rest hrec).2 m hptr hdue)
      · have hverify := (hsig (verifyDexMatchTx_expired hrec hptr hlate)).2 rest hrec
        rw [verifyTxSignature_ne_none_iff (hrest hrec) hex] at hverify
        exact (hverify.2 hmatch).2 m hptr hread
  · rintro ⟨hfits, hown⟩
    refine ⟨⟨hfits, fun rest hrec => ⟨?_, fun m hptr hdue => ?_⟩⟩, fun hok => ⟨hfits, fun rest hrec => ?_⟩⟩
    · exact (createTemplatePtr_ne_none_iff (hrest hrec) _).2 ((hown rest hrec).deal hmatch).1
    · exact (threeBytes_drop_ne_undefined_iff (hrest hrec) _).2 (((hown rest hrec).deal hmatch).2 m hptr (Or.inl hdue))
    · rw [verifyTxSignature_ne_none_iff (hrest hrec) hex]
      refine ⟨fun h => absurd h (by simp [horder]), fun _ => ⟨((hown rest hrec).deal hmatch).1, fun m hptr hread => ?_⟩⟩
      refine ((hown rest hrec).deal hmatch).2 m hptr ?_
      by_cases hvalid : ((nForkHeight + 1 : ℕ) : ℤ) ≤ m.nSellerValidHeight
      · left
        by_contra hdue
        rw [(verifyDexMatchTx_valid hrec hptr hvalid).2 hdue] at hok
        cases hok
      · exact Or.inr ⟨not_le.1 hvalid, hread⟩

/-- **The rule of the address and the signature** are answered exactly if the reads stay in the signature. -/
theorem readsFit_iff (hashLastBlock : ℕ) :
    (verifyFromTemplatePool E s mapTx hashLastBlock tx destIn nValueIn nForkHeight fork ≠ none ∧
      (verifyFromTemplatePool E s mapTx hashLastBlock tx destIn nValueIn nForkHeight fork = some .OK →
        verifyTransactionSignature E tx destIn nForkHeight fork ≠ none)) ↔
      ReadsFit E s mapTx tx destIn nValueIn nForkHeight fork := by
  unfold verifyFromTemplatePool ReadsFit
  by_cases horder : isTemplateOf destIn TEMPLATE_DEXORDER = true
  · rw [if_pos horder, isTemplateOf_other horder (b := TEMPLATE_MINTPLEDGE) (by decide),
      isTemplateOf_other horder (b := TEMPLATE_MINTREDEEM) (by decide)]
    simpa using readsFit_iff_order hlen horder
  rw [if_neg horder]
  by_cases hmatch : isTemplateOf destIn TEMPLATE_DEXMATCH = true
  · rw [if_pos hmatch, isTemplateOf_other hmatch (b := TEMPLATE_MINTPLEDGE) (by decide),
      isTemplateOf_other hmatch (b := TEMPLATE_MINTREDEEM) (by decide)]
    simpa using readsFit_iff_match hlen hmatch
  rw [if_neg hmatch]
  have horder' : isTemplateOf destIn TEMPLATE_DEXORDER = false := by simpa using horder
  have hmatch' : isTemplateOf destIn TEMPLATE_DEXMATCH = false := by simpa using hmatch
  by_cases hpledge : isTemplateOf destIn TEMPLATE_MINTPLEDGE = true
  · rw [if_pos hpledge]
    have hex := isTemplateOf_other hpledge (b := TEMPLATE_EXCHANGE) (by decide)
    refine ⟨fun _ => Or.inl hpledge, fun _ => ⟨(verifyMintPledgeTxPool_answers hlen).1, fun hok => ?_⟩⟩
    exact (verifyTransactionSignature_plain_iff horder' hmatch' hex hlen).2
      ((verifyMintPledgeTxPool_answers hlen).2 hok)
  rw [if_neg hpledge]
  by_cases hredeem : isTemplateOf destIn TEMPLATE_MINTREDEEM = true
  · have hex := isTemplateOf_other hredeem (b := TEMPLATE_EXCHANGE) (by decide)
    have hsig : verifyTransactionSignature E tx destIn nForkHeight fork = none ↔ ¬ RecordedFits tx := by
      rw [← verifyTransactionSignature_plain_iff horder' hmatch' hex hlen, not_not]
    rw [if_pos hredeem]
    by_cases hfork : fork ≠ (getGenesisBlock E).getHash E
    · rw [if_pos hfork]
      exact ⟨fun _ => Or.inr (Or.inl ⟨hredeem, Or.inl hfork⟩), fun _ => by simp⟩
    rw [if_neg hfork]
    cases hrule : verifyTxMintRedeem E s mapTx tx destIn with
    | false =>
      simp only [Bool.not_false, if_true]
      exact ⟨fun _ => Or.inr (Or.inl ⟨hredeem, Or.inr trivial⟩), fun _ => by simp⟩
    | true =>
      simp only [Bool.not_true, Bool.false_eq_true, if_false, ne_eq, reduceCtorEq, not_false_eq_true, true_and,
        forall_const, hsig, not_not]
      refine ⟨fun h => Or.inr (Or.inr ⟨h, fun rest _ => ownFits_of_plain horder' hmatch' hex⟩), ?_⟩
      rintro (h | ⟨-, h | h⟩ | h)
      · exact absurd h hpledge
      · exact absurd h hfork
      · cases h
      · exact h.1
  · rw [if_neg hredeem]
    simp only [hpledge, hredeem, Bool.false_eq_true, false_and, false_or, ne_eq, reduceCtorEq, not_false_eq_true,
      true_and, forall_const]
    by_cases hex : isTemplateOf destIn TEMPLATE_EXCHANGE = true
    · exact readsFit_iff_exchange hlen hex
    · have hex' : isTemplateOf destIn TEMPLATE_EXCHANGE = false := by simpa using hex
      refine (verifyTransactionSignature_plain_iff horder' hmatch' hex' hlen).trans ?_
      exact ⟨fun h => ⟨h, fun rest _ => ownFits_of_plain horder' hmatch' hex'⟩, fun h => h.1⟩

end

theorem ite_err_ne_none {c : Prop} [Decidable c] {err : Errno} {x : Option Errno} :
    (if c then some err else x) ≠ none ↔ (¬c → x ≠ none) := by
  split_ifs with h
  · simp [h]
  · simp [h]

/-- A transaction whose values pass has a signature that its reads stay in. -/
def SignatureFits (E : Env) (s : CBlockBase) (mapTx : MapTx) (tx : CTransaction) (vPrevOutput : List CTxOut)
    (nForkHeight fork : ℕ) : Prop :=
  ∀ first ∈ vPrevOutput.head?, (∀ o ∈ vPrevOutput, first.destTo = o.destTo) →
    TxChecks tx ⟨first.destTo, vPrevOutput.map CTxInContxt.ofOut⟩ nForkHeight →
    ReadsFit E s mapTx tx first.destTo
      (CTxContxt.mk first.destTo (vPrevOutput.map CTxInContxt.ofOut)).getValueIn nForkHeight fork

/-- **VerifyTransaction has an answer**: an output to read, and refused values or reads that stay in the signature. -/
theorem verifyTransaction_ne_none_iff (hlen : tx.vchSig.length < 2 ^ 63) {vPrevOutput : List CTxOut} :
    verifyTransaction E s mapTx tx vPrevOutput nForkHeight hashLastBlock fork ≠ none ↔
      vPrevOutput ≠ [] ∧ SignatureFits E s mapTx tx vPrevOutput nForkHeight fork := by
  cases vPrevOutput with
  | nil => simp [verifyTransaction]
  | cons first rest =>
    unfold verifyTransaction SignatureFits
    dsimp only
    rw [← getValueIn_outputs first.destTo, ite_err_ne_none, ite_err_ne_none, ite_err_ne_none, ite_err_ne_none,
      ite_err_ne_none, feeCheck_iff]
    simp only [Bool.not_eq_true', Bool.not_eq_false, List.all_eq_true, Bool.and_eq_true, decide_eq_true_eq, not_lt,
      not_and]
    constructor
    · refine fun h => ⟨List.cons_ne_nil _ _, fun first' hfirst hdest hc => ?_⟩
      obtain rfl : first = first' := Option.some.inj hfirst
      have hin : ∀ o ∈ first :: rest,
          (first.destTo = o.destTo ∧ o.nTxTime ≤ tx.nTimeStamp) ∧ o.isLocked nForkHeight = false := by
        intro o ho
        have hi := hc.inputs _ (List.mem_map_of_mem ho)
        exact ⟨⟨hdest o ho, hi.1⟩, hi.2⟩
      have hanswer := h hin hc.valueIn ⟨hc.fee, hc.noFee, hc.minFee⟩ hc.enough hc.redeem
      rw [← readsFit_iff hlen hashLastBlock]
      split at hanswer
      · rename_i hok
        exact ⟨by rw [hok]; simp, fun _ => hanswer⟩
      · rename_i hne
        exact ⟨hanswer, fun hok => absurd hok hne⟩
    · rintro ⟨-, h⟩ hin hvalue ⟨hfee, hno, hmin⟩ henough hredeem
      have hc : TxChecks tx ⟨first.destTo, (first :: rest).map CTxInContxt.ofOut⟩ nForkHeight := by
        refine ⟨fun i hi => ?_, hvalue, hfee, hno, hmin, henough, hredeem⟩
        obtain ⟨o, ho, rfl⟩ := List.mem_map.1 hi
        exact ⟨(hin o ho).1.2, (hin o ho).2⟩
      have hreads := (readsFit_iff hlen hashLastBlock).2 (h first rfl (fun o ho => (hin o ho).1.1) hc)
      split
      · exact hreads.2 ‹_›
      · exact hreads.1

end

end

end Minemon
