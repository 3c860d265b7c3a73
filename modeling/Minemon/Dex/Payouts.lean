import Minemon.Signing.Answered

/-!
# The payouts of a match

While its seller is valid, the amount of a DEX match is paid out by three transactions: to the buyer, to the matcher
and to the address of the deal. `VerifyDexMatchTx` computes what each of them must spend and pay from the match
alone.

* `MatchTerms.sharesFit`: the two shares of a match leave something for the deal.
* `matchPayouts_exact`: three accepted payouts use up the match amount.
-/

namespace Minemon

/-! ## Shares -/

structure MatchTerms (m : CTemplateDexMatch) : Prop where
  least : TNS_DEX_MIN_TX_FEE * 3 + TNS_DEX_MIN_MATCH_AMOUNT ≤ m.nMatchAmount
  most : m.nMatchAmount ≤ TNS_DEX_MAX_MATCH_TOKEN * COIN
  fee : 1 < m.nFee
  fee_lt : m.nFee < FEE_PRECISION

/-- No product of a share overflows, and the shares of the buyer and the matcher fit in the amount less the fees. -/
structure SharesFit (m : CTemplateDexMatch) : Prop where
  amount : 0 ≤ m.nMatchAmount - TNS_DEX_MIN_TX_FEE * 3
  buyer_lt : (m.nMatchAmount - TNS_DEX_MIN_TX_FEE * 3) * (FEE_PRECISION - m.nFee) < 2 ^ 64
  reward_lt : (m.nMatchAmount - TNS_DEX_MIN_TX_FEE * 3) * m.nFee.tdiv 2 < 2 ^ 64
  buyer : 0 ≤ matchShare m.nMatchAmount (FEE_PRECISION - m.nFee)
  reward : 0 ≤ matchShare m.nMatchAmount (m.nFee.tdiv 2)
  sum_le : matchShare m.nMatchAmount (FEE_PRECISION - m.nFee) + matchShare m.nMatchAmount (m.nFee.tdiv 2)
    ≤ m.nMatchAmount - TNS_DEX_MIN_TX_FEE * 3

section

variable {nMatchAmount nRate : ℤ}

theorem matchShare_eq (hamount : 0 ≤ nMatchAmount - TNS_DEX_MIN_TX_FEE * 3) (hrate : 0 ≤ nRate)
    (hfits : (nMatchAmount - TNS_DEX_MIN_TX_FEE * 3) * nRate < 2 ^ 64) :
    matchShare nMatchAmount nRate = (nMatchAmount - TNS_DEX_MIN_TX_FEE * 3) * nRate / FEE_PRECISION := by
  unfold matchShare
  generalize nMatchAmount - TNS_DEX_MIN_TX_FEE * 3 = x at hamount hfits ⊢
  have hprod : 0 ≤ x * nRate := mul_nonneg hamount hrate
  rw [Int.mul_emod, Int.emod_emod, ← Int.mul_emod, Int.emod_eq_of_lt hprod hfits]
  apply wrap64_eq
  unfold Fits64 FEE_PRECISION
  omega

theorem share_lt (hmost : nMatchAmount ≤ TNS_DEX_MAX_MATCH_TOKEN * COIN) (hrate : 0 ≤ nRate)
    (hle : nRate ≤ FEE_PRECISION) : (nMatchAmount - TNS_DEX_MIN_TX_FEE * 3) * nRate < 2 ^ 64 := by
  unfold TNS_DEX_MAX_MATCH_TOKEN COIN at hmost
  unfold FEE_PRECISION at hle
  unfold TNS_DEX_MIN_TX_FEE
  calc (nMatchAmount - 10000 * 3) * nRate
      ≤ (1844674407 * 1000000) * nRate := by
        apply mul_le_mul_of_nonneg_right _ hrate
        omega
    _ ≤ (1844674407 * 1000000) * 10000 := by
        apply mul_le_mul_of_nonneg_left hle
        omega
    _ < 2 ^ 64 := by decide

theorem ediv_add_ediv_le {x r s p : ℤ} (hx : 0 ≤ x) (hp : 0 < p) (hrs : r + s ≤ p) : x * r / p + x * s / p ≤ x := by
  have hr : x * r / p * p ≤ x * r := Int.ediv_mul_le _ hp.ne'
  have hs : x * s / p * p ≤ x * s := Int.ediv_mul_le _ hp.ne'
  have hsum : (x * r / p + x * s / p) * p ≤ x * p := by
    calc (x * r / p + x * s / p) * p = x * r / p * p + x * s / p * p := add_mul _ _ _
      _ ≤ x * r + x * s := add_le_add hr hs
      _ = x * (r + s) := (mul_add _ _ _).symm
      _ ≤ x * p := mul_le_mul_of_nonneg_left hrs hx
  exact le_of_mul_le_mul_right hsum hp

end

theorem MatchTerms.sharesFit {m : CTemplateDexMatch} (h : MatchTerms m) : SharesFit m := by
  have hleast := h.least
  have hfee := h.fee
  have hlt := h.fee_lt
  have hamount : 0 ≤ m.nMatchAmount - TNS_DEX_MIN_TX_FEE * 3 := by
    unfold TNS_DEX_MIN_MATCH_AMOUNT at hleast
    omega
  have hhalf : m.nFee.tdiv 2 = m.nFee / 2 := Int.tdiv_eq_ediv_of_nonneg (by omega)
  have hbuyer : 0 ≤ FEE_PRECISION - m.nFee := by omega
  have hreward : 0 ≤ m.nFee.tdiv 2 := by omega
  have hb := share_lt h.most hbuyer (by omega)
  have hr := share_lt h.most hreward (by omega)
  have hpos : 0 < FEE_PRECISION := by decide
  have heqb := matchShare_eq hamount hbuyer hb
  have heqr := matchShare_eq hamount hreward hr
  refine ⟨hamount, hb, hr, ?_, ?_, ?_⟩
  · rw [heqb]
    exact Int.ediv_nonneg (mul_nonneg hamount hbuyer) hpos.le
  · rw [heqr]
    exact Int.ediv_nonneg (mul_nonneg hamount hreward) hpos.le
  · rw [heqb, heqr]
    exact ediv_add_ediv_le hamount hpos (by omega)

/-! ## Accepted transactions -/

/-- The transaction of an order that pays the amount of the match. -/
structure FundsMatch (E : Env) (m : CTemplateDexMatch) (tx : CTransaction) (destIn : CDestination) (nHeight : ℕ) :
    Prop where
  sendTo : isTemplateOf tx.sendTo TEMPLATE_DEXMATCH = true
  shown : createTemplatePtr TEMPLATE_DEXMATCH tx.vchSig = some (some (.dexmatch m))
  ok : verifyDexOrderTx E tx destIn nHeight = some .OK

/-- A transaction to `dest` that shows the match and that `VerifyDexMatchTx` accepts while the seller is valid. -/
structure AcceptedPayout (E : Env) (m : CTemplateDexMatch) (dest : CDestination) (tx : CTransaction) (nValueIn : ℤ)
    (nHeight : ℕ) : Prop where
  sendTo : tx.sendTo = dest
  shown : ∃ vchSig, verifyDestRecorded E tx = some (some vchSig) ∧
    createTemplatePtr TEMPLATE_DEXMATCH vchSig = some (some (.dexmatch m))
  valid : (nHeight : ℤ) ≤ m.nSellerValidHeight
  ok : verifyDexMatchTx E tx nValueIn nHeight = some .OK

section

variable {E : Env} {m : CTemplateDexMatch} {tx : CTransaction} {dest destIn : CDestination} {nValueIn : ℤ}
  {nHeight : ℕ}

theorem FundsMatch.least (h : FundsMatch E m tx destIn nHeight) :
    TNS_DEX_MIN_TX_FEE * 3 + TNS_DEX_MIN_MATCH_AMOUNT ≤ m.nMatchAmount := by
  have hok := h.ok
  by_contra hlt
  have hbad : tx.nAmount ≠ m.nMatchAmount ∨ tx.nAmount < TNS_DEX_MIN_TX_FEE * 3 + TNS_DEX_MIN_MATCH_AMOUNT := by
    omega
  unfold verifyDexOrderTx at hok
  simp only [if_pos h.sendTo, h.shown, Bool.or_eq_true, decide_eq_true_eq, if_pos hbad, ite_self] at hok
  -- the amount is checked behind everything that could refuse before
  repeat' split at hok
  all_goals cases hok

theorem matchTerms_of_funds (hvalid : m.validateParam = true) (h : FundsMatch E m tx destIn nHeight) :
    MatchTerms m := by
  simp only [CTemplateDexMatch.validateParam, Bool.and_eq_true, decide_eq_true_eq] at hvalid
  constructor
  · exact h.least
  all_goals tauto

theorem AcceptedPayout.due (h : AcceptedPayout E m dest tx nValueIn nHeight) :
    matchPayout m dest m.destSellerDeal nValueIn = some (nValueIn, tx.nAmount) ∧ tx.nTxFee = TNS_DEX_MIN_TX_FEE := by
  have ⟨vchSig, hrec, hptr⟩ := h.shown
  have hdue : PayoutDue tx nValueIn nHeight m := by
    by_contra hdue
    have hok := h.ok
    rw [(verifyDexMatchTx_valid hrec hptr h.valid).2 hdue] at hok
    cases hok
  exact ⟨h.sendTo ▸ hdue.payout, hdue.fee⟩

end

/-! ## The three payouts -/

section

variable {m : CTemplateDexMatch} {dest destDeal : CDestination} {nValueIn nAmount : ℤ}

theorem MatchTerms.wrap64_left (h : MatchTerms m) {x : ℤ} (h0 : 0 ≤ x) (hle : x ≤ m.nMatchAmount) : wrap64 x = x := by
  have hmost := h.most
  unfold TNS_DEX_MAX_MATCH_TOKEN COIN at hmost
  exact wrap64_eq (fits64_of_nonneg h0 (by omega))

/-- A payout that leaves its input alone asks for one of three inputs. -/
theorem matchPayout_cases (hterms : MatchTerms m)
    (h : matchPayout m dest destDeal nValueIn = some (nValueIn, nAmount)) :
    (nValueIn = m.nMatchAmount ∧ nAmount = matchShare m.nMatchAmount (FEE_PRECISION - m.nFee)) ∨
    (nValueIn = m.nMatchAmount - matchShare m.nMatchAmount (FEE_PRECISION - m.nFee) - TNS_DEX_MIN_TX_FEE ∧
      nAmount = matchShare m.nMatchAmount (m.nFee.tdiv 2)) ∨
    (dest ≠ m.destMatch ∧ nValueIn = m.nMatchAmount - matchShare m.nMatchAmount (FEE_PRECISION - m.nFee)
      - matchShare m.nMatchAmount (m.nFee.tdiv 2) - TNS_DEX_MIN_TX_FEE * 2 ∧
        nAmount = nValueIn - TNS_DEX_MIN_TX_FEE) := by
  have ⟨_, _, _, hbuyer, hreward, hsum⟩ := hterms.sharesFit
  have hfee : 0 < TNS_DEX_MIN_TX_FEE := by decide
  unfold matchPayout at h
  split_ifs at h with h1 h2 h3 <;> simp only [Option.some.injEq, Prod.mk.injEq] at h
  · exact Or.inl ⟨h.1.symm, h.2.symm⟩
  · rw [hterms.wrap64_left (by omega) (by omega)] at h
    exact Or.inr (Or.inl ⟨h.1.symm, h.2.symm⟩)
  · rw [hterms.wrap64_left (by omega) (by omega)] at h
    have hpay := h.2
    rw [← h.1, hterms.wrap64_left (by omega) (by omega)] at hpay
    exact Or.inr (Or.inr ⟨h2, h.1.symm, by rw [← h.1, hpay]⟩)

end

section

variable {E : Env} {m : CTemplateDexMatch} {txOrder txBuyer txMatch txDeal : CTransaction} {destOrder : CDestination}
  {nValueIn : ℤ} {nOrder nBuyer nMatch nDeal : ℕ}

/-- **The payouts of a match use up its amount.** An order has paid the amount of a match, and the payouts to the
buyer, the matcher and the deal are accepted one after the other, each on the change of the one before. Then their
amounts are not negative, each input that is asked for is the change to the unit, the amounts and the three fees add up
to the match amount, and no product of the shares overflows. -/
theorem matchPayouts_exact (hvalid : m.validateParam = true) (horder : FundsMatch E m txOrder destOrder nOrder)
    (hbuyer : AcceptedPayout E m m.destBuyer txBuyer nValueIn nBuyer)
    (hmatch : AcceptedPayout E m m.destMatch txMatch (txBuyer.getChange nValueIn) nMatch)
    (hdeal : AcceptedPayout E m m.destSellerDeal txDeal (txMatch.getChange (txBuyer.getChange nValueIn)) nDeal) :
    (0 ≤ txBuyer.nAmount ∧ 0 ≤ txMatch.nAmount ∧ 0 ≤ txDeal.nAmount) ∧
    (matchPayout m m.destBuyer m.destSellerDeal nValueIn = some (m.nMatchAmount, txBuyer.nAmount) ∧
      nValueIn = m.nMatchAmount) ∧
    (matchPayout m m.destMatch m.destSellerDeal (txBuyer.getChange nValueIn)
        = some (nValueIn - txBuyer.nAmount - txBuyer.nTxFee, txMatch.nAmount) ∧
      txBuyer.getChange nValueIn = nValueIn - txBuyer.nAmount - txBuyer.nTxFee) ∧
    (matchPayout m m.destSellerDeal m.destSellerDeal (txMatch.getChange (txBuyer.getChange nValueIn))
        = some (txBuyer.getChange nValueIn - txMatch.nAmount - txMatch.nTxFee, txDeal.nAmount) ∧
      txMatch.getChange (txBuyer.getChange nValueIn)
        = txBuyer.getChange nValueIn - txMatch.nAmount - txMatch.nTxFee) ∧
    txBuyer.nAmount + txMatch.nAmount + txDeal.nAmount + 3 * TNS_DEX_MIN_TX_FEE = m.nMatchAmount ∧
    0 ≤ m.nMatchAmount - TNS_DEX_MIN_TX_FEE * 3 ∧
    (m.nMatchAmount - TNS_DEX_MIN_TX_FEE * 3) * (FEE_PRECISION - m.nFee) < 2 ^ 64 ∧
    (m.nMatchAmount - TNS_DEX_MIN_TX_FEE * 3) * m.nFee.tdiv 2 < 2 ^ 64 := by
  have hterms := matchTerms_of_funds hvalid horder
  have ⟨hamount, hlt, hlt', hb, hr, hsum⟩ := hterms.sharesFit
  have hpos : 0 < TNS_DEX_MIN_TX_FEE := by decide
  have ⟨hpay, hfee⟩ := hbuyer.due
  have ⟨hvalue, hbuyerAmount⟩ := Prod.mk.inj (Option.some.inj (hpay.symm.trans (if_pos rfl)))
  have hchange : txBuyer.getChange nValueIn = nValueIn - txBuyer.nAmount - txBuyer.nTxFee :=
    hterms.wrap64_left (by omega) (by omega)
  have ⟨hpay', hfee'⟩ := hmatch.due
  have ⟨hvalue', hmatchAmount⟩ :=
    ((matchPayout_cases hterms hpay').resolve_left (by omega)).resolve_right fun h => h.1 rfl
  have hchange' : txMatch.getChange (txBuyer.getChange nValueIn)
      = txBuyer.getChange nValueIn - txMatch.nAmount - txMatch.nTxFee :=
    hterms.wrap64_left (by omega) (by omega)
  have ⟨hpay'', _⟩ := hdeal.due
  have ⟨_, hvalue'', hdealAmount⟩ :=
    ((matchPayout_cases hterms hpay'').resolve_left (by omega)).resolve_left (by omega)
  refine ⟨⟨by omega, by omega, by omega⟩, ⟨hvalue ▸ hpay, hvalue⟩, ⟨?_, hchange⟩, ⟨?_, hchange'⟩, by omega, hamount,
    hlt, hlt'⟩
  · rw [← hchange, hpay']
  · rw [← hchange', hpay'']

end

/-! ### On the toy network -/

/-- An order that gives 3 of 10000 away, half of it to the matcher. -/
def toyOrder : CTemplateDexOrder where
  destSeller := ⟨CDestination.PREFIX_PUBKEY, 7⟩
  vCoinPair := [1]
  nPrice := 1
  nFee := 3
  vRecvDest := [1]
  nValidHeight := 2
  destMatch := ⟨CDestination.PREFIX_PUBKEY, 5⟩
  vDealDest := [1]
  nTimeStamp := 1

def toyOrderDest : CDestination := ⟨CDestination.PREFIX_TEMPLATE, (CTemplate.dexorder toyOrder).getTemplateId toyEnv⟩

def toyDexMatch : CTemplateDexMatch where
  destMatch := toyOrder.destMatch
  vCoinPair := [1]
  nFinalPrice := 1
  nMatchAmount := 1000000
  nFee := 3
  hashSecret := 1
  encSecret := [1]
  destSellerOrder := toyOrderDest
  destSeller := toyOrder.destSeller
  destSellerDeal := ⟨CDestination.PREFIX_PUBKEY, 9⟩
  nSellerValidHeight := 2
  destBuyer := ⟨CDestination.PREFIX_PUBKEY, 3⟩
  vBuyerAmount := [1]
  hashBuyerSecret := 1
  nBuyerValidHeight := 2

def toyOrderTx : CTransaction where
  sendTo := ⟨CDestination.PREFIX_TEMPLATE, (CTemplate.dexmatch toyDexMatch).getTemplateId toyEnv⟩
  nAmount := 1000000
  vchSig := (CTemplate.dexmatch toyDexMatch).buildTemplateData ++ (CTemplate.dexorder toyOrder).buildTemplateData

def toyPayout (dest : CDestination) (nAmount : ℤ) : CTransaction where
  sendTo := dest
  nAmount := nAmount
  nTxFee := TNS_DEX_MIN_TX_FEE
  vchSig := (CTemplate.dexmatch toyDexMatch).buildTemplateData ++ threeBytes.enc ([], [1], [])

theorem toyDexMatch_inRange : (CTemplate.dexmatch toyDexMatch).InRange := by
  have hid : toyOrderDest.data < 256 ^ 32 := CTemplate.getTemplateId_lt toyEnv (.dexorder toyOrder)
  simp only [CTemplate.InRange, CTemplateDexMatch.codec, Codec.iso, Format.iso, Codec.pair, Format.pair, Codec.bytes,
    Codec.uint, Codec.int, CDestination.codec]
  exact ⟨by decide, by decide, by decide, by decide, by decide, by decide, by decide, ⟨by decide, hid⟩, by decide⟩

theorem toyDexMatch_validateParam : toyDexMatch.validateParam = true := by decide +kernel

theorem toyDexMatch_shown (rest : List UInt8) :
    createTemplatePtr TEMPLATE_DEXMATCH ((CTemplate.dexmatch toyDexMatch).buildTemplateData ++ rest) =
      some (some (.dexmatch toyDexMatch)) :=
  createTemplatePtr_append toyDexMatch_inRange toyDexMatch_validateParam rest

theorem toyOrderTx_funds : FundsMatch toyEnv toyDexMatch toyOrderTx toyOrderDest 1 :=
  ⟨by decide +kernel, toyDexMatch_shown _, by decide +kernel⟩

theorem toyPayout_accepted (nAmount nValueIn : ℤ) {dest : CDestination}
    (hrec : verifyDestRecorded toyEnv (toyPayout dest nAmount) = some (some (toyPayout dest nAmount).vchSig))
    (hok : verifyDexMatchTx toyEnv (toyPayout dest nAmount) nValueIn 1 = some .OK) :
    AcceptedPayout toyEnv toyDexMatch dest (toyPayout dest nAmount) nValueIn 1 :=
  ⟨rfl, ⟨_, hrec, toyDexMatch_shown _⟩, by decide, hok⟩

theorem matchPayouts_exact_toy :
    (969709 : ℤ) + 97 + 194 + 3 * TNS_DEX_MIN_TX_FEE = toyDexMatch.nMatchAmount := by
  have h := matchPayouts_exact toyDexMatch_validateParam toyOrderTx_funds
    (toyPayout_accepted 969709 1000000 (by decide +kernel) (by decide +kernel))
    (toyPayout_accepted 97 _ (by decide +kernel) (by decide +kernel))
    (toyPayout_accepted 194 _ (by decide +kernel) (by decide +kernel))
  exact h.2.2.2.2.1

end Minemon
