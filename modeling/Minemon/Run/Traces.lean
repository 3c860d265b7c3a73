import Minemon.Core.Authorization
import Minemon.Utxo.TxIndex

/-!
# What a rejected block leaves behind

`AddNew` writes the block, the template data, the pledges and the redeems, and only then finds out that the
block shows a wrong template or mints less than nothing. What was written stays.

* `Checked.failed_cases`: on a run, nothing else makes `AddNew` fail.
* `addNewBlock_traceless_iff`: a rejected block leaves no trace exactly when it fails a check before `AddNew`,
  or has left the same trace before.
-/

namespace Minemon

open CBlockBase

def CBlockBase.fileBlocks (s : CBlockBase) : Set CBlockEx := {b | ∃ nFile nOffset, s.tsBlock nFile nOffset = some b}

structure SameStorage (s s' : CBlockBase) : Prop where
  file : s'.fileBlocks = s.fileBlocks
  index : s'.mapIndex = s.mapIndex
  pledge : s'.dbPledge = s.dbPledge
  redeem : s'.dbRedeem = s.dbRedeem

/-- The template in front of the bytes is that of the address. -/
def ShowsTemplate (E : Env) (dest : CDestination) (vch : List UInt8) : Prop :=
  ∃ t, createTemplatePtr dest.templateType vch = some (some t) ∧ t.getTemplateId E = dest.getTemplateId

/-- The templates of the miner and of exchanges are shown, and the block does not mint less than nothing. -/
structure Consistent (E : Env) (b : CBlockEx) : Prop where
  mint : ShowsTemplate E b.block.txMint.sendTo b.block.txMint.vchSig
  exchange : ∀ t ∈ b.block.vtx.zip b.vTxContxt, isTemplateOf t.2.destIn TEMPLATE_EXCHANGE = true →
    ∀ vchSig, verifyDestRecorded E t.1 = some (some vchSig) → ShowsTemplate E t.2.destIn vchSig
  amount : 0 ≤ b.block.getBlockMint

/-- The store has what `AddNew` would write for the block. -/
structure LeftBefore (E : Env) (s : CBlockBase) (hash : ℕ) (b : CBlockEx) : Prop where
  file : b ∈ s.fileBlocks
  records : ∀ db ctxtPledge ctxtRedeem, updateTxTemplateData E s.dbTemplateData b = some (true, db) →
    updatePledge E { s with dbTemplateData := db } hash b = some (some ctxtPledge) →
    updateRedeem E s hash b = some ctxtRedeem →
    s.dbPledge hash = some ctxtPledge ∧ s.dbRedeem hash = some ctxtRedeem

section

variable {E : Env} {s s1 : CBlockBase} {hash : ℕ} {b : CBlockEx}

theorem SameStorage.refl (s : CBlockBase) : SameStorage s s := ⟨rfl, rfl, rfl, rfl⟩

/-! ## The template data -/

/-- A transaction that pays a reward: it has no signature and no inputs, and a pledge that it pays to is known. -/
structure RewardTx (db : TemplateDB) (t : CTransaction × CTxContxt) : Prop where
  vchSig : t.1.vchSig = []
  destIn : t.2.destIn.isTemplate = false
  sendTo : isTemplateOf t.1.sendTo TEMPLATE_MINTPLEDGE = true → db t.1.sendTo ≠ none

/-- A transaction with a signature that shows the templates, but for an exchange. -/
structure SignedTx (E : Env) (t : CTransaction × CTxContxt) : Prop where
  vchSig : t.1.vchSig ≠ []
  shown : ∃ vchSig, verifyDestRecorded E t.1 = some (some vchSig) ∧ (t.2.destIn.isTemplate = true →
    isTemplateOf t.2.destIn TEMPLATE_EXCHANGE = false → ShowsTemplate E t.2.destIn vchSig)

theorem ShowsTemplate.record {dest : CDestination} {vch : List UInt8} (h : ShowsTemplate E dest vch)
    (db : TemplateDB) : ∃ t db', recordTemplate E db dest vch = some (some (t, db')) := by
  obtain ⟨t, hread, hid⟩ := h
  unfold recordTemplate
  rw [hread]
  exact ⟨t, _, if_neg (not_not.2 hid)⟩

variable {tx : CTransaction}

theorem verifyDestRecorded_some {vchSig : List UInt8} (hsig : tx.vchSig ≠ [])
    (h : verifyDestRecorded E tx = some (some vchSig)) :
    ((tx.sendTo.isTemplate && isDestInRecorded tx.sendTo) = true ∧
      ∃ t dests, createTemplatePtr tx.sendTo.templateType tx.vchSig = some (some t) ∧
        t.getTemplateId E = tx.sendTo.getTemplateId ∧
        getSignDestination t tx.sendTo 0 0 tx.vchSig = some (dests, vchSig)) ∨
    ((tx.sendTo.isTemplate && isDestInRecorded tx.sendTo) = false ∧ vchSig = tx.vchSig) := by
  unfold verifyDestRecorded at h
  rw [if_neg (by simpa using hsig)] at h
  by_cases hsend : (tx.sendTo.isTemplate && isDestInRecorded tx.sendTo) = true
  · left
    rw [if_pos hsend] at h
    split at h
    · simp at h
    · simp at h
    · rename_i t hread
      split_ifs at h with hid
      · simp at h
      · obtain ⟨⟨dests, vch⟩, hsign, rfl⟩ := Option.map_eq_some_iff.1 (Option.some.inj h)
        exact ⟨hsend, t, dests, hread, not_not.1 hid, hsign⟩
  · rw [if_neg hsend] at h
    exact Or.inr ⟨by simpa using hsend, (Option.some.inj (Option.some.inj h)).symm⟩

theorem updateTemplateTx_of_shown {txContxt : CTxContxt} {vchSig : List UInt8} (db : TemplateDB)
    (hsig : tx.vchSig ≠ []) (h : verifyDestRecorded E tx = some (some vchSig))
    (hin : txContxt.destIn.isTemplate = true → ShowsTemplate E txContxt.destIn vchSig) :
    ∃ db', updateTemplateTx E db tx txContxt = some (true, db') := by
  have hdestIn : ∀ db, ∃ db', recordDestIn E db txContxt.destIn vchSig = some (true, db') := by
    intro db
    unfold recordDestIn
    by_cases ht : txContxt.destIn.isTemplate = true
    · obtain ⟨t, db', hrec⟩ := (hin ht).record db
      rw [if_pos ht, hrec]
      exact ⟨db', rfl⟩
    · rw [if_neg ht]
      exact ⟨db, rfl⟩
  unfold updateTemplateTx
  simp only
  rw [if_neg (by simpa using hsig)]
  rcases verifyDestRecorded_some hsig h with ⟨hsend, t, dests, hread, hid, hsign⟩ | ⟨hsend, rfl⟩
  · have hrec : recordTemplate E db tx.sendTo tx.vchSig =
        some (some (t, Function.update db tx.sendTo (some t.buildTemplateData))) := by
      unfold recordTemplate
      rw [hread]
      exact if_neg (not_not.2 hid)
    rw [if_pos hsend, hrec]
    simp only [hsign]
    exact hdestIn _
  · rw [if_neg (by simp [hsend])]
    exact hdestIn db

/-- **The template data of a consistent block is recorded.** -/
theorem updateTxTemplateData_of_consistent {db0 : TemplateDB} (hb : Consistent E b)
    (hmint : isTemplateOf b.block.txMint.sendTo TEMPLATE_PROOF = true)
    (htx : ∀ t ∈ b.block.vtx.zip b.vTxContxt, RewardTx db0 t ∨ SignedTx E t) (db : TemplateDB) :
    ∃ db', updateTxTemplateData E db b = some (true, db') := by
  have htxs : ∀ l : List (CTransaction × CTxContxt), (∀ t ∈ l, t ∈ b.block.vtx.zip b.vTxContxt) → ∀ db,
      ∃ db', updateTemplateTxs E l db = some (true, db') := by
    intro l
    induction l with
    | nil => exact fun _ db => ⟨db, rfl⟩
    | cons t l ih =>
      intro hl db
      have hone : ∃ db', updateTemplateTx E db t.1 t.2 = some (true, db') := by
        have hmem := hl t List.mem_cons_self
        rcases htx t hmem with hr | hsigned
        · unfold updateTemplateTx
          exact ⟨db, if_pos (by simp [hr.vchSig])⟩
        · obtain ⟨vchSig, hrec, hin⟩ := hsigned.shown
          refine updateTemplateTx_of_shown db hsigned.vchSig hrec fun ht => ?_
          by_cases hex : isTemplateOf t.2.destIn TEMPLATE_EXCHANGE = true
          · exact hb.exchange t hmem hex vchSig hrec
          · exact hin ht (by simpa using hex)
      obtain ⟨db1, h1⟩ := hone
      obtain ⟨db', h2⟩ := ih (fun t' ht' => hl t' (List.mem_cons_of_mem _ ht')) db1
      exact ⟨db', by rw [updateTemplateTxs, h1]; exact h2⟩
  obtain ⟨t, db1, hrec⟩ := hb.mint.record db
  obtain ⟨db', h2⟩ := htxs _ (fun t ht => ht) db1
  refine ⟨db', ?_⟩
  have hmint' : (b.block.txMint.sendTo.isTemplate && isDestInRecorded b.block.txMint.sendTo) = true := by
    rw [isDestInRecorded_of_type hmint (Or.inl rfl), (Bool.and_eq_true_iff.1 hmint).1]
    rfl
  unfold updateTxTemplateData
  simp only
  rw [if_pos hmint', hrec]
  exact h2

/-! ## The pledges -/

theorem pledgeTemplate_ne {db : TemplateDB} {dest : CDestination} (hok : ∀ v, db dest = some v → TemplateOK E dest v)
    (hdest : isTemplateOf dest TEMPLATE_MINTPLEDGE = true) (hdb : db dest ≠ none) (vch : List UInt8) :
    pledgeTemplate db dest vch ≠ some none := by
  obtain ⟨v, hv⟩ := Option.ne_none_iff_exists'.1 hdb
  obtain ⟨p, hp⟩ := (hok v hv).pledge (by simpa using (Bool.and_eq_true_iff.1 hdest).2)
  unfold pledgeTemplate
  simp only [hv, hp]
  split_ifs
  · simp
  · split
    · simp
    · assumption

theorem pledgeDestIn_ne {db : TemplateDB} (hok : ∀ d v, db d = some v → TemplateOK E d v) (m : PledgeMap)
    {txContxt : CTxContxt} (hsigned : SignedTx E (tx, txContxt))
    (hrec : Recorded db (tx, txContxt)) : pledgeDestIn db m tx txContxt ≠ some none := by
  unfold pledgeDestIn
  simp only
  by_cases hin : isTemplateOf txContxt.destIn TEMPLATE_MINTPLEDGE = true
  · have hchange : ∀ vch, pledgeTemplate db txContxt.destIn vch ≠ some none := fun vch =>
      pledgeTemplate_ne (hok _) hin ((hrec hsigned.vchSig).2 (Bool.and_eq_true_iff.1 hin).1) vch
    obtain ⟨vchSig, hshown, -⟩ := hsigned.shown
    rw [if_pos hin]
    rcases verifyDestRecorded_some hsigned.vchSig hshown with ⟨hsend, t, dests, hread, -, hsign⟩ | ⟨hsend, rfl⟩
    · rw [if_pos hsend, hread]
      simp only [hsign]
      split
      · simp
      · exact absurd ‹_› (hchange vchSig)
      · simp
    · rw [if_neg (by simp [hsend])]
      split
      · simp
      · exact absurd ‹_› (hchange tx.vchSig)
      · simp
  · rw [if_neg hin]
    simp

/-- **The pledges of a block whose templates are recorded can be summed up.** -/
theorem blockPledges_ne {db : TemplateDB} (hok : ∀ d v, db d = some v → TemplateOK E d v) (nHeight : ℕ)
    (l : List (CTransaction × CTxContxt)) (hl : ∀ t ∈ l, RewardTx db t ∨ SignedTx E t) (hrec : ∀ t ∈ l, Recorded db t)
    (m : PledgeMap) : blockPledges db nHeight l m ≠ some none := by
  induction l generalizing m with
  | nil => simp [blockPledges]
  | cons t l ih =>
    obtain ⟨tx, txContxt⟩ := t
    have ht := hl _ List.mem_cons_self
    have hr := hrec _ List.mem_cons_self
    have hsend : pledgeSendTo db nHeight m tx txContxt ≠ some none := by
      unfold pledgeSendTo
      by_cases hto : isTemplateOf tx.sendTo TEMPLATE_MINTPLEDGE = true
      · have hdb : db tx.sendTo ≠ none := by
          rcases ht with ht | ht
          · exact ht.sendTo hto
          · exact (hr ht.vchSig).1 (isDestInRecorded_of_type hto (Or.inr rfl))
        rw [if_pos hto]
        split
        · simp
        · exact absurd ‹_› (pledgeTemplate_ne (hok _) hto hdb tx.vchSig)
        · simp
      · rw [if_neg hto]
        simp
    have hdest : ∀ m, pledgeDestIn db m tx txContxt ≠ some none := by
      intro m
      rcases ht with ht | ht
      · unfold pledgeDestIn
        simp [isTemplateOf, show txContxt.destIn.isTemplate = false from ht.destIn]
      · exact pledgeDestIn_ne hok m ht hr
    rw [blockPledges]
    split
    · simp
    · exact absurd ‹_› hsend
    · split
      · simp
      · exact absurd ‹_› (hdest _)
      · exact ih (fun t' ht' => hl t' (List.mem_cons_of_mem _ ht'))
          (fun t' ht' => hrec t' (List.mem_cons_of_mem _ ht')) _

theorem PledgeOK.exists_addBlockPledge (hs : PledgeOK s) {hashPrev : ℕ} (hprev : s.mapIndex hashPrev ≠ [])
    (hash : ℕ) (m : PledgeMap) : ∃ ctxt, Minemon.addBlockPledge E s.dbPledge hash hashPrev m = some ctxt := by
  unfold Minemon.addBlockPledge
  split_ifs
  · obtain ⟨full, hfull, -⟩ := hs.getFullPledge hprev
    unfold getFullBlockPledge
    rw [hfull]
    exact ⟨_, rfl⟩
  · obtain ⟨prev, hctxt, -⟩ := hs.getPledge (Or.inr hprev)
    unfold getIncrementBlockPledge
    rw [hctxt]
    simp only
    split_ifs
    · exact ⟨_, rfl⟩
    · exact ⟨_, rfl⟩

/-! ## The redeems -/

/-- Every block of the index has its redeems, in a context that refers to a block of the index or to none. -/
def RedeemOK (s : CBlockBase) : Prop :=
  ∀ h, s.mapIndex h ≠ [] → ∃ ctxt, s.dbRedeem h = some ctxt ∧ (ctxt.hashRef = 0 ∨ s.mapIndex ctxt.hashRef ≠ [])

theorem RedeemOK.getRedeem (hs : RedeemOK s) {h : ℕ} (hh : h = 0 ∨ s.mapIndex h ≠ []) :
    ∃ ctxt, Minemon.getRedeem s.dbRedeem h = some ctxt ∧ (ctxt.hashRef = 0 ∨ s.mapIndex ctxt.hashRef ≠ []) := by
  unfold Minemon.getRedeem
  by_cases h0 : h = 0
  · rw [if_pos h0]
    exact ⟨{}, rfl, Or.inl rfl⟩
  · rw [if_neg h0]
    exact hs h (hh.resolve_left h0)

theorem RedeemOK.exists_addBlockRedeem (hs : RedeemOK s) {hashPrev : ℕ} (hprev : s.mapIndex hashPrev ≠ [])
    (hash : ℕ) (vTxRedeem : List (CDestination × ℤ)) :
    ∃ ctxt, addBlockRedeem E s.dbRedeem hash hashPrev vTxRedeem = some ctxt ∧
      (ctxt.hashRef = 0 ∨ s.mapIndex ctxt.hashRef ≠ []) := by
  obtain ⟨prev, hctxt, href⟩ := hs.getRedeem (Or.inr hprev)
  unfold addBlockRedeem getFullBlockRedeem getIncrementBlockRedeem
  simp only [hctxt]
  by_cases h0 : prev.hashRef = 0
  · simp only [if_pos h0]
    split_ifs
    · exact ⟨_, rfl, Or.inl rfl⟩
    · exact ⟨_, rfl, Or.inr hprev⟩
  · obtain ⟨ref, hr, -⟩ := hs.getRedeem href
    simp only [if_neg h0, hr]
    split_ifs
    · exact ⟨_, rfl, Or.inl rfl⟩
    · exact ⟨_, rfl, href⟩

/-! ## Along a run -/

/-- A transaction that `rewardTx` makes on a store: a pledge that it pays to is known there. -/
structure KnownReward (db : TemplateDB) (tx : CTransaction) : Prop where
  vchSig : tx.vchSig = []
  sendTo : isTemplateOf tx.sendTo TEMPLATE_MINTPLEDGE = true → db tx.sendTo ≠ none

theorem rewardTx_known {dest : CDestination} {nReward : ℤ}
    (h : rewardTx s dest nReward = some (some tx)) : KnownReward s.dbTemplateData tx := by
  obtain ⟨-, sendTo, rfl, ⟨rfl, hdb⟩ | howner⟩ := rewardTx_some h
  · exact ⟨rfl, hdb⟩
  · -- the owner of a pledge is no pledge
    refine ⟨rfl, fun hto => ?_⟩
    rw [not_isTemplateOf_of_isTxSpendable howner (by decide) (by decide)] at hto
    cases hto

variable {P : CBlockChain → CBlock → Prop} {c c' : CBlockChain} {nNetTime : ℤ} {block : CBlock} {err : Errno}

theorem Run.knownRewards (h : Run E P c) :
    Entries (fun _ v => ∀ l ∈ v, ∀ tx ∈ l, KnownReward c.cntrBlock.dbTemplateData tx)
      c.mapCacheDistributePledgeReward := by
  have hmono : ∀ {c c' : CBlockChain} {cache : RewardCache}, Extends E c.cntrBlock c'.cntrBlock →
      Entries (fun _ v => ∀ l ∈ v, ∀ tx ∈ l, KnownReward c.cntrBlock.dbTemplateData tx) cache →
      Entries (fun _ v => ∀ l ∈ v, ∀ tx ∈ l, KnownReward c'.cntrBlock.dbTemplateData tx) cache := by
    intro c c' cache hext hc k v hk l hl tx htx
    have hold := hc k v hk l hl tx htx
    exact ⟨hold.vchSig, fun hto => hext.templ.ne_none (hold.sendTo hto)⟩
  refine h.invariant (I := fun c => Entries (fun _ v => ∀ l ∈ v, ∀ tx ∈ l, KnownReward c.cntrBlock.dbTemplateData tx)
    c.mapCacheDistributePledgeReward) Entries.empty ?_ ?_
  · intro c c' nNetTime block hrun a _ ih
    rw [a.cache_eq]
    exact hmono (a.extends hrun.storeOK)
      (ih.call (fun _ _ _ hv => calcRewardList_all (fun _ _ _ => rewardTx_known) hv) a.rewardList).1
  · intro c c' block hrun r ih
    refine hmono (r.extends hrun.storeOK) ?_
    rcases r.cache with heq | ⟨nPrevBlockTime, o, hcall⟩
    · rw [heq]
      exact ih
    · exact (ih.call (fun _ _ _ hv => calcRewardList_all (fun _ _ _ => rewardTx_known) hv) hcall).1

/-- **The redeems are in order along every run.** -/
theorem Run.redeemOK (h : Run E P c) : RedeemOK c.cntrBlock := by
  have hmono : ∀ {c c' : CBlockChain} {h : ℕ}, Extends E c.cntrBlock c'.cntrBlock → RedeemOK c.cntrBlock →
      c.cntrBlock.mapIndex h ≠ [] → ∃ ctxt, c'.cntrBlock.dbRedeem h = some ctxt ∧
        (ctxt.hashRef = 0 ∨ c'.cntrBlock.mapIndex ctxt.hashRef ≠ []) := by
    intro c c' h hext hs hh
    obtain ⟨ctxt, hctxt, href⟩ := hs h hh
    exact ⟨ctxt, by rw [hext.redeem h hh, hctxt], href.imp_right fun hne => by rw [hext.index _ hne]; exact hne⟩
  refine h.invariant (I := fun c => RedeemOK c.cntrBlock) ?_ ?_ ?_
  · intro h hh
    have hdb : (genesisChain E).cntrBlock.dbRedeem =
        Function.update (fun _ => none) (hashGenesisBlock E) (some {}) := rfl
    by_cases he : h = hashGenesisBlock E
    · exact ⟨{}, by rw [hdb, he, Function.update_self], Or.inl rfl⟩
    · rw [genesis_mapIndex, Function.update_of_ne he] at hh
      exact absurd rfl hh
  · intro c c' nNetTime block hrun a _ ih h hh
    have hext := a.extends hrun.storeOK
    have hprev : c.cntrBlock.mapIndex block.hashPrev ≠ [] := by rw [a.prev]; simp
    by_cases he : h = block.getHash E
    · obtain ⟨ctxtRedeem, hadd, hdb⟩ := a.added.dbRedeem_eq
      obtain ⟨ctxt, hctxt, href⟩ := ih.exists_addBlockRedeem (E := E) hprev (block.getHash E)
        (blockRedeems (block.vtx.zip a.vTxContxt))
      obtain rfl : ctxt = ctxtRedeem := Option.some.inj (hctxt.symm.trans hadd)
      refine ⟨ctxt, ?_, href.imp_right fun hne => by rw [hext.index _ hne]; exact hne⟩
      rw [(a.databases hrun.storeOK).2.1, hdb, he, Function.update_self]
    · rw [a.mapIndex hrun.storeOK, Function.update_of_ne he] at hh
      exact hmono hext ih hh
  · intro c c' block hrun r ih h hh
    rw [r.index] at hh
    exact hmono (r.extends hrun.storeOK) ih hh

/-! ## A block that passed the checks -/

theorem verifyTxSignature_nil {destIn sendTo : CDestination} {hash nForkHeight fork : ℕ} :
    destIn.verifyTxSignature E hash sendTo [] nForkHeight fork ≠ some true := by
  intro h
  have hnil : ∀ k sig, sig <:+: ([] : List UInt8) → E.verify k hash sig = false := by
    intro k sig hsig
    rw [List.eq_nil_of_infix_nil hsig]
    rfl
  by_cases hex : isTemplateOf destIn TEMPLATE_EXCHANGE = true
  · rw [CDestination.verifyTxSignature, if_pos hex] at h
    have hdec : ∃ e, CTemplateExchange.codec.dec [] = .error e := ⟨_, rfl⟩
    obtain ⟨e, he⟩ := hdec
    rw [he] at h
    simp at h
  · have hne : isTemplateOf destIn TEMPLATE_EXCHANGE = false := by simpa using hex
    have hgranted : Granted E hash sendTo nForkHeight fork destIn [] :=
      verifyTxSignatureAt_granted 2 hne ((verifyTxSignature_iff hne).1 h)
    rcases hgranted with ⟨-, hverify⟩ | ⟨-, t, -, -, k, sig, -, hsig, hverify⟩
    · rw [hnil _ _ List.infix_rfl] at hverify
      simp at hverify
    · rw [hnil k sig hsig] at hverify
      simp at hverify

theorem signedTx_of_verified {t : CTransaction × CTxContxt} {nForkHeight fork : ℕ}
    (h : verifyBlockTxSignature E t.1 t.2.destIn nForkHeight fork = some .OK) : SignedTx E t := by
  unfold verifyBlockTxSignature at h
  split at h
  · cases h
  · cases h
  rename_i vchSig hrec
  split at h
  · cases h
  · cases h
  rename_i hverify
  constructor
  · intro hnil
    have : vchSig = [] := by
      simp only [verifyDestRecorded, hnil, List.isEmpty_nil, if_true, Option.some.injEq] at hrec
      exact hrec.symm
    exact verifyTxSignature_nil (this ▸ hverify)
  · refine ⟨vchSig, hrec, fun ht hex => ?_⟩
    obtain ⟨templ, hread, hid, -⟩ := (verifyTxSignatureAt_true_iff ht).1 ((verifyTxSignature_iff hex).1 hverify)
    exact ⟨templ, hread, hid⟩

theorem Checked.txs_sound (k : Checked E nNetTime c block) (hrun : Run E P c) :
    ∀ t ∈ block.vtx.zip k.vTxContxt, RewardTx c.cntrBlock.dbTemplateData t ∨ SignedTx E t := by
  intro t ht
  obtain ⟨new, hnew, hlen, -, hctxt⟩ := checkTxLoop_contexts _ _ _ _ k.txs
  obtain rfl : k.vTxContxt = new := by simpa using hnew
  have hverified := checkTxLoop_verified _ _ _ _ k.vTxContxt k.txs (List.nil_append _).symm
  rw [← List.take_append_drop k.rewards.length (block.vtx.zip k.vTxContxt)] at ht
  rcases List.mem_append.1 ht with hreward | hrest
  · left
    have hforms := getDistributePledgeRewardTxList_forms hrun.cache_forms k.rewardList
    have hknown := hrun.knownRewards.call
      (fun _ _ _ hv => calcRewardList_all (fun _ _ _ => rewardTx_known) hv) k.rewardList
    have hmem : t.1 ∈ k.rewards := by
      rw [List.zip, List.take_zipWith] at hreward
      have h1 := (List.of_mem_zip hreward).1
      rw [(checkTxLoop_rewards _ _ _ _ k.txs).1] at h1
      exact List.mem_of_mem_take h1
    have hinputs : t.1.vInput = [] := ((hforms.2 _ rfl) t.1 hmem).inputs
    have hin : t.2 = {} := by
      obtain ⟨A, C, hsplit⟩ := List.append_of_mem (List.mem_of_mem_take hreward)
      have hget := hctxt A t C hsplit
      unfold getTxContxt at hget
      rw [hinputs] at hget
      exact (Except.ok.inj hget).symm
    have hk : KnownReward c.cntrBlock.dbTemplateData t.1 := by
      rcases hknown.2 _ rfl with hnil | ⟨pEnd, v, -, hv, -, hsel⟩
      · rw [hnil] at hmem
        simp at hmem
      · rw [hsel] at hmem
        obtain ⟨l, hl, tx0, htx0, nTime, heq⟩ := mem_selectRewardList hmem
        rw [heq]
        exact ⟨(hv l hl tx0 htx0).vchSig, (hv l hl tx0 htx0).sendTo⟩
    exact ⟨hk.vchSig, by rw [hin]; rfl, hk.sendTo⟩
  · exact Or.inr (signedTx_of_verified (verifyBlockTx_ok E (hverified t hrest)).2.2)

/-- **On a run AddNew records a consistent block**, and it fails only in the template data or in the amount. -/
theorem Checked.failed_cases (k : Checked E nNetTime c block) (hrun : Run E P c)
    (h : AddNewFailed E c.cntrBlock (block.getHash E) k.b s1) :
    ¬Consistent E k.b ∧
      ((∃ db, updateTxTemplateData E c.cntrBlock.dbTemplateData k.b = some (false, db) ∧
          s1 = { (c.cntrBlock.write k.b).2 with dbTemplateData := db }) ∨
        ∃ db ctxtPledge ctxtRedeem, updateTxTemplateData E c.cntrBlock.dbTemplateData k.b = some (true, db) ∧
          updatePledge E { c.cntrBlock with dbTemplateData := db } (block.getHash E) k.b = some (some ctxtPledge) ∧
          updateRedeem E c.cntrBlock (block.getHash E) k.b = some ctxtRedeem ∧
          s1 = { (c.cntrBlock.write k.b).2 with
            dbTemplateData := db
            dbPledge := Function.update c.cntrBlock.dbPledge (block.getHash E) (some ctxtPledge)
            dbRedeem := Function.update c.cntrBlock.dbRedeem (block.getHash E) (some ctxtRedeem) }) := by
  obtain ⟨-, -, pPrev, hprev, -⟩ := precheckBlock_ok k.precheck
  have hindexed : c.cntrBlock.mapIndex block.hashPrev ≠ [] := by rw [hprev]; simp
  have hsound := k.txs_sound hrun
  -- the pledges of a block whose template data was recorded
  have hpledges : ∀ db, updateTxTemplateData E c.cntrBlock.dbTemplateData k.b = some (true, db) →
      updatePledge E { c.cntrBlock with dbTemplateData := db } (block.getHash E) k.b ≠ some none := by
    intro db ht
    obtain ⟨hrecords, hrec⟩ := updateTxTemplateData_recorded ht
    have hne := blockPledges_ne (hrecords.templateOK hrun.storeOK.templ) block.getBlockHeight
      (block.vtx.zip k.vTxContxt)
      (fun t ht => (hsound t ht).imp_left fun hr => ⟨hr.vchSig, hr.destIn, fun hto => hrecords.ne_none (hr.sendTo hto)⟩)
      (hrec rfl).1 OrdMap.empty
    unfold updatePledge
    split
    · simp
    · exact absurd ‹_› hne
    · rename_i m hm
      obtain ⟨ctxt, hctxt⟩ := hrun.pledgeOK.exists_addBlockPledge (E := E) hindexed (block.getHash E) m
      rw [show addBlockPledge E c.cntrBlock.dbPledge (block.getHash E) k.b.block.hashPrev m = some ctxt from hctxt]
      simp
  cases h with
  | templ ht =>
    refine ⟨fun hcons => ?_, Or.inl ⟨_, ht, rfl⟩⟩
    obtain ⟨db', hok⟩ := updateTxTemplateData_of_consistent hcons (verifyPowRewardTx_true k.pow).sendTo hsound
      c.cntrBlock.dbTemplateData
    rw [hok] at ht
    simp at ht
  | pledge ht hp => exact absurd hp (hpledges _ ht)
  | redeem ht hp hr =>
    obtain ⟨ctxt, hctxt, -⟩ := hrun.redeemOK.exists_addBlockRedeem (E := E) hindexed (block.getHash E)
      (blockRedeems (block.vtx.zip k.vTxContxt))
    rw [show updateRedeem E c.cntrBlock (block.getHash E) k.b = some ctxt from hctxt] at hr
    simp at hr
  | amount ht hp hr hmint =>
    exact ⟨fun hcons => absurd hcons.amount (not_le.2 hmint), Or.inr ⟨_, _, _, ht, hp, hr, rfl⟩⟩

theorem Checked.addNew_of_error (k : Checked E nNetTime c block) (hs : StoreOK E c.cntrBlock)
    (h : addNewBlock E nNetTime c block = some (err, c')) (herr : err ≠ .OK) :
    AddNewFailed E c.cntrBlock (block.getHash E) k.b c'.cntrBlock := by
  obtain ⟨hfresh, -, pPrev, -, hverify, -⟩ := precheckBlock_ok k.precheck
  have hrej : Rejected E c block c' := ((addNewBlock_cases_ok hs h).resolve_left fun hok => herr hok.1).2
  rw [k.addNewBlock_eq, Option.map_eq_some_iff] at h
  obtain ⟨⟨err', s'⟩, hstore, heq⟩ := h
  obtain ⟨rfl, rfl⟩ := Prod.mk.inj heq
  rcases storeBlock_cases hstore with
    ⟨nChainTrust, ptr, s1, -, ⟨a⟩, ⟨hok, -⟩ | ⟨-, ⟨hok, -⟩ | ⟨-, hcommit⟩⟩⟩ | ⟨-, ⟨-, hknown | htrust⟩ | ⟨-, hfailed⟩⟩
  · exact absurd hok herr
  · exact absurd hok herr
  · -- a commit that fails leaves the entry of the block behind
    have hs' : s' = s1 := by
      unfold commitBlockView at hcommit
      split at hcommit
      · simp at hcommit
      · simpa using hcommit.symm
      · simp at hcommit
    have hentry : s1.mapIndex (block.getHash E) = ptr := by
      rw [a.state]
      exact Function.update_self _ _ _
    have hempty : s1.mapIndex (block.getHash E) = [] := by
      rw [← hs']
      exact (congrFun hrej.index _).trans hfresh
    rw [hempty, a.entry] at hentry
    simp at hentry
  · exact absurd hfresh hknown
  · -- the trust of a primary block with proof of work is defined
    unfold getBlockTrust at htrust
    have hwork : k.b.block.isProofOfWork = true := beq_iff_eq.2 (verifyPowRewardTx_true k.pow).type
    rw [if_neg (by simp [show k.b.block.isPrimary = true from (verifyBlock_ok hverify).2.1]),
      if_neg (by simp [hwork])] at htrust
    simp at htrust
  · exact hfailed

theorem fileBlocks_write (hs : CursorOK s) (b : CBlockEx) : (s.write b).2.fileBlocks = insert b s.fileBlocks := by
  ext b'
  constructor
  · rintro ⟨f, o, hb⟩
    rw [write_tsBlock] at hb
    split_ifs at hb
    · exact Or.inl (Option.some.inj hb).symm
    · exact Or.inr ⟨f, o, hb⟩
  · rintro (rfl | ⟨f, o, hb⟩)
    · exact ⟨_, _, by rw [write_tsBlock, if_pos ⟨rfl, rfl⟩]⟩
    · refine ⟨f, o, ?_⟩
      rw [write_tsBlock, if_neg]
      · exact hb
      · rintro ⟨rfl, rfl⟩
        rw [hs.write_free b] at hb
        simp at hb

theorem Checked.sameStorage_iff (k : Checked E nNetTime c block) (hrun : Run E P c)
    (h : addNewBlock E nNetTime c block = some (err, c')) (herr : err ≠ .OK) :
    SameStorage c.cntrBlock c'.cntrBlock ↔ Consistent E k.b ∨ LeftBefore E c.cntrBlock (block.getHash E) k.b := by
  have hs := hrun.storeOK
  have hinsert := fileBlocks_write hs.cursor k.b
  obtain ⟨hnot, hstate⟩ := k.failed_cases hrun (k.addNew_of_error hs h herr)
  rw [or_iff_right hnot]
  rcases hstate with ⟨db, ht, hc'⟩ | ⟨db, ctxtPledge, ctxtRedeem, ht, hp, hr, hc'⟩
  · rw [hc']
    constructor
    · intro hsame
      refine ⟨?_, fun db' _ _ ht' => ?_⟩
      · have hfile : (c.cntrBlock.write k.b).2.fileBlocks = c.cntrBlock.fileBlocks := hsame.file
        rw [← hfile, hinsert]
        exact Set.mem_insert _ _
      · rw [ht] at ht'
        simp at ht'
    · exact fun hleft => ⟨hinsert.trans (Set.insert_eq_of_mem hleft.file), rfl, rfl, rfl⟩
  · rw [hc']
    constructor
    · intro hsame
      refine ⟨?_, fun db' ctxtPledge' ctxtRedeem' ht' hp' hr' => ?_⟩
      · have hfile : (c.cntrBlock.write k.b).2.fileBlocks = c.cntrBlock.fileBlocks := hsame.file
        rw [← hfile, hinsert]
        exact Set.mem_insert _ _
      · obtain rfl : db = db' := by simpa [ht] using ht'
        obtain rfl : ctxtPledge = ctxtPledge' := by simpa [hp] using hp'
        obtain rfl : ctxtRedeem = ctxtRedeem' := by simpa [hr] using hr'
        exact ⟨(congrFun hsame.pledge _).symm.trans (Function.update_self _ _ _),
          (congrFun hsame.redeem _).symm.trans (Function.update_self _ _ _)⟩
    · intro hleft
      obtain ⟨h1, h2⟩ := hleft.records db ctxtPledge ctxtRedeem ht hp hr
      refine ⟨hinsert.trans (Set.insert_eq_of_mem hleft.file), rfl, ?_, ?_⟩
      · show Function.update _ _ _ = _
        rw [← h1, Function.update_eq_self]
      · show Function.update _ _ _ = _
        rw [← h2, Function.update_eq_self]

/-- **A rejected block leaves no trace in storage** exactly when it fails a check before it is given to
`AddNew`, or shows the right templates and a right amount, or when the same trace was there before. -/
theorem addNewBlock_traceless_iff (hrun : Run E P c) (h : addNewBlock E nNetTime c block = some (err, c'))
    (herr : err ≠ .OK) :
    SameStorage c.cntrBlock c'.cntrBlock ↔
      ∀ k : Checked E nNetTime c block, Consistent E k.b ∨ LeftBefore E c.cntrBlock (block.getHash E) k.b := by
  constructor
  · exact fun hsame k => (k.sameStorage_iff hrun h herr).1 hsame
  · intro hall
    rcases addNewBlock_checked h with ⟨-, hsame, -⟩ | ⟨⟨k⟩⟩
    · rw [hsame]
      exact SameStorage.refl _
    · exact (k.sameStorage_iff hrun h herr).2 (hall k)

end

/-! ## On the toy network -/

/-- A first block that declares a pledge reward of minus one thousand coins. -/
def toyDebt : CBlock := toyBlock toyMiner (genesisChain toyEnv) (-1000 * COIN) []

theorem toyDebt_rejected :
    ∃ err c', addNewBlock toyEnv toyDebt.nTimeStamp (genesisChain toyEnv) toyDebt = some (err, c') ∧ err ≠ .OK ∧
      ¬SameStorage (genesisChain toyEnv).cntrBlock c'.cntrBlock := by
  have hcall : (addNewBlock toyEnv toyDebt.nTimeStamp (genesisChain toyEnv) toyDebt).map (fun r =>
      (decide (r.1 = .OK), ((genesisChain toyEnv).cntrBlock.dbPledge (toyDebt.getHash toyEnv)).isSome,
        (r.2.cntrBlock.dbPledge (toyDebt.getHash toyEnv)).isSome)) = some (false, false, true) := by decide +kernel
  obtain ⟨⟨err, c'⟩, hadd, hr⟩ := Option.map_eq_some_iff.1 hcall
  simp only [Prod.mk.injEq, decide_eq_false_iff_not] at hr
  obtain ⟨herr, hbefore, hafter⟩ := hr
  refine ⟨err, c', hadd, herr, fun hsame => ?_⟩
  rw [hsame.pledge, hbefore] at hafter
  simp at hafter

/-- The block passes every check before `AddNew`. -/
theorem addNewBlock_traceless_toy :
    ∃ k : Checked toyEnv toyDebt.nTimeStamp (genesisChain toyEnv) toyDebt, ¬Consistent toyEnv k.b ∧
      ¬LeftBefore toyEnv (genesisChain toyEnv).cntrBlock (toyDebt.getHash toyEnv) k.b := by
  obtain ⟨err, c', hadd, herr, hnot⟩ := toyDebt_rejected
  have hrun : Run toyEnv (fun _ _ => True) (genesisChain toyEnv) := .genesis
  rw [addNewBlock_traceless_iff hrun hadd herr] at hnot
  simpa only [not_forall, not_or] using hnot

/-- **A rejected block stays in storage.** -/
theorem addNewBlock_leaves_trace :
    ∃ (nNetTime : ℤ) (c c' : CBlockChain) (block : CBlock) (err : Errno), Run toyEnv (fun _ _ => True) c ∧
      addNewBlock toyEnv nNetTime c block = some (err, c') ∧ err ≠ .OK ∧
      ¬SameStorage c.cntrBlock c'.cntrBlock := by
  obtain ⟨err, c', hadd, herr, hnot⟩ := toyDebt_rejected
  exact ⟨_, _, c', toyDebt, err, .genesis, hadd, herr, hnot⟩

end Minemon
