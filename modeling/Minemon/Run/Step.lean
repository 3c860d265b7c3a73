import Minemon.Chain.AddNewBlock

/-!
# One call of AddNewBlock

What the checks of `AddNewBlock` leave behind, said once for all that is proved about runs.

* `Added`: what `AddNew` did when it stored a block; `Touched`: what it may have changed when it failed.
* `Checked`: a block that passed every check before it is stored; `Accepted`: everything about a block that
  was accepted.
* `addNewBlock_cases`: a call accepts the block, or it leaves the index as it was.
-/

namespace Minemon

open CBlockBase

section

variable {E : Env}

/-! ## AddNew -/

/-- `AddNew` with its parts, for a block that it stored. -/
structure Added (E : Env) (s : CBlockBase) (hash : ℕ) (b : CBlockEx) (nChainTrust : ℕ)
    (pIndexNew : CBlockIndexPtr) (s1 : CBlockBase) where
  db : CDestination → Option (List UInt8)
  mapBlockPledge : PledgeMap
  ctxtPledge : CPledgeContext
  dbRedeem : ℕ → Option CRedeemContext
  fresh : s.mapIndex hash = []
  templ : updateTxTemplateData E s.dbTemplateData b = some (true, db)
  pledges : blockPledges db b.block.getBlockHeight (b.block.vtx.zip b.vTxContxt) OrdMap.empty =
    some (some mapBlockPledge)
  pledge : addBlockPledge E s.dbPledge hash b.block.hashPrev mapBlockPledge = some ctxtPledge
  redeem : ∃ ctxtRedeem, addBlockRedeem E s.dbRedeem hash b.block.hashPrev
      (blockRedeems (b.block.vtx.zip b.vTxContxt)) = some ctxtRedeem ∧
    dbRedeem = Function.update s.dbRedeem hash (some ctxtRedeem)
  mint : 0 ≤ b.block.getBlockMint
  entry : pIndexNew =
    newIndex E hash b.block (s.write b).1.1 (s.write b).1.2 nChainTrust b.block.getBlockMint
      (s.mapIndex b.block.hashPrev) :: s.mapIndex b.block.hashPrev
  state : s1 =
    { (s.write b).2 with
      dbTemplateData := db
      dbPledge := Function.update s.dbPledge hash (some ctxtPledge)
      dbRedeem := dbRedeem
      mapIndex := Function.update s.mapIndex hash pIndexNew }

/-- What `AddNew` changes at most, on its way to success or failure. -/
structure Touched (E : Env) (s : CBlockBase) (hash : ℕ) (b : CBlockEx) (s1 : CBlockBase) : Prop where
  tsBlock : s1.tsBlock = (s.write b).2.tsBlock
  nLastFile : s1.nLastFile = (s.write b).2.nLastFile
  nLastFileSize : s1.nLastFileSize = (s.write b).2.nLastFileSize
  templ : ∃ fOk, updateTxTemplateData E s.dbTemplateData b = some (fOk, s1.dbTemplateData)
  pledge : ∀ h, h ≠ hash → s1.dbPledge h = s.dbPledge h
  redeem : ∀ h, h ≠ hash → s1.dbRedeem h = s.dbRedeem h
  index : ∀ h, h ≠ hash → s1.mapIndex h = s.mapIndex h
  hashFork : s1.hashFork = s.hashFork
  pIndexLast : s1.pIndexLast = s.pIndexLast
  dbTxIndex : s1.dbTxIndex = s.dbTxIndex
  dbUnspent : s1.dbUnspent = s.dbUnspent

variable {pIndexNew : CBlockIndexPtr} {nChainTrust : ℕ} {hash : ℕ} {s : CBlockBase} {view : CBlockView}

section

variable {s s1 : CBlockBase} {b : CBlockEx} (a : Added E s hash b nChainTrust pIndexNew s1)

include a

theorem Added.touched : Touched E s hash b s1 := by
  obtain ⟨db, m, ctxt, dbR, -, ht, -, -, ⟨ctxtRedeem, -, rfl⟩, -, -, rfl⟩ := a
  exact ⟨rfl, rfl, rfl, ⟨true, ht⟩, fun h hne => Function.update_of_ne hne _ _,
    fun h hne => Function.update_of_ne hne _ _, fun h hne => Function.update_of_ne hne _ _, rfl, rfl, rfl, rfl⟩

theorem Added.dbPledge :
    s1.dbPledge = Function.update s.dbPledge hash (some a.ctxtPledge) := congrArg CBlockBase.dbPledge a.state

theorem Added.dbRedeem_eq :
    ∃ ctxtRedeem, addBlockRedeem E s.dbRedeem hash b.block.hashPrev
        (blockRedeems (b.block.vtx.zip b.vTxContxt)) = some ctxtRedeem ∧
      s1.dbRedeem = Function.update s.dbRedeem hash (some ctxtRedeem) := by
  obtain ⟨ctxtRedeem, hctxt, hdb⟩ := a.redeem
  exact ⟨ctxtRedeem, hctxt, (congrArg CBlockBase.dbRedeem a.state).trans hdb⟩

theorem Added.dbTemplateData :
    s1.dbTemplateData = a.db := congrArg CBlockBase.dbTemplateData a.state

end

/-- Where `AddNew` was when it failed. -/
inductive AddNewFailed (E : Env) (s : CBlockBase) (hash : ℕ) (b : CBlockEx) : CBlockBase → Prop
  | templ {db : CDestination → Option (List UInt8)}
      (ht : updateTxTemplateData E s.dbTemplateData b = some (false, db)) :
      AddNewFailed E s hash b { (s.write b).2 with dbTemplateData := db }
  | pledge {db : CDestination → Option (List UInt8)} (ht : updateTxTemplateData E s.dbTemplateData b = some (true, db))
      (hp : updatePledge E { s with dbTemplateData := db } hash b = some none) :
      AddNewFailed E s hash b { (s.write b).2 with dbTemplateData := db }
  | redeem {db : CDestination → Option (List UInt8)} {ctxtPledge : CPledgeContext}
      (ht : updateTxTemplateData E s.dbTemplateData b = some (true, db))
      (hp : updatePledge E { s with dbTemplateData := db } hash b = some (some ctxtPledge))
      (hr : updateRedeem E s hash b = none) :
      AddNewFailed E s hash b
        { (s.write b).2 with
          dbTemplateData := db, dbPledge := Function.update s.dbPledge hash (some ctxtPledge) }
  | amount {db : CDestination → Option (List UInt8)} {ctxtPledge : CPledgeContext} {ctxtRedeem : CRedeemContext}
      (ht : updateTxTemplateData E s.dbTemplateData b = some (true, db))
      (hp : updatePledge E { s with dbTemplateData := db } hash b = some (some ctxtPledge))
      (hr : updateRedeem E s hash b = some ctxtRedeem) (hmint : b.block.getBlockMint < 0) :
      AddNewFailed E s hash b
        { (s.write b).2 with
          dbTemplateData := db, dbPledge := Function.update s.dbPledge hash (some ctxtPledge)
          dbRedeem := Function.update s.dbRedeem hash (some ctxtRedeem) }

section

variable {s s1 : CBlockBase} {b : CBlockEx}

theorem AddNewFailed.index (h : AddNewFailed E s hash b s1) : s1.mapIndex = s.mapIndex := by
  cases h <;> rfl

theorem AddNewFailed.touched (h : AddNewFailed E s hash b s1) : Touched E s hash b s1 := by
  have hoff : ∀ {α : Type} (f : ℕ → α) (x : α) (h' : ℕ), h' ≠ hash → Function.update f hash x h' = f h' :=
    fun f x h' hne => Function.update_of_ne hne x f
  have hsame : ∀ {α : Type} (f : ℕ → α) (h' : ℕ), h' ≠ hash → f h' = f h' := fun _ _ _ => rfl
  cases h with
  | templ ht => exact ⟨rfl, rfl, rfl, ⟨_, ht⟩, hsame _, hsame _, hsame _, rfl, rfl, rfl, rfl⟩
  | pledge ht => exact ⟨rfl, rfl, rfl, ⟨_, ht⟩, hsame _, hsame _, hsame _, rfl, rfl, rfl, rfl⟩
  | redeem ht => exact ⟨rfl, rfl, rfl, ⟨_, ht⟩, hoff _ _, hsame _, hsame _, rfl, rfl, rfl, rfl⟩
  | amount ht => exact ⟨rfl, rfl, rfl, ⟨_, ht⟩, hoff _ _, hoff _ _, hsame _, rfl, rfl, rfl, rfl⟩

/-- **What AddNew does**: it stores the block, or it fails on its way. -/
theorem addNew_cases {o : Option CBlockIndexPtr} (h : s.addNew E hash b nChainTrust = some (o, s1)) :
    (∃ pIndexNew, o = some pIndexNew ∧ Nonempty (Added E s hash b nChainTrust pIndexNew s1)) ∨
      o = none ∧ (s1 = s ∧ s.mapIndex hash ≠ [] ∨ s.mapIndex hash = [] ∧ AddNewFailed E s hash b s1) := by
  unfold addNew at h
  split_ifs at h with hknown
  · cases h
    exact Or.inr ⟨rfl, Or.inl ⟨rfl, hknown⟩⟩
  have hfresh := not_not.1 hknown
  dsimp only at h
  split at h
  · cases h
  · rename_i db ht
    cases h
    exact Or.inr ⟨rfl, Or.inr ⟨hfresh, .templ ht⟩⟩
  rename_i db ht
  split at h
  · cases h
  · rename_i hp
    cases h
    exact Or.inr ⟨rfl, Or.inr ⟨hfresh, .pledge ht hp⟩⟩
  rename_i ctxtPledge hp
  split at h
  · rename_i hr
    cases h
    exact Or.inr ⟨rfl, Or.inr ⟨hfresh, .redeem ht hp hr⟩⟩
  rename_i ctxtRedeem hr
  unfold addNewIndex at h
  dsimp only at h
  by_cases hmint : b.block.getBlockMint < 0
  · rw [if_pos hmint] at h
    cases h
    exact Or.inr ⟨rfl, Or.inr ⟨hfresh, .amount ht hp hr hmint⟩⟩
  · rw [if_neg hmint] at h
    cases h
    unfold updatePledge at hp
    split at hp
    · simp at hp
    · simp at hp
    rename_i m hm
    have hctxt := Option.some.inj hp
    exact Or.inl ⟨_, rfl, ⟨⟨db, m, ctxtPledge, _, hfresh, ht, hm, hctxt, ⟨ctxtRedeem, hr, rfl⟩,
      not_lt.1 hmint, rfl, rfl⟩⟩⟩

end

/-! ## The whole call -/

/-- A block that passed every check and was stored, with what was computed on the way. -/
structure Stored (E : Env) (nNetTime : ℤ) (c : CBlockChain) (block : CBlock) where
  p : CBlockIndex
  pPrev : CBlockIndexPtr
  view : CBlockView
  rewards : List CTransaction
  cache : RewardCache
  view1 : CBlockView
  vTxContxt : List CTxContxt
  nChainTrust : ℕ
  pIndexNew : CBlockIndexPtr
  s1 : CBlockBase
  valid : ValidBlock E nNetTime block
  prev : c.cntrBlock.mapIndex block.hashPrev = p :: pPrev
  verify : verifyBlock E block p pPrev = some .OK
  repeatMint : verifyRepeatMint E c.cntrBlock block = true
  getView : c.cntrBlock.getBlockView E block.hashPrev = some (some view)
  pow : verifyPowRewardTx block p.nTimeStamp = true
  rewardList : getDistributePledgeRewardTxList E c.cntrBlock c.mapCacheDistributePledgeReward block.hashPrev
    p.nTimeStamp = some (some rewards, cache)
  txs : checkTxLoop E c.cntrBlock p block.nTimeStamp block.vtx rewards
    (view.addTx (block.txMint.getHash E) block.txMint {}) [] = some (.ok (view1, vTxContxt))
  redeem : verifyBlockMintRedeem E c.cntrBlock ⟨block, vTxContxt⟩ = true
  trust : getBlockTrust block = some nChainTrust
  added : Added E c.cntrBlock (block.getHash E) ⟨block, vTxContxt⟩ nChainTrust pIndexNew s1

variable {block : CBlock}

theorem Stored.mint {nNetTime : ℤ} {c : CBlockChain} (a : Stored E nNetTime c block) :
    PowRewardTx block a.p.nTimeStamp := verifyPowRewardTx_true a.pow

def Stored.b {nNetTime : ℤ} {c : CBlockChain} {block : CBlock} (a : Stored E nNetTime c block) : CBlockEx :=
  ⟨block, a.vTxContxt⟩

/-- A block that was accepted: its chain is the shorter one, or the fork moved to it. -/
structure Accepted (E : Env) (nNetTime : ℤ) (c : CBlockChain) (block : CBlock) (c' : CBlockChain) extends
    Stored E nNetTime c block where
  cache_eq : c'.mapCacheDistributePledgeReward = cache
  final : (isShortChain s1.pIndexLast pIndexNew = true ∧ c'.cntrBlock = s1) ∨
    (isShortChain s1.pIndexLast pIndexNew = false ∧
      s1.commitBlockView E (view1.addBlock (block.getHash E) ⟨block, vTxContxt⟩) pIndexNew =
        some (true, c'.cntrBlock))

/-- A call that did not accept the block: the index stays as it was. -/
structure Rejected (E : Env) (c : CBlockChain) (block : CBlock) (c' : CBlockChain) : Prop where
  index : c'.cntrBlock.mapIndex = c.cntrBlock.mapIndex
  store : c'.cntrBlock = c.cntrBlock ∨ c.cntrBlock.mapIndex (block.getHash E) = [] ∧
    ∃ vTxContxt, Touched E c.cntrBlock (block.getHash E) ⟨block, vTxContxt⟩ c'.cntrBlock
  cache : c'.mapCacheDistributePledgeReward = c.mapCacheDistributePledgeReward ∨
    ∃ nPrevBlockTime r, getDistributePledgeRewardTxList E c.cntrBlock c.mapCacheDistributePledgeReward
      block.hashPrev nPrevBlockTime = some (r, c'.mapCacheDistributePledgeReward)

theorem Rejected.refl (E : Env) (c : CBlockChain) (block : CBlock) : Rejected E c block c :=
  ⟨rfl, Or.inl rfl, Or.inl rfl⟩

theorem precheckBlock_ok {nNetTime : ℤ} {p : CBlockIndex}
    (h : precheckBlock E s nNetTime block = some (.ok p)) :
    s.mapIndex (block.getHash E) = [] ∧ ValidBlock E nNetTime block ∧
      ∃ pPrev, s.mapIndex block.hashPrev = p :: pPrev ∧ verifyBlock E block p pPrev = some .OK ∧
        verifyRepeatMint E s block = true := by
  unfold precheckBlock at h
  by_cases hknown : s.mapIndex (block.getHash E) ≠ []
  · rw [if_pos hknown] at h
    cases h
  rw [if_neg hknown] at h
  split at h
  swap
  · cases h
  rename_i hvalid
  split at h
  · cases h
  rename_i q pPrev hprev
  split at h
  · cases h
  · rename_i hverify
    split_ifs at h with hrepeat
    · cases h
      exact ⟨not_not.1 hknown, validateBlock_ok E hvalid, pPrev, hprev, hverify, hrepeat⟩
    · cases h
  · cases h

theorem precheckBlock_error {nNetTime : ℤ} {err : Errno}
    (h : precheckBlock E s nNetTime block = some (.error err)) : err ≠ .OK := by
  rintro rfl
  unfold precheckBlock at h
  by_cases hknown : s.mapIndex (block.getHash E) = []
  · rw [if_neg (by simpa using hknown)] at h
    split at h
    · split at h
      · simp at h
      · split at h
        · simp at h
        · split_ifs at h <;> simp at h
        · simp_all
    · simp_all
  · rw [if_pos hknown] at h
    simp at h

theorem txContxtLoop_error {err : Errno} (vInput : List CTxOutPoint)
    (txContxt : CTxContxt) (h : txContxtLoop s view vInput txContxt = .error err) : err ≠ .OK := by
  fun_induction txContxtLoop s view vInput txContxt with
  | case1 => cases h
  | case2 | case4 =>
    cases h
    decide
  | case3 _ _ _ _ _ _ ih => exact ih h
  | case5 _ _ _ _ _ _ _ ih => exact ih h

theorem checkTxLoop_error {p : CBlockIndex} {nBlockTime : ℕ} {err : Errno}
    (vtx rewards : List CTransaction) (view : CBlockView) (ctxs : List CTxContxt)
    (h : checkTxLoop E s p nBlockTime vtx rewards view ctxs = some (.error err)) : err ≠ .OK := by
  fun_induction checkTxLoop E s p nBlockTime vtx rewards view ctxs with
  | case1 | case3 => cases h
  | case2 _ _ _ _ _ _ hctxt =>
    cases h
    exact txContxtLoop_error _ _ hctxt
  | case4 =>
    cases h
    decide
  | case5 _ _ _ _ _ _ _ _ _ _ ih => exact ih h
  | case6 _ _ _ _ _ _ _ _ _ hne =>
    cases h
    rintro rfl
    exact hne rfl

theorem checkTxLoop_cons {p : CBlockIndex} {nBlockTime : ℕ} {tx : CTransaction}
    {vtx rewards : List CTransaction} {ctxs : List CTxContxt}
    {r : CBlockView × List CTxContxt}
    (h : checkTxLoop E s p nBlockTime (tx :: vtx) rewards view ctxs = some (.ok r)) :
    ∃ txContxt, getTxContxt s view tx = .ok txContxt ∧
      (rewards.head? = some tx ∨
        rewards = [] ∧ verifyBlockTx E s tx txContxt p (p.nHeight + 1) p.hashOrigin = some .OK) ∧
      checkTxLoop E s p nBlockTime vtx rewards.tail (view.addTx (tx.getHash E) tx txContxt)
        (ctxs ++ [txContxt]) = some (.ok r) := by
  rw [checkTxLoop] at h
  cases hctxt : getTxContxt s view tx with
  | error err => simp [hctxt] at h
  | ok txContxt =>
    simp only [hctxt] at h
    refine ⟨txContxt, rfl, ?_⟩
    split at h
    · simp at h
    · rename_i herr
      split_ifs at h with htime
      · simp at h
      · refine ⟨?_, h⟩
        cases rewards with
        | nil => exact Or.inr ⟨rfl, herr⟩
        | cons reward rewards =>
          by_cases heq : tx = reward
          · exact Or.inl (by rw [heq]; rfl)
          · simp [heq] at herr
    · simp at h

theorem mintView_some {nPrevBlockTime : ℕ}
    (h : mintView E s block = some (some view)) (hm : PowRewardTx block nPrevBlockTime) :
    ∃ view0, s.getBlockView E block.hashPrev = some (some view0) ∧
      view = view0.addTx (block.txMint.getHash E) block.txMint {} := by
  have hnull := hm.not_isNull
  have hdef : contextDefined block.txMint {} = true := by
    unfold contextDefined
    rw [hm.inputs]
    rfl
  unfold mintView at h
  split at h
  · simp at h
  · simp at h
  · rename_i view0 hview
    rw [hnull, hdef] at h
    simp only [Bool.false_eq_true, if_false, if_true, Option.some.injEq] at h
    exact ⟨view0, hview, h.symm⟩

theorem storeBlock_cases {s s' : CBlockBase} {b : CBlockEx} {err : Errno}
    (h : storeBlock E s hash b view = some (err, s')) :
    (∃ nChainTrust pIndexNew s1, getBlockTrust b.block = some nChainTrust ∧
      Nonempty (Added E s hash b nChainTrust pIndexNew s1) ∧
      ((err = .OK ∧ isShortChain s1.pIndexLast pIndexNew = true ∧ s' = s1) ∨
        (isShortChain s1.pIndexLast pIndexNew = false ∧
          ((err = .OK ∧ s1.commitBlockView E view pIndexNew = some (true, s')) ∨
            (err ≠ .OK ∧ s1.commitBlockView E view pIndexNew = some (false, s')))))) ∨
      err ≠ .OK ∧ (s' = s ∧ (s.mapIndex hash ≠ [] ∨ getBlockTrust b.block = none) ∨
        s.mapIndex hash = [] ∧ AddNewFailed E s hash b s') := by
  unfold storeBlock at h
  split at h
  · rename_i htrust
    cases h
    exact Or.inr ⟨by decide, Or.inl ⟨rfl, Or.inr htrust⟩⟩
  rename_i nChainTrust htrust
  split at h
  · cases h
  · rename_i s1 hadd
    cases h
    obtain ⟨_, ho, -⟩ | ⟨-, hfailed⟩ := addNew_cases hadd
    · cases ho
    · exact Or.inr ⟨by decide, hfailed.imp_left fun hs => ⟨hs.1, Or.inl hs.2⟩⟩
  rename_i pIndexNew s1 hadd
  obtain ⟨ptr, hptr, hadded⟩ | ⟨ho, -⟩ := addNew_cases hadd
  swap
  · cases ho
  cases hptr
  refine Or.inl ⟨nChainTrust, pIndexNew, s1, htrust, hadded, ?_⟩
  split_ifs at h with hshort
  · cases h
    exact Or.inl ⟨rfl, hshort, rfl⟩
  refine Or.inr ⟨by simpa using hshort, ?_⟩
  split at h
  · cases h
  · rename_i hcommit
    cases h
    exact Or.inr ⟨by decide, hcommit⟩
  · rename_i hcommit
    cases h
    exact Or.inl ⟨rfl, hcommit⟩

/-- A block that passed every check before `AddNew`, with what was computed on the way. -/
structure Checked (E : Env) (nNetTime : ℤ) (c : CBlockChain) (block : CBlock) where
  p : CBlockIndex
  view : CBlockView
  rewards : List CTransaction
  cache : RewardCache
  view1 : CBlockView
  vTxContxt : List CTxContxt
  precheck : precheckBlock E c.cntrBlock nNetTime block = some (.ok p)
  getView : mintView E c.cntrBlock block = some (some view)
  pow : verifyPowRewardTx block p.nTimeStamp = true
  rewardList : getDistributePledgeRewardTxList E c.cntrBlock c.mapCacheDistributePledgeReward block.hashPrev
    p.nTimeStamp = some (some rewards, cache)
  txs : checkTxLoop E c.cntrBlock p block.nTimeStamp block.vtx rewards view [] = some (.ok (view1, vTxContxt))
  redeem : verifyBlockMintRedeem E c.cntrBlock ⟨block, vTxContxt⟩ = true

section

variable {nNetTime : ℤ} {c c' : CBlockChain} {block : CBlock} {err : Errno}

def Checked.b (k : Checked E nNetTime c block) : CBlockEx := ⟨block, k.vTxContxt⟩

def Checked.store (k : Checked E nNetTime c block) : Option (Errno × CBlockBase) :=
  storeBlock E c.cntrBlock (block.getHash E) k.b (k.view1.addBlock (block.getHash E) k.b)

theorem Checked.addNewBlock_eq (k : Checked E nNetTime c block) :
    addNewBlock E nNetTime c block = k.store.map fun r => (r.1, ⟨r.2, k.cache⟩) := by
  have hproc : processBlock E c.cntrBlock.dbRedeem c.cntrBlock k.p (block.getHash E) block k.view k.rewards =
      k.store := by
    unfold processBlock
    rw [k.txs]
    exact if_neg (by simp [k.redeem])
  unfold addNewBlock addNewBlockSeeing
  simp only [k.precheck, k.getView, k.pow, k.rewardList, hproc]
  cases k.store <;> rfl

/-- **A call of AddNewBlock checks the block**, or it leaves the storage alone. -/
theorem addNewBlock_checked (h : addNewBlock E nNetTime c block = some (err, c')) :
    (err ≠ .OK ∧ c'.cntrBlock = c.cntrBlock ∧ Rejected E c block c') ∨ Nonempty (Checked E nNetTime c block) := by
  unfold addNewBlock addNewBlockSeeing at h
  dsimp only at h
  split at h
  · cases h
  · rename_i hpre
    cases h
    exact Or.inl ⟨precheckBlock_error hpre, rfl, Rejected.refl E c block⟩
  rename_i p hpre
  split at h
  · cases h
  · cases h
    exact Or.inl ⟨by decide, rfl, Rejected.refl E c block⟩
  rename_i view hview
  split_ifs at h with hpow
  · cases h
    exact Or.inl ⟨by decide, rfl, Rejected.refl E c block⟩
  split at h
  · cases h
  · rename_i hlist
    cases h
    exact Or.inl ⟨by decide, rfl, rfl, Or.inl rfl, Or.inr ⟨_, _, hlist⟩⟩
  rename_i rewards cache hlist
  -- from here on the cache is that of the call, whatever comes of the block
  have hcache : Rejected E c block ⟨c.cntrBlock, cache⟩ := ⟨rfl, Or.inl rfl, Or.inr ⟨_, _, hlist⟩⟩
  unfold processBlock at h
  rcases hloop : checkTxLoop E c.cntrBlock p block.nTimeStamp block.vtx rewards view [] with
    _ | err' | ⟨view1, vTxContxt⟩
  · simp [hloop] at h
  · simp only [hloop] at h
    cases h
    exact Or.inl ⟨checkTxLoop_error _ _ _ _ hloop, rfl, hcache⟩
  by_cases hredeem : verifyBlockMintRedeem E c.cntrBlock ⟨block, vTxContxt⟩ = true
  · exact Or.inr ⟨{
      p, view, rewards, cache, view1, vTxContxt
      precheck := hpre, getView := hview, pow := by simpa using hpow, rewardList := hlist, txs := hloop
      redeem := hredeem }⟩
  · simp only [hloop] at h
    rw [if_pos (by simpa using hredeem)] at h
    cases h
    exact Or.inl ⟨by decide, rfl, hcache⟩

/-- **What a call of AddNewBlock does**: it accepts the block, or the index stays as it was, or the fork does not move
to the stored block. -/
theorem addNewBlock_cases (h : addNewBlock E nNetTime c block = some (err, c')) :
    (err = .OK ∧ Nonempty (Accepted E nNetTime c block c')) ∨
      (err ≠ .OK ∧ (Rejected E c block c' ∨ ∃ a : Stored E nNetTime c block,
        a.s1.commitBlockView E (a.view1.addBlock (block.getHash E) a.b) a.pIndexNew = some (false, c'.cntrBlock))) := by
  rcases addNewBlock_checked h with ⟨herr, -, hrej⟩ | ⟨⟨k⟩⟩
  · exact Or.inr ⟨herr, Or.inl hrej⟩
  rw [k.addNewBlock_eq, Option.map_eq_some_iff] at h
  obtain ⟨⟨err', s'⟩, hstore, heq⟩ := h
  obtain ⟨rfl, rfl⟩ := Prod.mk.inj heq
  obtain ⟨-, hvalid, pPrev, hprev, hverify, hrepeat⟩ := precheckBlock_ok k.precheck
  obtain ⟨view, hgetView, hview⟩ := mintView_some k.getView (verifyPowRewardTx_true k.pow)
  rcases storeBlock_cases hstore with ⟨nChainTrust, pIndexNew, s1, htrust, ⟨hadded⟩, hfinal⟩ | ⟨herr, hs⟩
  · let a : Stored E nNetTime c block :=
      { k with
        pPrev, view, nChainTrust, pIndexNew, s1
        valid := hvalid, prev := hprev, verify := hverify, repeatMint := hrepeat, getView := hgetView
        txs := hview ▸ k.txs, trust := htrust, added := hadded }
    rcases hfinal with ⟨rfl, hshort, rfl⟩ | ⟨hshort, ⟨rfl, hcommit⟩ | ⟨herr, hcommit⟩⟩
    · exact Or.inl ⟨rfl, ⟨{ a with cache_eq := rfl, final := Or.inl ⟨hshort, rfl⟩ }⟩⟩
    · exact Or.inl ⟨rfl, ⟨{ a with cache_eq := rfl, final := Or.inr ⟨hshort, hcommit⟩ }⟩⟩
    · exact Or.inr ⟨herr, Or.inr ⟨a, hcommit⟩⟩
  · refine Or.inr ⟨herr, Or.inl ⟨?_, ?_, Or.inr ⟨_, _, k.rewardList⟩⟩⟩
    · exact hs.elim (fun hs => congrArg mapIndex hs.1) fun hf => hf.2.index
    · exact hs.imp And.left fun hf => ⟨hf.1, _, hf.2.touched⟩

end

end

end Minemon
