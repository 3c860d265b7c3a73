import Minemon.Rewards.Cache

/-!
# Rewards that can be paid

The addresses that `CalcDistributePledgeReward` rewards are miners and recorded pledge addresses, in
every store that a run leads to, so that each of them can be paid. What can fail is the surplus: a
recorded supply beyond the schedule.

* `calcBlockPledgeReward_succeeds`: no block fails whose previous block is within the schedule.
* `run_rewards_never_fail`: along a run that keeps the supply within the schedule.
-/

namespace Minemon

open CBlockBase

/-! ## Rewarded addresses -/

def RewardKeys (P : CDestination → Prop) (m : RewardMap) : Prop := ∀ d v, m.find? d = some v → P d

section

variable {P : CDestination → Prop}

theorem rewardKeys_empty : RewardKeys P OrdMap.empty := fun d v hd => by simp at hd

theorem RewardKeys.upsert {m : RewardMap} (h : RewardKeys P m) {d : CDestination} (hd : P d)
    (f : Option ℤ → ℤ) : RewardKeys P (m.upsert d f) := by
  intro k v hk
  rw [OrdMap.find?_upsert] at hk
  split_ifs at hk with heq
  · rw [heq]
    exact hd
  · exact h k v hk

theorem validPledgesLoop_keys (nMin nMax : ℤ) (l : List (CDestination × (ℤ × ℕ))) (m : RewardMap) (t : ℤ)
    (hl : ∀ kv ∈ l, P kv.1) (hm : RewardKeys P m) : RewardKeys P (validPledgesLoop nMin nMax l m t).1 := by
  induction l generalizing m t with
  | nil => exact hm
  | cons kv l ih =>
    have hl' : ∀ e ∈ l, P e.1 := fun e he => hl e (List.mem_cons_of_mem _ he)
    rw [validPledgesLoop]
    by_cases hge : kv.2.1 ≥ nMin
    · rw [if_pos hge]
      exact ih _ _ hl' (hm.upsert (hl kv List.mem_cons_self) _)
    · rw [if_neg hge]
      exact ih _ _ hl' hm

theorem distributeLoop_keys (R T : ℤ) (fee : ℕ) (l : List (CDestination × ℤ)) (m : RewardMap) (n : ℤ)
    (hl : ∀ kv ∈ l, P kv.1) (hm : RewardKeys P m) : RewardKeys P (distributeLoop R T fee l m n).1 := by
  induction l generalizing m n with
  | nil => exact hm
  | cons kv l ih =>
    exact ih _ _ (fun e he => hl e (List.mem_cons_of_mem _ he)) (hm.upsert (hl kv List.mem_cons_self) _)

end

/-- An address that can be paid: a pledge address whose template is recorded, or a miner. -/
def Payable (s : CBlockBase) (dest : CDestination) : Prop :=
  PledgeAddress s.dbTemplateData dest ∨ isTemplateOf dest TEMPLATE_PROOF = true

/-- Such an address whose template is recorded, the miner's too. -/
def Rewarded (s : CBlockBase) (dest : CDestination) : Prop := Payable s dest ∧ s.dbTemplateData dest ≠ none

section

variable {E : Env} {s : CBlockBase} {p prev : CBlockIndex} {rest : CBlockIndexPtr} {m : RewardMap}

theorem rewardTx_payable (hok : StoreOK E s) {dest : CDestination} (h : Payable s dest) (nReward : ℤ) :
    ∃ tx, rewardTx s dest nReward = some (some tx) := by
  unfold rewardTx
  rcases h with ⟨htype, hdb⟩ | htype
  · obtain ⟨v, hv⟩ := Option.ne_none_iff_exists'.1 hdb
    have htype' := htype
    simp only [isTemplateOf, Bool.and_eq_true, beq_iff_eq] at htype'
    obtain ⟨pledge, hpledge⟩ := (hok.templ _ _ hv).pledge htype'.2
    have hparam : getPledgeTemplateParam s dest = some (some pledge) := by
      unfold getPledgeTemplateParam
      simp only [htype, hv, hpledge, Bool.not_true, Bool.false_eq_true, if_false]
    simp only [htype'.1, htype'.2, hparam, Bool.not_true, Bool.false_eq_true, if_false, if_true]
    exact ⟨_, rfl⟩
  · simp only [isTemplateOf, Bool.and_eq_true, beq_iff_eq] at htype
    have hne : TEMPLATE_PROOF ≠ TEMPLATE_MINTPLEDGE := by decide
    simp only [htype.1, htype.2, hne, Bool.not_true, Bool.false_eq_true, if_false, if_true]
    exact ⟨_, rfl⟩

theorem StoredBlock.getPowMintTemplateParam (hok : StoreOK E s) {b : CBlockEx}
    (h : StoredBlock E s p prev rest b) : ∃ proof, getPowMintTemplateParam s p.destMint = some (some proof) := by
  obtain ⟨v, hv⟩ := Option.ne_none_iff_exists'.1 h.templ
  have htype := h.mint.sendTo
  have htype' := htype
  simp only [isTemplateOf, Bool.and_eq_true, beq_iff_eq] at htype'
  obtain ⟨proof, hproof⟩ := (hok.templ _ _ hv).proof htype'.2
  unfold Minemon.getPowMintTemplateParam
  rw [h.destMint]
  simp only [htype, hv, hproof, Bool.not_true, Bool.false_eq_true, if_false]
  exact ⟨proof, rfl⟩

/-! ## One block -/

theorem blockPledgeRewardData_keys (hpl : PledgeOK s) (hprev : s.mapIndex prev.hashBlock ≠ [])
    {R T : ℤ} {valid : RewardMap} (h : blockPledgeRewardData E s p prev = some (R, valid, T)) :
    RewardKeys (Rewarded s) valid := by
  obtain ⟨r, l, hsrc⟩ := blockPledgeRewardData_source h
  obtain ⟨l', hl', hkeys⟩ := hpl.getPowPledgeList (E := E) hprev p.destMint
  obtain rfl := Option.some.inj (hsrc.pledges.symm.trans hl')
  have := validPledgesLoop_keys (P := Rewarded s) r.nStakeMinPledge r.nMaxPledge l.toList
    OrdMap.empty 0 (fun kv hkv => ⟨Or.inl (hkeys.mem hkv), (hkeys.mem hkv).2⟩) rewardKeys_empty
  rw [hsrc.loop] at this
  exact this

theorem calcBlockPledgeReward_payable (hpl : PledgeOK s) (hprev : s.mapIndex prev.hashBlock ≠ [])
    (hmint : Rewarded s p.destMint) {m' : RewardMap}
    (h : calcBlockPledgeReward E s (p :: prev :: rest) m = some (some m')) (hm : RewardKeys (Rewarded s) m) :
    RewardKeys (Rewarded s) m' := by
  unfold calcBlockPledgeReward at h
  simp only at h
  split at h
  · simp at h
  · rename_i R valid T hdata
    split_ifs at h with hzero
    · obtain rfl := Option.some.inj (Option.some.inj h)
      exact hm
    · split at h
      · simp at h
      · simp at h
      · obtain rfl := Option.some.inj (Option.some.inj h)
        have hloop := fun fee => distributeLoop_keys R T fee valid.toList m 0
          (fun kv hkv => blockPledgeRewardData_keys hpl hprev hdata kv.1 kv.2 (OrdMap.find?_eq_some.2 hkv)) hm
        unfold distributeReward
        simp only
        split_ifs
        · exact (hloop _).upsert hmint _
        · exact hloop _

/-- **The reward of a block can be computed** when its previous block is within the schedule. -/
theorem calcBlockPledgeReward_succeeds (hok : StoreOK E s) (hpl : PledgeOK s) {b : CBlockEx}
    (hb : StoredBlock E s p prev rest b) (hprev : s.mapIndex prev.hashBlock ≠ [])
    (hw : WithinSchedule s prev.hashBlock) (m : RewardMap) :
    ∃ m', calcBlockPledgeReward E s (p :: prev :: rest) m = some (some m') := by
  obtain ⟨r, hr⟩ := hw.exists_range (E := E)
  obtain ⟨l, hl, -⟩ := hpl.getPowPledgeList (E := E) hprev p.destMint
  obtain ⟨proof, hproof⟩ := hb.getPowMintTemplateParam hok
  have hv := (getPledgeMinMaxValue_valid E hw.fits hr).1
  have hbounds := calcPledgeRewardValue_bounds
    (validPledgesLoop r.nStakeMinPledge r.nMaxPledge l.toList OrdMap.empty 0).2
    hv hw.nonneg hw.fits hw.surplus_nonneg
  have hdata : ∃ R valid T, blockPledgeRewardData E s p prev = some (R, valid, T) := by
    unfold blockPledgeRewardData getMintPledgeData
    simp only [hr, hl]
    rw [if_neg (by omega)]
    exact ⟨_, _, _, rfl⟩
  obtain ⟨R, valid, T, hdata⟩ := hdata
  unfold calcBlockPledgeReward
  simp only [hdata, hproof]
  split_ifs
  · exact ⟨_, rfl⟩
  · exact ⟨_, rfl⟩

/-! ## An epoch -/

theorem calcDistributeLoop_payable (hpl : PledgeOK s) (n : ℕ) {ptr : CBlockIndexPtr}
    (hc : StoredChain E s ptr) {m m' : RewardMap} (h : calcDistributeLoop E s n ptr m = some (some m'))
    (hm : RewardKeys (Rewarded s) m) : RewardKeys (Rewarded s) m' := by
  induction n generalizing ptr m with
  | zero =>
    obtain rfl := Option.some.inj (Option.some.inj h)
    exact hm
  | succ n ih =>
    cases hc with
    | genesis _ _ =>
      obtain rfl := Option.some.inj (Option.some.inj h)
      exact hm
    | @step p q l b hq hb _ =>
      rw [calcDistributeLoop] at h
      split at h
      · simp at h
      · simp at h
      · rename_i m1 h1
        have hmint : Rewarded s p.destMint := by
          rw [hb.destMint]
          exact ⟨Or.inr hb.mint.sendTo, hb.templ⟩
        exact ih hq h (calcBlockPledgeReward_payable hpl (by rw [hq.index]; simp) hmint h1 hm)

section

variable {hash : ℕ} {m : RewardMap} (hok : StoreOK E s) (hpl : PledgeOK s)
  (h : calcDistributePledgeReward E s hash = some (some m))

include hok hpl h

/-- **Every rewarded address can be paid.** -/
theorem calcDistributePledgeReward_payable : RewardKeys (Rewarded s) m := by
  unfold calcDistributePledgeReward at h
  split_ifs at h with hheight
  · simp at h
  · split at h
    · simp at h
    · cases hp : s.mapIndex hash with
      | nil => exact absurd hp (by assumption)
      | cons p l =>
        rw [hp] at h
        exact calcDistributeLoop_payable hpl _ (hok.chain _ _ _ hp).2 h rewardKeys_empty

theorem epochPayable_of_calc : EpochPayable E s hash := by
  refine ⟨m, h, fun kv hkv => ?_⟩
  exact rewardTx_payable hok (calcDistributePledgeReward_payable hok hpl h kv.1 kv.2
    (OrdMap.find?_eq_some.2 hkv)).1 kv.2

end

theorem calcDistributeLoop_succeeds (hok : StoreOK E s) (hpl : PledgeOK s)
    (hw : ∀ h, s.mapIndex h ≠ [] → WithinSchedule s h) (n : ℕ) {ptr : CBlockIndexPtr}
    (hc : StoredChain E s ptr) (m : RewardMap) : ∃ m', calcDistributeLoop E s n ptr m = some (some m') := by
  induction n generalizing ptr m with
  | zero => exact ⟨m, rfl⟩
  | succ n ih =>
    cases hc with
    | genesis _ _ => exact ⟨m, rfl⟩
    | @step p q l b hq hb _ =>
      have hne : s.mapIndex q.hashBlock ≠ [] := by rw [hq.index]; simp
      obtain ⟨m1, h1⟩ := calcBlockPledgeReward_succeeds hok hpl hb hne (hw _ hne) m
      rw [calcDistributeLoop, h1]
      exact ih hq m1

/-! ## The last epoch before a block -/

theorem calcEndBlock_some (hok : StoreOK E s) {hash : ℕ} {l : CBlockIndexPtr}
    (hp : s.mapIndex hash = p :: l) :
    ∃ pEnd lEnd, calcEndBlock E s hash = some pEnd ∧ pEnd :: lEnd <:+ p :: l ∧
      StoredChain E s (pEnd :: lEnd) ∧ pEnd.nHeight % BPX_PLEDGE_REWARD_DISTRIBUTE_HEIGHT E = 0 := by
  have hchain := (hok.chain _ _ _ hp).2
  unfold calcEndBlock
  rw [hp]
  cases hdrop : (p :: l).dropWhile fun q => q.nHeight % BPX_PLEDGE_REWARD_DISTRIBUTE_HEIGHT E > 0 with
  | nil =>
    have := List.dropWhile_eq_nil_iff.1 hdrop _ hchain.genesis_mem
    rw [genesisEntry_nHeight] at this
    simp at this
  | cons pEnd lEnd =>
    have hsuf : pEnd :: lEnd <:+ p :: l := by
      rw [← hdrop]
      exact List.dropWhile_suffix _
    have hhead := List.head?_dropWhile_not
      (fun q : CBlockIndex => decide (q.nHeight % BPX_PLEDGE_REWARD_DISTRIBUTE_HEIGHT E > 0)) (p :: l)
    rw [hdrop] at hhead
    simp only [List.head?_cons, decide_eq_false_iff_not] at hhead
    exact ⟨pEnd, lEnd, rfl, hsuf, hchain.suffix hsuf (by simp), by omega⟩

theorem calcDistributePledgeReward_eq {pEnd : CBlockIndex} {lEnd : CBlockIndexPtr}
    (hc : StoredChain E s (pEnd :: lEnd)) (hheight : pEnd.nHeight % BPX_PLEDGE_REWARD_DISTRIBUTE_HEIGHT E = 0) :
    calcDistributePledgeReward E s pEnd.hashBlock =
      calcDistributeLoop E s (BPX_PLEDGE_REWARD_DISTRIBUTE_HEIGHT E) (pEnd :: lEnd) OrdMap.empty := by
  unfold calcDistributePledgeReward
  rw [hc.height, if_neg (not_not.2 hheight), hc.index]

/-- **The list of rewards is made**, whatever the cache holds, in a store within the schedule. -/
theorem getDistributePledgeRewardTxList_succeeds (hok : StoreOK E s) (hpl : PledgeOK s)
    (hw : ∀ h, s.mapIndex h ≠ [] → WithinSchedule s h) {hash : ℕ} {l : CBlockIndexPtr}
    (hp : s.mapIndex hash = p :: l) (nPrevBlockTime : ℕ) (cache : RewardCache) :
    ∃ rewards, rewardAnswer E s cache hash nPrevBlockTime = some (some rewards) := by
  by_cases hlow : getBlockHeightByHash hash < BPX_PLEDGE_REWARD_DISTRIBUTE_HEIGHT E
  · exact ⟨[], rewardAnswer_of_low nPrevBlockTime hlow⟩
  obtain ⟨pEnd, lEnd, hend, -, hchain, hheight⟩ := calcEndBlock_some hok hp
  obtain ⟨m, hm⟩ := calcDistributeLoop_succeeds hok hpl hw (BPX_PLEDGE_REWARD_DISTRIBUTE_HEIGHT E) hchain
    OrdMap.empty
  rw [← calcDistributePledgeReward_eq hchain hheight] at hm
  obtain ⟨v, hv⟩ := (calcRewardList_true_iff _).2 (epochPayable_of_calc hok hpl hm)
  rw [rewardAnswer_of_end nPrevBlockTime (not_lt.1 hlow) hend]
  cases cache.find? pEnd.hashBlock with
  | none =>
    rw [hv]
    exact ⟨_, rfl⟩
  | some w => exact ⟨_, rfl⟩

end

/-! ## Along a run -/

/-- The block does not take the recorded supply beyond the schedule. -/
def KeepsSchedule (c : CBlockChain) (block : CBlock) : Prop :=
  ∀ d, block.declaredPledgeReward = some d →
    getBlockMoneySupply c.cntrBlock block.hashPrev + getBlockPowReward block.getBlockHeight + d ≤
      getMintTotalReward block.getBlockHeight

instance (c : CBlockChain) (block : CBlock) : Decidable (KeepsSchedule c block) :=
  inferInstanceAs (Decidable (∀ d ∈ block.declaredPledgeReward, _))

section

variable {E : Env} {c c' : CBlockChain}

theorem declaredPledgeReward_fits {b : CBlock} {d : ℤ} (h : b.declaredPledgeReward = some d) : Fits64 d := by
  unfold CBlock.declaredPledgeReward at h
  split_ifs at h with h0
  · obtain rfl := Option.some.inj h
    decide
  · split at h
    · simp at h
    · rename_i x r hdec
      obtain rfl := Option.some.inj h
      have hvalid := ((Codec.int 8).enc_dec _ _ _ hdec).1
      have hwrap : wrap64 x = x := hvalid
      rw [← hwrap]
      exact wrap64_fits x

theorem getBlockMint_exact {b : CBlock} {nPrevBlockTime : ℕ} (hm : PowRewardTx b nPrevBlockTime)
    (h0 : 0 ≤ b.getBlockMint) :
    ∃ d, b.declaredPledgeReward = some d ∧ b.getBlockMint = getBlockPowReward b.getBlockHeight + d := by
  cases hd : b.declaredPledgeReward with
  | none =>
    unfold CBlock.getBlockMint at h0
    rw [hd] at h0
    simp at h0
  | some d =>
    refine ⟨d, rfl, ?_⟩
    obtain ⟨hd1, hd2⟩ := declaredPledgeReward_fits hd
    have hp0 := getBlockPowReward_nonneg b.getBlockHeight
    have hp1 := pow_add_pledge_le b.getBlockHeight
    have hp2 := getBlockPledgeReward_nonneg b.getBlockHeight
    have hp3 := getMintWorkReward_le b.getBlockHeight
    rw [getBlockMint_eq hm hd] at h0 ⊢
    apply wrap64_eq
    by_contra hfit
    -- beyond the word the sum would come back negative
    have hge : 2 ^ 63 ≤ getBlockPowReward b.getBlockHeight + d := by
      unfold Fits64 at hfit
      omega
    have hwrap : wrap64 (getBlockPowReward b.getBlockHeight + d) =
        getBlockPowReward b.getBlockHeight + d - 2 ^ 64 := by
      obtain ⟨k, hk⟩ := wrap64_eq_sub (getBlockPowReward b.getBlockHeight + d)
      have := wrap64_fits (getBlockPowReward b.getBlockHeight + d)
      unfold Fits64 at this
      omega
    omega

theorem genesis_withinSchedule (E : Env) :
    ∀ h, (genesisChain E).cntrBlock.mapIndex h ≠ [] → WithinSchedule (genesisChain E).cntrBlock h := by
  have hgen : ∀ h p l, (genesisChain E).cntrBlock.mapIndex h = p :: l →
      WithinSchedule (genesisChain E).cntrBlock h := by
    intro h p l hp
    have hchain := Run.honestChain (Run.genesis (P := DeclaresReward E)) h p l hp
    have := hchain.withinSchedule p l rfl
    rwa [((genesis_storeOK E).chain h p l hp).1] at this
  intro h hne
  cases hp : (genesisChain E).cntrBlock.mapIndex h with
  | nil => exact absurd hp hne
  | cons p l => exact hgen h p l hp

theorem WithinSchedule.of_extends {s s' : CBlockBase} (hext : Extends E s s') {h : ℕ} (hh : s.mapIndex h ≠ [])
    (hw : WithinSchedule s h) : WithinSchedule s' h :=
  ⟨by rw [hext.getBlockMoneySupply hh]; exact hw.nonneg, by rw [hext.getBlockMoneySupply hh]; exact hw.le_total⟩

theorem Accepted.withinSchedule {nNetTime : ℤ} {block : CBlock} (a : Accepted E nNetTime c block c')
    (hok : StoreOK E c.cntrBlock) (hw : WithinSchedule c.cntrBlock block.hashPrev)
    (hkeeps : KeepsSchedule c block) : WithinSchedule c'.cntrBlock (block.getHash E) := by
  obtain ⟨d, hd, hmint⟩ := getBlockMint_exact a.mint a.added.mint
  have hle := hkeeps d hd
  have h0 := hw.nonneg
  have h1 := a.added.mint
  have hsupply : getBlockMoneySupply c.cntrBlock block.hashPrev = a.p.nMoneySupply := by
    unfold getBlockMoneySupply
    rw [a.prev]
  have hT := getMintTotalReward_le block.getBlockHeight
  have hnew : getBlockMoneySupply c'.cntrBlock (block.getHash E) = block.getBlockMint + a.p.nMoneySupply := by
    unfold getBlockMoneySupply
    rw [a.mapIndex hok, Function.update_self]
    show wrap64 (block.getBlockMint + a.p.nMoneySupply) = _
    apply wrap64_eq
    rw [hsupply] at hle h0
    change 0 ≤ block.getBlockMint at h1
    exact fits64_of_nonneg (by omega) (by rw [hmint]; omega)
  rw [hsupply] at hle h0
  change 0 ≤ block.getBlockMint at h1
  refine ⟨by rw [hnew]; omega, ?_⟩
  rw [hnew, CBlock.height_getHash, hmint]
  omega

theorem Run.withinSchedule (h : Run E KeepsSchedule c) :
    ∀ hash, c.cntrBlock.mapIndex hash ≠ [] → WithinSchedule c.cntrBlock hash := by
  refine h.invariant (I := fun c => ∀ hash, c.cntrBlock.mapIndex hash ≠ [] →
    WithinSchedule c.cntrBlock hash) (genesis_withinSchedule E) ?_ ?_
  · intro c c' nNetTime block hrun a hkeeps ih hash hne
    have hok := hrun.storeOK
    by_cases he : hash = block.getHash E
    · rw [he]
      exact a.withinSchedule hok (ih _ (by rw [a.prev]; simp)) hkeeps
    · rw [a.mapIndex hok, Function.update_of_ne he] at hne
      exact (ih hash hne).of_extends (a.extends hok) hne
  · intro c c' block hrun r ih hash hne
    rw [r.index] at hne
    exact (ih hash hne).of_extends (r.extends hrun.storeOK) hne

/-- **No accepted block stops the chain** along a run whose accepted blocks keep the supply within the
schedule. -/
theorem run_rewards_never_fail (h : Run E KeepsSchedule c) {hash : ℕ} {P : CBlockIndex} {l : CBlockIndexPtr}
    (hP : c.cntrBlock.mapIndex hash = P :: l) :
    (∃ rewards cache, getDistributePledgeRewardTxList E c.cntrBlock c.mapCacheDistributePledgeReward
        P.hashBlock P.nTimeStamp = some (some rewards, cache)) ∧
      ∀ p prev rest m, p :: prev :: rest <:+ P :: l →
        ∃ m', calcBlockPledgeReward E c.cntrBlock (p :: prev :: rest) m = some (some m') := by
  have hok := h.storeOK
  obtain ⟨rfl, hchain⟩ := hok.chain _ _ _ hP
  constructor
  · obtain ⟨rewards, hr⟩ := getDistributePledgeRewardTxList_succeeds hok h.pledgeOK h.withinSchedule hP
      P.nTimeStamp c.mapCacheDistributePledgeReward
    unfold rewardAnswer at hr
    obtain ⟨⟨r, cache⟩, hcall, rfl⟩ := Option.map_eq_some_iff.1 hr
    exact ⟨rewards, cache, hcall⟩
  · intro p prev rest m hsuf
    cases hchain.suffix hsuf (by simp) with
    | step hq hb _ =>
      have hne : c.cntrBlock.mapIndex prev.hashBlock ≠ [] := by rw [hq.index]; simp
      exact calcBlockPledgeReward_succeeds hok h.pledgeOK hb hne (h.withinSchedule _ hne) m

end

/-! ## On the toy network -/

/-- A pledge in the fourth block, and one reward that is due after the fifth. -/
theorem run_rewards_never_fail_toy :
    ∃ c P l rewards cache, Run toyEnv KeepsSchedule c ∧ c.cntrBlock.mapIndex P.hashBlock = P :: l ∧ P.nHeight = 5 ∧
      getDistributePledgeRewardTxList toyEnv c.cntrBlock c.mapCacheDistributePledgeReward P.hashBlock P.nTimeStamp =
        some (some rewards, cache) ∧ rewards.map CTransaction.nAmount = [3090000] := by
  obtain ⟨c, hrun, P, -, hindex, hheight, hamounts⟩ := Run.exists_toyRun (P := KeepsSchedule)
    (Q := fun c block => decide (KeepsSchedule c block)) (fun _ _ => of_decide_eq_true) toyHonestPlans
    (R := fun c => ∃ P ∈ c.cntrBlock.pIndexLast,
      c.cntrBlock.mapIndex P.hashBlock = P :: c.cntrBlock.pIndexLast.tail ∧ P.nHeight = 5 ∧
        ((getDistributePledgeRewardTxList toyEnv c.cntrBlock c.mapCacheDistributePledgeReward P.hashBlock
          P.nTimeStamp).bind Prod.fst).map (List.map CTransaction.nAmount) = some [3090000]) (by decide +kernel)
  obtain ⟨rewards, cache, hcall⟩ := (run_rewards_never_fail hrun hindex).1
  rw [hcall] at hamounts
  exact ⟨c, P, _, rewards, cache, hrun, hindex, hheight, hcall, Option.some.inj hamounts⟩

theorem RunOver.toyPledged {nPledgeReward : ℤ} {c : CBlockChain} (h : Minemon.toyPledged nPledgeReward = some c) :
    RunOver toyEnv (fun _ => True) (fun _ _ => True) c := by
  obtain ⟨r, hrun, rfl⟩ := Option.map_eq_some_iff.1 h
  exact RunOver.genesis.toyRun (fun _ _ _ => trivial) _ hrun fun _ _ => trivial

/-- The first of five blocks declares 1000 coins, the fourth has a pledge to the miner, and the rewards
that are due after the fifth cannot be computed. -/
theorem run_rewards_stuck :
    Run toyEnv (fun _ _ => True) toyStuck ∧ toyStuck.cntrBlock.mapIndex (toyTipHash toyStuck) ≠ [] ∧
      (getDistributePledgeRewardTxList toyEnv toyStuck.cntrBlock toyStuck.mapCacheDistributePledgeReward
        (toyTipHash toyStuck) (toyTipTime toyStuck)).map Prod.fst = some none := by
  obtain ⟨hsome, hindex, -, -, hcall⟩ := toyStuck_calls
  obtain ⟨c, hc⟩ := Option.isSome_iff_exists.1 hsome
  obtain ⟨c4, h4, h5⟩ := Option.bind_eq_some_iff.1 hc
  have hstuck : toyStuck = c := by
    unfold toyStuck
    rw [hc]
    rfl
  refine ⟨?_, hindex, hcall⟩
  rw [hstuck]
  exact (RunOver.toyPledged h4).run.toyMine h5 trivial

end Minemon
