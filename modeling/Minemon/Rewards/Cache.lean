import Minemon.Run.Supply
import Minemon.Service.Work

/-!
# The cache of reward lists

`GetDistributePledgeRewardTxList` makes the entry of an epoch before it computes the rewards. An epoch
whose rewards cannot be computed leaves an entry behind, and the next call takes it for the answer.

* `getDistributePledgeRewardTxList_history_iff`: when the history of calls does not matter.
-/

namespace Minemon

section

variable (E : Env) (s : CBlockBase)

/-- `CalcDistributePledgeReward` succeeds and every address it rewards can be paid. -/
def EpochPayable (hashCalcEndBlock : ℕ) : Prop :=
  ∃ m, calcDistributePledgeReward E s hashCalcEndBlock = some (some m) ∧
    ∀ kv ∈ m.toList, ∃ tx, rewardTx s kv.1 kv.2 = some (some tx)

/-- The caches that sequences of calls lead to, on a store that stays as it is. -/
inductive CallHistory : RewardCache → Prop
  | start : CallHistory OrdMap.empty
  | call {cache cache' : RewardCache} {r : Option (List CTransaction)} (hashPrevBlock nPrevBlockTime : ℕ)
      (hist : CallHistory cache)
      (hcall : getDistributePledgeRewardTxList E s cache hashPrevBlock nPrevBlockTime = some (r, cache')) :
      CallHistory cache'

end

section

variable {E : Env} {s : CBlockBase}

/-! ## When the computation succeeds -/

theorem fillRewardList_true_iff (nSingle : ℕ) (l : List (CDestination × ℤ)) (n : ℕ)
    (v : List (List CTransaction)) :
    (∃ v', fillRewardList s nSingle l n v = some (true, v')) ↔
      ∀ kv ∈ l, ∃ tx, rewardTx s kv.1 kv.2 = some (some tx) := by
  induction l generalizing n v with
  | nil => simp [fillRewardList]
  | cons kv l ih =>
    rw [List.forall_mem_cons, fillRewardList]
    cases htx : rewardTx s kv.1 kv.2 with
    | none => simp
    | some o =>
      cases o with
      | none => simp
      | some tx => simp [ih]

theorem calcRewardList_true_iff (hashEnd : ℕ) :
    (∃ v, calcRewardList E s hashEnd = some (true, v)) ↔ EpochPayable E s hashEnd := by
  unfold calcRewardList EpochPayable
  cases hcalc : calcDistributePledgeReward E s hashEnd with
  | none => simp
  | some o =>
    cases o with
    | none => simp
    | some m =>
      simp only [Option.some.injEq, exists_eq_left']
      by_cases hm : m.toList = []
      · simp [hm]
      · rw [if_neg (by simpa using hm)]
        exact fillRewardList_true_iff _ _ _ _

/-! ## What the cache holds -/

def Entries (Q : ℕ → List (List CTransaction) → Prop) (cache : RewardCache) : Prop :=
  ∀ hashEnd v, cache.find? hashEnd = some v → Q hashEnd v

/-- Every entry is what the computation leaves, whether it succeeded or not. -/
def Computed (E : Env) (s : CBlockBase) : RewardCache → Prop :=
  Entries fun hashEnd v => ∃ fOk, calcRewardList E s hashEnd = some (fOk, v)

variable {cache : RewardCache} {Q : ℕ → List (List CTransaction) → Prop}

theorem find?_evictRewardCache (cache : RewardCache) (hashEnd k : ℕ) :
    (evictRewardCache hashEnd cache).find? k = cache.find? k ∨
      k ≠ hashEnd ∧ (evictRewardCache hashEnd cache).find? k = none := by
  unfold evictRewardCache
  rw [OrdMap.find?_foldl_erase]
  split_ifs with h
  · have hmem := List.mem_of_mem_take h
    exact Or.inr ⟨by simpa using (List.mem_filter.1 hmem).2, rfl⟩
  · exact Or.inl rfl

theorem find?_evictRewardCache_self (hashEnd : ℕ) :
    (evictRewardCache hashEnd cache).find? hashEnd = cache.find? hashEnd := by
  rcases find?_evictRewardCache cache hashEnd hashEnd with h | h
  · exact h
  · exact absurd rfl h.1

theorem Entries.empty : Entries Q OrdMap.empty := fun k v hk => by simp at hk

theorem Entries.evict (h : Entries Q cache) (hashEnd : ℕ) : Entries Q (evictRewardCache hashEnd cache) := by
  intro k v hk
  rcases find?_evictRewardCache cache hashEnd k with heq | ⟨-, hnone⟩
  · exact h k v (heq ▸ hk)
  · rw [hnone] at hk
    exact absurd hk (by simp)

variable {v : List (List CTransaction)}

theorem Entries.insert (h : Entries Q cache) {hashEnd : ℕ} (hv : Q hashEnd v) : Entries Q (cache.insert hashEnd v) := by
  intro k w hk
  rw [OrdMap.find?_insert] at hk
  split_ifs at hk with heq
  · obtain rfl := Option.some.inj hk
    rw [heq]
    exact hv
  · exact h k w hk

variable {hashPrevBlock nPrevBlockTime : ℕ} {cache' : RewardCache} {r : Option (List CTransaction)}

/-- **One call keeps the property of the entries**, and a list that it returns is part of an entry. -/
theorem Entries.call (h : Entries Q cache)
    (hcalc : ∀ hashEnd fOk v, calcRewardList E s hashEnd = some (fOk, v) → Q hashEnd v)
    (hcall : getDistributePledgeRewardTxList E s cache hashPrevBlock nPrevBlockTime = some (r, cache')) :
    Entries Q cache' ∧ ∀ rewards, r = some rewards → rewards = [] ∨
      ∃ pEnd v, calcEndBlock E s hashPrevBlock = some pEnd ∧ Q pEnd.hashBlock v ∧
        BPX_PLEDGE_REWARD_DISTRIBUTE_HEIGHT E ≤ getBlockHeightByHash hashPrevBlock ∧
        rewards = selectRewardList E hashPrevBlock nPrevBlockTime v := by
  unfold getDistributePledgeRewardTxList at hcall
  split_ifs at hcall with hheight
  · simp only [Option.some.injEq, Prod.mk.injEq] at hcall
    refine ⟨hcall.2 ▸ h, fun rewards hr => Or.inl ?_⟩
    rw [← hcall.1, Option.some.injEq] at hr
    exact hr.symm
  · cases hend : calcEndBlock E s hashPrevBlock with
    | none =>
      simp only [hend, Option.some.injEq, Prod.mk.injEq] at hcall
      exact ⟨hcall.2 ▸ h, fun rewards hr => by rw [← hcall.1] at hr; simp at hr⟩
    | some pEnd =>
      simp only [hend] at hcall
      cases hfind : (evictRewardCache pEnd.hashBlock cache).find? pEnd.hashBlock with
      | some v =>
        simp only [hfind, Option.some.injEq, Prod.mk.injEq] at hcall
        refine ⟨hcall.2 ▸ h.evict _, fun rewards hr => Or.inr ⟨pEnd, v, rfl, h.evict _ _ _ hfind, by omega, ?_⟩⟩
        rw [← hcall.1, Option.some.injEq] at hr
        exact hr.symm
      | none =>
        cases hlist : calcRewardList E s pEnd.hashBlock with
        | none => simp [hfind, hlist] at hcall
        | some fv =>
          obtain ⟨fOk, v⟩ := fv
          have hv := hcalc _ _ _ hlist
          simp only [hfind, hlist, Option.some.injEq, Prod.mk.injEq] at hcall
          refine ⟨hcall.2 ▸ (h.evict _).insert hv, fun rewards hr => Or.inr ⟨pEnd, v, rfl, hv, by omega, ?_⟩⟩
          rw [← hcall.1] at hr
          cases fOk with
          | false => simp at hr
          | true => simpa using hr.symm

theorem CallHistory.computed (h : CallHistory E s cache) : Computed E s cache := by
  induction h with
  | start => exact Entries.empty
  | call _ _ _ hcall ih => exact (Entries.call ih (fun _ fOk _ hv => ⟨fOk, hv⟩) hcall).1

/-! ## The form of reward transactions -/

structure RewardForm (tx : CTransaction) : Prop where
  type : tx.nType = CTransaction.TX_STAKE
  inputs : tx.vInput = []
  sendTo : tx.sendTo.isNull = false
  fee : tx.nTxFee = 0

def RewardForms (v : List (List CTransaction)) : Prop := ∀ l ∈ v, ∀ tx ∈ l, RewardForm tx

variable {dest : CDestination} {nReward : ℤ} {tx : CTransaction}

theorem not_isNull_of_isTxSpendable (h : isTxSpendable dest = true) : dest.isNull = false := by
  unfold isTxSpendable CDestination.isPubKey CDestination.isTemplate at h
  unfold CDestination.isNull
  simp only [Bool.or_eq_true, Bool.and_eq_true, beq_iff_eq] at h
  rcases h with h | ⟨h, -⟩
  · rw [h]
    rfl
  · rw [h]
    rfl

theorem getPledgeTemplateParam_some {pledge : CTemplateMintPledge}
    (h : getPledgeTemplateParam s dest = some (some pledge)) :
    s.dbTemplateData dest ≠ none ∧ isTxSpendable pledge.destOwner = true := by
  unfold getPledgeTemplateParam at h
  split_ifs at h
  · cases h
  · split at h
    · cases h
    · rename_i hv
      have hvalid := (createTemplatePtr_eq_some.1 (createMintPledgePtr_some h)).2
      simp only [CTemplate.validateParam, CTemplateMintPledge.validateParam, Bool.and_eq_true] at hvalid
      exact ⟨by simp [hv], hvalid.1.1⟩

theorem rewardTx_some (h : rewardTx s dest nReward = some (some tx)) :
    dest.isTemplate = true ∧ ∃ sendTo,
      tx = { nType := CTransaction.TX_STAKE, sendTo := sendTo, nAmount := nReward, vchData := dest.toBytes } ∧
      (sendTo = dest ∧ (isTemplateOf dest TEMPLATE_MINTPLEDGE = true → s.dbTemplateData dest ≠ none) ∨
        isTxSpendable sendTo = true) := by
  unfold rewardTx at h
  split_ifs at h with hdest htype hproof
  · cases h
  · refine ⟨by simpa using hdest, ?_⟩
    split at h
    · cases h
    · cases h
    · rename_i pledge hpledge
      obtain ⟨hdb, howner⟩ := getPledgeTemplateParam_some hpledge
      cases h
      split_ifs
      · exact ⟨dest, rfl, Or.inl ⟨rfl, fun _ => hdb⟩⟩
      · exact ⟨pledge.destOwner, rfl, Or.inr howner⟩
  · cases h
    refine ⟨by simpa using hdest, dest, rfl, Or.inl ⟨rfl, fun hto => absurd ?_ htype⟩⟩
    exact beq_iff_eq.1 (Bool.and_eq_true_iff.1 hto).2
  · cases h

theorem rewardTx_form (h : rewardTx s dest nReward = some (some tx)) : RewardForm tx := by
  obtain ⟨hdest, sendTo, rfl, ⟨rfl, -⟩ | howner⟩ := rewardTx_some h
  · exact ⟨rfl, rfl, CDestination.not_isNull_of_isTemplate hdest, rfl⟩
  · exact ⟨rfl, rfl, not_isNull_of_isTxSpendable howner, rfl⟩

section

variable {F : CTransaction → Prop} {fOk : Bool}
  (hF : ∀ dest nReward tx, rewardTx s dest nReward = some (some tx) → F tx)

include hF

theorem fillRewardList_all (nSingle : ℕ)
    (l : List (CDestination × ℤ)) (n : ℕ) (v : List (List CTransaction)) (hv : ∀ l ∈ v, ∀ tx ∈ l, F tx)
    {v' : List (List CTransaction)} (h : fillRewardList s nSingle l n v = some (fOk, v')) :
    ∀ l ∈ v', ∀ tx ∈ l, F tx := by
  fun_induction fillRewardList s nSingle l n v with
  | case1 | case3 =>
    cases h
    exact hv
  | case2 => cases h
  | case4 _ _ n v _ htx ih =>
    refine ih (fun l' hl' tx' htx' => ?_) h
    rw [List.modify_eq_set_getElem?] at hl'
    cases hget : v[n / nSingle]? with
    | none =>
      rw [hget] at hl'
      exact hv l' (by simpa using hl') tx' htx'
    | some w =>
      rw [hget] at hl'
      rcases List.mem_or_eq_of_mem_set hl' with hmem | rfl
      · exact hv l' hmem tx' htx'
      · rcases List.mem_append.1 htx' with hmem | hmem
        · exact hv w (List.mem_of_getElem? hget) tx' hmem
        · rw [List.mem_singleton.1 hmem]
          exact hF _ _ _ htx

theorem calcRewardList_all {hashEnd : ℕ}
    (h : calcRewardList E s hashEnd = some (fOk, v)) : ∀ l ∈ v, ∀ tx ∈ l, F tx := by
  have hnil : ∀ l ∈ ([] : List (List CTransaction)), ∀ tx ∈ l, F tx := fun l hl => by simp at hl
  unfold calcRewardList at h
  split at h
  · simp at h
  · simp only [Option.some.injEq, Prod.mk.injEq] at h
    exact h.2 ▸ hnil
  · split_ifs at h
    · simp only [Option.some.injEq, Prod.mk.injEq] at h
      exact h.2 ▸ hnil
    · refine fillRewardList_all hF _ _ _ _ (fun l hl tx htx => ?_) h
      rw [List.eq_of_mem_replicate hl] at htx
      simp at htx

end

theorem mem_selectRewardList (h : tx ∈ selectRewardList E hashPrevBlock nPrevBlockTime v) :
    ∃ l ∈ v, ∃ tx0 ∈ l, ∃ nTime, tx = { tx0 with nTimeStamp := nTime } := by
  obtain ⟨tx0, htx0, rfl⟩ := List.mem_map.1 h
  rw [List.getD_eq_getElem?_getD] at htx0
  cases hget : v[getBlockHeightByHash hashPrevBlock % BPX_PLEDGE_REWARD_DISTRIBUTE_HEIGHT E]? with
  | none =>
    rw [hget] at htx0
    simp at htx0
  | some l =>
    rw [hget] at htx0
    exact ⟨l, List.mem_of_getElem? hget, tx0, htx0, _, rfl⟩

/-- **A call returns transactions of that form**, and leaves only such in the cache. -/
theorem getDistributePledgeRewardTxList_forms (h : Entries (fun _ => RewardForms) cache)
    (hcall : getDistributePledgeRewardTxList E s cache hashPrevBlock nPrevBlockTime = some (r, cache')) :
    Entries (fun _ => RewardForms) cache' ∧ ∀ rewards, r = some rewards → ∀ tx ∈ rewards, RewardForm tx := by
  obtain ⟨h1, h2⟩ := h.call (fun _ _ _ hv => calcRewardList_all (fun _ _ _ => rewardTx_form) hv) hcall
  refine ⟨h1, fun rewards hr tx htx => ?_⟩
  rcases h2 rewards hr with rfl | ⟨pEnd, v, -, hv, -, rfl⟩
  · simp at htx
  · obtain ⟨l, hl, tx0, htx0, nTime, rfl⟩ := mem_selectRewardList htx
    obtain ⟨h1, h2, h3, h4⟩ := hv l hl tx0 htx0
    exact ⟨h1, h2, h3, h4⟩

/-! ## The answer -/

def rewardAnswer (E : Env) (s : CBlockBase) (cache : RewardCache) (hashPrevBlock nPrevBlockTime : ℕ) :
    Option (Option (List CTransaction)) :=
  (getDistributePledgeRewardTxList E s cache hashPrevBlock nPrevBlockTime).map Prod.fst

variable {hashPrevBlock : ℕ} (nPrevBlockTime : ℕ)

theorem rewardAnswer_of_low (h : getBlockHeightByHash hashPrevBlock < BPX_PLEDGE_REWARD_DISTRIBUTE_HEIGHT E) :
    rewardAnswer E s cache hashPrevBlock nPrevBlockTime = some (some []) := by
  unfold rewardAnswer getDistributePledgeRewardTxList
  rw [if_pos h]
  rfl

section

variable {pEnd : CBlockIndex} (h : BPX_PLEDGE_REWARD_DISTRIBUTE_HEIGHT E ≤ getBlockHeightByHash hashPrevBlock)

include h

theorem rewardAnswer_of_no_end (hend : calcEndBlock E s hashPrevBlock = none) :
    rewardAnswer E s cache hashPrevBlock nPrevBlockTime = some none := by
  unfold rewardAnswer getDistributePledgeRewardTxList
  rw [if_neg (by omega), hend]
  rfl

theorem rewardAnswer_of_end (hend : calcEndBlock E s hashPrevBlock = some pEnd) :
    rewardAnswer E s cache hashPrevBlock nPrevBlockTime =
      match cache.find? pEnd.hashBlock with
      | some v => some (some (selectRewardList E hashPrevBlock nPrevBlockTime v))
      | none => (calcRewardList E s pEnd.hashBlock).map fun r =>
          if r.1 then some (selectRewardList E hashPrevBlock nPrevBlockTime r.2) else none := by
  unfold rewardAnswer getDistributePledgeRewardTxList
  rw [if_neg (by omega)]
  simp only [hend, find?_evictRewardCache_self]
  cases cache.find? pEnd.hashBlock with
  | some v => rfl
  | none => cases calcRewardList E s pEnd.hashBlock <;> rfl

end

/-- **The history of calls does not matter** exactly when the rewards of the epoch are payable or no
call before left an entry for it. -/
theorem getDistributePledgeRewardTxList_history_iff (h : CallHistory E s cache) :
    rewardAnswer E s cache hashPrevBlock nPrevBlockTime =
        rewardAnswer E s OrdMap.empty hashPrevBlock nPrevBlockTime ↔
      ∀ pEnd, BPX_PLEDGE_REWARD_DISTRIBUTE_HEIGHT E ≤ getBlockHeightByHash hashPrevBlock →
        calcEndBlock E s hashPrevBlock = some pEnd →
          EpochPayable E s pEnd.hashBlock ∨ cache.find? pEnd.hashBlock = none := by
  by_cases hlow : getBlockHeightByHash hashPrevBlock < BPX_PLEDGE_REWARD_DISTRIBUTE_HEIGHT E
  · simp only [rewardAnswer_of_low nPrevBlockTime hlow, true_iff]
    intro pEnd hheight
    omega
  have hheight := not_lt.1 hlow
  cases hend : calcEndBlock E s hashPrevBlock with
  | none => simp [rewardAnswer_of_no_end nPrevBlockTime hheight hend]
  | some pEnd =>
    simp only [rewardAnswer_of_end nPrevBlockTime hheight hend, OrdMap.find?_empty, hheight, true_implies,
      Option.some.injEq, forall_eq']
    cases hfind : cache.find? pEnd.hashBlock with
    | none => simp
    | some v =>
      -- the entry is what the computation left: the answers agree when it succeeded
      obtain ⟨fOk, hcalc⟩ := h.computed _ _ hfind
      rw [← calcRewardList_true_iff, hcalc]
      cases fOk <;> simp

end

/-- Five blocks of which the first declares 1000 coins, so that the rewards of the fifth cannot be computed. -/
def toyStuck : CBlockChain :=
  ((toyPledged 1000000000).bind (toyMine toyMiner 0 [])).getD (genesisChain toyEnv)

theorem toyStuck_calls :
    ((toyPledged 1000000000).bind (toyMine toyMiner 0 [])).isSome = true ∧
      toyStuck.cntrBlock.mapIndex (toyTipHash toyStuck) ≠ [] ∧
      getDistributePledgeRewardTxList toyEnv toyStuck.cntrBlock OrdMap.empty (toyTipHash toyStuck)
        (toyTipTime toyStuck) = some (none, OrdMap.empty.insert (toyTipHash toyStuck) []) ∧
      rewardAnswer toyEnv toyStuck.cntrBlock (OrdMap.empty.insert (toyTipHash toyStuck) []) (toyTipHash toyStuck)
        (toyTipTime toyStuck) = some (some []) ∧
      (getDistributePledgeRewardTxList toyEnv toyStuck.cntrBlock toyStuck.mapCacheDistributePledgeReward
        (toyTipHash toyStuck) (toyTipTime toyStuck)).map Prod.fst = some none := by
  decide +kernel

/-- After one call that failed the answer is known, in the toy network. -/
theorem getDistributePledgeRewardTxList_history_toy :
    CallHistory toyEnv toyStuck.cntrBlock (OrdMap.empty.insert (toyTipHash toyStuck) []) ∧
      (rewardAnswer toyEnv toyStuck.cntrBlock (OrdMap.empty.insert (toyTipHash toyStuck) [])
          (toyTipHash toyStuck) (toyTipTime toyStuck) =
        rewardAnswer toyEnv toyStuck.cntrBlock OrdMap.empty (toyTipHash toyStuck) (toyTipTime toyStuck) ↔
      ∀ pEnd, BPX_PLEDGE_REWARD_DISTRIBUTE_HEIGHT toyEnv ≤ getBlockHeightByHash (toyTipHash toyStuck) →
        calcEndBlock toyEnv toyStuck.cntrBlock (toyTipHash toyStuck) = some pEnd →
          EpochPayable toyEnv toyStuck.cntrBlock pEnd.hashBlock ∨
            (OrdMap.empty.insert (toyTipHash toyStuck) [] : RewardCache).find? pEnd.hashBlock = none) := by
  have hhist := CallHistory.call _ _ .start toyStuck_calls.2.2.1
  exact ⟨hhist, getDistributePledgeRewardTxList_history_iff _ hhist⟩

/-- The first call fails, and the second one succeeds with an empty list. -/
theorem getDistributePledgeRewardTxList_history_matters :
    ((toyPledged 1000000000).bind (toyMine toyMiner 0 [])).isSome = true ∧
      rewardAnswer toyEnv toyStuck.cntrBlock OrdMap.empty (toyTipHash toyStuck) (toyTipTime toyStuck) =
        some none ∧
      ((getDistributePledgeRewardTxList toyEnv toyStuck.cntrBlock OrdMap.empty (toyTipHash toyStuck)
          (toyTipTime toyStuck)).bind fun r =>
        rewardAnswer toyEnv toyStuck.cntrBlock r.2 (toyTipHash toyStuck) (toyTipTime toyStuck)) =
          some (some []) := by
  obtain ⟨hsome, -, hcall, hagain, -⟩ := toyStuck_calls
  refine ⟨hsome, ?_, ?_⟩
  · rw [rewardAnswer, hcall]
    rfl
  · rw [hcall, Option.bind_some]
    exact hagain

end Minemon
