import Minemon.Rewards.Epoch

/-!
# Distinct rewards

Each transaction that pays a reward carries the rewarded address in its data, and an address is rewarded
once in an epoch: the rewards due in one block are pairwise different.

* `calcRewardList_distinct`: every list that is computed, also by a call that fails.
* `Run.distinctRewards`: the cache in every state of a run.
-/

namespace Minemon

open CBlockBase

def DistinctRewards (v : List (List CTransaction)) : Prop := ∀ l ∈ v, (l.map CTransaction.vchData).Nodup

section

variable {E : Env} {s : CBlockBase}

theorem fillRewardList_distinct (nSingle : ℕ) (l : List (CDestination × ℤ)) (n : ℕ) (v : List (List CTransaction))
    (hv : ∀ txs ∈ v, (txs.map CTransaction.vchData ++ l.map fun kv => kv.1.toBytes).Nodup) {fOk : Bool}
    {v' : List (List CTransaction)} (h : fillRewardList s nSingle l n v = some (fOk, v')) : DistinctRewards v' := by
  fun_induction fillRewardList s nSingle l n v with
  | case1 | case3 =>
    cases h
    exact fun txs htxs => (hv txs htxs).of_append_left
  | case2 => cases h
  | case4 _ _ _ v _ htx ih =>
    refine ih (fun txs htxs => ?_) h
    obtain ⟨i, hi, rfl⟩ := List.mem_iff_getElem.1 htxs
    rw [List.length_modify] at hi
    have hi' := hv v[i] (List.getElem_mem hi)
    rw [List.getElem_modify]
    split_ifs
    · rw [List.map_append, List.append_assoc, List.map_singleton, (rewardTx_fields htx).2.1]
      exact hi'
    · exact hi'.sublist ((List.sublist_cons_self _ _).append_left _)

theorem Rewarded.isTemplate {dest : CDestination} (h : Rewarded s dest) :
    dest.nPrefix = CDestination.PREFIX_TEMPLATE := by
  rw [← CDestination.isTemplate_iff]
  rcases h.1 with ⟨hpledge, -⟩ | hproof
  · exact (Bool.and_eq_true_iff.1 hpledge).1
  · exact (Bool.and_eq_true_iff.1 hproof).1

/-- **The rewards of an epoch carry different addresses.** -/
theorem calcRewardList_distinct (hok : StoreOK E s) (hpl : PledgeOK s)
    (hid : ∀ d, s.dbTemplateData d ≠ none → d.getTemplateId < 2 ^ 256) {hashEnd : ℕ} {fOk : Bool}
    {v : List (List CTransaction)} (h : calcRewardList E s hashEnd = some (fOk, v)) : DistinctRewards v := by
  have hnil : DistinctRewards [] := fun l hl => by simp at hl
  unfold calcRewardList at h
  split at h
  · simp at h
  · simp only [Option.some.injEq, Prod.mk.injEq] at h
    exact h.2 ▸ hnil
  · rename_i m hcalc
    split_ifs at h
    · simp only [Option.some.injEq, Prod.mk.injEq] at h
      exact h.2 ▸ hnil
    · refine fillRewardList_distinct _ _ _ _ (fun txs htxs => ?_) h
      rw [List.eq_of_mem_replicate htxs, List.map_nil, List.nil_append,
        show m.toList.map (fun kv => kv.1.toBytes) = m.keys.map CDestination.toBytes from List.map_map.symm]
      refine List.Nodup.map_on (fun d hd d' hd' heq => ?_) m.keys_nodup
      -- a key of the map is a template whose identifier has 256 bits
      have hkey : ∀ d ∈ m.keys, d.nPrefix = CDestination.PREFIX_TEMPLATE ∧ d.data < 2 ^ 256 := by
        intro d hd
        obtain ⟨kv, hkv, rfl⟩ := List.mem_map.1 hd
        have hrew := calcDistributePledgeReward_payable hok hpl hcalc kv.1 kv.2 (OrdMap.find?_eq_some.2 hkv)
        have hlt := hid _ hrew.2
        rw [CDestination.getTemplateId, if_pos hrew.isTemplate] at hlt
        exact ⟨hrew.isTemplate, hlt⟩
      obtain ⟨h1, h2⟩ := hkey d hd
      obtain ⟨h3, h4⟩ := hkey d' hd'
      exact CDestination.toBytes_inj (h1.trans h3.symm) h2 h4 heq

/-! ## Along runs -/

variable {P : CBlockChain → CBlock → Prop} {c : CBlockChain}

theorem Run.getTemplateId_lt (h : Run E P c) :
    ∀ d, c.cntrBlock.dbTemplateData d ≠ none → d.getTemplateId < 2 ^ 256 := by
  refine h.invariant (I := fun c => ∀ d, c.cntrBlock.dbTemplateData d ≠ none → d.getTemplateId < 2 ^ 256) ?_ ?_ ?_
  · intro d hd
    exact absurd rfl hd
  · exact fun c c' nNetTime block hrun a _ ih => (a.extends hrun.storeOK).templ.getTemplateId_lt ih
  · exact fun c c' block hrun r ih => (r.extends hrun.storeOK).templ.getTemplateId_lt ih

theorem Run.distinctRewards (h : Run E P c) : Entries (fun _ => DistinctRewards) c.mapCacheDistributePledgeReward := by
  have hcalc : ∀ c : CBlockChain, Run E P c → ∀ hashEnd fOk v,
      calcRewardList E c.cntrBlock hashEnd = some (fOk, v) → DistinctRewards v :=
    fun c hrun _ _ _ hv => calcRewardList_distinct hrun.storeOK hrun.pledgeOK hrun.getTemplateId_lt hv
  refine h.invariant (I := fun c => Entries (fun _ => DistinctRewards) c.mapCacheDistributePledgeReward)
    Entries.empty ?_ ?_
  · intro c c' nNetTime block hrun a _ ih
    rw [a.cache_eq]
    exact (ih.call (hcalc c hrun) a.rewardList).1
  · intro c c' block hrun r ih
    rcases r.cache with heq | ⟨nPrevBlockTime, o, hcall⟩
    · rw [heq]
      exact ih
    · exact (ih.call (hcalc c hrun) hcall).1

end

end Minemon
