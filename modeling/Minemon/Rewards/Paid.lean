import Minemon.Run.Step
import Minemon.Service.Work

/-!
# Rewards that are paid

The loop of `AddNewBlock` over `block.vtx` compares each transaction with the reward transaction at the
same place. A block that ends before the list of rewards does is not refused.

* `addNewBlock_pays_iff`: an accepted block pays the whole list exactly when it is long enough.
-/

namespace Minemon

section

variable {E : Env}

theorem checkTxLoop_rewards {s : CBlockBase} {p : CBlockIndex} {nBlockTime : ℕ}
    {r : CBlockView × List CTxContxt} (vtx rewards : List CTransaction) (view : CBlockView)
    (ctxs : List CTxContxt) (h : checkTxLoop E s p nBlockTime vtx rewards view ctxs = some (.ok r)) :
    vtx.take rewards.length = rewards.take vtx.length ∧ ∀ tx ∈ vtx.drop rewards.length, tx.isMintTx = false := by
  induction vtx generalizing rewards view ctxs with
  | nil => simp
  | cons tx vtx ih =>
    obtain ⟨txContxt, -, htx, hrest⟩ := checkTxLoop_cons h
    obtain ⟨h1, h2⟩ := ih _ _ _ hrest
    cases rewards with
    | nil =>
      -- the list is used up: the transaction passed `VerifyBlockTx`
      refine ⟨rfl, fun t ht => ?_⟩
      rcases List.mem_cons.1 ht with rfl | ht
      · have hverify := (htx.resolve_left (by simp)).2
        exact (verifyBlockTx_ok E hverify).1.not_mint
      · exact h2 t ht
    | cons reward rewards =>
      obtain rfl : reward = tx := by simpa using htx
      refine ⟨?_, by simpa using h2⟩
      simp only [List.length_cons, List.take_succ_cons, List.tail_cons] at h1 ⊢
      rw [h1]

theorem isPrefix_iff_of_take_eq {α : Type*} {l m : List α} (h : m.take l.length = l.take m.length) :
    l <+: m ↔ l.length ≤ m.length := by
  constructor
  · exact List.IsPrefix.length_le
  · intro hle
    rw [List.take_of_length_le hle] at h
    exact ⟨m.drop l.length, by rw [← h, List.length_take, min_eq_left hle, List.take_append_drop]⟩

/-- **An accepted block pays the rewards due**, in full and in order and with no other mint transaction,
exactly when it has at least as many transactions. -/
theorem addNewBlock_pays_iff {nNetTime : ℤ} {c c' : CBlockChain} {block : CBlock}
    (h : addNewBlock E nNetTime c block = some (.OK, c')) :
    ∃ p pPrev rewards cache, c.cntrBlock.mapIndex block.hashPrev = p :: pPrev ∧
      getDistributePledgeRewardTxList E c.cntrBlock c.mapCacheDistributePledgeReward block.hashPrev
        p.nTimeStamp = some (some rewards, cache) ∧
      ((rewards <+: block.vtx ∧ ∀ tx ∈ block.vtx.drop rewards.length, tx.isMintTx = false) ↔
        rewards.length ≤ block.vtx.length) := by
  rcases addNewBlock_cases h with ⟨-, ⟨a⟩⟩ | ⟨hne, -⟩
  · obtain ⟨htake, hmint⟩ := checkTxLoop_rewards _ _ _ _ a.txs
    refine ⟨a.p, a.pPrev, a.rewards, a.cache, a.prev, a.rewardList, ?_⟩
    rw [isPrefix_iff_of_take_eq htake]
    exact ⟨fun hp => hp.1, fun hle => ⟨hle, hmint⟩⟩
  · exact absurd rfl hne

end

/-- Five blocks, with a pledge of 100 coins in the fourth: the block after them has one reward to pay. -/
def toyDue : CBlockChain :=
  ((toyPledged 0).bind (toyMine toyMiner 0 [])).getD (genesisChain toyEnv)

/-- The sixth block, which pays nothing. -/
def toyUnpaid : CBlock := toyBlock toyMiner toyDue 0 []

theorem toyUnpaid_accepted :
    ((toyPledged 0).bind (toyMine toyMiner 0 [])).isSome = true ∧
      (getDistributePledgeRewardTxList toyEnv toyDue.cntrBlock toyDue.mapCacheDistributePledgeReward
        toyUnpaid.hashPrev (toyTipTime toyDue)).map (fun r => r.1.map List.length) = some (some 1) ∧
      (addNewBlock toyEnv toyUnpaid.nTimeStamp toyDue toyUnpaid).map Prod.fst = some .OK := by
  decide +kernel

theorem addNewBlock_pays_toy :
    ∃ c', addNewBlock toyEnv toyUnpaid.nTimeStamp toyDue toyUnpaid = some (.OK, c') ∧
      ∃ p pPrev rewards cache, toyDue.cntrBlock.mapIndex toyUnpaid.hashPrev = p :: pPrev ∧
        getDistributePledgeRewardTxList toyEnv toyDue.cntrBlock toyDue.mapCacheDistributePledgeReward
          toyUnpaid.hashPrev p.nTimeStamp = some (some rewards, cache) ∧
        ((rewards <+: toyUnpaid.vtx ∧ ∀ tx ∈ toyUnpaid.vtx.drop rewards.length, tx.isMintTx = false) ↔
          rewards.length ≤ toyUnpaid.vtx.length) := by
  obtain ⟨⟨err, c'⟩, hadd, rfl⟩ := Option.map_eq_some_iff.1 toyUnpaid_accepted.2.2
  exact ⟨c', hadd, addNewBlock_pays_iff hadd⟩

/-- The sixth block is accepted although it has no transaction and one reward is due. -/
theorem addNewBlock_unpaid :
    ((toyPledged 0).bind (toyMine toyMiner 0 [])).isSome = true ∧
      (getDistributePledgeRewardTxList toyEnv toyDue.cntrBlock toyDue.mapCacheDistributePledgeReward
        toyUnpaid.hashPrev (toyTipTime toyDue)).map (fun r => r.1.map List.length) = some (some 1) ∧
      toyUnpaid.vtx = [] ∧
      (addNewBlock toyEnv toyUnpaid.nTimeStamp toyDue toyUnpaid).map Prod.fst = some .OK := by
  obtain ⟨hchain, hdue, hadd⟩ := toyUnpaid_accepted
  have hempty : ∀ c, (toyBlock toyMiner c 0 []).vtx = [] := by
    intro c
    unfold toyBlock ToyPlan.block
    split <;> rfl
  exact ⟨hchain, hdue, hempty toyDue, hadd⟩

end Minemon
