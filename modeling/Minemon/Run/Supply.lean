import Minemon.Accounts.Shown
import Minemon.Emission.Supply

/-!
# The supply along a run

Nothing in `AddNewBlock` compares the reward that a mint transaction declares with what
`GetMintPledgeReward` says. The supply follows the emission rule when every accepted block declares it.

* `DeclaresReward`: the check that is missing.
* `Run.honestChain`: with it, every chain of the index is honest.
* `run_supply_follows_emission`: the recorded supply.
-/

namespace Minemon

open CBlockBase

def DeclaresReward (E : Env) (c : CBlockChain) (block : CBlock) : Prop :=
  block.declaredPledgeReward =
    some (getMintPledgeReward E c.cntrBlock block.hashPrev block.txMint.sendTo)

instance (E : Env) (c : CBlockChain) (block : CBlock) : Decidable (DeclaresReward E c block) :=
  inferInstanceAs (Decidable (_ = _))

section

variable {E : Env} {s s' : CBlockBase} {c c' : CBlockChain}

theorem Extends.honestChain (hext : Extends E s s') (hs : PledgeOK s) {ptr : CBlockIndexPtr}
    (h : HonestChain E s ptr) : HonestChain E s' ptr := by
  induction h with
  | genesis p nFile nOffset nChainTrust hp hindex =>
    exact .genesis p nFile nOffset nChainTrust hp (by rw [hext.index _ (by rw [hindex]; simp)]; exact hindex)
  | step p q l b nFile nOffset nChainTrust hq hb hp hindex ih =>
    have hne : s.mapIndex q.hashBlock ≠ [] := by rw [hq.index]; simp
    refine .step p q l b nFile nOffset nChainTrust ih { hb with declared := ?_ } hp
      (by rw [hext.index _ (by rw [hindex]; simp)]; exact hindex)
    rw [hext.getMintPledgeReward hne hs]
    exact hb.declared

theorem Accepted.honestChain {nNetTime : ℤ} {block : CBlock} (a : Accepted E nNetTime c block c')
    (hok : StoreOK E c.cntrBlock) (hpl : PledgeOK c.cntrBlock)
    (hprev : HonestChain E c.cntrBlock (a.p :: a.pPrev)) (hdecl : DeclaresReward E c block) :
    HonestChain E c'.cntrBlock (a.toStored.entry :: a.p :: a.pPrev) := by
  have hext := a.extends hok
  have hne : c.cntrBlock.mapIndex a.p.hashBlock ≠ [] := by rw [hprev.index]; simp
  have hhash : a.p.hashBlock = block.hashPrev := (hok.chain _ _ _ a.prev).1
  obtain ⟨h1, h2, -⟩ := verifyBlock_ok a.verify
  refine .step _ _ _ block _ _ a.nChainTrust (hext.honestChain hpl hprev) ⟨hhash.symm, h1, h2, a.pow, ?_⟩ rfl ?_
  · rw [hext.getMintPledgeReward hne hpl, hhash]
    exact hdecl
  · rw [a.mapIndex hok]
    exact Function.update_self _ _ _

/-- **Every chain is honest** along a run whose accepted blocks declare their rewards. -/
theorem Run.honestChain (h : Run E (DeclaresReward E) c) :
    ∀ hash p l, c.cntrBlock.mapIndex hash = p :: l → HonestChain E c.cntrBlock (p :: l) := by
  refine h.invariant (I := fun c => ∀ hash p l, c.cntrBlock.mapIndex hash = p :: l →
    HonestChain E c.cntrBlock (p :: l)) ?_ ?_ ?_
  · intro hash p l hp
    obtain ⟨rfl, hchain⟩ := (genesis_storeOK E).chain hash p l hp
    cases hchain with
    | genesis index read => exact .genesis _ 1 8 0 rfl index
    | step hq hb index =>
      -- the genesis block is alone in the index
      rw [genesis_mapIndex] at index
      by_cases he : p.hashBlock = hashGenesisBlock E
      · rw [he, Function.update_self] at index
        simp at index
      · rw [Function.update_of_ne he] at index
        simp at index
  · intro c c' nNetTime block hrun a hdecl ih hash p l hp
    have hok := hrun.storeOK
    rw [a.mapIndex hok] at hp
    by_cases he : hash = block.getHash E
    · rw [he, Function.update_self] at hp
      obtain ⟨rfl, rfl⟩ := List.cons.inj hp
      exact a.honestChain hok hrun.pledgeOK (ih _ _ _ a.prev) hdecl
    · rw [Function.update_of_ne he] at hp
      exact (a.extends hok).honestChain hrun.pledgeOK (ih _ _ _ hp)
  · intro c c' block hrun r ih hash p l hp
    rw [r.index] at hp
    exact (r.extends hrun.storeOK).honestChain hrun.pledgeOK (ih _ _ _ hp)

/-- **The recorded supply follows the emission rule** along a run whose accepted blocks declare their
rewards. -/
theorem run_supply_follows_emission (h : Run E (DeclaresReward E) c) {hash : ℕ} {B P : CBlockIndex}
    {l : CBlockIndexPtr} (hB : c.cntrBlock.mapIndex hash = B :: P :: l) :
    B.nMoneySupply - P.nMoneySupply =
        getBlockPowReward B.nHeight + getMintPledgeReward E c.cntrBlock P.hashBlock B.destMint ∧
      0 ≤ B.nMoneySupply ∧
      B.nMoneySupply ≤ (genesisEntry E).nMoneySupply + getMintTotalReward B.nHeight := by
  have hchain := h.honestChain hash B (P :: l) hB
  have hw := hchain.withinSchedule B (P :: l) rfl
  have hheight := hchain.height
  have hgen : (genesisEntry E).nMoneySupply = 0 := by
    show wrap64 ((getGenesisBlock E).getBlockMint + 0) = 0
    rw [genesis_getBlockMint]
    rfl
  have h0 := hw.nonneg
  have h1 := hw.le_total
  rw [getBlockMoneySupply_of_index hchain.index] at h0 h1
  rw [hheight] at h1
  refine ⟨?_, h0, by rw [hgen]; omega⟩
  cases hchain with
  | step _ _ _ b _ _ _ hq hb hp _ =>
    have hP := hq.withinSchedule P l rfl
    obtain ⟨hwrap, -, -⟩ := supply_step (E := E) hP b.txMint.sendTo hb.height
    have hsupply : B.nMoneySupply = getBlockPowReward b.getBlockHeight
        + getMintPledgeReward E c.cntrBlock P.hashBlock b.txMint.sendTo + P.nMoneySupply := by
      rw [hp, newIndex_supply (verifyPowRewardTx_true hb.mint) hb.declared,
        ← getBlockMoneySupply_of_index hq.index, hwrap]
    have hBheight : B.nHeight = b.getBlockHeight := by rw [hp]; rfl
    have hBdest : B.destMint = b.txMint.sendTo := by rw [hp]; rfl
    rw [hsupply, hBheight, hBdest]
    ring

end

/-! ## On the toy network -/

theorem addNewBlock_of_toyMine {c c' : CBlockChain} {miner : CTemplateProof} {nPledgeReward : ℤ}
    {vtx : List CTransaction} (hmine : toyMine miner nPledgeReward vtx c = some c') :
    addNewBlock toyEnv (toyBlock miner c nPledgeReward vtx).nTimeStamp c (toyBlock miner c nPledgeReward vtx) =
      some (.OK, c') := by
  unfold toyMine at hmine
  simp only at hmine
  split at hmine
  · rename_i c1 hadd
    obtain rfl := Option.some.inj hmine
    exact hadd
  · simp at hmine

theorem Run.toyMine {P : CBlockChain → CBlock → Prop} {c c' : CBlockChain} {miner : CTemplateProof}
    {nPledgeReward : ℤ} {vtx : List CTransaction} (h : Run toyEnv P c)
    (hmine : Minemon.toyMine miner nPledgeReward vtx c = some c')
    (hP : P c (toyBlock miner c nPledgeReward vtx)) : Run toyEnv P c' :=
  .call _ _ .OK h (addNewBlock_of_toyMine hmine) fun _ => hP

theorem toyMine_toyFirst : toyMine toyMiner 0 [] (genesisChain toyEnv) = some toyFirst := by
  have hsome : (toyMine toyMiner 0 [] (genesisChain toyEnv)).isSome = true := by decide +kernel
  obtain ⟨c, hc⟩ := Option.isSome_iff_exists.1 hsome
  unfold toyFirst
  rw [hc]
  rfl

theorem Run.exists_toyRun {P : CBlockChain → CBlock → Prop} {Q : CBlockChain → CBlock → Bool}
    (hQ : ∀ c block, Q c block = true → P c block) (l : List ToyPlan) {R : CBlockChain → Prop} [DecidablePred R]
    (h : (toyRun Q l (genesisChain toyEnv)).any (fun r => decide (R r.1)) = true) : ∃ c, Run toyEnv P c ∧ R c := by
  obtain ⟨c, _, hover, hR, -⟩ := RunOver.exists_toyRun hQ l h
  exact ⟨c, hover.run, of_decide_eq_true hR⟩

theorem run_supply_follows_emission_toy :
    ∃ c B P l, Run toyEnv (DeclaresReward toyEnv) c ∧ c.cntrBlock.mapIndex B.hashBlock = B :: P :: l ∧
      getMintPledgeReward toyEnv c.cntrBlock P.hashBlock B.destMint = 3090000 ∧
      B.nMoneySupply - P.nMoneySupply = getBlockPowReward B.nHeight +
        getMintPledgeReward toyEnv c.cntrBlock P.hashBlock B.destMint := by
  obtain ⟨c, hrun, ⟨B, P⟩, -, hindex, hreward⟩ := Run.exists_toyRun (P := DeclaresReward toyEnv)
    (Q := fun c block => decide (DeclaresReward toyEnv c block)) (fun _ _ => of_decide_eq_true) toyHonestPlans
    (R := fun c => ∃ x ∈ c.cntrBlock.pIndexLast.zip c.cntrBlock.pIndexLast.tail,
      c.cntrBlock.mapIndex x.1.hashBlock = x.1 :: x.2 :: c.cntrBlock.pIndexLast.drop 2 ∧
        getMintPledgeReward toyEnv c.cntrBlock x.2.hashBlock x.1.destMint = 3090000) (by decide +kernel)
  exact ⟨c, B, P, _, hrun, hindex, hreward, (run_supply_follows_emission hrun hindex).1⟩

/-- A first block that declares 1 where nothing is pledged: the supply grows by that, too. -/
theorem run_supply_declared :
    ∃ c B P, Run toyEnv (fun _ _ => True) c ∧ c.cntrBlock.mapIndex B.hashBlock = [B, P] ∧
      getMintPledgeReward toyEnv c.cntrBlock P.hashBlock B.destMint = 0 ∧ B.nHeight = 1 ∧
      B.nMoneySupply - P.nMoneySupply = getBlockPowReward 1 + 1 := by
  obtain ⟨c, hc, ⟨B, P⟩, -, hx⟩ : ∃ c, toyMine toyMiner 1 [] (genesisChain toyEnv) = some c ∧
      ∃ x ∈ c.cntrBlock.pIndexLast.zip c.cntrBlock.pIndexLast.tail, c.cntrBlock.mapIndex x.1.hashBlock = [x.1, x.2] ∧
        getMintPledgeReward toyEnv c.cntrBlock x.2.hashBlock x.1.destMint = 0 ∧ x.1.nHeight = 1 ∧
        x.1.nMoneySupply - x.2.nMoneySupply = getBlockPowReward 1 + 1 := exists_some_of_any (by decide +kernel)
  exact ⟨c, B, P, Run.genesis.toyMine hc trivial, hx⟩

end Minemon
