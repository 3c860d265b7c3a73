import Minemon.Emission.Split

/-!
# The recorded supply

`AddNewIndex` adds to the supply what the mint transaction pays beyond the fees and what it declares.

* `getBlockMint_eq`, `newIndex_supply`: the supply after a block, from the reward it declares.
* `HonestChain`, `honest_emission`: a chain of such blocks.
-/

namespace Minemon

section

variable {E : Env} {s : CBlockBase} {b : CBlock} {nPrevBlockTime : ℕ} {d : ℤ}

theorem getBlockMint_eq (h : PowRewardTx b nPrevBlockTime) (hd : b.declaredPledgeReward = some d) :
    b.getBlockMint = wrap64 (getBlockPowReward b.getBlockHeight + d) := by
  unfold CBlock.getBlockMint
  simp only [hd, h.amount]
  rw [wrap64_add_left, wrap64_sub_left]
  congr 1
  ring

theorem newIndex_supply (h : PowRewardTx b nPrevBlockTime) (hd : b.declaredPledgeReward = some d)
    (hash nFile nOffset nChainTrust : ℕ) (q : CBlockIndex) (l : CBlockIndexPtr) :
    (CBlockBase.newIndex E hash b nFile nOffset nChainTrust b.getBlockMint (q :: l)).nMoneySupply =
      wrap64 (getBlockPowReward b.getBlockHeight + d + q.nMoneySupply) := by
  show wrap64 (b.getBlockMint + q.nMoneySupply) = _
  rw [getBlockMint_eq h hd, wrap64_add_left]

theorem genesis_getBlockMint (E : Env) : (getGenesisBlock E).getBlockMint = 0 := by
  simp [CBlock.getBlockMint, CBlock.declaredPledgeReward, CBlock.isGenesis, getGenesisBlock,
    CTransaction.totalFee, BPX_INIT_REWARD_TOKEN, wrap64]

/-! ## What a block should declare -/

/-- The supply at a block is within the schedule of its height. -/
structure WithinSchedule (s : CBlockBase) (hash : ℕ) : Prop where
  nonneg : 0 ≤ getBlockMoneySupply s hash
  le_total : getBlockMoneySupply s hash ≤ getMintTotalReward (getBlockHeightByHash hash)

variable {hash : ℕ}

section

variable (h : WithinSchedule s hash)

include h

theorem WithinSchedule.fits : Fits64 (getBlockMoneySupply s hash) := by
  have h1 := getMintTotalReward_le (getBlockHeightByHash hash)
  have h2 := h.le_total
  exact fits64_of_nonneg h.nonneg (by omega)

theorem WithinSchedule.surplus_eq :
    surplusReward s hash = getMintTotalReward (getBlockHeightByHash hash) - getBlockMoneySupply s hash :=
  surplusReward_eq h.nonneg h.fits

theorem WithinSchedule.surplus_nonneg : 0 ≤ surplusReward s hash := by
  have := h.le_total
  rw [h.surplus_eq]
  omega

theorem WithinSchedule.exists_range : ∃ r, getPledgeMinMaxValue E s hash = some r := by
  have h0 := h.nonneg
  unfold getPledgeMinMaxValue
  simp only
  rw [if_neg (by omega)]
  exact ⟨_, rfl⟩

theorem getMintPledgeReward_bounds (dest : CDestination) :
    0 ≤ getMintPledgeReward E s hash dest ∧
      getMintPledgeReward E s hash dest ≤
        surplusReward s hash + getBlockPledgeReward (getBlockHeightByHash hash + 1) := by
  have hsur := h.surplus_nonneg
  have hpl := getBlockPledgeReward_nonneg (getBlockHeightByHash hash + 1)
  obtain ⟨r, hr⟩ := h.exists_range (E := E)
  have hv := (getPledgeMinMaxValue_valid E h.fits hr).1
  unfold getMintPledgeReward
  simp only [hr]
  cases hd : getMintPledgeData E s hash dest r.nStakeMinPledge r.nMaxPledge with
  | none => exact ⟨le_rfl, by simp only; omega⟩
  | some v =>
    have hb := calcPledgeRewardValue_bounds v.2 hv h.nonneg h.fits hsur
    simp only
    rw [if_neg (by omega)]
    exact hb

/-- **One block that declares its reward**: the supply grows by the two rewards and stays within the
schedule. -/
theorem supply_step (dest : CDestination) {n : ℕ}
    (hn : n = getBlockHeightByHash hash + 1) :
    let supply := getBlockPowReward n + getMintPledgeReward E s hash dest + getBlockMoneySupply s hash
    wrap64 supply = supply ∧ 0 ≤ supply ∧ supply ≤ getMintTotalReward n := by
  subst hn
  obtain ⟨h0, h1⟩ := getMintPledgeReward_bounds (E := E) h dest
  have h2 := getBlockPowReward_nonneg (getBlockHeightByHash hash + 1)
  have h3 := pow_add_pledge_le (getBlockHeightByHash hash + 1)
  have h4 := getMintTotalReward_succ (getBlockHeightByHash hash)
  have h5 := getMintTotalReward_le (getBlockHeightByHash hash + 1)
  have h6 := h.surplus_eq
  have h7 := h.nonneg
  intro supply
  have hle : supply ≤ getMintTotalReward (getBlockHeightByHash hash + 1) := by omega
  exact ⟨wrap64_eq (fits64_of_nonneg (by omega) (by omega)), by omega, hle⟩

end

end

/-! ## Honest chains -/

/-- A block on `q` that passed the checks of its mint transaction and declares the reward of the pledges. -/
structure HonestBlock (E : Env) (s : CBlockBase) (q : CBlockIndex) (b : CBlock) : Prop where
  prev : b.hashPrev = q.hashBlock
  origin : b.isOrigin = false
  primary : b.isPrimary = true
  mint : verifyPowRewardTx b q.nTimeStamp = true
  declared : b.declaredPledgeReward = some (getMintPledgeReward E s q.hashBlock b.txMint.sendTo)

/-- The chains of honest blocks in a store. Nothing is asked of the pledges that the store holds. -/
inductive HonestChain (E : Env) (s : CBlockBase) : CBlockIndexPtr → Prop
  | genesis (p : CBlockIndex) (nFile nOffset nChainTrust : ℕ)
      (hp : p = CBlockBase.newIndex E (hashGenesisBlock E) (getGenesisBlock E) nFile nOffset nChainTrust
        (getGenesisBlock E).getBlockMint [])
      (hindex : s.mapIndex p.hashBlock = [p]) : HonestChain E s [p]
  | step (p q : CBlockIndex) (l : CBlockIndexPtr) (b : CBlock) (nFile nOffset nChainTrust : ℕ)
      (hq : HonestChain E s (q :: l)) (hb : HonestBlock E s q b)
      (hp : p = CBlockBase.newIndex E (b.getHash E) b nFile nOffset nChainTrust b.getBlockMint (q :: l))
      (hindex : s.mapIndex p.hashBlock = p :: q :: l) : HonestChain E s (p :: q :: l)

section

variable {E : Env} {s : CBlockBase} {p : CBlockIndex} {l : CBlockIndexPtr}

theorem getBlockMoneySupply_of_index (h : s.mapIndex p.hashBlock = p :: l) :
    getBlockMoneySupply s p.hashBlock = p.nMoneySupply := by
  unfold getBlockMoneySupply
  rw [h]

theorem HonestBlock.height {q : CBlockIndex} {b : CBlock} (h : HonestBlock E s q b) :
    b.getBlockHeight = getBlockHeightByHash q.hashBlock + 1 := by
  rw [CBlock.height_of_primary h.origin h.primary, h.prev]

theorem HonestChain.index (h : HonestChain E s (p :: l)) : s.mapIndex p.hashBlock = p :: l := by
  cases h with
  | genesis _ _ _ _ _ hindex => exact hindex
  | step _ _ _ _ _ _ _ _ _ _ hindex => exact hindex

theorem HonestChain.height (h : HonestChain E s (p :: l)) : getBlockHeightByHash p.hashBlock = p.nHeight := by
  cases h with
  | genesis _ _ _ _ hp _ =>
    rw [hp]
    exact CBlock.height_getHash E _
  | step _ _ _ b _ _ _ _ _ hp _ =>
    rw [hp]
    exact CBlock.height_getHash E b

/-- **An honest chain stays within the schedule**, whatever is pledged. -/
theorem HonestChain.withinSchedule {ptr : CBlockIndexPtr} (h : HonestChain E s ptr) :
    ∀ p l, ptr = p :: l → WithinSchedule s p.hashBlock := by
  induction h with
  | genesis p _ _ _ hp hindex =>
    rintro p' l' heq
    obtain ⟨rfl, rfl⟩ := List.cons.inj heq
    have hsupply : getBlockMoneySupply s p.hashBlock = 0 := by
      rw [getBlockMoneySupply_of_index hindex, hp]
      show wrap64 ((getGenesisBlock E).getBlockMint + 0) = 0
      rw [genesis_getBlockMint]
      rfl
    have := getMintTotalReward_nonneg (getBlockHeightByHash p.hashBlock)
    exact ⟨by rw [hsupply], by rw [hsupply]; exact this⟩
  | step p q l b _ _ _ hq hb hp hindex ih =>
    rintro p' l' heq
    obtain ⟨rfl, rfl⟩ := List.cons.inj heq
    have hw := ih q l rfl
    have hheight : getBlockHeightByHash p.hashBlock = b.getBlockHeight := by
      rw [hp]
      exact CBlock.height_getHash E b
    obtain ⟨h1, h2, h3⟩ := supply_step (E := E) hw b.txMint.sendTo hb.height
    have hsupply : getBlockMoneySupply s p.hashBlock =
        getBlockPowReward b.getBlockHeight + getMintPledgeReward E s q.hashBlock b.txMint.sendTo
          + getBlockMoneySupply s q.hashBlock := by
      rw [getBlockMoneySupply_of_index hindex, hp,
        newIndex_supply (verifyPowRewardTx_true hb.mint) hb.declared,
        ← getBlockMoneySupply_of_index hq.index, h1]
    exact ⟨by rw [hsupply]; exact h2, by rw [hsupply, hheight]; exact h3⟩

theorem HonestChain.genesis_supply {ptr : CBlockIndexPtr} (h : HonestChain E s ptr) :
    ∀ p, ptr.getLast? = some p → p.nMoneySupply = 0 := by
  induction h with
  | genesis p _ _ _ hp _ =>
    intro p' hlast
    obtain rfl := Option.some.inj hlast
    rw [hp]
    show wrap64 ((getGenesisBlock E).getBlockMint + 0) = 0
    rw [genesis_getBlockMint]
    rfl
  | step p q l b _ _ _ _ _ _ _ ih =>
    intro p' hlast
    exact ih p' (by rw [List.getLast?_cons_cons] at hlast; exact hlast)

structure EmissionInside (E : Env) (s : CBlockBase) (p : CBlockIndex) (nGenesisSupply : ℤ) : Prop where
  supply : p.nMoneySupply - nGenesisSupply ≤ getMintTotalReward p.nHeight
  surplus : 0 ≤ surplusReward s p.hashBlock
  range : ∃ r, getPledgeMinMaxValue E s p.hashBlock = some r
  reward : ∀ r nTotalPledge, getPledgeMinMaxValue E s p.hashBlock = some r →
    0 ≤ calcPledgeRewardValue s p.hashBlock nTotalPledge r.nPowMinPledge r.nMaxPledge ∧
      calcPledgeRewardValue s p.hashBlock nTotalPledge r.nPowMinPledge r.nMaxPledge ≤
        surplusReward s p.hashBlock + getBlockPledgeReward (p.nHeight + 1)

/-- `GetMintPledgeReward` at `p` computes without overflow, as long as the valid pledges have a sum. -/
structure PledgeRewardSafe (E : Env) (s : CBlockBase) (p : CBlockIndex) : Prop where
  stake : StakeMinLoopSafe ((p.nHeight + 1) / BPX_REWARD_HALVE_HEIGHT + 1) BPX_INIT_BLOCK_REWARD_TOKEN
    (p.nHeight + 1) 0
  pledges : ∀ dest r l, getPledgeMinMaxValue E s p.hashBlock = some r →
    getPowPledgeList E s.dbPledge p.hashBlock dest = some l →
      Fits64 (rewardTotal (validPledgesLoop r.nStakeMinPledge r.nMaxPledge l.toList OrdMap.empty 0).1) →
        PledgeSumSafe r.nStakeMinPledge r.nMaxPledge l.toList 0
  value : ∀ r nTotalPledge, getPledgeMinMaxValue E s p.hashBlock = some r → r.nPowMinPledge ≤ nTotalPledge →
    RewardValueSafe s p.hashBlock nTotalPledge r.nMaxPledge

theorem WithinSchedule.pledgeRewardSafe (h : WithinSchedule s p.hashBlock) : PledgeRewardSafe E s p := by
  refine ⟨stakeMinSafe _, fun dest r l hr _ hfit => ?_, fun r nTotalPledge hr ht => ?_⟩
  · have hv := (getPledgeMinMaxValue_valid E h.fits hr).1
    exact pledgeSumSafe hv.stake_pos (hv.pow_pos.trans_le hv.pow_le) (.start l) le_rfl rfl hfit.2
  · exact rewardValueSafe (getPledgeMinMaxValue_valid E h.fits hr).1 h.nonneg h.fits ht

/-- **Emission stays inside the schedule** on an honest chain, and the arithmetic is exact up to the
height of 63 halvings. -/
theorem honest_emission (h : HonestChain E s (p :: l)) :
    (∀ g, (p :: l).getLast? = some g → EmissionInside E s p g.nMoneySupply) ∧
      (∀ n, getMintTotalReward n = ∑ i ∈ Finset.range n, getMintWorkReward (i + 1)) ∧
      (∀ n ≤ 63 * BPX_REWARD_HALVE_HEIGHT, ScheduleSafe n) ∧ PledgeRewardSafe E s p := by
  have hw := h.withinSchedule p l rfl
  refine ⟨fun g hg => ⟨?_, hw.surplus_nonneg, hw.exists_range, fun r t hr => ?_⟩,
    getMintTotalReward_eq_sum, fun n hn => (scheduleSafe_iff n).2 hn, hw.pledgeRewardSafe⟩
  · have hle := hw.le_total
    rw [getBlockMoneySupply_of_index h.index, h.height] at hle
    rw [h.genesis_supply g hg]
    omega
  · rw [← h.height]
    exact calcPledgeRewardValue_bounds _ (getPledgeMinMaxValue_valid E hw.fits hr).1 hw.nonneg hw.fits
      hw.surplus_nonneg

end

def toyGenesis : CBlockIndex :=
  CBlockBase.newIndex toyEnv (hashGenesisBlock toyEnv) (getGenesisBlock toyEnv) 1 8 0
    (getGenesisBlock toyEnv).getBlockMint []

/-- A first block that declares 0, which is right as long as nothing is pledged. -/
def toyFirstBlock : CBlock := toyBlock toyMiner (genesisChain toyEnv) 0 []

def toyFirst : CBlockChain := (toyMine toyMiner 0 [] (genesisChain toyEnv)).getD (genesisChain toyEnv)

/-- Whether a chain is honest, with its blocks as the store has them. -/
def isHonestChain (E : Env) (s : CBlockBase) : CBlockIndexPtr → Bool
  | [] => false
  | [p] =>
    p = CBlockBase.newIndex E (hashGenesisBlock E) (getGenesisBlock E) p.nFile p.nOffset p.nChainTrust
        (getGenesisBlock E).getBlockMint []
      && s.mapIndex p.hashBlock = [p]
  | p :: q :: l =>
    isHonestChain E s (q :: l) && (s.read p).any fun b =>
      b.block.hashPrev = q.hashBlock && !b.block.isOrigin && b.block.isPrimary
        && verifyPowRewardTx b.block q.nTimeStamp
        && b.block.declaredPledgeReward = some (getMintPledgeReward E s q.hashBlock b.block.txMint.sendTo)
        && p = CBlockBase.newIndex E (b.block.getHash E) b.block p.nFile p.nOffset (p.nChainTrust - q.nChainTrust)
          b.block.getBlockMint (q :: l)
        && s.mapIndex p.hashBlock = p :: q :: l

theorem HonestChain.of_isHonestChain {E : Env} {s : CBlockBase} {ptr : CBlockIndexPtr}
    (h : isHonestChain E s ptr = true) : HonestChain E s ptr := by
  fun_induction isHonestChain E s ptr with
  | case1 => cases h
  | case2 p =>
    simp only [Bool.and_eq_true, decide_eq_true_eq] at h
    exact .genesis _ _ _ _ h.1 h.2
  | case3 p q l ih =>
    simp only [Bool.and_eq_true, decide_eq_true_eq, Option.any_eq_true, Bool.not_eq_true'] at h
    obtain ⟨hq, b, -, ⟨⟨⟨⟨⟨hprev, horigin⟩, hprimary⟩, hmint⟩, hdeclared⟩, hp⟩, hindex⟩ := h
    exact .step _ _ _ b.block _ _ _ (ih hq) ⟨hprev, horigin, hprimary, hmint, hdeclared⟩ hp hindex

/-- Five blocks with a pledge in the fourth; the fifth declares the reward of the pledge. -/
def toyHonestPlans : List ToyPlan := toyPledgePlans ++ ([{ nPledgeReward := 3090000 }] : List ToyPlan)

theorem honest_emission_toy :
    ∃ c p l g, HonestChain toyEnv c (p :: l) ∧ p.nHeight = 5 ∧ p.nMoneySupply = 194090000 ∧
      EmissionInside toyEnv c p (CBlockIndex.nMoneySupply g) := by
  obtain ⟨⟨c, _⟩, -, p, -, hhonest, hheight, hsupply⟩ := exists_some_of_any
    (o := toyRun (fun _ _ => true) toyHonestPlans (genesisChain toyEnv))
    (P := fun r => ∃ p ∈ r.1.cntrBlock.pIndexLast,
      isHonestChain toyEnv r.1.cntrBlock (p :: r.1.cntrBlock.pIndexLast.tail) = true ∧ p.nHeight = 5 ∧
        p.nMoneySupply = 194090000) (by decide +kernel)
  have hchain := HonestChain.of_isHonestChain hhonest
  obtain ⟨g, hg⟩ := Option.isSome_iff_exists.1 (List.getLast?_isSome.2 (List.cons_ne_nil p _))
  exact ⟨_, p, _, g, hchain, hheight, hsupply, (honest_emission hchain).1 g hg⟩

/-! ## Where the arithmetic ends -/

/-- `n` addresses that pledge the maximum. -/
def manyPledges (n : ℕ) : PowPledges where
  toList := (List.range n).map fun i => (toyPledger i, (10000000000, 1))
  sorted := by
    refine List.pairwise_map.2 (List.pairwise_lt_range.imp fun hlt => ?_)
    exact Prod.Lex.right _ hlt

theorem PledgeSumSafe.length_mul {nMin nMax : ℤ} {l : List (CDestination × (ℤ × ℕ))} {t : ℤ}
    (h : PledgeSumSafe nMin nMax l t) (ht : Fits64 t) (hl : ∀ kv ∈ l, nMin ≤ kv.2.1 ∧ nMax ≤ kv.2.1) :
    Fits64 (t + l.length * nMax) := by
  induction l generalizing t with
  | nil => simpa using ht
  | cons kv l ih =>
    obtain ⟨h1, h2⟩ := hl kv List.mem_cons_self
    rw [PledgeSumSafe, if_pos h1, min_eq_right h2] at h
    have := ih h.2 h.1 fun e he => hl e (List.mem_cons_of_mem _ he)
    rw [List.length_cons]
    convert this using 1
    push_cast
    ring

/-- The genesis block of the toy network with `n` pledges to the miner. -/
def toyManyStore (n : ℕ) : CBlockBase :=
  { (genesisChain toyEnv).cntrBlock with
    dbPledge := Function.update (fun _ => none) (hashGenesisBlock toyEnv)
      (some { mapPledge := OrdMap.empty.insert (toyMiner.dest toyEnv) (manyPledges n) }) }

theorem toyManyStore_pledges (n : ℕ) :
    getPowPledgeList toyEnv (toyManyStore n).dbPledge (hashGenesisBlock toyEnv) (toyMiner.dest toyEnv) =
      some (manyPledges n) := by
  have h0 : hashGenesisBlock toyEnv ≠ 0 := by decide +kernel
  have hfull : isFullPledge toyEnv (hashGenesisBlock toyEnv) = true := by
    unfold isFullPledge
    rw [height_hashGenesisBlock]
    rfl
  unfold getPowPledgeList toyManyStore
  rw [if_neg h0]
  simp only [Function.update_self, hfull, if_true, OrdMap.find?_insert, Option.getD_some]

theorem manyPledges_not_safe {n : ℕ} (hn : 922337204 ≤ n) :
    ¬PledgeSumSafe 100000000 10000000000 (manyPledges n).toList 0 := by
  intro h
  have hfits := h.length_mul (by decide) fun kv hkv => by
    obtain ⟨i, -, rfl⟩ := List.mem_map.1 hkv
    norm_num
  have hlen : (manyPledges n).toList.length = n := by
    simp only [manyPledges, List.length_map, List.length_range]
  have hlt := hfits.2
  rw [hlen] at hlt
  omega

/-- Two ways for the arithmetic to overflow: after 63 halvings the power of two is more than an `int64`,
and 922337204 pledges of the maximum sum to more than one. -/
theorem honest_emission_overflow :
    ¬ScheduleSafe (63 * BPX_REWARD_HALVE_HEIGHT + 1) ∧
      ∃ s p r l, HonestChain toyEnv s [p] ∧ getPledgeMinMaxValue toyEnv s p.hashBlock = some r ∧
        getPowPledgeList toyEnv s.dbPledge p.hashBlock (toyMiner.dest toyEnv) = some l ∧
        l.size = 922337204 ∧ ¬PledgeSumSafe r.nStakeMinPledge r.nMaxPledge l.toList 0 := by
  constructor
  · intro h
    have := (scheduleSafe_iff _).1 h
    omega
  · obtain ⟨n, hn⟩ : ∃ n, n = 922337204 := ⟨_, rfl⟩
    have hmap : (toyManyStore n).mapIndex = (genesisChain toyEnv).cntrBlock.mapIndex := rfl
    have hindex : (toyManyStore n).mapIndex toyGenesis.hashBlock = [toyGenesis] := by
      rw [hmap]
      decide +kernel
    have hrange : getPledgeMinMaxValue toyEnv (toyManyStore n) toyGenesis.hashBlock =
        some ⟨100000000, 100000000, 10000000000⟩ := by
      unfold getPledgeMinMaxValue
      rw [getBlockMoneySupply_of_index hindex]
      decide +kernel
    have hsize : (manyPledges n).size = 922337204 := by
      simp only [OrdMap.size, manyPledges, List.length_map, List.length_range, hn]
    have hhash : toyGenesis.hashBlock = hashGenesisBlock toyEnv := rfl
    refine ⟨toyManyStore n, toyGenesis, ⟨100000000, 100000000, 10000000000⟩, manyPledges n,
      .genesis _ 1 8 0 rfl hindex, hrange, ?_, hsize, manyPledges_not_safe hn.ge⟩
    rw [hhash]
    exact toyManyStore_pledges n

end Minemon
