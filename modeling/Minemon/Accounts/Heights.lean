import Minemon.Accounts.Chains
import Minemon.Utxo.Values

/-!
# The heights of pledges

`VerifyTxPledgeTrans` asks how long ago the last deposit to a pledge address was. The height that the pledge
database gives is that of the last deposit, unless a snapshot since then found nothing pledged: the snapshot
drops the entry with its height, and rewards that come in later do not bring the height back.

* `pledgeHeight_eq_lastDeposit_iff`: when it is that of the last deposit.
-/

namespace Minemon

open CBlockBase

def hasDeposit (dest : CDestination) (block : CBlock) : Bool :=
  (block.txMint :: block.vtx).any fun tx => tx.sendTo = dest && tx.nType ≠ CTransaction.TX_STAKE

/-- The height of the last block of a chain with a deposit, 0 if there is none. -/
def lastDeposit (s : CBlockBase) (dest : CDestination) : CBlockIndexPtr → ℕ
  | [] => 0
  | p :: l => if (s.read p).any (fun b => hasDeposit dest b.block) then p.nHeight else lastDeposit s dest l

/-- The transactions leave an amount at every snapshot of the chain from the height on. -/
def KeptSince (E : Env) (s : CBlockBase) (dest : CDestination) (nHeight : ℕ) (ptr : CBlockIndexPtr) : Prop :=
  ∀ q l, q :: l <:+ ptr → isFullPledge E q.hashBlock = true → nHeight ≤ q.nHeight →
    wrap64 (chainBalance s dest (q :: l)) ≠ 0

section

variable {E : Env} {S : CBlock → Prop} {P : CBlockChain → CBlock → Prop} {c : CBlockChain} {s : CBlockBase}
  {dest : CDestination} {hash nHeight : ℕ} {p : CBlockIndex} {l : CBlockIndexPtr}

theorem keptSince_cons :
    KeptSince E s dest nHeight (p :: l) ↔
      (isFullPledge E p.hashBlock = true → nHeight ≤ p.nHeight → wrap64 (chainBalance s dest (p :: l)) ≠ 0) ∧
        KeptSince E s dest nHeight l := by
  constructor
  · intro h
    exact ⟨h p l List.suffix_rfl, fun q l' hsuf => h q l' (hsuf.trans (List.suffix_cons p l))⟩
  · rintro ⟨h1, h2⟩ q l' hsuf
    rcases List.suffix_cons_iff.1 hsuf with heq | hsuf
    · obtain ⟨rfl, rfl⟩ := List.cons.inj heq
      exact h1
    · exact h2 q l' hsuf

theorem StoredChain.lt_height (h : StoredChain E s (p :: l)) {q : CBlockIndex} {l' : CBlockIndexPtr}
    (hsuf : q :: l' <:+ l) : q.nHeight < p.nHeight := by
  have hq := h.suffix (hsuf.trans (List.suffix_cons p l)) (by simp)
  rw [h.nHeight_eq p l rfl, hq.nHeight_eq q l' rfl]
  have := hsuf.length_le
  rw [List.length_cons] at this
  omega

/-! ## Deposits -/

variable {nNetTime : ℤ} {block : CBlock}

theorem Stored.any_isDeposit (a : Stored E nNetTime c block)
    (hcache : Entries (fun _ => RewardForms) c.mapCacheDistributePledgeReward)
    (hd : isTemplateOf dest TEMPLATE_MINTPLEDGE = true) :
    (block.vtx.zip a.vTxContxt).any (isDeposit dest) = hasDeposit dest block := by
  have hmint : (block.txMint.sendTo = dest && block.txMint.nType ≠ CTransaction.TX_STAKE : Bool) = false := by
    have hne : block.txMint.sendTo ≠ dest := by
      rintro rfl
      have h1 := (isTemplateOf_type a.mint.sendTo).2
      rw [(isTemplateOf_type hd).2] at h1
      exact absurd h1 (by decide)
    simp [hne]
  have hvtx : block.vtx = (block.vtx.zip a.vTxContxt).map Prod.fst := by
    rw [List.map_fst_zip (by rw [a.length_contexts])]
  unfold hasDeposit
  rw [List.any_cons, hmint, Bool.false_or]
  nth_rewrite 2 [hvtx]
  rw [List.any_map, Bool.eq_iff_iff, List.any_eq_true, List.any_eq_true]
  refine exists_congr fun t => and_congr_right fun ht => ?_
  have hnull : t.1.nType ≠ CTransaction.TX_STAKE → t.2.destIn.isNull = false := fun hne =>
    a.destIn_not_null hcache ht ((a.reward_or_not_mint hcache (List.of_mem_zip ht).1).resolve_left fun hr =>
      hne hr.type)
  simp only [isDeposit, Function.comp_apply, Bool.and_eq_true, decide_eq_true_eq, Bool.not_eq_true']
  exact and_congr_right fun _ => ⟨fun h => h.1, fun h => ⟨h, hnull h⟩⟩

theorem Run.any_isDeposit (h : Run E P c) (hd : isTemplateOf dest TEMPLATE_MINTPLEDGE = true)
    (hp : c.cntrBlock.mapIndex hash = p :: l) :
    ∀ q ∈ p :: l, ∀ b, c.cntrBlock.read q = some b →
      (b.block.vtx.zip b.vTxContxt).any (isDeposit dest) = hasDeposit dest b.block := by
  refine h.everyBlock (Q := fun b => (b.block.vtx.zip b.vTxContxt).any (isDeposit dest) = hasDeposit dest b.block)
    ?_ ?_ hp
  · have hne : genesisOwner E ≠ dest := by
      rintro rfl
      exact absurd hd (by simp [isTemplateOf, genesisOwner, CDestination.isTemplate, CDestination.PREFIX_PUBKEY,
        CDestination.PREFIX_TEMPLATE])
    simp [hasDeposit, getGenesisBlock, hne]
  · intro c nNetTime block a hrun _
    exact a.any_isDeposit hrun.cache_forms hd

/-! ## The height in the database -/

theorem lastDeposit_le (dest : CDestination) (hchain : StoredChain E s (p :: l)) :
    lastDeposit s dest (p :: l) ≤ p.nHeight := by
  induction l generalizing p with
  | nil =>
    rw [lastDeposit, lastDeposit]
    split_ifs <;> omega
  | cons q l ih =>
    have hle := ih hchain.tail
    have hlt := hchain.lt_height List.suffix_rfl
    rw [lastDeposit]
    split_ifs <;> omega

theorem dropEmpty_snd (fFull : Bool) (y : ℤ × ℕ) :
    (dropEmpty fFull y).2 = if fFull = true ∧ y.1 = 0 then 0 else y.2 := by
  unfold dropEmpty
  split_ifs with h1 h2 h2 <;> simp_all

/-- **The height in the database** is that of the last deposit, or 0 when a snapshot has dropped the entry. -/
theorem chainPledge_height (hchain : StoredChain E s (p :: l))
    (hdep : ∀ q ∈ p :: l, ∀ b, s.read q = some b →
      (b.block.vtx.zip b.vTxContxt).any (isDeposit dest) = hasDeposit dest b.block) :
    (KeptSince E s dest (lastDeposit s dest (p :: l)) (p :: l) →
      (chainPledge E s dest (p :: l)).2 = lastDeposit s dest (p :: l)) ∧
    (¬KeptSince E s dest (lastDeposit s dest (p :: l)) (p :: l) → (chainPledge E s dest (p :: l)).2 = 0) := by
  have main : ∀ ptr, (ptr ≠ [] → StoredChain E s ptr) → (∀ q ∈ ptr, ∀ b, s.read q = some b →
      (b.block.vtx.zip b.vTxContxt).any (isDeposit dest) = hasDeposit dest b.block) →
      (KeptSince E s dest (lastDeposit s dest ptr) ptr → (chainPledge E s dest ptr).2 = lastDeposit s dest ptr) ∧
        (¬KeptSince E s dest (lastDeposit s dest ptr) ptr → (chainPledge E s dest ptr).2 = 0) := by
    intro ptr
    induction ptr with
    | nil => exact fun _ _ => ⟨fun _ => rfl, fun _ => rfl⟩
    | cons p l ih =>
      intro hchain hdep
      have hchain := hchain (by simp)
      have htail := ih (fun hne => hchain.suffix (List.suffix_cons p l) hne) fun q hq =>
        hdep q (List.mem_cons_of_mem _ hq)
      obtain ⟨b, hb⟩ := Option.isSome_iff_exists.1 (hchain.read p List.mem_cons_self)
      have hheight : (storedPledge s dest p).2 = if hasDeposit dest b.block then p.nHeight else 0 := by
        rw [storedPledge, hb]
        show ((blockPledge b dest).getD (0, 0)).2 = _
        rw [blockPledge_height, hdep p List.mem_cons_self b hb, hchain.read_height hb]
      have hread : (s.read p).any (fun b => hasDeposit dest b.block) = hasDeposit dest b.block := by
        rw [hb]
        rfl
      have hamount : wrap64 ((chainPledge E s dest l).1 + (storedPledge s dest p).1) =
          wrap64 (chainBalance s dest (p :: l)) := by
        rw [← chainPledge_amount E, chainPledge, pledgeAfter_fst]
      have hlast := lastDeposit_le dest hchain
      rw [keptSince_cons, chainPledge, pledgeAfter, dropEmpty_snd, hamount, hheight]
      by_cases hdrop : isFullPledge E p.hashBlock = true ∧ wrap64 (chainBalance s dest (p :: l)) = 0
      · rw [if_pos hdrop]
        exact ⟨fun hkept => absurd hdrop.2 (hkept.1 hdrop.1 hlast), fun _ => rfl⟩
      · rw [if_neg hdrop]
        have hfirst : isFullPledge E p.hashBlock = true → lastDeposit s dest (p :: l) ≤ p.nHeight →
            wrap64 (chainBalance s dest (p :: l)) ≠ 0 := fun hf _ h0 => hdrop ⟨hf, h0⟩
        rw [lastDeposit, hread] at hfirst ⊢
        by_cases hd : hasDeposit dest b.block = true
        · -- no block before this one is at its height
          simp only [hd, if_true] at hfirst ⊢
          have hkept : KeptSince E s dest p.nHeight l := fun q l' hsuf _ hle =>
            absurd (hchain.lt_height hsuf) (by omega)
          refine ⟨fun _ => ?_, fun hnot => absurd ⟨hfirst, hkept⟩ hnot⟩
          split_ifs with hpos
          · rfl
          · have hzero : l = [] := List.length_eq_zero_iff.1 (by
              rw [← hchain.nHeight_eq p l rfl]
              omega)
            rw [hzero]
            show 0 = _
            omega
        · simp only [hd, if_false, Bool.false_eq_true, lt_irrefl] at hfirst ⊢
          exact ⟨fun h => htail.1 h.2, fun h => htail.2 fun h' => h ⟨hfirst, h'⟩⟩
  exact main (p :: l) (fun _ => hchain) hdep

/-- **The recorded height of a pledge is that of the last deposit** exactly when there was none, or when every
snapshot since then found an amount. -/
theorem pledgeHeight_eq_lastDeposit_iff (h : RunOver E S P c) (hgen : hashGenesisBlock E ≠ 0)
    (hp : c.cntrBlock.mapIndex hash = p :: l) {destPowMint : CDestination} (hm : MintOf E S dest destPowMint) :
    ∃ nPledgeAmount nPledgeHeight,
      getAddressPledgeData E c.cntrBlock.dbPledge hash destPowMint dest = some (nPledgeAmount, nPledgeHeight) ∧
        (nPledgeHeight = lastDeposit c.cntrBlock dest (p :: l) ↔ lastDeposit c.cntrBlock dest (p :: l) = 0 ∨
          KeptSince E c.cntrBlock dest (lastDeposit c.cntrBlock dest (p :: l)) (p :: l)) := by
  have hs := h.run.storeOK
  obtain ⟨hkept, hdropped⟩ := chainPledge_height (hs.chain _ _ _ hp).2 (h.run.any_isDeposit hm.type hp)
  refine ⟨(chainPledge E c.cntrBlock dest (p :: l)).1, (chainPledge E c.cntrBlock dest (p :: l)).2,
    (h.ledgersOK hgen).pledgeData hs hp hm, ?_⟩
  by_cases hk : KeptSince E c.cntrBlock dest (lastDeposit c.cntrBlock dest (p :: l)) (p :: l)
  · exact ⟨fun _ => Or.inr hk, fun _ => hkept hk⟩
  · rw [hdropped hk]
    exact ⟨fun h0 => Or.inl h0.symm, fun h0 => (h0.resolve_right hk).symm⟩

end

/-! ## On the toy network -/

/-- The rewards due, and a withdrawal of all that is pledged. -/
def toyEmpty (c : CBlockChain) : List CTransaction :=
  let pledged := (toyRewards c ++ c.cntrBlock.pIndexLast.flatMap fun q => (c.cntrBlock.read q).elim [] fun b =>
    b.block.vtx).filter fun tx => tx.sendTo = toyPledge.dest toyEnv
  toyRewards c ++ [toyWithdrawTx (pledged.map fun tx => ⟨tx.getHash toyEnv, 0⟩) (toyTipTime c + 60)
    ((pledged.map CTransaction.nAmount).sum - MIN_TX_FEE)]

/-- The pledge is emptied in the block of the next snapshot, and a reward comes in with the one after it. -/
def toyEmptyPlans : List ToyPlan :=
  toyPledgePlans ++ ([{}, { vtx := toyEmpty }, {}, {}, {}, {}, { vtx := toyRewards }] : List ToyPlan)

/-- Amount and height of the pledge at the last block, and the height of the last deposit. -/
def toyHeights (c : CBlockChain) : Option (ℤ × ℕ) × ℕ :=
  (getAddressPledgeData toyEnv c.cntrBlock.dbPledge (toyTipHash c) (toyMiner.dest toyEnv) (toyPledge.dest toyEnv),
    lastDeposit c.cntrBlock (toyPledge.dest toyEnv) c.cntrBlock.pIndexLast)

theorem toyHeights_run {l : List ToyPlan} {x : Option (ℤ × ℕ) × ℕ}
    (h : (toyRun (fun _ _ => true) l (genesisChain toyEnv)).any (fun r =>
      mintShown toyEnv r.2 (toyPledge.dest toyEnv) (toyMiner.dest toyEnv) && toyHeights r.1 = x) = true) :
    ∃ (c : CBlockChain) (blocks : List CBlock), RunOver toyEnv (· ∈ blocks) (fun _ _ => True) c ∧
      MintOf toyEnv (· ∈ blocks) (toyPledge.dest toyEnv) (toyMiner.dest toyEnv) ∧ toyHeights c = x ∧
        ∃ p l, c.cntrBlock.pIndexLast = p :: l ∧ c.cntrBlock.mapIndex (toyTipHash c) = p :: l := by
  obtain ⟨c, blocks, hover, hx, htip⟩ := RunOver.exists_toyRun (fun _ _ _ => trivial) l h
  simp only [Bool.and_eq_true, decide_eq_true_eq] at hx
  exact ⟨c, blocks, hover, .of_mintShown hx.1, hx.2, htip⟩

theorem pledgeHeight_eq_lastDeposit_toy :
    ∃ (c : CBlockChain) (blocks : List CBlock), RunOver toyEnv (· ∈ blocks) (fun _ _ => True) c ∧
      MintOf toyEnv (· ∈ blocks) (toyPledge.dest toyEnv) (toyMiner.dest toyEnv) ∧
        getAddressPledgeData toyEnv c.cntrBlock.dbPledge (toyTipHash c) (toyMiner.dest toyEnv)
          (toyPledge.dest toyEnv) = some (100000000, 4) ∧
        lastDeposit c.cntrBlock (toyPledge.dest toyEnv) c.cntrBlock.pIndexLast = 4 ∧
        KeptSince toyEnv c.cntrBlock (toyPledge.dest toyEnv) 4 c.cntrBlock.pIndexLast := by
  obtain ⟨c, blocks, hover, hm, hx, p, l, hlast, hp⟩ :=
    toyHeights_run (l := toyEmptyPlans.take 5) (x := (some (100000000, 4), 4)) (by decide +kernel)
  obtain ⟨hdata, hdep⟩ := Prod.mk.inj hx
  obtain ⟨amount, height, hread, hiff⟩ := pledgeHeight_eq_lastDeposit_iff hover (by decide +kernel) hp hm
  rw [hdata] at hread
  obtain ⟨rfl, rfl⟩ := Prod.mk.inj (Option.some.inj hread)
  rw [← hlast, hdep] at hiff
  exact ⟨c, blocks, hover, hm, hdata, hdep, (hiff.1 rfl).resolve_left (by decide)⟩

/-- **The height of the deposit is lost** when the pledge is empty at a snapshot, although a later reward is
pledged again. -/
theorem pledgeHeight_dropped :
    ∃ (c : CBlockChain) (blocks : List CBlock), RunOver toyEnv (· ∈ blocks) (fun _ _ => True) c ∧
      MintOf toyEnv (· ∈ blocks) (toyPledge.dest toyEnv) (toyMiner.dest toyEnv) ∧
        (∃ p l, c.cntrBlock.pIndexLast = p :: l ∧ c.cntrBlock.mapIndex (toyTipHash c) = p :: l) ∧
        getAddressPledgeData toyEnv c.cntrBlock.dbPledge (toyTipHash c) (toyMiner.dest toyEnv)
          (toyPledge.dest toyEnv) = some (3708000, 0) ∧
        lastDeposit c.cntrBlock (toyPledge.dest toyEnv) c.cntrBlock.pIndexLast = 4 := by
  obtain ⟨c, blocks, hover, hm, hx, htip⟩ :=
    toyHeights_run (l := toyEmptyPlans) (x := (some (3708000, 0), 4)) (by decide +kernel)
  obtain ⟨hdata, hdep⟩ := Prod.mk.inj hx
  exact ⟨c, blocks, hover, hm, htip, hdata, hdep⟩

end Minemon
