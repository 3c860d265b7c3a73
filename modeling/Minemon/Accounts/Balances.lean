import Minemon.Accounts.Chains
import Minemon.Utxo.Values

/-!
# Pledges and redeems against unspent outputs

`UpdatePledge` and `UpdateRedeem` add up the amounts and the fees of transactions, the view of a block keeps
their outputs and their change. The two agree on what an address has as long as no mint is repeated on a chain:
the ledgers count the second one, while its output takes the place of the first.

* `ledgers_eq_unspent`: the readers of both databases.
-/

namespace Minemon

open CBlockBase

/-- The mints of the block are new on the chain it is put on, and the chain then mints less than an `int64`
holds. -/
def MintsSound (c : CBlockChain) (block : CBlock) : Prop :=
  MintsNew c.cntrBlock block (c.cntrBlock.mapIndex block.hashPrev) ∧
    MintsBounded (chainTxList c.cntrBlock (c.cntrBlock.mapIndex block.hashPrev)) block

section

variable {E : Env} {S : CBlock → Prop} {P : CBlockChain → CBlock → Prop} {c : CBlockChain} {s : CBlockBase}
  {dest : CDestination} {hash nType : ℕ} {p : CBlockIndex} {l ptr : CBlockIndexPtr}

/-! ## Sums of transactions -/

theorem txMoves_eq_txDelta (dest : CDestination) (t : CTransaction × CTxContxt) :
    txMoves (fun d => d = dest) t = txDelta dest t := by
  simp only [txMoves, txDelta, decide_eq_true_eq]

theorem isTemplateOf_not_isNull (h : isTemplateOf dest nType = true) : dest.isNull = false :=
  CDestination.not_isNull_of_isTemplate (isTemplateOf_type h).1

theorem Run.txMint_sendTo_ne (h : Run E P c) (hd : isTemplateOf dest nType = true) (hne : nType ≠ TEMPLATE_PROOF)
    (hp : c.cntrBlock.mapIndex hash = p :: l) :
    ∀ q ∈ p :: l, ∀ b, c.cntrBlock.read q = some b → b.block.txMint.sendTo ≠ dest := by
  refine h.everyBlock (Q := fun b => b.block.txMint.sendTo ≠ dest) ?_ ?_ hp
  · rintro rfl
    exact absurd hd (by simp [isTemplateOf, getGenesisBlock, genesisOwner, CDestination.isTemplate,
      CDestination.PREFIX_PUBKEY, CDestination.PREFIX_TEMPLATE])
  · rintro c nNetTime block a - - rfl
    exact hne ((isTemplateOf_type hd).2.symm.trans (isTemplateOf_type a.mint.sendTo).2)

theorem chainBalance_eq_sum (hnull : dest.isNull = false)
    (hmint : ∀ q ∈ ptr, ∀ b, s.read q = some b → b.block.txMint.sendTo ≠ dest) :
    chainBalance s dest ptr = ((chainTxs s ptr).map (txMoves fun d => d = dest)).sum := by
  induction ptr with
  | nil => rfl
  | cons p l ih =>
    rw [chainBalance, chainTxs, List.map_append, List.sum_append,
      ih fun q hq => hmint q (List.mem_cons_of_mem _ hq)]
    congr 1
    cases hb : s.read p with
    | none => rfl
    | some b =>
      have hmove : txMoves (fun d => d = dest) (b.block.txMint, {}) = 0 := by
        have hctxt : ({} : CTxContxt).destIn ≠ dest := by
          rintro rfl
          exact absurd hnull (by decide)
        rw [txMoves_eq_txDelta, txDelta, if_neg (hmint p List.mem_cons_self b hb), if_neg hctxt, sub_zero]
      have hfun : txMoves (fun d => d = dest) = txDelta dest := funext (txMoves_eq_txDelta dest)
      simp only [Option.elim_some, CBlockEx.txs]
      rw [List.map_append, List.sum_append, hfun]
      split_ifs
      · rw [List.map_nil, List.sum_nil, zero_add]
      · rw [List.map_singleton, List.sum_singleton, ← hfun, hmove, zero_add]

/-! ## Runs with sound mints -/

theorem Run.treeOK_of_mintsSound (h : Run E MintsSound c) (hf : CollisionFree E c.cntrBlock) :
    UniqueIds E c.cntrBlock ∧ TreeOK E c := by
  have hu : UniqueIds E c.cntrBlock := by
    refine h.uniqueIds hf fun hash p q l b hp hb => ?_
    exact h.everyAddition (Q := fun txs block => ∀ tx ∈ block.txMint :: block.vtx, tx.isMintTx = true → tx ∉ txs)
      (fun c block hP => hP.1) hp hb
  exact ⟨hu, h.treeOK hu hf⟩

/-- **What the transactions of a chain leave an address is what it has unspent**, and fits an `int64`. -/
theorem Run.chainBalance_eq (h : Run E MintsSound c) (hf : CollisionFree E c.cntrBlock)
    (hd : isTemplateOf dest nType = true) (hne : nType ≠ TEMPLATE_PROOF) (hp : c.cntrBlock.mapIndex hash = p :: l) :
    chainBalance c.cntrBlock dest (p :: l) = unspentValue E c.cntrBlock (fun d => d = dest) (p :: l) ∧
      0 ≤ chainBalance c.cntrBlock dest (p :: l) ∧ chainBalance c.cntrBlock dest (p :: l) < 2 ^ 63 := by
  obtain ⟨hu, ht⟩ := h.treeOK_of_mintsSound hf
  have hnull := isTemplateOf_not_isNull hd
  have hg : decide (CDestination.null = dest) = false := by
    refine decide_eq_false ?_
    rintro rfl
    exact absurd hnull (by decide)
  have hminted := h.minted_lt (fun c block hP => hP.2) hp
  obtain ⟨hsum, hle⟩ := ht.unspentValue_eq_sum hp hu (h.balanced hf (fun c block hP => hP.2.nonneg) hp) hminted
    (g := fun d => d = dest) hg
  rw [chainBalance_eq_sum hnull (h.txMint_sendTo_ne hd hne hp), ← hsum]
  exact ⟨rfl, (ht.unspentValue_le hp _).1, by omega⟩

def applyDeltas (nHeight : ℕ) (r : CDestRedeem) (deltas : List ℤ) : CDestRedeem :=
  deltas.foldl (fun r v => if v = 0 then r else addRedeemValue nHeight r v) r

theorem applyDeltas_balance (nHeight : ℕ) (deltas : List ℤ) (r : CDestRedeem) (hr : Fits64 r.nBalance) :
    (applyDeltas nHeight r deltas).nBalance = wrap64 (r.nBalance + deltas.sum) := by
  induction deltas generalizing r with
  | nil =>
    rw [List.sum_nil, add_zero, wrap64_eq hr]
    rfl
  | cons v l ih =>
    show (applyDeltas nHeight (if v = 0 then r else addRedeemValue nHeight r v) l).nBalance = _
    rw [List.sum_cons, ← add_assoc]
    split_ifs with hv
    · rw [ih r hr, hv, add_zero]
    · have hbal : (addRedeemValue nHeight r v).nBalance = wrap64 (r.nBalance + v) := by
        unfold addRedeemValue
        dsimp only
        split_ifs <;> rfl
      rw [ih _ (by rw [hbal]; exact wrap64_fits _), hbal, wrap64_add_left]

theorem chainRedeem_cons (E : Env) (s : CBlockBase) (dest : CDestination) (p : CBlockIndex) (l : CBlockIndexPtr) :
    chainRedeem E s dest (p :: l) =
      if isFullRedeem E p.hashBlock = true ∧
          (applyDeltas p.nHeight (chainRedeem E s dest l) (storedRedeem s dest p)).nBalance ≤ 0 then {}
      else applyDeltas p.nHeight (chainRedeem E s dest l) (storedRedeem s dest p) := by
  rw [chainRedeem, redeemAfter]
  simp only [Bool.and_eq_true, decide_eq_true_eq]
  rfl

/-- **The balance of a redeem address** follows the transactions, as long as these leave what an `int64` holds. -/
theorem chainRedeem_balance (hd : isTemplateOf dest TEMPLATE_MINTREDEEM = true)
    (hpos : ∀ ptr', ptr' <:+ ptr → 0 ≤ chainBalance s dest ptr' ∧ chainBalance s dest ptr' < 2 ^ 63) :
    (chainRedeem E s dest ptr).nBalance = chainBalance s dest ptr := by
  induction ptr with
  | nil => rfl
  | cons p l ih =>
    obtain ⟨h0, h1⟩ := hpos (p :: l) List.suffix_rfl
    have htail := ih fun ptr' hsuf => hpos ptr' (hsuf.trans (List.suffix_cons p l))
    obtain ⟨h2, h3⟩ := hpos l (List.suffix_cons p l)
    have hfold : (applyDeltas p.nHeight (chainRedeem E s dest l) (storedRedeem s dest p)).nBalance =
        chainBalance s dest (p :: l) := by
      rw [applyDeltas_balance _ _ _ (by rw [htail]; exact fits64_of_nonneg h2 h3), htail,
        ← wrap64_eq (fits64_of_nonneg h0 h1), chainBalance, storedRedeem]
      cases s.read p with
      | none => rfl
      | some b =>
        show wrap64 (_ + (redeemDeltas b dest).sum) = _
        rw [redeemDeltas_eq hd]
        exact txRedeem_sum_list dest _ _
    rw [chainRedeem_cons]
    split_ifs with hdrop
    · rw [hfold] at hdrop
      exact le_antisymm h0 hdrop.2
    · exact hfold

theorem Run.chainRedeem_balance (h : Run E MintsSound c) (hf : CollisionFree E c.cntrBlock)
    (hd : isTemplateOf dest TEMPLATE_MINTREDEEM = true) (hp : c.cntrBlock.mapIndex hash = p :: l) :
    (chainRedeem E c.cntrBlock dest (p :: l)).nBalance = chainBalance c.cntrBlock dest (p :: l) := by
  refine Minemon.chainRedeem_balance hd fun ptr' hsuf => ?_
  cases ptr' with
  | nil => exact ⟨le_rfl, by norm_num [chainBalance]⟩
  | cons q l' =>
    have hindex := ((h.storeOK.chain _ _ _ hp).2.suffix hsuf (by simp)).index
    exact (h.chainBalance_eq hf hd (by decide) hindex).2

/-- **The databases of pledges and redeems agree with the unspent outputs** of the chain of every block, in every
run whose blocks mint what is new on their chains. -/
theorem ledgers_eq_unspent (h : RunOver E S MintsSound c) (hf : CollisionFree E c.cntrBlock)
    (hgen : hashGenesisBlock E ≠ 0) (hp : c.cntrBlock.mapIndex hash = p :: l) :
    (∀ dest destPowMint, MintOf E S dest destPowMint →
      ∃ nHeight, getAddressPledgeData E c.cntrBlock.dbPledge hash destPowMint dest =
        some (unspentValue E c.cntrBlock (fun d => d = dest) (p :: l), nHeight)) ∧
      ∀ dest, isTemplateOf dest TEMPLATE_MINTREDEEM = true →
        ∃ redeem, getAddressRedeem E c.cntrBlock.dbRedeem hash dest = some redeem ∧
          redeem.nBalance = unspentValue E c.cntrBlock (fun d => d = dest) (p :: l) := by
  have hs := h.run.storeOK
  have hledgers := h.ledgersOK hgen
  constructor
  · intro dest destPowMint hm
    obtain ⟨heq, h0, h1⟩ := h.run.chainBalance_eq hf hm.type (by decide) hp
    refine ⟨(chainPledge E c.cntrBlock dest (p :: l)).2, ?_⟩
    rw [hledgers.pledgeData hs hp hm, ← heq, ← wrap64_eq (fits64_of_nonneg h0 h1), ← chainPledge_amount E]
  · intro dest hd
    refine ⟨_, hledgers.redeem_eq hs hp dest, ?_⟩
    rw [← (h.run.chainBalance_eq hf hd (by decide) hp).1]
    exact h.run.chainRedeem_balance hf hd hp

end

/-! ## On the toy network -/

def mintsSound (c : CBlockChain) (block : CBlock) : Bool :=
  let txs := chainTxList c.cntrBlock (c.cntrBlock.mapIndex block.hashPrev)
  let mints := (block.txMint :: block.vtx).filter CTransaction.isMintTx
  mints.all (fun tx => !txs.contains tx && 0 ≤ tx.nAmount) && minted (txs ++ block.txMint :: block.vtx) < 2 ^ 63

theorem MintsSound.of_mintsSound (c : CBlockChain) (block : CBlock) (h : mintsSound c block = true) :
    MintsSound c block := by
  simp only [mintsSound, Bool.and_eq_true, List.all_eq_true, decide_eq_true_eq, List.mem_filter] at h
  obtain ⟨hall, hbound⟩ := h
  exact ⟨fun tx htx hmint => by simpa using (hall tx ⟨htx, hmint⟩).1,
    fun tx htx hmint => (hall tx ⟨htx, hmint⟩).2, hbound⟩

variable {Q : CBlockChain → CBlock → Bool}

/-- The pledge of the fourth block, and a withdrawal of some of it. -/
def toyWithdrawPlans : List ToyPlan :=
  toyPledgePlans ++ ([{ vtx := fun c => [toyWithdrawTx
    [⟨(toyPledgeTx (toyMints c).tail (toyTipTime c) 100000000).getHash toyEnv, 0⟩] (toyTipTime c + 60) 60000000] }] :
    List ToyPlan)

/-- What the databases say of the toy addresses at the last block, and what they have unspent. -/
def toyBalances (c : CBlockChain) : (Option ℤ × ℤ) × (Option ℤ × ℤ) :=
  (((getAddressPledgeData toyEnv c.cntrBlock.dbPledge (toyTipHash c) (toyMiner.dest toyEnv)
      (toyPledge.dest toyEnv)).map Prod.fst,
    unspentValue toyEnv c.cntrBlock (fun d => d = toyPledge.dest toyEnv) c.cntrBlock.pIndexLast),
    ((getAddressRedeem toyEnv c.cntrBlock.dbRedeem (toyTipHash c) (toyRedeem.dest toyEnv)).map CDestRedeem.nBalance,
    unspentValue toyEnv c.cntrBlock (fun d => d = toyRedeem.dest toyEnv) c.cntrBlock.pIndexLast))

def toyDistinct (c : CBlockChain) (hashes : List ℕ) : Bool :=
  let txs := hashes.flatMap fun hash => chainTxList c.cntrBlock (c.cntrBlock.mapIndex hash)
  txs.all fun tx => txs.all fun tx' => tx.getHash toyEnv != tx'.getHash toyEnv || tx == tx'

theorem RunOver.collisionFree {P : CBlockChain → CBlock → Prop} {c : CBlockChain} {blocks : List CBlock}
    (hover : RunOver toyEnv (· ∈ blocks) P c)
    (h : toyDistinct c (hashGenesisBlock toyEnv :: blocks.map (CBlock.getHash toyEnv)) = true) :
    CollisionFree toyEnv c.cntrBlock := by
  refine .of_hashes hover.hashes fun hash hh hash' hh' tx htx tx' htx' => ?_
  simp only [toyDistinct, List.all_eq_true] at h
  have hor := h tx (List.mem_flatMap.2 ⟨hash, hh, htx⟩) tx' (List.mem_flatMap.2 ⟨hash', hh', htx'⟩)
  intro hid
  simpa [hid] using hor

theorem toyRun_any {P : CBlockChain → CBlock → Prop}
    (hQ : ∀ c block, Q c block = true → P c block) (l : List ToyPlan) (f : CBlockChain → List CBlock → Bool)
    (h : (toyRun Q l (genesisChain toyEnv)).any (fun r =>
      toyDistinct r.1 (hashGenesisBlock toyEnv :: r.2.map (CBlock.getHash toyEnv)) && f r.1 r.2) = true) :
    ∃ (c : CBlockChain) (blocks : List CBlock), RunOver toyEnv (· ∈ blocks) P c ∧ CollisionFree toyEnv c.cntrBlock ∧
      f c blocks = true ∧ ∃ p l, c.cntrBlock.pIndexLast = p :: l ∧ c.cntrBlock.mapIndex (toyTipHash c) = p :: l := by
  obtain ⟨c, blocks, hover, hx, htip⟩ := RunOver.exists_toyRun hQ l h
  simp only [Bool.and_eq_true] at hx
  exact ⟨c, blocks, hover, hover.collisionFree hx.1, hx.2, htip⟩

def toyBalanced (x : (Option ℤ × ℤ) × (Option ℤ × ℤ)) (c : CBlockChain) (blocks : List CBlock) : Bool :=
  mintShown toyEnv blocks (toyPledge.dest toyEnv) (toyMiner.dest toyEnv) && toyBalances c = x

theorem toyBalanced_true {x : (Option ℤ × ℤ) × (Option ℤ × ℤ)} {c : CBlockChain} {blocks : List CBlock}
    (h : toyBalanced x c blocks = true) :
    MintOf toyEnv (· ∈ blocks) (toyPledge.dest toyEnv) (toyMiner.dest toyEnv) ∧ toyBalances c = x := by
  simp only [toyBalanced, Bool.and_eq_true, decide_eq_true_eq] at h
  exact ⟨.of_mintShown h.1, h.2⟩

theorem ledgers_eq_unspent_toy :
    ∃ (c : CBlockChain) (blocks : List CBlock), RunOver toyEnv (· ∈ blocks) MintsSound c ∧
      CollisionFree toyEnv c.cntrBlock ∧
      MintOf toyEnv (· ∈ blocks) (toyPledge.dest toyEnv) (toyMiner.dest toyEnv) ∧
      unspentValue toyEnv c.cntrBlock (fun d => d = toyPledge.dest toyEnv) c.cntrBlock.pIndexLast = 39990000 ∧
      unspentValue toyEnv c.cntrBlock (fun d => d = toyRedeem.dest toyEnv) c.cntrBlock.pIndexLast = 60000000 := by
  obtain ⟨c, blocks, hover, hf, hx, p, l, hlast, hp⟩ := toyRun_any MintsSound.of_mintsSound toyWithdrawPlans
    (toyBalanced ((some 39990000, 39990000), (some 60000000, 60000000))) (by decide +kernel)
  obtain ⟨hm, hx⟩ := toyBalanced_true hx
  obtain ⟨hpledge, hredeem⟩ := ledgers_eq_unspent hover hf (by decide +kernel) hp
  obtain ⟨nHeight, hdata⟩ := hpledge _ _ hm
  obtain ⟨redeem, hdata', hbal⟩ := hredeem (toyRedeem.dest toyEnv) (by decide)
  obtain ⟨hfst, hsnd⟩ := Prod.mk.inj hx
  rw [hdata] at hfst
  rw [hdata'] at hsnd
  refine ⟨c, blocks, hover, hf, hm, ?_, ?_⟩
  · rw [hlast]
    exact Option.some.inj (Prod.mk.inj hfst).1
  · rw [hlast]
    exact hbal.symm.trans (Option.some.inj (Prod.mk.inj hsnd).1)

/-- A pledge of what the second block minted, and its withdrawal. -/
def toyLate (c : CBlockChain) : List CTransaction :=
  let pledge := toyPledgeTx ((c.cntrBlock.pIndexLast.filter fun p => p.nHeight = 2).map fun p => ⟨p.txidMint, 0⟩)
    (toyTipTime c) 38000000
  [pledge, toyWithdrawTx [⟨pledge.getHash toyEnv, 0⟩] (toyTipTime c) 20000000]

/-- The mint of the second block is repeated by the fourth, and the transactions of the third by the fifth. -/
def toyLatePlans : List ToyPlan :=
  [{ nSeconds := 2 ^ 32 - 1 - GENESIS_TIME }, { nSeconds := 0 }, { nSeconds := 0, vtx := toyLate }, { nSeconds := 0 },
    { nSeconds := 0, vtx := toyLate }]

/-- **Both databases count transactions twice that are unspent once.** -/
theorem ledgers_repeated :
    ∃ (c : CBlockChain) (blocks : List CBlock), RunOver toyEnv (· ∈ blocks) (fun _ _ => True) c ∧
      CollisionFree toyEnv c.cntrBlock ∧
      MintOf toyEnv (· ∈ blocks) (toyPledge.dest toyEnv) (toyMiner.dest toyEnv) ∧
      (∃ p l, c.cntrBlock.pIndexLast = p :: l ∧ c.cntrBlock.mapIndex (toyTipHash c) = p :: l) ∧
      toyBalances c = ((some 35980000, 17990000), (some 40000000, 20000000)) := by
  obtain ⟨c, blocks, hover, hf, hx, htip⟩ := toyRun_any (Q := fun _ _ => true) (fun _ _ _ => trivial) toyLatePlans
    (toyBalanced ((some 35980000, 17990000), (some 40000000, 20000000))) (by decide +kernel)
  obtain ⟨hm, hx⟩ := toyBalanced_true hx
  exact ⟨c, blocks, hover, hf, hm, htip, hx⟩

end Minemon
