import Minemon.Rewards.Distinct
import Minemon.Utxo.History

/-!
# Identifiers along a chain

A transaction with inputs cannot be repeated on a chain, since its inputs are spent. Mint and reward
transactions have no inputs: their time is the one of the previous block plus one second, so that two
blocks can only share one when the blocks before them have the same time.

* `run_uniqueIds_iff`: when the identifiers of every chain of a run are pairwise different.
-/

namespace Minemon

open CBlockBase

section

variable {E : Env}

/-! ## The transactions of one block -/

/-- On the entry `q`, mints are pairwise different and have the time that `q` gives them; the others have inputs. -/
structure BlockForm (q : CBlockIndex) (mints others : List (CTransaction × CTxContxt)) : Prop where
  nodup : (mints.map Prod.fst).Nodup
  mint : ∀ t ∈ mints, t.1.isMintTx = true
  type : ∀ t ∈ mints, t.1.nType ≠ CTransaction.TX_GENESIS
  time : ∀ t ∈ mints, t.1.nTimeStamp = (q.nTimeStamp + 1) % 2 ^ 32
  other : ∀ t ∈ others, t.1.isMintTx = false
  inputs : ∀ t ∈ others, t.1.vInput ≠ []

theorem verifyBlockTxSignature_null (tx : CTransaction) {destIn : CDestination} (hnull : destIn.isNull = true)
    (nForkHeight fork : ℕ) : verifyBlockTxSignature E tx destIn nForkHeight fork ≠ some .OK := by
  have hprefix : destIn.nPrefix = CDestination.PREFIX_NULL := by simpa [CDestination.isNull] using hnull
  have hsig : ∀ vchSig, destIn.verifyTxSignature E (tx.getSignatureHash E) tx.sendTo vchSig (nForkHeight - 1) fork =
      some false := by
    intro vchSig
    simp [CDestination.verifyTxSignature, isTemplateOf, verifyTxSignatureAt, CDestination.isPubKey,
      CDestination.isTemplate, hprefix, CDestination.PREFIX_NULL, CDestination.PREFIX_PUBKEY,
      CDestination.PREFIX_TEMPLATE]
  unfold verifyBlockTxSignature
  split
  · simp
  · simp
  · rw [hsig]
    simp

variable {nNetTime : ℤ} {c : CBlockChain} {block : CBlock} (a : Stored E nNetTime c block)

theorem Stored.nodup_rewards
    (hdist : Entries (fun _ => DistinctRewards) c.mapCacheDistributePledgeReward)
    (hcalc : ∀ hashEnd fOk v, calcRewardList E c.cntrBlock hashEnd = some (fOk, v) → DistinctRewards v) :
    a.rewards.Nodup ∧ ∀ tx ∈ a.rewards, tx.nTimeStamp = (a.p.nTimeStamp + 1) % 2 ^ 32 := by
  rcases (hdist.call hcalc a.rewardList).2 _ rfl with hnil | ⟨pEnd, v, -, hv, -, heq⟩
  · rw [hnil]
    exact ⟨List.nodup_nil, by simp⟩
  · rw [heq]
    constructor
    · apply List.Nodup.of_map CTransaction.vchData
      unfold selectRewardList
      rw [List.map_map, List.getD_eq_getElem?_getD]
      show (List.map CTransaction.vchData _).Nodup
      cases hget : v[getBlockHeightByHash block.hashPrev % BPX_PLEDGE_REWARD_DISTRIBUTE_HEIGHT E]? with
      | none => simp
      | some l => exact hv l (List.mem_of_getElem? hget)
    · intro tx htx
      obtain ⟨tx0, -, rfl⟩ := List.mem_map.1 htx
      rfl

theorem Stored.blockForm (hcache : Entries (fun _ => RewardForms) c.mapCacheDistributePledgeReward)
    (hrew : a.rewards.Nodup ∧ ∀ tx ∈ a.rewards, tx.nTimeStamp = (a.p.nTimeStamp + 1) % 2 ^ 32)
    (hshape : ∀ t ∈ a.b.txs, TxShape t) : ∃ mints others, a.b.txs = mints ++ others ∧ BlockForm a.p mints others := by
  have hforms := (getDistributePledgeRewardTxList_forms hcache a.rewardList).2 _ rfl
  obtain ⟨htake, hdrop⟩ := checkTxLoop_rewards _ _ _ _ a.txs
  have hsplit : a.b.txs = ((block.txMint, {}) :: (block.vtx.zip a.vTxContxt).take a.rewards.length) ++
      (block.vtx.zip a.vTxContxt).drop a.rewards.length := by
    rw [a.txs_eq, List.cons_append, List.take_append_drop]
  have hfst : ((block.vtx.zip a.vTxContxt).take a.rewards.length).map Prod.fst =
      a.rewards.take block.vtx.length := by
    rw [List.map_take, List.map_fst_zip (by rw [a.length_contexts]), htake]
  have hreward : ∀ t ∈ (block.vtx.zip a.vTxContxt).take a.rewards.length, t.1 ∈ a.rewards := fun t ht =>
    List.mem_of_mem_take (hfst ▸ List.mem_map_of_mem ht)
  have hother : ∀ t ∈ (block.vtx.zip a.vTxContxt).drop a.rewards.length, t.1.isMintTx = false := by
    intro t ht
    have hmem := List.mem_map_of_mem (f := Prod.fst) ht
    rw [List.map_drop, List.map_fst_zip (by rw [a.length_contexts])] at hmem
    exact hdrop _ hmem
  refine ⟨_, _, hsplit, ?_, ?_, ?_, ?_, hother, ?_⟩
  · rw [List.map_cons, hfst, List.nodup_cons]
    refine ⟨fun hmem => ?_, hrew.1.sublist (List.take_sublist _ _)⟩
    have htype := (hforms _ (List.mem_of_mem_take hmem)).type
    rw [a.mint.type] at htype
    exact absurd htype (by decide)
  · intro t ht
    rcases List.mem_cons.1 ht with rfl | ht
    · simp [CTransaction.isMintTx, a.mint.type]
    · simp [CTransaction.isMintTx, (hforms _ (hreward t ht)).type]
  · intro t ht
    rcases List.mem_cons.1 ht with rfl | ht
    · rw [a.mint.type]
      decide
    · rw [(hforms _ (hreward t ht)).type]
      decide
  · intro t ht
    rcases List.mem_cons.1 ht with rfl | ht
    · exact a.mint.time
    · exact hrew.2 _ (hreward t ht)
  · intro t ht hnil
    have hmem : t ∈ a.b.txs := by
      rw [hsplit]
      exact List.mem_append_right _ ht
    have hsig := (verifyBlockTx_ok E (a.verified hcache t hmem (hother t ht))).2.2
    rw [(hshape t hmem).destIn hnil] at hsig
    exact verifyBlockTxSignature_null _ CDestination.isNull_null _ _ hsig

/-! ## One block more -/

variable {X mints others : List (CTransaction × CTxContxt)}

/-- Transactions of the list that have one identifier are the same. -/
def SameById (E : Env) (X : List (CTransaction × CTxContxt)) : Prop :=
  ∀ t ∈ X, ∀ u ∈ X, t.1.getHash E = u.1.getHash E → t.1 = u.1

theorem not_mem_ids_of_inputs {t : CTransaction × CTxContxt} (hX : (X.map fun t => t.1.getHash E).Nodup)
    (hvalid : Ledger.Valid ((X ++ [t]).map (txTransfer E))) (hshape : ∀ u ∈ X ++ [t], TxShape u)
    (hsame : SameById E (X ++ [t])) (hin : t.1.vInput ≠ []) : t.1.getHash E ∉ X.map fun t => t.1.getHash E := by
  intro hmem
  obtain ⟨u, hu, hid⟩ := List.mem_map.1 hmem
  have heq := hsame u (List.mem_append_left _ hu) t (by simp) hid
  obtain ⟨out, hout⟩ := List.exists_mem_of_ne_nil _ hin
  rw [List.map_append] at hvalid
  have hlegal : Ledger.Legal (X.map (txTransfer E)) (txTransfer E t) := hvalid.legal
  have hspent : out ∈ (txTransfer E t).spends.map Prod.fst := by
    rw [(hshape t (by simp)).spends_keys]
    exact hout
  have hspentU : out ∈ (txTransfer E u).spends.map Prod.fst := by
    rw [(hshape u (List.mem_append_left _ hu)).spends_keys, heq]
    exact hout
  obtain ⟨e, he, rfl⟩ := List.mem_map.1 hspent
  have hpos := (hlegal.spent e he).1
  have hzero := (unique_of_ids hX).count_of_spent (List.mem_map_of_mem hu) hspentU
  omega

/-- **A block repeats no identifier** when its mints are new on the chain. -/
theorem nodup_ids_append {q : CBlockIndex} (hX : (X.map fun t => t.1.getHash E).Nodup)
    (hform : BlockForm q mints others)
    (hvalid : Ledger.Valid ((X ++ (mints ++ others)).map (txTransfer E)))
    (hshape : ∀ t ∈ X ++ (mints ++ others), TxShape t) (hsame : SameById E (X ++ (mints ++ others)))
    (hnew : ∀ t ∈ mints, t.1 ∉ X.map Prod.fst) : ((X ++ (mints ++ others)).map fun t => t.1.getHash E).Nodup := by
  have hmints : ((X ++ mints).map fun t => t.1.getHash E).Nodup := by
    have hin : ∀ t ∈ mints, t ∈ X ++ (mints ++ others) := fun t ht => by simp [ht]
    rw [List.map_append]
    refine List.nodup_append.2 ⟨hX, ?_, ?_⟩
    · refine List.Nodup.map_on (fun t ht u hu hid => ?_) hform.nodup.of_map
      exact List.inj_on_of_nodup_map hform.nodup ht hu (hsame t (hin t ht) u (hin u hu) hid)
    · rintro _ hk _ hk' rfl
      obtain ⟨u, hu, hid⟩ := List.mem_map.1 hk
      obtain ⟨t, ht, hid'⟩ := List.mem_map.1 hk'
      refine hnew t ht (List.mem_map.2 ⟨u, hu, ?_⟩)
      exact hsame u (by simp [hu]) t (hin t ht) (hid.trans hid'.symm)
  -- the others one after another
  have main : ∀ A C, others = A ++ C → ((X ++ mints ++ A).map fun t => t.1.getHash E).Nodup := by
    intro A
    induction A using List.reverseRecOn with
    | nil => exact fun C _ => by rwa [List.append_nil]
    | append_singleton A t ih =>
      intro C heq
      rw [List.append_assoc] at heq
      have hA := ih ([t] ++ C) heq
      have hsub : X ++ (mints ++ others) = (X ++ mints ++ A ++ [t]) ++ C := by
        rw [heq]
        simp
      rw [hsub] at hvalid hshape hsame
      rw [List.map_append] at hvalid
      have hnot := not_mem_ids_of_inputs hA hvalid.left (fun u hu => hshape u (List.mem_append_left _ hu))
        (fun u hu v hv => hsame u (List.mem_append_left _ hu) v (List.mem_append_left _ hv))
        (hform.inputs t (by rw [heq]; simp))
      rw [← List.append_assoc, List.map_append]
      refine List.nodup_append.2 ⟨hA, List.nodup_singleton _, ?_⟩
      rintro k hk _ hk' rfl
      rw [List.map_singleton, List.mem_singleton] at hk'
      exact hnot (hk' ▸ hk)
  rw [← List.append_assoc]
  exact main others [] (List.append_nil _).symm

end

/-! ## Chains of a run -/

section

variable {E : Env} {P : CBlockChain → CBlock → Prop} {c : CBlockChain} {hash : ℕ} {p q : CBlockIndex}
  {l : CBlockIndexPtr}

theorem Run.blockForm (h : Run E P c) (hf : CollisionFree E c.cntrBlock)
    (hp : c.cntrBlock.mapIndex hash = p :: q :: l) :
    ∃ b mints others, c.cntrBlock.read p = some b ∧ b.txs = mints ++ others ∧ BlockForm q mints others := by
  obtain ⟨c0, c1, nNetTime, block, a, hrun, -, hnew, hext⟩ := h.origin hp
  rw [a.toStored.pIndexNew_eq] at hnew
  obtain ⟨rfl, htail⟩ := List.cons.inj hnew
  obtain ⟨rfl, rfl⟩ := List.cons.inj htail
  have hread := hext.read a.toStored.read
  have hshape : ∀ t ∈ a.b.txs, TxShape t := fun t ht =>
    ((h.historyOK hf).valid _ _ _ hp).2 t (mem_chainTxs.2 ⟨_, List.mem_cons_self, _, hread, ht⟩)
  have hrew := a.toStored.nodup_rewards hrun.distinctRewards fun hashEnd fOk v hv =>
    calcRewardList_distinct hrun.storeOK hrun.pledgeOK hrun.getTemplateId_lt hv
  obtain ⟨mints, others, hsplit, hform⟩ := a.toStored.blockForm hrun.cache_forms hrew hshape
  exact ⟨_, mints, others, hread, hsplit, hform⟩

/-- **A mint that is on the chain already** comes from a block before which the time stood still. -/
theorem Run.time_of_repeated (h : Run E P c) (hf : CollisionFree E c.cntrBlock)
    (htime : ∀ hash p l, c.cntrBlock.mapIndex hash = p :: l → p.nTimeStamp < 2 ^ 32)
    (hq : c.cntrBlock.mapIndex hash = q :: l) {tx : CTransaction} (hmint : tx.isMintTx = true)
    (htype : tx.nType ≠ CTransaction.TX_GENESIS) (hts : tx.nTimeStamp = (q.nTimeStamp + 1) % 2 ^ 32)
    (hmem : tx ∈ (chainTxs c.cntrBlock (q :: l)).map Prod.fst) : ∃ r l', l = r :: l' ∧ q.nTimeStamp = r.nTimeStamp := by
  have hchain := (h.storeOK.chain _ _ _ hq).2
  obtain ⟨u, hu, rfl⟩ := List.mem_map.1 hmem
  obtain ⟨p', hp', b', hread', hu⟩ := mem_chainTxs.1 hu
  obtain ⟨above, l', heq⟩ := List.append_of_mem hp'
  have hchain' : StoredChain E c.cntrBlock (p' :: l') := hchain.suffix ⟨above, heq.symm⟩ (by simp)
  cases l' with
  | nil =>
    -- the genesis block
    rw [hchain'.read_genesis] at hread'
    obtain rfl := Option.some.inj hread'
    obtain rfl : u = ((getGenesisBlock E).txMint, {}) := List.mem_singleton.1 hu
    exact absurd rfl htype
  | cons q' l'' =>
    obtain ⟨b, mints, others, hread, hsplit, hform⟩ := h.blockForm hf hchain'.index
    obtain rfl := Option.some.inj (hread.symm.trans hread')
    rw [hsplit] at hu
    have hts' : u.1.nTimeStamp = (q'.nTimeStamp + 1) % 2 ^ 32 := by
      rcases List.mem_append.1 hu with hu | hu
      · exact hform.time u hu
      · rw [hform.other u hu] at hmint
        exact absurd hmint (by simp)
    have hlt := htime _ _ _ hq
    have hlt' := htime _ _ _ hchain'.tail.index
    have hsame : q'.nTimeStamp = q.nTimeStamp := by omega
    -- `q'` is behind `q`, and no time between the two is greater than that of `q`
    have hq' : q' ∈ l := by
      cases above with
      | nil =>
        obtain ⟨-, rfl⟩ := List.cons.inj heq
        exact List.mem_cons_self
      | cons x above =>
        obtain ⟨-, rfl⟩ := List.cons.inj heq
        simp
    obtain ⟨r, l', rfl⟩ := List.exists_cons_of_ne_nil (List.ne_nil_of_mem hq')
    have h1 := hchain.time_le_head _ _ rfl r (by simp)
    have h2 := hchain.tail.time_le_head _ _ rfl q' hq'
    exact ⟨r, l', rfl, by omega⟩

/-- The block mints nothing that a transaction of the chain mints. -/
def MintsNew (s : CBlockBase) (block : CBlock) (ptr : CBlockIndexPtr) : Prop :=
  ∀ tx ∈ block.txMint :: block.vtx, tx.isMintTx = true → tx ∉ chainTxList s ptr

theorem Run.uniqueIds (h : Run E P c) (hf : CollisionFree E c.cntrBlock)
    (hnew : ∀ hash p q l b, c.cntrBlock.mapIndex hash = p :: q :: l → c.cntrBlock.read p = some b →
      MintsNew c.cntrBlock b.block (q :: l)) : UniqueIds E c.cntrBlock := by
  have hs := h.storeOK
  have hok := h.historyOK hf
  have main : ∀ l hash p, c.cntrBlock.mapIndex hash = p :: l →
      ((chainTxs c.cntrBlock (p :: l)).map fun t => t.1.getHash E).Nodup := by
    intro l
    induction l with
    | nil =>
      intro hash p hp
      rw [chainTxs, (hs.chain _ _ _ hp).2.read_genesis]
      exact List.nodup_singleton _
    | cons q l ih =>
      intro hash p hp
      have hchain := (hs.chain _ _ _ hp).2
      obtain ⟨b, mints, others, hread, hsplit, hform⟩ := h.blockForm hf hp
      obtain ⟨hvalid, hshape⟩ := hok.valid _ _ _ hp
      have hchainTxs : chainTxs c.cntrBlock (p :: q :: l) =
          chainTxs c.cntrBlock (q :: l) ++ (mints ++ others) := by
        rw [chainTxs, hread, Option.elim_some, hsplit]
      have hsame : SameById E (chainTxs c.cntrBlock (p :: q :: l)) := by
        intro t ht u hu hid
        have hlist := chainTxs_map_fst (hok.blocks.lengths hp)
        exact hf _ _ _ _ _ _ hp hp t.1 (hlist ▸ List.mem_map_of_mem ht) u.1 (hlist ▸ List.mem_map_of_mem hu) hid
      unfold history at hvalid
      rw [hchainTxs] at hvalid hshape hsame ⊢
      refine nodup_ids_append (ih _ _ hchain.tail.index) hform hvalid hshape hsame fun t ht hmem => ?_
      refine hnew _ _ _ _ _ hp hread t.1 ?_ (hform.mint t ht) ?_
      · exact CBlockEx.fst_mem_of_mem_txs (hsplit ▸ List.mem_append_left _ ht)
      · rwa [chainTxs_map_fst (hok.blocks.lengths hchain.tail.index)] at hmem
  intro hash p l hp
  rw [← chainTxs_map_fst (hok.blocks.lengths hp), List.map_map]
  exact main l hash p hp

theorem StoredChain.txMint_not_null {s : CBlockBase} {b : CBlockEx} (h : StoredChain E s (p :: q :: l))
    (hread : s.read p = some b) : b.block.txMint.sendTo.isNull = false := by
  cases h with
  | @step _ _ _ b' _ hb _ =>
    obtain rfl := Option.some.inj (hb.read.symm.trans hread)
    exact hb.mint.not_isNull

/-- **Identifiers are unique along a chain** exactly when no block repeats a mint of its chain in the case
that the block before it has the time of the one before that. -/
theorem run_uniqueIds_iff (h : Run E P c) (hf : CollisionFree E c.cntrBlock)
    (htime : ∀ hash p l, c.cntrBlock.mapIndex hash = p :: l → p.nTimeStamp < 2 ^ 32) :
    UniqueIds E c.cntrBlock ↔
      ∀ hash p q r l b, c.cntrBlock.mapIndex hash = p :: q :: r :: l → q.nTimeStamp = r.nTimeStamp →
        c.cntrBlock.read p = some b → MintsNew c.cntrBlock b.block (q :: r :: l) := by
  have hs := h.storeOK
  have hok := h.historyOK hf
  constructor
  · intro hu hash p q r l b hp _ hread tx htx _ hmem
    have hnd := hu _ _ _ hp
    rw [chainTxList, hread, Option.elim_some, List.map_append] at hnd
    have hin : tx ∈ b.block.txList := by
      unfold CBlock.txList
      rw [(hs.chain _ _ _ hp).2.txMint_not_null hread]
      simpa using htx
    exact (List.nodup_append.1 hnd).2.2 _ (List.mem_map_of_mem hmem) _ (List.mem_map_of_mem hin) rfl
  · intro hnew
    refine h.uniqueIds hf fun hash p q l b hp hread tx htx hmint hmem => ?_
    have hchain := (hs.chain _ _ _ hp).2
    obtain ⟨b', mints, others, hread', hsplit, hform⟩ := h.blockForm hf hp
    obtain rfl := Option.some.inj (hread.symm.trans hread')
    -- a mint of the block is one of its mints
    have hin : tx ∈ b.txs.map Prod.fst := by
      rw [CBlockEx.txs_map_fst (hok.blocks.lengths hp p List.mem_cons_self b hread), CBlock.txList,
        hchain.txMint_not_null hread]
      simpa using htx
    obtain ⟨t, ht, rfl⟩ := List.mem_map.1 hin
    rw [hsplit] at ht
    have hmints : t ∈ mints := (List.mem_append.1 ht).resolve_right fun hother => by
      rw [hform.other t hother] at hmint
      cases hmint
    have hmem' := hmem
    rw [← chainTxs_map_fst (hok.blocks.lengths hchain.tail.index)] at hmem'
    obtain ⟨r, l', rfl, htimes⟩ := h.time_of_repeated hf htime hchain.tail.index hmint (hform.type t hmints)
      (hform.time t hmints) hmem'
    exact hnew _ _ _ _ _ _ hp htimes hread t.1 htx hmint hmem

end

/-! ## On the toy network -/

def toyStillBlock (miner : CTemplateProof) (c : CBlockChain) : CBlock :=
  match c.cntrBlock.pIndexLast with
  | [] => {}
  | p :: _ =>
    workBlock toyEnv miner p.hashBlock p.nTimeStamp p.nTimeStamp (getCompact (nProofOfWorkInit toyEnv)) 0 []

def toyStill (miner : CTemplateProof) (c : CBlockChain) : CBlockChain :=
  match addNewBlock toyEnv (toyStillBlock miner c).nTimeStamp c (toyStillBlock miner c) with
  | some (.OK, c') => c'
  | _ => c

theorem addNewBlock_toyStill (miner : CTemplateProof) (c : CBlockChain)
    (h : (addNewBlock toyEnv (toyStillBlock miner c).nTimeStamp c (toyStillBlock miner c)).map Prod.fst =
      some .OK) :
    addNewBlock toyEnv (toyStillBlock miner c).nTimeStamp c (toyStillBlock miner c) = some (.OK, toyStill miner c) := by
  obtain ⟨⟨err, c'⟩, hc, rfl : err = .OK⟩ := Option.map_eq_some_iff.1 h
  unfold toyStill
  rw [hc]

def toyOther : CTemplateProof := ⟨⟨CDestination.PREFIX_PUBKEY, 8⟩, 0⟩

/-- Three blocks of one time; the miner of the last one is given. -/
def toyStop (miner : CTemplateProof) : CBlockChain := toyStill miner (toyStill toyMiner toyFirst)

def toyStopHashes (miner : CTemplateProof) : List ℕ :=
  [(toyStillBlock miner (toyStill toyMiner toyFirst)).getHash toyEnv,
    (toyStillBlock toyMiner toyFirst).getHash toyEnv, toyFirstBlock.getHash toyEnv, hashGenesisBlock toyEnv]

theorem toyStop_run (miner : CTemplateProof)
    (h : (addNewBlock toyEnv (toyStillBlock miner (toyStill toyMiner toyFirst)).nTimeStamp
      (toyStill toyMiner toyFirst) (toyStillBlock miner (toyStill toyMiner toyFirst))).map Prod.fst = some .OK) :
    Run toyEnv (fun _ _ => True) (toyStop miner) ∧
      ∀ hash, (toyStop miner).cntrBlock.mapIndex hash ≠ [] → hash ∈ toyStopHashes miner := by
  have hfirst : Run toyEnv (fun _ _ => True) toyFirst := Run.genesis.toyMine toyMine_toyFirst trivial
  have hadd2 := addNewBlock_toyStill toyMiner toyFirst (by decide +kernel)
  have hrun2 := hfirst.call _ _ .OK hadd2 fun _ => trivial
  refine ⟨hrun2.call _ _ .OK (addNewBlock_toyStill miner _ h) fun _ => trivial, ?_⟩
  refine addNewBlock_hashes hrun2.storeOK (addNewBlock_toyStill miner _ h) ?_
  refine addNewBlock_hashes hfirst.storeOK hadd2 ?_
  exact addNewBlock_hashes (genesis_storeOK _) (addNewBlock_of_toyMine toyMine_toyFirst) (genesis_hashes toyEnv)

/-- With two miners for the second and the third of the blocks all identifiers differ. -/
theorem run_uniqueIds_toy :
    Run toyEnv (fun _ _ => True) (toyStop toyOther) ∧ CollisionFree toyEnv (toyStop toyOther).cntrBlock ∧
      ((toyStop toyOther).cntrBlock.pIndexLast.map CBlockIndex.nTimeStamp).take 3 =
        [GENESIS_TIME + 60, GENESIS_TIME + 60, GENESIS_TIME + 60] ∧
      UniqueIds toyEnv (toyStop toyOther).cntrBlock := by
  obtain ⟨hrun, hall⟩ := toyStop_run toyOther (by decide +kernel)
  have hf : CollisionFree toyEnv (toyStop toyOther).cntrBlock := .of_hashes hall (by decide +kernel)
  obtain ⟨htimes, hnew, hlast⟩ : (∀ hash ∈ toyStopHashes toyOther,
      ∀ p ∈ (toyStop toyOther).cntrBlock.mapIndex hash, p.nTimeStamp < 2 ^ 32) ∧
      (∀ hash ∈ toyStopHashes toyOther, ∀ b ∈ ((toyStop toyOther).cntrBlock.mapIndex hash).head?.bind
        (toyStop toyOther).cntrBlock.read, ∀ tx ∈ b.block.txMint :: b.block.vtx,
          tx ∉ chainTxList (toyStop toyOther).cntrBlock ((toyStop toyOther).cntrBlock.mapIndex hash).tail) ∧
      ((toyStop toyOther).cntrBlock.pIndexLast.map CBlockIndex.nTimeStamp).take 3 =
        [GENESIS_TIME + 60, GENESIS_TIME + 60, GENESIS_TIME + 60] := by decide +kernel
  refine ⟨hrun, hf, hlast, (run_uniqueIds_iff hrun hf fun hash p l hp => ?_).2 ?_⟩
  · have hmem := hall hash (by rw [hp]; simp)
    exact htimes hash hmem p (by rw [hp]; exact List.mem_cons_self)
  · intro hash p q r l b hp _ hread tx htx _
    have h1 := hnew hash (hall hash (by rw [hp]; simp)) b (by rw [hp]; exact hread) tx htx
    rwa [hp] at h1

/-- With one miner for both, the two mint the same transaction. -/
theorem run_uniqueIds_repeated :
    Run toyEnv (fun _ _ => True) (toyStop toyMiner) ∧ CollisionFree toyEnv (toyStop toyMiner).cntrBlock ∧
      (toyStop toyMiner).cntrBlock.pIndexLast.map CBlockIndex.nHeight = [3, 2, 1, 0] ∧
      ¬UniqueIds toyEnv (toyStop toyMiner).cntrBlock := by
  obtain ⟨hrun, hall⟩ := toyStop_run toyMiner (by decide +kernel)
  refine ⟨hrun, .of_hashes hall (by decide +kernel), by decide +kernel, fun hu => ?_⟩
  obtain ⟨p, l, hlast, hp⟩ := hrun.storeOK.last
  have hnd := hu _ _ _ hp
  rw [← hlast] at hnd
  exact absurd hnd (by decide +kernel)

end Minemon
