import Minemon.Run.Supply
import Minemon.Utxo.Checked

/-!
# Reorganisation

The database holds the outputs that are unspent on the chain of the last block. The view on another
block, and what is written when the fork moves to a new one, come to the replay of the other chain,
whenever `GetBranch` finds a way.

* `getBlockView_replay_iff`: when the view and the commit come to the replay.
* `Run.treeOK`: runs in which no transaction identifier repeats reach such states only.
-/

namespace Minemon

open CBlockBase

/-- No transaction identifier occurs twice on one chain. -/
def UniqueIds (E : Env) (s : CBlockBase) : Prop :=
  ∀ h p l, s.mapIndex h = p :: l → ((chainTxList s (p :: l)).map (CTransaction.getHash E)).Nodup

/-- Transactions of the tree that have one identifier are the same. -/
def CollisionFree (E : Env) (s : CBlockBase) : Prop :=
  ∀ h p l h' p' l', s.mapIndex h = p :: l → s.mapIndex h' = p' :: l' →
    ∀ tx ∈ chainTxList s (p :: l), ∀ tx' ∈ chainTxList s (p' :: l'), tx.getHash E = tx'.getHash E → tx = tx'

/-- Stored contexts are those of the replay, and the database has the unspent outputs of the chain of the last block. -/
structure TreeOK (E : Env) (c : CBlockChain) : Prop where
  store : StoreOK E c.cntrBlock
  cache : Entries (fun _ => RewardForms) c.mapCacheDistributePledgeReward
  lengths : ∀ h p l, c.cntrBlock.mapIndex h = p :: l → ContextLengths c.cntrBlock (p :: l)
  contexts : ∀ h p l, c.cntrBlock.mapIndex h = p :: l → Replayable E (chainTxs c.cntrBlock (p :: l))
  unspent : c.cntrBlock.dbUnspent = utxoOf E c.cntrBlock c.cntrBlock.pIndexLast

section

variable {E : Env} {c : CBlockChain} {hash : ℕ} {p : CBlockIndex} {l : CBlockIndexPtr}

section

variable (h : TreeOK E c) (hp : c.cntrBlock.mapIndex hash = p :: l)

include h hp

theorem TreeOK.history_valid : Ledger.Valid (history E c.cntrBlock (p :: l)) := (h.contexts _ _ _ hp).replay.2

theorem TreeOK.utxoOf_eq : utxoOf E c.cntrBlock (p :: l) = Ledger.replay (history E c.cntrBlock (p :: l)) := by
  unfold utxoOf
  rw [← chainTxs_map_fst (h.lengths _ _ _ hp)]
  exact (h.contexts _ _ _ hp).replay.1

theorem TreeOK.contextsDefined :
    ∀ q ∈ p :: l, ∃ b, c.cntrBlock.read q = some b ∧ CBlockBase.contextsDefined b = true := by
  intro q hq
  obtain ⟨b, hb⟩ := Option.isSome_iff_exists.1 ((h.store.chain _ _ _ hp).2.read q hq)
  exact ⟨b, hb, contextsDefined_of_shape (h.lengths _ _ _ hp) (h.contexts _ _ _ hp).shape hq hb⟩

variable (hu : UniqueIds E c.cntrBlock)

include hu

theorem TreeOK.history_unique : Ledger.Unique (history E c.cntrBlock (p :: l)) := by
  have hids := hu _ _ _ hp
  rw [← chainTxs_map_fst (h.lengths _ _ _ hp), List.map_map] at hids
  exact unique_of_ids hids

theorem TreeOK.utxoOf_exact : Ledger.Exact (history E c.cntrBlock (p :: l)) (utxoOf E c.cntrBlock (p :: l)) := by
  rw [h.utxoOf_eq hp]
  exact Ledger.replay_exact (h.history_valid hp) (h.history_unique hp hu)

/-- **The view on a block** leads from the history of the last block to that of the block. -/
theorem TreeOK.view
    (hcount : genesisTimeCount E c.cntrBlock.pIndexLast = genesisTimeCount E (p :: l)) :
    ∃ view, getBlockView E c.cntrBlock hash = some (some view) ∧
      Overlay.Tracks (history E c.cntrBlock c.cntrBlock.pIndexLast) (history E c.cntrBlock (p :: l)) view.overlay ∧
      Overlay.Dead (history E c.cntrBlock (p :: l)) view.overlay := by
  obtain ⟨q, l', hlast, hq⟩ := h.store.last
  obtain ⟨view, hview⟩ := getBlockView_some h.store hp (fun _ _ _ hx => h.contextsDefined hx) hcount
  obtain ⟨down, up, base, hd, hup, hover⟩ := getBlockView_overlay h.store hp hview
  have hvL := h.history_valid hq
  have huL := h.history_unique hq hu
  have hvP := h.history_valid hp
  have huP := h.history_unique hp hu
  rw [← hlast, hd, history_append] at hvL huL
  rw [hup, history_append] at hvP huP
  refine ⟨view, hview, ?_, ?_⟩
  · rw [hover, hd, hup, history_append, history_append]
    exact .branch hvL hvP
  · rw [hover, hup, history_append]
    exact .branch hvL hvP huL huP

end

theorem TreeOK.db_exact (h : TreeOK E c) (hu : UniqueIds E c.cntrBlock) :
    Ledger.Exact (history E c.cntrBlock c.cntrBlock.pIndexLast) c.cntrBlock.dbUnspent := by
  obtain ⟨q, l', hlast, hq⟩ := h.store.last
  rw [h.unspent, hlast]
  exact h.utxoOf_exact hq hu

/-! ## A new block -/

variable {nNetTime : ℤ} {block : CBlock} (a : Stored E nNetTime c block)

theorem Stored.chainTxs (hs : StoreOK E c.cntrBlock) :
    Minemon.chainTxs a.s1 a.pIndexNew = Minemon.chainTxs c.cntrBlock (a.p :: a.pPrev) ++ a.b.txs := by
  have hread := (hs.chain _ _ _ a.prev).2.read
  rw [a.pIndexNew_eq, Minemon.chainTxs, a.read, (a.extends hs).chainTxs hread]
  rfl

theorem Stored.contextLengths (hs : StoreOK E c.cntrBlock)
    (hlen : ContextLengths c.cntrBlock (a.p :: a.pPrev)) : ContextLengths a.s1 a.pIndexNew := by
  have hread := (hs.chain _ _ _ a.prev).2.read
  intro q hq b hb
  rw [a.pIndexNew_eq] at hq
  rcases List.mem_cons.1 hq with rfl | hq
  · rw [a.read] at hb
    obtain rfl := Option.some.inj hb
    exact a.length_contexts
  · exact (a.extends hs).contextLengths hread hlen q hq b hb

def Stored.newUnspent : CTxOutPoint → Option CTxOut :=
  let view := a.view1.addBlock (block.getHash E) a.b
  updateUnspent c.cntrBlock.dbUnspent view.getUnspentChanges.1 view.getUnspentChanges.2

theorem Stored.newUnspent_eq {B X : List UtxoTransfer}
    (hX : ∀ e ∈ Ledger.created X, e.2.isNull = false) (htr : Overlay.Tracks B X a.view1.overlay) :
    a.newUnspent = a.view1.overlay.write c.cntrBlock.dbUnspent :=
  updateUnspent_eq (a.view1.addBlock (block.getHash E) a.b) _ fun out u hu hspent =>
    hX _ (htr.live out u hu hspent).2

theorem UniqueIds.new (hu : UniqueIds E a.s1) (hs : StoreOK E c.cntrBlock)
    (hlen : ContextLengths c.cntrBlock (a.p :: a.pPrev)) :
    ((Minemon.chainTxs c.cntrBlock (a.p :: a.pPrev) ++ a.b.txs).map fun t => t.1.getHash E).Nodup := by
  have hidx := a.index
  have hlenN := a.contextLengths hs hlen
  rw [a.pIndexNew_eq] at hidx hlenN
  have hids := hu _ _ _ hidx
  rw [← chainTxs_map_fst hlenN, ← a.pIndexNew_eq, a.chainTxs hs, List.map_map] at hids
  exact hids

/-- No output has one value on the chain of the last block and another on that of the new block. -/
theorem CollisionFree.agree_new (hf : CollisionFree E a.s1) (hs : StoreOK E c.cntrBlock)
    (hlen : ∀ h p l, c.cntrBlock.mapIndex h = p :: l → ContextLengths c.cntrBlock (p :: l))
    {q : CBlockIndex} {l' : CBlockIndexPtr} (hq : c.cntrBlock.mapIndex q.hashBlock = q :: l')
    (hL : Ledger.Valid (history E c.cntrBlock (q :: l')) ∧ ∀ t ∈ Minemon.chainTxs c.cntrBlock (q :: l'), TxShape t)
    (hN : Ledger.Valid ((Minemon.chainTxs c.cntrBlock (a.p :: a.pPrev) ++ a.b.txs).map (txTransfer E)) ∧
      ∀ t ∈ Minemon.chainTxs c.cntrBlock (a.p :: a.pPrev) ++ a.b.txs, TxShape t) :
    Ledger.Agree (history E c.cntrBlock (q :: l'))
      ((Minemon.chainTxs c.cntrBlock (a.p :: a.pPrev) ++ a.b.txs).map (txTransfer E)) := by
  have hext := a.extends hs
  have hreadL := (hs.chain _ _ _ hq).2.read
  have hlenN := a.contextLengths hs (hlen _ _ _ a.prev)
  have hqN : a.s1.mapIndex q.hashBlock = q :: l' := by
    rw [hext.index _ (by rw [hq]; simp)]
    exact hq
  have hidx := a.index
  rw [a.pIndexNew_eq] at hidx hlenN
  refine Ledger.agree hL.1 hN.1 fun t ht u hu => ?_
  obtain ⟨t, htm, rfl⟩ := List.mem_map.1 ht
  obtain ⟨u, hum, rfl⟩ := List.mem_map.1 hu
  refine determined (hL.2 t htm) (hN.2 u hum) ?_
  refine hf _ _ _ _ _ _ hqN hidx t.1 ?_ u.1 ?_
  · rw [hext.chainTxList hreadL, ← chainTxs_map_fst (hlen _ _ _ hq)]
    exact List.mem_map_of_mem htm
  · rw [← chainTxs_map_fst hlenN, ← a.pIndexNew_eq, a.chainTxs hs]
    exact List.mem_map_of_mem hum

/-- **The commit of a new block writes the replay of its chain.** -/
theorem TreeOK.stored (h : TreeOK E c) (hu0 : UniqueIds E c.cntrBlock) (hu : UniqueIds E a.s1)
    (hf : CollisionFree E a.s1) :
    Replayable E (Minemon.chainTxs a.s1 a.pIndexNew) ∧ a.newUnspent = utxoOf E a.s1 a.pIndexNew := by
  have hcount : genesisTimeCount E c.cntrBlock.pIndexLast = genesisTimeCount E (a.p :: a.pPrev) := by
    by_contra hne
    have := a.getView
    rw [getBlockView_none h.store a.prev hne] at this
    simp at this
  obtain ⟨view, hview, htr, hd⟩ := h.view a.prev hu0 hcount
  obtain rfl : a.view = view := Option.some.inj (Option.some.inj (a.getView.symm.trans hview))
  have hids := hu.new a h.store (h.lengths _ _ _ a.prev)
  have hrep := a.replayable h.cache (h.contexts _ _ _ a.prev) hids htr hd (h.db_exact hu0)
  have hlenN := a.contextLengths h.store (h.lengths _ _ _ a.prev)
  rw [a.chainTxs h.store]
  refine ⟨hrep, ?_⟩
  -- the new history, and the view on it
  obtain ⟨hreplay, hv⟩ := hrep.replay
  have huN := unique_of_ids hids
  have happ : (Minemon.chainTxs c.cntrBlock (a.p :: a.pPrev) ++ a.b.txs).map (txTransfer E) =
      history E c.cntrBlock (a.p :: a.pPrev) ++ a.b.txs.map (txTransfer E) := List.map_append
  have htrN := htr.addAll (happ ▸ hv)
  have hdN := hd.addAll (happ ▸ hv) (happ ▸ huN)
  rw [← overlay_viewAfter, ← a.view_eq, ← happ] at htrN hdN
  have hagree : Ledger.Agree (history E c.cntrBlock c.cntrBlock.pIndexLast)
      ((Minemon.chainTxs c.cntrBlock (a.p :: a.pPrev) ++ a.b.txs).map (txTransfer E)) := by
    obtain ⟨q, l', hlast, hq⟩ := h.store.last
    rw [hlast]
    exact hf.agree_new a h.store h.lengths hq ⟨h.history_valid hq, (h.contexts _ _ _ hq).shape⟩ ⟨hv, hrep.shape⟩
  have hexact := htrN.write_exact hdN huN hagree (h.db_exact hu0)
  rw [a.newUnspent_eq (fun e he => not_isNull_of_mem_created he) htrN,
    hexact.eq (Ledger.replay_exact hv huN)]
  unfold utxoOf
  rw [← chainTxs_map_fst hlenN, a.chainTxs h.store, hreplay]

/-! ## The view and the commit -/

/-- **The view on a block shows the replay of its chain, and a new block on it is committed to the replay
of the new chain**, when the chains of the last block and of this one have equally many blocks with the
time of the genesis block; otherwise there is no view. -/
theorem getBlockView_replay_iff (h : TreeOK E c) (hu : UniqueIds E c.cntrBlock)
    (hp : c.cntrBlock.mapIndex hash = p :: l) :
    (∃ view, getBlockView E c.cntrBlock hash = some (some view) ∧
      (∀ out, view.retrieveUnspent c.cntrBlock.dbUnspent out = utxoOf E c.cntrBlock (p :: l) out) ∧
      ∀ nNetTime block (a : Stored E nNetTime c block), block.hashPrev = hash → UniqueIds E a.s1 →
        CollisionFree E a.s1 → a.newUnspent = utxoOf E a.s1 a.pIndexNew) ↔
      genesisTimeCount E c.cntrBlock.pIndexLast = genesisTimeCount E (p :: l) := by
  constructor
  · rintro ⟨view, hview, -⟩
    by_contra hne
    rw [getBlockView_none h.store hp hne] at hview
    simp at hview
  · intro hcount
    obtain ⟨view, hview, htr, hd⟩ := h.view hp hu hcount
    refine ⟨view, hview, ?_, fun nNetTime block a _ hu1 hf1 => (h.stored a hu hu1 hf1).2⟩
    have hexact := htr.read_exact hd (h.history_unique hp hu) (h.db_exact hu)
    rw [retrieveUnspent_eq, hexact.eq (h.utxoOf_exact hp hu)]
    exact fun _ => rfl

/-! ## Runs -/

variable {c' : CBlockChain} {P : CBlockChain → CBlock → Prop}

theorem UniqueIds.of_extends {s s' : CBlockBase} (hs : StoreOK E s) (hext : Extends E s s') (hu : UniqueIds E s') :
    UniqueIds E s := by
  intro h p l hp
  rw [← hext.chainTxList (hs.chain _ _ _ hp).2.read]
  exact hu h p l (hext.chain hp)

theorem CollisionFree.of_extends {s s' : CBlockBase} (hs : StoreOK E s) (hext : Extends E s s')
    (hf : CollisionFree E s') : CollisionFree E s := by
  intro h p l h' p' l' hp hp'
  rw [← hext.chainTxList (hs.chain _ _ _ hp).2.read, ← hext.chainTxList (hs.chain _ _ _ hp').2.read]
  exact hf _ _ _ _ _ _ (hext.chain hp) (hext.chain hp')

theorem Accepted.unspent (b : Accepted E nNetTime c block c') (hs : StoreOK E c.cntrBlock) :
    (c'.cntrBlock.dbUnspent = c.cntrBlock.dbUnspent ∧ c'.cntrBlock.pIndexLast = c.cntrBlock.pIndexLast) ∨
      (c'.cntrBlock.dbUnspent = b.toStored.newUnspent ∧ c'.cntrBlock.pIndexLast = b.pIndexNew) := by
  have ht := b.added.touched
  rcases b.final with ⟨-, heq⟩ | ⟨-, hcommit⟩
  · rw [heq]
    exact Or.inl ⟨ht.dbUnspent, ht.pIndexLast⟩
  · obtain ⟨-, vTxNew, -, heq⟩ := commitBlockView_cases (b.toStored.storedChain hs).read hcommit
    rw [heq]
    refine Or.inr ⟨?_, rfl⟩
    show updateUnspent b.s1.dbUnspent _ _ = _
    rw [ht.dbUnspent]
    rfl

theorem Rejected.unspent (r : Rejected E c block c') : c'.cntrBlock.dbUnspent = c.cntrBlock.dbUnspent ∧
    c'.cntrBlock.pIndexLast = c.cntrBlock.pIndexLast := by
  rcases r.store with heq | ⟨-, b, ht⟩
  · rw [heq]
    exact ⟨rfl, rfl⟩
  · exact ⟨ht.dbUnspent, ht.pIndexLast⟩

theorem Accepted.cache_forms (b : Accepted E nNetTime c block c')
    (hcache : Entries (fun _ => RewardForms) c.mapCacheDistributePledgeReward) :
    Entries (fun _ => RewardForms) c'.mapCacheDistributePledgeReward := by
  rw [b.cache_eq]
  exact (getDistributePledgeRewardTxList_forms hcache b.rewardList).1

theorem Rejected.cache_forms (r : Rejected E c block c')
    (hcache : Entries (fun _ => RewardForms) c.mapCacheDistributePledgeReward) :
    Entries (fun _ => RewardForms) c'.mapCacheDistributePledgeReward := by
  rcases r.cache with heq | ⟨nPrevBlockTime, o, hcall⟩
  · rw [heq]
    exact hcache
  · exact (getDistributePledgeRewardTxList_forms hcache hcall).1

/-- **An accepted block keeps the tree in order.** -/
theorem TreeOK.accepted (h : TreeOK E c) (b : Accepted E nNetTime c block c') (hu : UniqueIds E c'.cntrBlock)
    (hf : CollisionFree E c'.cntrBlock) : TreeOK E c' := by
  have hs := h.store
  have hext := b.extends hs
  have hextN := b.extends_new hs
  have hu1 : UniqueIds E b.s1 := hu.of_extends (hs.stored b.toStored) hextN
  have hf1 : CollisionFree E b.s1 := hf.of_extends (hs.stored b.toStored) hextN
  obtain ⟨hrep, hutxo⟩ := h.stored b.toStored (hu.of_extends hs hext) hu1 hf1
  have hreadN := (b.toStored.storedChain hs).read
  refine ⟨hs.accepted b, b.cache_forms h.cache, fun hash p l hp => ?_, fun hash p l hp => ?_, ?_⟩
  · rcases b.chain_cases hs hp with heq | hold
    · rw [heq]
      exact hextN.contextLengths hreadN (b.toStored.contextLengths hs (h.lengths _ _ _ b.prev))
    · exact hext.contextLengths (hs.chain _ _ _ hold).2.read (h.lengths _ _ _ hold)
  · rcases b.chain_cases hs hp with heq | hold
    · rw [heq, hextN.chainTxs hreadN]
      exact hrep
    · rw [hext.chainTxs (hs.chain _ _ _ hold).2.read]
      exact h.contexts _ _ _ hold
  · rcases b.unspent hs with ⟨hdb, hlast⟩ | ⟨hdb, hlast⟩
    · rw [hdb, hlast, h.unspent, utxoOf, utxoOf, hext.chainTxList hs.lastChain.read]
    · rw [hdb, hlast, hutxo, utxoOf, utxoOf, hextN.chainTxList hreadN]

theorem TreeOK.rejected (h : TreeOK E c) (r : Rejected E c block c') : TreeOK E c' := by
  have hs := h.store
  have hext := r.extends hs
  refine ⟨hs.rejected r, r.cache_forms h.cache, fun hash p l hp => ?_, fun hash p l hp => ?_, ?_⟩
  · rw [r.index] at hp
    exact hext.contextLengths (hs.chain _ _ _ hp).2.read (h.lengths _ _ _ hp)
  · rw [r.index] at hp
    rw [hext.chainTxs (hs.chain _ _ _ hp).2.read]
    exact h.contexts _ _ _ hp
  · rw [r.unspent.1, r.unspent.2, h.unspent, utxoOf, utxoOf, hext.chainTxList hs.lastChain.read]

end

section

variable {E : Env} {c : CBlockChain} {P : CBlockChain → CBlock → Prop}

theorem genesis_ofTx_isNull (E : Env) : (CTxOut.ofTx (getGenesisBlock E).txMint).isNull = true := by
  simp [CTxOut.isNull, CTxOut.ofTx, getGenesisBlock, BPX_INIT_REWARD_TOKEN]

theorem genesis_chain {hash : ℕ} {p : CBlockIndex} {l : CBlockIndexPtr}
    (hp : (genesisChain E).cntrBlock.mapIndex hash = p :: l) :
    l = [] ∧ StoredChain E (genesisChain E).cntrBlock [p] := by
  have hchain := ((genesis_storeOK E).chain _ _ _ hp).2
  have hl : l = [] := by
    rw [genesis_mapIndex] at hp
    by_cases hh : hash = hashGenesisBlock E
    · rw [hh, Function.update_self] at hp
      exact ((List.cons.inj hp).2).symm
    · rw [Function.update_of_ne hh] at hp
      simp at hp
  rw [hl] at hchain
  exact ⟨hl, hchain⟩

theorem genesis_treeOK (E : Env) : TreeOK E (genesisChain E) := by
  have hlast : (genesisChain E).cntrBlock.pIndexLast = [genesisEntry E] := rfl
  have hgen := (genesis_chain (genesis_storeOK E).genesis).2
  refine ⟨genesis_storeOK E, Entries.empty, fun hash p l hp => ?_, fun hash p l hp => ?_, ?_⟩
  · obtain ⟨rfl, hchain⟩ := genesis_chain hp
    intro q hq b hb
    rw [List.mem_singleton.1 hq, hchain.read_genesis] at hb
    obtain rfl := Option.some.inj hb
    rfl
  · obtain ⟨rfl, hchain⟩ := genesis_chain hp
    rw [Minemon.chainTxs, hchain.read_genesis]
    show Replayable E ([] ++ [((getGenesisBlock E).txMint, ({} : CTxContxt))])
    refine Replayable.concat (fun A t C heq => by simp at heq) ⟨List.nodup_nil, ?_, rfl⟩
    exact fun out hout => absurd hout List.not_mem_nil
  · -- the one output of the genesis block is null, here and there
    have hnull := genesis_ofTx_isNull E
    have hout : txOutputs (getGenesisBlock E).txMint {} = [] := by
      unfold txOutputs
      rw [List.filter_cons_of_neg (by simp [hnull]), List.filter_cons_of_neg (by simp [CTxOut.isNull, CTxOut.ofChange])]
      rfl
    have hlist : chainTxList (genesisChain E).cntrBlock [genesisEntry E] = [(getGenesisBlock E).txMint] := by
      rw [chainTxList, hgen.read_genesis]
      rfl
    have htransfer : txTransfer E ((getGenesisBlock E).txMint, {}) = ⟨[], []⟩ := by
      unfold txTransfer
      rw [hout]
      rfl
    have hdb : (genesisChain E).cntrBlock.dbUnspent = fun _ => none := by
      funext out
      show updateUnspent (fun _ => none)
        [(⟨(getGenesisBlock E).txMint.getHash E, 0⟩, CTxOut.ofTx (getGenesisBlock E).txMint)] [] out = none
      unfold updateUnspent
      simp only [List.foldl_cons, List.foldl_nil, hnull, if_true]
      by_cases hk : out = ⟨(getGenesisBlock E).txMint.getHash E, 0⟩
      · rw [hk, Function.update_self]
      · rw [Function.update_of_ne hk]
    rw [hdb, hlast, utxoOf, hlist]
    show _ = Ledger.apply (fun _ => none) (txTransfer E ((getGenesisBlock E).txMint, {}))
    rw [htransfer]
    rfl

/-- **Every run keeps the tree in order**, as long as no identifier repeats on a chain or stands for two transactions.
-/
theorem Run.treeOK (h : Run E P c) (hu : UniqueIds E c.cntrBlock) (hf : CollisionFree E c.cntrBlock) : TreeOK E c := by
  refine h.invariant (I := fun c => UniqueIds E c.cntrBlock → CollisionFree E c.cntrBlock → TreeOK E c)
    (fun _ _ => genesis_treeOK E) ?_ ?_ hu hf
  · intro c c' nNetTime block hrun a _ ih hu hf
    have hext := a.extends hrun.storeOK
    exact (ih (hu.of_extends hrun.storeOK hext) (hf.of_extends hrun.storeOK hext)).accepted a hu hf
  · intro c c' block hrun r ih hu hf
    have hext := r.extends hrun.storeOK
    exact (ih (hu.of_extends hrun.storeOK hext) (hf.of_extends hrun.storeOK hext)).rejected r

end

/-! ## On the toy network -/

section

variable {E : Env} {s : CBlockBase} {hashes : List ℕ}

theorem UniqueIds.of_hashes (hall : ∀ h, s.mapIndex h ≠ [] → h ∈ hashes)
    (hids : ∀ h ∈ hashes, ((chainTxList s (s.mapIndex h)).map (CTransaction.getHash E)).Nodup) : UniqueIds E s := by
  intro h p l hp
  rw [← hp]
  exact hids h (hall h (by rw [hp]; simp))

theorem CollisionFree.of_hashes (hall : ∀ h, s.mapIndex h ≠ [] → h ∈ hashes)
    (hids : ∀ h ∈ hashes, ∀ h' ∈ hashes, ∀ tx ∈ chainTxList s (s.mapIndex h),
      ∀ tx' ∈ chainTxList s (s.mapIndex h'), tx.getHash E = tx'.getHash E → tx = tx') : CollisionFree E s := by
  intro h p l h' p' l' hp hp'
  rw [← hp, ← hp']
  exact hids h (hall h (by rw [hp]; simp)) h' (hall h' (by rw [hp']; simp))

theorem genesis_hashes (E : Env) : ∀ h, (genesisChain E).cntrBlock.mapIndex h ≠ [] → h ∈ [hashGenesisBlock E] := by
  intro h hh
  rw [List.mem_singleton]
  by_contra hne
  rw [genesis_mapIndex, Function.update_of_ne hne] at hh
  exact hh rfl

theorem addNewBlock_hashes {nNetTime : ℤ} {c c' : CBlockChain} {block : CBlock} {err : Errno}
    (hs : StoreOK E c.cntrBlock) (hadd : addNewBlock E nNetTime c block = some (err, c'))
    (hall : ∀ h, c.cntrBlock.mapIndex h ≠ [] → h ∈ hashes) :
    ∀ h, c'.cntrBlock.mapIndex h ≠ [] → h ∈ block.getHash E :: hashes := by
  intro h hh
  rcases addNewBlock_cases_ok hs hadd with ⟨-, ⟨a⟩⟩ | ⟨-, r⟩
  · rw [a.mapIndex hs] at hh
    by_cases heq : h = block.getHash E
    · exact heq ▸ List.mem_cons_self
    · rw [Function.update_of_ne heq] at hh
      exact List.mem_cons_of_mem _ (hall h hh)
  · rw [r.index] at hh
    exact List.mem_cons_of_mem _ (hall h hh)

end

/-- The blocks of a store are the genesis block and blocks that were delivered. -/
theorem RunOver.hashes {E : Env} {P : CBlockChain → CBlock → Prop} {c : CBlockChain} {blocks : List CBlock}
    (h : RunOver E (· ∈ blocks) P c) :
    ∀ h, c.cntrBlock.mapIndex h ≠ [] → h ∈ hashGenesisBlock E :: blocks.map (CBlock.getHash E) := by
  induction h with
  | genesis => exact fun h hh => List.mem_cons.2 (Or.inl (List.mem_singleton.1 (genesis_hashes E h hh)))
  | call _ block _ hrun hS hadd _ ih =>
    intro h hh
    rcases List.mem_cons.1 (addNewBlock_hashes hrun.run.storeOK hadd ih h hh) with rfl | hmem
    · exact List.mem_cons_of_mem _ (List.mem_map_of_mem hS)
    · exact hmem

def toySideBlock : CBlock :=
  workBlock toyEnv toyMiner (hashGenesisBlock toyEnv) GENESIS_TIME GENESIS_TIME
    (getCompact (nProofOfWorkInit toyEnv)) 0 []

def toyFork : CBlockChain :=
  match addNewBlock toyEnv GENESIS_TIME toyFirst toySideBlock with
  | some (.OK, c) => c
  | _ => toyFirst

theorem addNewBlock_toyFork : addNewBlock toyEnv GENESIS_TIME toyFirst toySideBlock = some (.OK, toyFork) := by
  have hsome : (addNewBlock toyEnv GENESIS_TIME toyFirst toySideBlock).map Prod.fst = some .OK := by
    decide +kernel
  obtain ⟨⟨err, c⟩, hc, rfl : err = .OK⟩ := Option.map_eq_some_iff.1 hsome
  unfold toyFork
  rw [hc]

theorem Run.toyFork : Run toyEnv (fun _ _ => True) toyFork :=
  .call _ _ .OK (Run.genesis.toyMine toyMine_toyFirst trivial) addNewBlock_toyFork fun _ => trivial

def toyForkHashes : List ℕ :=
  [toySideBlock.getHash toyEnv, toyFirstBlock.getHash toyEnv, hashGenesisBlock toyEnv]

theorem toyFork_hashes : ∀ h, toyFork.cntrBlock.mapIndex h ≠ [] → h ∈ toyForkHashes := by
  have hfirst : Run toyEnv (fun _ _ => True) toyFirst := Run.genesis.toyMine toyMine_toyFirst trivial
  refine addNewBlock_hashes hfirst.storeOK addNewBlock_toyFork ?_
  exact addNewBlock_hashes (genesis_storeOK _) (addNewBlock_of_toyMine toyMine_toyFirst) (genesis_hashes toyEnv)

theorem toyFork_uniqueIds : UniqueIds toyEnv toyFork.cntrBlock :=
  .of_hashes toyFork_hashes (by decide +kernel)

theorem toyFork_collisionFree : CollisionFree toyEnv toyFork.cntrBlock :=
  .of_hashes toyFork_hashes (by decide +kernel)

theorem toyFork_treeOK : TreeOK toyEnv toyFork :=
  Run.toyFork.treeOK toyFork_uniqueIds toyFork_collisionFree

theorem getBlockView_replay_toy :
    TreeOK toyEnv toyFork ∧ UniqueIds toyEnv toyFork.cntrBlock ∧
      toyFork.cntrBlock.mapIndex (hashGenesisBlock toyEnv) = [toyGenesis] ∧
      ∃ view, getBlockView toyEnv toyFork.cntrBlock (hashGenesisBlock toyEnv) = some (some view) ∧
        ∀ out, view.retrieveUnspent toyFork.cntrBlock.dbUnspent out =
          utxoOf toyEnv toyFork.cntrBlock [toyGenesis] out := by
  have hindex : toyFork.cntrBlock.mapIndex (hashGenesisBlock toyEnv) = [toyGenesis] := by decide +kernel
  obtain ⟨view, hview, hread, -⟩ :=
    (getBlockView_replay_iff toyFork_treeOK toyFork_uniqueIds hindex).2 (by decide +kernel)
  exact ⟨toyFork_treeOK, toyFork_uniqueIds, hindex, view, hview, hread⟩

/-- There is no view on a block that has the time of the genesis block: `GetBranch` steps back from the
genesis block. -/
theorem getBlockView_genesis_time :
    Run toyEnv (fun _ _ => True) toyFork ∧ TreeOK toyEnv toyFork ∧ UniqueIds toyEnv toyFork.cntrBlock ∧
      CollisionFree toyEnv toyFork.cntrBlock ∧
      (toyFork.cntrBlock.mapIndex (toySideBlock.getHash toyEnv)).map CBlockIndex.nHeight = [1, 0] ∧
      getBlockView toyEnv toyFork.cntrBlock (toySideBlock.getHash toyEnv) = none := by
  exact ⟨Run.toyFork, toyFork_treeOK, toyFork_uniqueIds, toyFork_collisionFree, by decide +kernel,
    Option.isNone_iff_eq_none.1 (by decide +kernel)⟩

end Minemon
