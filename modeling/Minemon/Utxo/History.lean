import Minemon.Utxo.TxIndex

/-!
# Histories of runs

Along every run the transactions of each chain find what they spend, and what the database holds is
backed by the chain of the last block. Nothing is assumed about repeated identifiers here: only that no
identifier stands for two transactions.

* `Run.historyOK`: every state of every run.
-/

namespace Minemon

open CBlockBase

/-- Every chain is a valid history, and the database is backed by that of the last block. -/
structure HistoryOK (E : Env) (c : CBlockChain) : Prop where
  store : StoreOK E c.cntrBlock
  cache : Entries (fun _ => RewardForms) c.mapCacheDistributePledgeReward
  blocks : BlocksOK c.cntrBlock
  valid : ∀ h p l, c.cntrBlock.mapIndex h = p :: l →
    Ledger.Valid (history E c.cntrBlock (p :: l)) ∧ ∀ t ∈ chainTxs c.cntrBlock (p :: l), TxShape t
  backed : Ledger.Backed (history E c.cntrBlock c.cntrBlock.pIndexLast) c.cntrBlock.dbUnspent

section

variable {E : Env} {c c' : CBlockChain} {nNetTime : ℤ} {block : CBlock} (a : Stored E nNetTime c block)

theorem HistoryOK.tracks (h : HistoryOK E c) :
    Overlay.Tracks (history E c.cntrBlock c.cntrBlock.pIndexLast)
      (history E c.cntrBlock (a.p :: a.pPrev)) a.view.overlay := by
  obtain ⟨q, l', hlast, hq⟩ := h.store.last
  obtain ⟨down, up, base, hd, hup, hover⟩ := getBlockView_overlay h.store a.prev a.getView
  have hvL := (h.valid _ _ _ hq).1
  have hvP := (h.valid _ _ _ a.prev).1
  rw [← hlast, hd, history_append] at hvL
  rw [hup, history_append] at hvP
  rw [hover, hd, hup, history_append, history_append]
  exact .branch hvL hvP

/-- **A new block continues the history of the previous one**, and what its commit writes is backed. -/
theorem HistoryOK.stored (h : HistoryOK E c) (hf : CollisionFree E a.s1) :
    (Ledger.Valid (history E a.s1 a.pIndexNew) ∧ ∀ t ∈ chainTxs a.s1 a.pIndexNew, TxShape t) ∧
      Ledger.Backed (history E a.s1 a.pIndexNew) a.newUnspent := by
  obtain ⟨q, l', hlast, hq⟩ := h.store.last
  have htr := h.tracks a
  obtain ⟨hvalid, hshape⟩ := a.history_valid h.cache (h.valid _ _ _ a.prev).1 htr h.backed
  have hshapeN : ∀ t ∈ chainTxs c.cntrBlock (a.p :: a.pPrev) ++ a.b.txs, TxShape t := by
    intro t ht
    rcases List.mem_append.1 ht with ht | ht
    · exact (h.valid _ _ _ a.prev).2 t ht
    · exact hshape t ht
  have hagree := hf.agree_new a h.store (fun _ _ _ hx => h.blocks.lengths hx) hq (h.valid _ _ _ hq)
    ⟨hvalid, hshapeN⟩
  rw [← hlast] at hagree
  have happ : (chainTxs c.cntrBlock (a.p :: a.pPrev) ++ a.b.txs).map (txTransfer E) =
      history E c.cntrBlock (a.p :: a.pPrev) ++ a.b.txs.map (txTransfer E) := List.map_append
  have htrN := htr.addAll (happ ▸ hvalid)
  rw [← overlay_viewAfter, ← a.view_eq, ← happ] at htrN
  rw [show history E a.s1 a.pIndexNew = (chainTxs a.s1 a.pIndexNew).map (txTransfer E) from rfl,
    a.chainTxs h.store]
  refine ⟨⟨hvalid, hshapeN⟩, ?_⟩
  rw [a.newUnspent_eq (fun e he => not_isNull_of_mem_created he) htrN]
  exact htrN.write_backed h.backed hagree

theorem Extends.history {s s' : CBlockBase} {ptr : CBlockIndexPtr} (h : Extends E s s')
    (hread : ∀ p ∈ ptr, (s.read p).isSome) : history E s' ptr = Minemon.history E s ptr := by
  unfold Minemon.history
  rw [h.chainTxs hread]

theorem HistoryOK.accepted (h : HistoryOK E c) (b : Accepted E nNetTime c block c') (hb : BlocksOK c'.cntrBlock)
    (hf : CollisionFree E c'.cntrBlock) : HistoryOK E c' := by
  have hs := h.store
  have hext := b.extends hs
  have hextN := b.extends_new hs
  have hreadN := (b.toStored.storedChain hs).read
  obtain ⟨hnew, hbacked⟩ := h.stored b.toStored (hf.of_extends (hs.stored b.toStored) hextN)
  refine ⟨hs.accepted b, b.cache_forms h.cache, hb, fun hash p l hp => ?_, ?_⟩
  · rcases b.chain_cases hs hp with heq | hold
    · rw [heq, hextN.history hreadN, hextN.chainTxs hreadN]
      exact hnew
    · have hread := (hs.chain _ _ _ hold).2.read
      rw [hext.history hread, hext.chainTxs hread]
      exact h.valid _ _ _ hold
  · rcases b.unspent hs with ⟨hdb, hlast⟩ | ⟨hdb, hlast⟩
    · rw [hdb, hlast, hext.history hs.lastChain.read]
      exact h.backed
    · rw [hdb, hlast, hextN.history hreadN]
      exact hbacked

theorem HistoryOK.rejected (h : HistoryOK E c) (r : Rejected E c block c') (hb : BlocksOK c'.cntrBlock) :
    HistoryOK E c' := by
  have hs := h.store
  have hext := r.extends hs
  refine ⟨hs.rejected r, r.cache_forms h.cache, hb, fun hash p l hp => ?_, ?_⟩
  · rw [r.index] at hp
    have hread := (hs.chain _ _ _ hp).2.read
    rw [hext.history hread, hext.chainTxs hread]
    exact h.valid _ _ _ hp
  · rw [r.unspent.1, r.unspent.2, hext.history hs.lastChain.read]
    exact h.backed

theorem genesis_historyOK (E : Env) : HistoryOK E (genesisChain E) := by
  have h := genesis_treeOK E
  have hblocks : BlocksOK (genesisChain E).cntrBlock := (Run.genesis (E := E) (P := fun _ _ => True)).blocksOK
  refine ⟨h.store, h.cache, hblocks, fun hash p l hp => ⟨h.history_valid hp, (h.contexts _ _ _ hp).shape⟩, ?_⟩
  obtain ⟨q, l', hql, hq⟩ := h.store.last
  rw [h.unspent, hql, h.utxoOf_eq hq]
  exact Ledger.replay_backed (h.history_valid hq)

variable {P : CBlockChain → CBlock → Prop}

/-- **Every chain of every run is a valid history**, as long as no identifier stands for two
transactions. -/
theorem Run.historyOK (h : Run E P c) (hf : CollisionFree E c.cntrBlock) : HistoryOK E c := by
  induction h with
  | genesis => exact genesis_historyOK E
  | call nNetTime block err hrun hadd hP ih =>
    have hb := (Run.call nNetTime block err hrun hadd hP).blocksOK
    rcases addNewBlock_cases_ok hrun.storeOK hadd with ⟨-, ⟨a⟩⟩ | ⟨-, r⟩
    · exact (ih (hf.of_extends hrun.storeOK (a.extends hrun.storeOK))).accepted a hb hf
    · exact (ih (hf.of_extends hrun.storeOK (r.extends hrun.storeOK))).rejected r hb

end

end Minemon
