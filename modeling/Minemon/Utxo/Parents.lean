import Minemon.Utxo.History

/-!
# Parents

What the transactions of a chain spend was created by transactions before them, and a transaction has one
context wherever it stands.

* `HistoryOK.parent`: the parent of an input comes before it.
* `HistoryOK.same_context`: equal transactions on the chains of the index have equal contexts.
-/

namespace Minemon

open CBlockBase

section

variable {E : Env} {c : CBlockChain} {hash hash' : ℕ} {p p' : CBlockIndex} {l l' : CBlockIndexPtr}

theorem HistoryOK.parent (h : HistoryOK E c) (hp : c.cntrBlock.mapIndex hash = p :: l)
    {A C : List (CTransaction × CTxContxt)} {t : CTransaction × CTxContxt}
    (heq : chainTxs c.cntrBlock (p :: l) = A ++ t :: C) {out : CTxOutPoint} (hout : out ∈ t.1.vInput) :
    ∃ u ∈ A, u.1.getHash E = out.hash ∧ ∃ o, (out.n, o) ∈ txOutputs u.1 u.2 ∧ o.destTo = t.2.destIn := by
  obtain ⟨hvalid, hshape⟩ := h.valid hash p l hp
  have hmem : t ∈ chainTxs c.cntrBlock (p :: l) := by
    rw [heq]
    exact List.mem_append_right _ List.mem_cons_self
  have hX : history E c.cntrBlock (p :: l) =
      A.map (txTransfer E) ++ txTransfer E t :: C.map (txTransfer E) := by
    unfold history
    rw [heq, List.map_append, List.map_cons]
  rw [← (hshape t hmem).spends_keys (E := E)] at hout
  obtain ⟨e, he, rfl⟩ := List.mem_map.1 hout
  obtain ⟨x, hx, hex⟩ := List.mem_flatMap.1 ((hvalid _ _ _ hX).spent e he).2
  obtain ⟨u, hu, rfl⟩ := List.mem_map.1 hx
  obtain ⟨o, ho, rfl⟩ := List.mem_map.1 hex
  refine ⟨u, hu, rfl, o.2, ho, ?_⟩
  obtain ⟨i, -, hi⟩ := List.mem_map.1 he
  exact (congrArg (fun e => e.2.destTo) hi).symm

section

variable (h : HistoryOK E c) (hf : CollisionFree E c.cntrBlock) (hp : c.cntrBlock.mapIndex hash = p :: l)
  (hp' : c.cntrBlock.mapIndex hash' = p' :: l')

include h hf hp hp'

theorem HistoryOK.same_tx {t u : CTransaction × CTxContxt} (ht : t ∈ chainTxs c.cntrBlock (p :: l))
    (hu : u ∈ chainTxs c.cntrBlock (p' :: l')) (hid : t.1.getHash E = u.1.getHash E) : t.1 = u.1 := by
  refine hf _ _ _ _ _ _ hp hp' t.1 ?_ u.1 ?_ hid
  · rw [← chainTxs_map_fst (h.blocks.lengths hp)]
    exact List.mem_map_of_mem ht
  · rw [← chainTxs_map_fst (h.blocks.lengths hp')]
    exact List.mem_map_of_mem hu

theorem HistoryOK.agree : Ledger.Agree (history E c.cntrBlock (p :: l)) (history E c.cntrBlock (p' :: l')) := by
  obtain ⟨hvalid, hshape⟩ := h.valid hash p l hp
  obtain ⟨hvalid', hshape'⟩ := h.valid hash' p' l' hp'
  refine Ledger.agree hvalid hvalid' fun x hx y hy => ?_
  obtain ⟨t, ht, rfl⟩ := List.mem_map.1 hx
  obtain ⟨u, hu, rfl⟩ := List.mem_map.1 hy
  exact determined (hshape t ht) (hshape' u hu) (h.same_tx hf hp hp' ht hu)

/-- **A transaction has one context** on all chains of the index. -/
theorem HistoryOK.same_context
    {t u : CTransaction × CTxContxt} (ht : t ∈ chainTxs c.cntrBlock (p :: l))
    (hu : u ∈ chainTxs c.cntrBlock (p' :: l')) (hid : t.1.getHash E = u.1.getHash E) : t = u := by
  obtain ⟨hvalid, hshape⟩ := h.valid hash p l hp
  obtain ⟨hvalid', hshape'⟩ := h.valid hash' p' l' hp'
  have htx := h.same_tx hf hp hp' ht hu hid
  refine (hshape t ht).eq_of_spends (hshape' u hu) htx (Ledger.eq_of_keys ?_ fun e he e' he' hkey => ?_)
  · exact ((hshape t ht).spends_keys (E := E)).trans
      ((congrArg CTransaction.vInput htx).trans ((hshape' u hu).spends_keys (E := E)).symm)
  · exact h.agree hf hp hp' e (hvalid.created_of_spent (List.mem_map_of_mem ht) he) e'
      (hvalid'.created_of_spent (List.mem_map_of_mem hu) he') hkey

end

end

end Minemon
