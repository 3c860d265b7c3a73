import Minemon.Rewards.Cache
import Minemon.Rewards.Paid
import Minemon.Utxo.Replay

/-!
# The transactions of a new block

What the loop of `AddNewBlock` over the transactions leaves: each one found its inputs in the view as it
was when its turn came.

* `Stored.history_valid`: the history of the new block is valid.
* `Stored.replayable`: with no identifier twice on the chain, the contexts are those of the replay.
-/

namespace Minemon

open CBlockBase

section

variable {E : Env} {s : CBlockBase}

/-! ## One transaction -/

section

variable {view : CBlockView} (hnull : ∀ out o, view.retrieveUnspent s.dbUnspent out = some o → o.isNull = false)

include hnull

theorem txContxtLoop_ok
    (vInput : List CTxOutPoint) (txContxt : CTxContxt) {r : CTxContxt}
    (h : txContxtLoop s view vInput txContxt = .ok r) :
    r.vin = txContxt.vin ++
        (vInput.filterMap fun out => (view.retrieveUnspent s.dbUnspent out).map CTxInContxt.ofOut) ∧
      (∀ out ∈ vInput, ∃ o, view.retrieveUnspent s.dbUnspent out = some o ∧ o.destTo = r.destIn) ∧
      (txContxt.destIn.isNull = false ∨ vInput = [] → r.destIn = txContxt.destIn) := by
  induction vInput generalizing txContxt with
  | nil =>
    obtain rfl : txContxt = r := by simpa [txContxtLoop] using h
    exact ⟨by simp, by simp, fun _ => rfl⟩
  | cons out vInput ih =>
    rw [txContxtLoop] at h
    cases hout : view.retrieveUnspent s.dbUnspent out with
    | none => simp [hout] at h
    | some o =>
      simp only [hout] at h
      have hdest : o.destTo.isNull = false := by
        have := hnull out o hout
        simp only [CTxOut.isNull, Bool.or_eq_false_iff] at this
        exact this.1
      have hcons : (out :: vInput).filterMap
          (fun out => (view.retrieveUnspent s.dbUnspent out).map CTxInContxt.ofOut) =
            CTxInContxt.ofOut o ::
              vInput.filterMap fun out => (view.retrieveUnspent s.dbUnspent out).map CTxInContxt.ofOut :=
        List.filterMap_cons_some (by rw [hout]; rfl)
      have hne : ¬(out :: vInput = []) := by simp
      rw [hcons]
      split_ifs at h with hnone hdiff
      · obtain ⟨h1, h2, h3⟩ := ih _ h
        have hr := h3 (Or.inl hdest)
        refine ⟨by rw [h1]; simp, ?_, fun hor => ?_⟩
        · intro x hx
          rcases List.mem_cons.1 hx with rfl | hx
          · exact ⟨o, hout, hr.symm⟩
          · exact h2 x hx
        · rcases hor with hor | hor
          · rw [hor] at hnone
            simp at hnone
          · exact absurd hor hne
      · obtain ⟨h1, h2, h3⟩ := ih _ h
        have hr := h3 (Or.inl (by simpa using hnone))
        refine ⟨by rw [h1]; simp, ?_, fun _ => hr⟩
        intro x hx
        rcases List.mem_cons.1 hx with rfl | hx
        · exact ⟨o, hout, by rw [hr]; exact (not_not.1 hdiff).symm⟩
        · exact h2 x hx

/-- **`GetTxContxt`** makes the context from what the view has. -/
theorem getTxContxt_reads {tx : CTransaction} {txContxt : CTxContxt}
    (hnd : tx.vInput.Nodup) (h : getTxContxt s view tx = .ok txContxt) :
    TxReads (view.retrieveUnspent s.dbUnspent) (tx, txContxt) := by
  obtain ⟨h1, h2, h3⟩ := txContxtLoop_ok hnull tx.vInput {} h
  refine ⟨hnd, h2, ?_⟩
  have hdest : txContxt.destIn =
      (tx.vInput.head?.bind (view.retrieveUnspent s.dbUnspent)).elim CDestination.null CTxOut.destTo := by
    cases hv : tx.vInput with
    | nil => exact h3 (Or.inr hv)
    | cons out vInput =>
      obtain ⟨o, ho, hd⟩ := h2 out (by rw [hv]; exact List.mem_cons_self)
      simp only [List.head?_cons, Option.bind_some, ho, Option.elim_some]
      exact hd.symm
  show txContxt = contextIn (view.retrieveUnspent s.dbUnspent) tx
  unfold contextIn
  rw [← hdest, CTxContxt.mk.injEq]
  exact ⟨rfl, by simpa using h1⟩

end

/-! ## The loop -/

section

variable {p : CBlockIndex} {nBlockTime : ℕ} {r : CBlockView × List CTxContxt} (vtx rewards : List CTransaction)
  (view : CBlockView)

include vtx rewards view

theorem checkTxLoop_contexts (ctxs : List CTxContxt)
    (h : checkTxLoop E s p nBlockTime vtx rewards view ctxs = some (.ok r)) :
    ∃ new, r.2 = ctxs ++ new ∧ new.length = vtx.length ∧ r.1 = viewAfter E view (vtx.zip new) ∧
      ∀ A t C, vtx.zip new = A ++ t :: C → getTxContxt s (viewAfter E view A) t.1 = .ok t.2 := by
  induction vtx generalizing rewards view ctxs with
  | nil =>
    obtain rfl : (view, ctxs) = r := by simpa [checkTxLoop] using h
    exact ⟨[], by simp, rfl, rfl, by simp⟩
  | cons tx vtx ih =>
    obtain ⟨txContxt, hctxt, -, hrest⟩ := checkTxLoop_cons h
    obtain ⟨new, h1, h2, h3, h4⟩ := ih _ _ _ hrest
    refine ⟨txContxt :: new, by rw [h1]; simp, by simp [h2], h3, ?_⟩
    intro A t C heq
    rw [List.zip_cons_cons] at heq
    cases A with
    | nil =>
      obtain ⟨rfl, -⟩ := List.cons.inj heq
      exact hctxt
    | cons a A =>
      obtain ⟨rfl, htail⟩ := List.cons.inj heq
      exact h4 A t C htail

theorem checkTxLoop_verified (ctxs new : List CTxContxt)
    (h : checkTxLoop E s p nBlockTime vtx rewards view ctxs = some (.ok r)) (hnew : r.2 = ctxs ++ new) :
    ∀ t ∈ (vtx.zip new).drop rewards.length, verifyBlockTx E s t.1 t.2 p (p.nHeight + 1) p.hashOrigin = some .OK := by
  induction vtx generalizing rewards view ctxs new with
  | nil => simp
  | cons tx vtx ih =>
    obtain ⟨txContxt, -, hcheck, hrest⟩ := checkTxLoop_cons h
    obtain ⟨new', h1, -⟩ := checkTxLoop_contexts _ _ _ _ hrest
    obtain rfl : new = txContxt :: new' := by
      rw [hnew, List.append_assoc] at h1
      exact List.append_cancel_left h1
    rw [List.zip_cons_cons]
    have htail := ih rewards.tail _ _ new' hrest h1
    cases rewards with
    | nil =>
      intro t ht
      rcases List.mem_cons.1 ht with rfl | ht
      · exact (hcheck.resolve_left (by simp)).2
      · exact htail t (by simpa using ht)
    | cons reward rewards =>
      intro t ht
      exact htail t (by simpa using ht)

end

/-! ## A stored block -/

variable {nNetTime : ℤ} {c : CBlockChain} {block : CBlock} (a : Stored E nNetTime c block)

theorem Stored.txs_eq : a.b.txs = (block.txMint, ({} : CTxContxt)) :: block.vtx.zip a.vTxContxt := by
  have hnull : a.b.block.txMint.sendTo.isNull = false := a.mint.not_isNull
  unfold CBlockEx.txs
  rw [hnull]
  rfl

theorem Stored.length_contexts : a.vTxContxt.length = block.vtx.length := by
  obtain ⟨new, h1, h2, -⟩ := checkTxLoop_contexts _ _ _ _ a.txs
  obtain rfl : a.vTxContxt = new := by simpa using h1
  exact h2

theorem Stored.view_eq : a.view1 = viewAfter E a.view a.b.txs := by
  obtain ⟨new, h1, -, h3, -⟩ := checkTxLoop_contexts _ _ _ _ a.txs
  obtain rfl : a.vTxContxt = new := by simpa using h1
  rw [a.txs_eq]
  exact h3

section

variable (hcache : Entries (fun _ => RewardForms) c.mapCacheDistributePledgeReward)

include hcache

theorem Stored.nodup_inputs : ∀ t ∈ a.b.txs, t.1.vInput.Nodup ∧ t.1.sendTo.isNull = false := by
  intro t ht
  rw [a.txs_eq] at ht
  rcases List.mem_cons.1 ht with rfl | ht
  · exact ⟨by rw [a.mint.inputs]; exact List.nodup_nil, a.mint.not_isNull⟩
  have hvtx := (List.of_mem_zip ht).1
  by_cases hmint : t.1.isMintTx = true
  · -- a mint transaction after the first one is a reward
    obtain ⟨htake, hdrop⟩ := checkTxLoop_rewards _ _ _ _ a.txs
    have hmem : t.1 ∈ a.rewards := by
      rw [← List.take_append_drop a.rewards.length block.vtx] at hvtx
      rcases List.mem_append.1 hvtx with hin | hin
      · rw [htake] at hin
        exact List.mem_of_mem_take hin
      · rw [hdrop _ hin] at hmint
        simp at hmint
    have hform := (getDistributePledgeRewardTxList_forms hcache a.rewardList).2 _ rfl t.1 hmem
    exact ⟨by rw [hform.inputs]; exact List.nodup_nil, hform.sendTo⟩
  · have hvalid := a.valid.vtx t.1 hvtx (by simpa using hmint)
    exact ⟨hvalid.nodup, hvalid.sendTo⟩

theorem Stored.verified :
    ∀ t ∈ a.b.txs, t.1.isMintTx = false →
      verifyBlockTx E c.cntrBlock t.1 t.2 a.p (a.p.nHeight + 1) a.p.hashOrigin = some .OK := by
  intro t ht hmint
  rw [a.txs_eq] at ht
  rcases List.mem_cons.1 ht with rfl | ht
  · simp [CTransaction.isMintTx, a.mint.type] at hmint
  rw [← List.take_append_drop a.rewards.length (block.vtx.zip a.vTxContxt)] at ht
  rcases List.mem_append.1 ht with ht | ht
  · -- one of the rewards
    exfalso
    rw [List.zip, List.take_zipWith] at ht
    have hmem := (List.of_mem_zip ht).1
    rw [(checkTxLoop_rewards _ _ _ _ a.txs).1] at hmem
    have hform := (getDistributePledgeRewardTxList_forms hcache a.rewardList).2 _ rfl t.1 (List.mem_of_mem_take hmem)
    simp [CTransaction.isMintTx, hform.type] at hmint
  · exact checkTxLoop_verified _ _ _ _ _ a.txs (by simp) t ht

/-- **Every transaction of a stored block found its inputs** in the view when its turn came. -/
theorem Stored.reads
    {A C : List (CTransaction × CTxContxt)} {t : CTransaction × CTxContxt} (heq : a.b.txs = A ++ t :: C)
    (hnull : ∀ out o, (viewAfter E a.view A).retrieveUnspent c.cntrBlock.dbUnspent out = some o →
      o.isNull = false) : TxReads ((viewAfter E a.view A).retrieveUnspent c.cntrBlock.dbUnspent) t := by
  have hnd := (a.nodup_inputs hcache t (by rw [heq]; simp)).1
  obtain ⟨new, h1, -, -, h4⟩ := checkTxLoop_contexts _ _ _ _ a.txs
  obtain rfl : a.vTxContxt = new := by simpa using h1
  rw [a.txs_eq] at heq
  cases A with
  | nil =>
    obtain ⟨rfl, -⟩ := List.cons.inj heq
    refine ⟨hnd, fun out hout => ?_, ?_⟩
    · simp only [a.mint.inputs] at hout
      simp at hout
    · simp only [contextIn, a.mint.inputs]
      rfl
  | cons t0 A =>
    obtain ⟨rfl, htail⟩ := List.cons.inj heq
    exact getTxContxt_reads hnull hnd (h4 A t C htail)

end

/-! ## The history of the new block -/

variable {txs : List (CTransaction × CTxContxt)} {B : List UtxoTransfer}

/-- **The transactions of the block can follow** on the history that the view leads to. -/
theorem Stored.history_valid (hcache : Entries (fun _ => RewardForms) c.mapCacheDistributePledgeReward)
    (hX : Ledger.Valid (txs.map (txTransfer E)))
    (htr : Overlay.Tracks B (txs.map (txTransfer E)) a.view.overlay)
    (hdb : Ledger.Backed B c.cntrBlock.dbUnspent) :
    Ledger.Valid ((txs ++ a.b.txs).map (txTransfer E)) ∧ ∀ t ∈ a.b.txs, TxShape t := by
  have main : ∀ A C, a.b.txs = A ++ C → Ledger.Valid ((txs ++ A).map (txTransfer E)) ∧ ∀ t ∈ A, TxShape t := by
    intro A
    induction A using List.reverseRecOn with
    | nil => exact fun C _ => ⟨by rwa [List.append_nil], by simp⟩
    | append_singleton A t ih =>
      intro C heq
      rw [List.append_assoc] at heq
      obtain ⟨hv, hs⟩ := ih ([t] ++ C) heq
      have htrA : Overlay.Tracks B ((txs ++ A).map (txTransfer E)) (viewAfter E a.view A).overlay := by
        rw [overlay_viewAfter, List.map_append]
        exact htr.addAll (by rwa [List.map_append] at hv)
      have hback : Ledger.Backed ((txs ++ A).map (txTransfer E))
          ((viewAfter E a.view A).retrieveUnspent c.cntrBlock.dbUnspent) := by
        rw [retrieveUnspent_eq]
        exact htrA.read_backed hdb
      have hreads := a.reads hcache heq fun out o ho => not_isNull_of_mem_created (hback out o ho).2
      rw [← List.append_assoc, List.map_append]
      refine ⟨hv.concat (hreads.legal hback), fun u hu => ?_⟩
      rcases List.mem_append.1 hu with hu | hu
      · exact hs u hu
      · rw [List.mem_singleton.1 hu]
        exact hreads.shape
  exact main a.b.txs [] (List.append_nil _).symm

/-- **The contexts of the block are those of the replay**, where the view shows the replay. -/
theorem Stored.replayable (hcache : Entries (fun _ => RewardForms) c.mapCacheDistributePledgeReward)
    (hX : Replayable E txs) (hu : ((txs ++ a.b.txs).map fun t => t.1.getHash E).Nodup)
    (htr : Overlay.Tracks B (txs.map (txTransfer E)) a.view.overlay)
    (hd : Overlay.Dead (txs.map (txTransfer E)) a.view.overlay)
    (hdb : Ledger.Exact B c.cntrBlock.dbUnspent) : Replayable E (txs ++ a.b.txs) := by
  have main : ∀ A C, a.b.txs = A ++ C → Replayable E (txs ++ A) := by
    intro A
    induction A using List.reverseRecOn with
    | nil => exact fun C _ => by rwa [List.append_nil]
    | append_singleton A t ih =>
      intro C heq
      rw [List.append_assoc] at heq
      have hA := ih ([t] ++ C) heq
      obtain ⟨hreplay, hv⟩ := hA.replay
      have huA : Ledger.Unique ((txs ++ A).map (txTransfer E)) := by
        refine unique_of_ids (List.Nodup.sublist ?_ hu)
        rw [heq, ← List.append_assoc]
        exact (List.sublist_append_left _ _).map _
      have hexact : Ledger.Exact ((txs ++ A).map (txTransfer E))
          ((viewAfter E a.view A).retrieveUnspent c.cntrBlock.dbUnspent) := by
        rw [retrieveUnspent_eq, overlay_viewAfter]
        rw [List.map_append] at hv huA ⊢
        exact (htr.addAll hv).read_exact (hd.addAll hv huA) huA hdb
      have hreads := a.reads hcache heq fun out o ho => not_isNull_of_mem_created (hexact.backed out o ho).2
      rw [hexact.eq (Ledger.replay_exact hv huA), ← hreplay] at hreads
      rw [← List.append_assoc]
      exact hA.concat hreads
  exact main a.b.txs [] (List.append_nil _).symm

end

end Minemon
