import Minemon.Pool.Agreement
import Minemon.Pool.Entries

/-!
# Transactions for a block

`ArrangeBlockTx` goes through the pool in the order of the sequence numbers. It leaves out what is too late,
and what descends from it, and stops when the block is full.

* `Arranged`: distinct pooled transactions in time, with their sizes and fees, each after what it spends.
* `arrangeBlockTx_closed`: the list of the pool and the one that `GetWorkTx` keeps of it.
-/

namespace Minemon

open CTxPoolView

/-! ## GetWorkTx -/

/-- `ArrangeBlockTx` of `CTxPool`: the list that was arranged on `hashPrev`, and its fees. -/
def CTxPool.arrangeBlockTx (pool : CTxPool) (hashPrev : ℕ) : Option (List CTransaction × ℤ) :=
  (pool.txCache.find? hashPrev).map fun vtx => (vtx, vtx.foldl (fun n tx => wrap64 (n + tx.nTxFee)) 0)

/-- The loop of `GetWorkTx` over the pledge rewards: the size they take, or `none` if they take too much. -/
def workRewardLoop (nMaxTxSize : ℕ) : List CTransaction → ℕ → Option ℕ
  | [], nSerializeSize => some nSerializeSize
  | tx :: l, nSerializeSize =>
    if nSerializeSize + tx.getSerializeSize > nMaxTxSize then none
    else workRewardLoop nMaxTxSize l (nSerializeSize + tx.getSerializeSize)

/-- Its loop over the list of the pool: what it keeps, and the fees. -/
def workTxLoop (nMaxTxSize : ℕ) : List CTransaction → ℕ → List CTransaction → ℤ → List CTransaction × ℤ
  | [], _, vtx, nTotalTxFee => (vtx, nTotalTxFee)
  | tx :: l, nSerializeSize, vtx, nTotalTxFee =>
    if nSerializeSize + tx.getSerializeSize > nMaxTxSize then (vtx, nTotalTxFee)
    else workTxLoop nMaxTxSize l (nSerializeSize + tx.getSerializeSize) (vtx ++ [tx])
      (wrap64 (nTotalTxFee + tx.nTxFee))

/-- The transactions that `GetWorkTx` puts into the block, and the fees of those from the pool. -/
def getWorkTx (vPledgeRewardTxList vtx : List CTransaction) : Option (List CTransaction × ℤ) :=
  let blockCalcSize : CBlock := { vchProof := List.replicate PROOFHASHWORK_SIZE 0 }
  let nMaxTxSize := MAX_BLOCK_SIZE - blockCalcSize.getSerializeSize
  (workRewardLoop nMaxTxSize vPledgeRewardTxList 0).map fun nSerializeSize =>
    workTxLoop nMaxTxSize vtx nSerializeSize vPledgeRewardTxList 0

/-! ## Lists that are closed under ancestors -/

/-- Every pooled transaction that one of the list spends is in the list before it. -/
def CTxPool.Closed (E : Env) (pool : CTxPool) (vtx : List CTransaction) : Prop :=
  ∀ l tx r, vtx = l ++ tx :: r → ∀ o ∈ tx.vInput, o.n < 2 → pool.txView.Linked o.hash →
    ∃ tx' ∈ l, tx'.getHash E = o.hash

variable {E : Env} {rank : ℕ → ℕ} {pool : CTxPool} {nBlockTime : ℤ} {nMaxSize nTotalSize : ℕ} {tx : CTransaction}
  {vtx rest : List CTransaction} {nTotalTxFee : ℤ} {done l : List CPooledTxLink} {setUnTx : List ℕ}
  {link : CPooledTxLink} {t : CPooledTx}

theorem CTxPool.Closed.of_append (h : pool.Closed E (vtx ++ rest)) : pool.Closed E vtx := by
  intro l tx r hvtx
  exact h l tx (r ++ rest) (by rw [hvtx, List.append_assoc, List.cons_append])

theorem CTxPool.Closed.concat (h : pool.Closed E vtx)
    (htx : ∀ o ∈ tx.vInput, o.n < 2 → pool.txView.Linked o.hash → ∃ tx' ∈ vtx, tx'.getHash E = o.hash) :
    pool.Closed E (vtx ++ [tx]) := by
  intro l tx1 r hvtx
  rcases List.eq_nil_or_concat' r with rfl | ⟨r', tx2, rfl⟩
  · obtain ⟨rfl, heq⟩ := List.append_inj' hvtx rfl
    obtain rfl := (List.cons.inj heq).1
    exact htx
  · rw [← List.cons_append, ← List.append_assoc] at hvtx
    exact h l tx1 r' (List.append_inj' hvtx rfl).1

theorem workTxLoop_kept (nMaxTxSize : ℕ) (l : List CTransaction) (n : ℕ) (vtx : List CTransaction) (fee : ℤ) :
    ∃ kept rest, l = kept ++ rest ∧ (workTxLoop nMaxTxSize l n vtx fee).1 = vtx ++ kept := by
  induction l generalizing n vtx fee with
  | nil => exact ⟨[], [], rfl, by rw [workTxLoop, List.append_nil]⟩
  | cons tx l ih =>
    rw [workTxLoop]
    split_ifs
    · exact ⟨[], tx :: l, rfl, by rw [List.append_nil]⟩
    · obtain ⟨kept, rest, rfl, heq⟩ := ih (n + tx.getSerializeSize) (vtx ++ [tx]) (wrap64 (fee + tx.nTxFee))
      exact ⟨tx :: kept, rest, rfl, by rw [heq, List.append_assoc]; rfl⟩

/-! ## The loop -/

def CTxPool.txsOf (pool : CTxPool) (l : List CPooledTxLink) : List CTransaction :=
  l.filterMap fun link => (pool.mapTx.find? link.ptx).map CPooledTx.tx

/-- The pooled transactions in the order of their numbers. -/
def CTxPool.pooledTxs (pool : CTxPool) : List CTransaction := pool.txsOf pool.txView.setTxLinkIndex

/-- What `ArrangeBlockTx` returns. -/
structure Arranged (E : Env) (pool : CTxPool) (nBlockTime : ℤ) (nMaxSize : ℕ) (vtx : List CTransaction)
    (nTotalTxFee : ℤ) : Prop where
  pooled : vtx.Sublist pool.pooledTxs
  distinct : (vtx.map (CTransaction.getHash E)).Nodup
  time : ∀ tx ∈ vtx, (tx.nTimeStamp : ℤ) ≤ nBlockTime
  size : (vtx.map CTransaction.getSerializeSize).sum ≤ nMaxSize
  fee : nTotalTxFee = wrap64 (vtx.map CTransaction.nTxFee).sum
  closed : pool.Closed E vtx

/-- The loop after the links `done`: each of them has given its transaction or is in `setUnTx`. -/
structure ArrangeInv (E : Env) (pool : CTxPool) (nBlockTime : ℤ) (nMaxSize : ℕ) (done : List CPooledTxLink)
    (vtx : List CTransaction) (nTotalTxFee : ℤ) (nTotalSize : ℕ) (setUnTx : List ℕ) : Prop where
  arranged : Arranged E pool nBlockTime nMaxSize vtx nTotalTxFee
  sub : vtx.Sublist (pool.txsOf done)
  size_eq : nTotalSize = (vtx.map CTransaction.getSerializeSize).sum
  split : ∀ l ∈ done, l.hashTX ∈ vtx.map (CTransaction.getHash E) ∨ l.hashTX ∈ setUnTx

def SizeExact (c : CTransaction × CDestination × ℤ × ℕ) : Prop := c.2.2.2 = c.1.getSerializeSize

theorem CTxPool.txsOf_ids (hlinks : LinkIds E pool.mapTx pool.txView)
    (hl : ∀ link ∈ l, link ∈ pool.txView.setTxLinkIndex) :
    (pool.txsOf l).map (CTransaction.getHash E) = l.map CPooledTxLink.hashTX := by
  induction l with
  | nil => rfl
  | cons link l ih =>
    obtain ⟨hptx, t, ht, hid⟩ := hlinks.node link (hl link List.mem_cons_self)
    have hrest := ih fun link' h => hl link' (List.mem_cons_of_mem _ h)
    rw [txsOf, List.filterMap_cons, hptx, ht] at *
    rw [List.map_cons, ← hrest, ← hid]
    rfl

theorem ArrangeInv.skip (h : ArrangeInv E pool nBlockTime nMaxSize done vtx nTotalTxFee nTotalSize setUnTx)
    (link : CPooledTxLink) : ArrangeInv E pool nBlockTime nMaxSize (done ++ [link]) vtx nTotalTxFee nTotalSize
      (link.hashTX :: setUnTx) := by
  refine ⟨h.arranged, h.sub.trans ((List.sublist_append_left done [link]).filterMap _), h.size_eq, ?_⟩
  intro l' hl'
  rcases List.mem_append.1 hl' with hl' | hl'
  · exact (h.split l' hl').imp_right (List.mem_cons_of_mem _)
  · rw [List.mem_singleton.1 hl']
    exact Or.inr List.mem_cons_self

section

variable (hinv : pool.OrderInv E rank)
  (hlinks : pool.txView.setTxLinkIndex = done ++ link :: l) (ht : pool.mapTx.find? link.ptx = some t)

include hinv hlinks ht

theorem CTxPool.OrderInv.parent_done {o : CTxOutPoint} (ho : o ∈ t.tx.vInput) (hn : o.n < 2)
    (hlinked : pool.txView.Linked o.hash) : ∃ p ∈ done, p.hashTX = o.hash := by
  obtain ⟨p, hp, hpo⟩ := hlinked
  have hlt := hinv.topological.parent_lt p hp link (by rw [hlinks]; simp) t ht o ho hpo.symm hn
  have hsorted := hinv.1.numbered.seqs.sorted
  rw [hlinks, List.pairwise_append] at hsorted
  rw [hlinks, List.mem_append] at hp
  rcases hp with hp | hp
  · exact ⟨p, hp, hpo⟩
  · rcases List.mem_cons.1 hp with rfl | hp
    · exact absurd hlt (lt_irrefl _)
    · exact absurd hlt (List.rel_of_pairwise_cons hsorted.2.1 hp).asymm

theorem ArrangeInv.keep (hid : t.tx.getHash E = link.hashTX)
    (h : ArrangeInv E pool nBlockTime nMaxSize done vtx nTotalTxFee nTotalSize setUnTx)
    (htime : (t.tx.nTimeStamp : ℤ) ≤ nBlockTime) (hmiss : ∀ o ∈ t.tx.vInput, o.hash ∉ setUnTx)
    (hfull : nTotalSize + t.tx.getSerializeSize ≤ nMaxSize) :
    ArrangeInv E pool nBlockTime nMaxSize (done ++ [link]) (vtx ++ [t.tx]) (wrap64 (nTotalTxFee + t.tx.nTxFee))
      (nTotalSize + t.tx.getSerializeSize) setUnTx := by
  have hsub : (vtx ++ [t.tx]).Sublist (pool.txsOf (done ++ [link])) := by
    rw [show pool.txsOf (done ++ [link]) = pool.txsOf done ++ [t.tx] by simp [CTxPool.txsOf, ht]]
    exact h.sub.append (List.Sublist.refl _)
  have hpooled : (vtx ++ [t.tx]).Sublist pool.pooledTxs := by
    refine hsub.trans ?_
    rw [CTxPool.pooledTxs, hlinks, List.append_cons done link l]
    exact (List.sublist_append_left (done ++ [link]) l).filterMap _
  have hnodup : ((vtx ++ [t.tx]).map (CTransaction.getHash E)).Nodup := by
    refine (hpooled.map _).nodup ?_
    rw [CTxPool.pooledTxs, CTxPool.txsOf_ids hinv.1.numbered.links fun _ h => h]
    exact hinv.1.numbered.links.ids
  have hsize : nTotalSize + t.tx.getSerializeSize =
      ((vtx ++ [t.tx]).map CTransaction.getSerializeSize).sum := by simp [h.size_eq]
  refine ⟨⟨hpooled, hnodup, fun tx htx => ?_, by rw [← hsize]; exact hfull, ?_,
    h.arranged.closed.concat fun o ho hn hlinked => ?_⟩, hsub, hsize, fun l' hl' => ?_⟩
  · rcases List.mem_append.1 htx with htx | htx
    · exact h.arranged.time tx htx
    · rwa [List.mem_singleton.1 htx]
  · rw [h.arranged.fee, wrap64_add_left]
    simp
  · obtain ⟨p, hp, hpo⟩ := hinv.parent_done hlinks ht ho hn hlinked
    have hkept := (h.split p hp).resolve_right (by rw [hpo]; exact hmiss o ho)
    rw [hpo] at hkept
    exact List.mem_map.1 hkept
  · rcases List.mem_append.1 hl' with hl' | hl'
    · refine (h.split l' hl').imp_left fun hin => ?_
      rw [List.map_append]
      exact List.mem_append_left _ hin
    · rw [List.mem_singleton.1 hl', ← hid]
      exact Or.inl (List.mem_map_of_mem (by simp))

end

/-- **The loop** goes through all links, or stops with a full block. -/
theorem arrangeLoop_spec (hinv : pool.OrderInv E rank) (hsize : EntriesSat SizeExact pool.mapTx)
    (hlinks : pool.txView.setTxLinkIndex = done ++ l)
    (h : ArrangeInv E pool nBlockTime nMaxSize done vtx nTotalTxFee nTotalSize setUnTx) :
    ∃ vtx' nTotalTxFee', arrangeLoop E pool.mapTx nBlockTime nMaxSize l vtx nTotalTxFee nTotalSize setUnTx =
      some (vtx', nTotalTxFee') ∧ Arranged E pool nBlockTime nMaxSize vtx' nTotalTxFee' := by
  induction l generalizing done vtx nTotalTxFee nTotalSize setUnTx with
  | nil => exact ⟨vtx, nTotalTxFee, rfl, h.arranged⟩
  | cons link l ih =>
    obtain ⟨hptx, t, ht, hid⟩ := hinv.1.numbered.links.node link (by rw [hlinks]; simp)
    have hlinks' : pool.txView.setTxLinkIndex = (done ++ [link]) ++ l := by rw [hlinks]; simp
    have hsz : t.nSerializeSize = t.tx.getSerializeSize := hsize link.hashTX t.content (by rw [ht]; rfl)
    rw [← hptx] at ht
    rw [arrangeLoop]
    simp only [ht, hid, hsz]
    split_ifs with htime hmiss hfull
    · exact ih hlinks' (h.skip link)
    · exact ⟨vtx, nTotalTxFee, rfl, h.arranged⟩
    · refine ih hlinks' (h.keep hinv hlinks ht hid htime (fun o ho hin => hmiss ?_) (by omega))
      exact List.any_eq_true.2 ⟨o, ho, by simpa using hin⟩
    · exact ih hlinks' (h.skip link)

def FeeNonneg (c : CTransaction × CDestination × ℤ × ℕ) : Prop := 0 ≤ c.1.nTxFee

theorem admits_size : Admits E SizeExact := fun _ _ _ _ _ _ _ _ => rfl

theorem admits_fee : Admits E FeeNonneg := by
  intro s w tx nForkHeight hashLastBlock destIn nValueIn h
  have hverified := h.verified
  cases hprev : tx.vInput.map (CTxPool.prevOutput s w.txView) with
  | nil => rw [hprev] at hverified; exact absurd hverified (by simp [verifyTransaction])
  | cons first rest =>
    rw [hprev] at hverified
    exact (moneyRange_true (verifyTransaction_iff.1 hverified).2.1.fee).1

def CTxPool.totalTxFee (pool : CTxPool) : ℤ := (pool.pooledTxs.map CTransaction.nTxFee).sum

theorem Arranged.fee_exact
    (h : Arranged E pool nBlockTime nMaxSize vtx nTotalTxFee) (hentries : EntriesSat FeeNonneg pool.mapTx)
    (hfee : pool.totalTxFee < 2 ^ 63) : nTotalTxFee = (vtx.map CTransaction.nTxFee).sum := by
  have hnonneg : ∀ n ∈ pool.pooledTxs.map CTransaction.nTxFee, 0 ≤ n := by
    intro n hn
    obtain ⟨tx, htx, rfl⟩ := List.mem_map.1 hn
    obtain ⟨link, -, hlink⟩ := List.mem_filterMap.1 htx
    obtain ⟨t, ht, rfl⟩ := Option.map_eq_some_iff.1 hlink
    exact hentries link.ptx t.content (by rw [ht]; rfl)
  have hsub := h.pooled.map CTransaction.nTxFee
  have hle : (vtx.map CTransaction.nTxFee).sum ≤ pool.totalTxFee := hsub.sum_le_sum hnonneg
  have h0 : 0 ≤ (vtx.map CTransaction.nTxFee).sum := List.sum_nonneg fun n hn => hnonneg n (hsub.subset hn)
  rw [h.fee, wrap64_eq (fits64_of_nonneg h0 (lt_of_le_of_lt hle hfee))]

theorem CTxCache.find?_addNew {cache : CTxCache} {hash hashPrev : ℕ} {vtx' : List CTransaction}
    (h : OrdMap.find? (cache.addNew hash vtx) hashPrev = some vtx') :
    vtx' = vtx ∨ OrdMap.find? cache hashPrev = some vtx' := by
  have hins : OrdMap.find? (OrdMap.insert cache hash vtx) hashPrev = some vtx' := by
    unfold CTxCache.addNew at h
    dsimp only at h
    split_ifs at h
    · rw [OrdMap.find?_filter] at h
      exact (Option.filter_eq_some_iff.1 h).1
    · exact h
  rw [OrdMap.find?_insert] at hins
  split_ifs at hins
  · exact Or.inl (Option.some.inj hins).symm
  · exact Or.inr hins

theorem PoolRun.txCache (run : PoolRun E (Orderly E rank) pool) {hashPrev : ℕ}
    (hvtx : pool.txCache.find? hashPrev = some vtx) :
    ∃ pool0 nBlockTime nTotalTxFee, PoolRun E (Orderly E rank) pool0 ∧
      pool0.txView.arrangeBlockTx E pool0.mapTx nBlockTime MAX_BLOCK_TX_SIZE = some (vtx, nTotalTxFee) := by
  induction run with
  | empty => simp at hvtx
  | call run hP hcall ih =>
    rename_i pool pool' fuel x
    cases x with
    | push s tx =>
      obtain ⟨⟨err, r, pool1⟩, hpush, rfl⟩ := Option.map_eq_some_iff.1 hcall
      refine ih ?_
      obtain ⟨-, hsame⟩ | ⟨_, _, _, _, _, _, _, -, -, -, -, -, -, hpool⟩ := CTxPool.push_cases hpush
      · rwa [← hsame]
      · dsimp only at hvtx
        rwa [hpool] at hvtx
    | pop txid =>
      refine ih ?_
      obtain ⟨-, rfl⟩ | ⟨_, _, _, _, -, -, -, -, rfl⟩ := CTxPool.pop_cases hcall
      · exact hvtx
      · exact hvtx
    | sync s update =>
      have hrun := run.call hP hcall
      obtain ⟨⟨change, pool1⟩, hsync, rfl⟩ := Option.map_eq_some_iff.1 hcall
      unfold CTxPool.synchronizeBlockChain at hsync
      split at hsync
      · simp at hsync
      split at hsync
      · simp at hsync
      dsimp only at hsync
      split at hsync
      · simp at hsync
      split at hsync
      · simp at hsync
      rename_i vtx' nTotalTxFee harrange
      obtain ⟨-, rfl⟩ := Prod.mk.inj (Option.some.inj hsync)
      rcases CTxCache.find?_addNew hvtx with rfl | hold
      · exact ⟨_, _, nTotalTxFee, hrun, harrange⟩
      · exact ih hold
    | load s vTx => exact absurd hP id

theorem PoolRun.arranged (run : PoolRun E (Orderly E rank) pool) (nBlockTime : ℤ) (nMaxSize : ℕ) :
    ∃ vtx nTotalTxFee, pool.txView.arrangeBlockTx E pool.mapTx nBlockTime nMaxSize = some (vtx, nTotalTxFee) ∧
      Arranged E pool nBlockTime nMaxSize vtx nTotalTxFee := by
  refine arrangeLoop_spec run.orderInv (run.entries admits_size) (List.nil_append _).symm
    ⟨⟨List.nil_sublist _, List.nodup_nil, by simp, by simp, by decide, fun l tx r h => ?_⟩,
      List.nil_sublist _, rfl, by simp⟩
  simp at h

/-- **Block arrangement is closed under ancestors**: the list for any time and size has distinct pooled
transactions in time, with their sizes and fees, each of them after the pooled ones that it spends. So it is
with what `GetWorkTx` keeps of a list of the cache, which was arranged for a pool of the run. -/
theorem arrangeBlockTx_closed (run : PoolRun E (Orderly E rank) pool) (hfee : pool.totalTxFee < 2 ^ 63) :
    (∀ nBlockTime nMaxSize, ∃ vtx nTotalTxFee,
      pool.txView.arrangeBlockTx E pool.mapTx nBlockTime nMaxSize = some (vtx, nTotalTxFee) ∧
        Arranged E pool nBlockTime nMaxSize vtx nTotalTxFee ∧ nTotalTxFee = (vtx.map CTransaction.nTxFee).sum) ∧
      ∀ hashPrev vPledgeRewardTxList vtx nTotalTxFee work,
        pool.arrangeBlockTx hashPrev = some (vtx, nTotalTxFee) → getWorkTx vPledgeRewardTxList vtx = some work →
          ∃ pool0 nBlockTime nFee kept rest, PoolRun E (Orderly E rank) pool0 ∧
            pool0.txView.arrangeBlockTx E pool0.mapTx nBlockTime MAX_BLOCK_TX_SIZE = some (kept ++ rest, nFee) ∧
            work.1 = vPledgeRewardTxList ++ kept ∧ pool0.Closed E kept := by
  constructor
  · intro nBlockTime nMaxSize
    obtain ⟨vtx, nTotalTxFee, heq, harranged⟩ := run.arranged nBlockTime nMaxSize
    exact ⟨vtx, nTotalTxFee, heq, harranged, harranged.fee_exact (run.entries admits_fee) hfee⟩
  · intro hashPrev vPledgeRewardTxList vtx nTotalTxFee work hcache hwork
    obtain ⟨vtx', hvtx', heq⟩ := Option.map_eq_some_iff.1 hcache
    obtain ⟨rfl, -⟩ := Prod.mk.inj heq
    obtain ⟨pool0, nBlockTime, nFee, hrun0, harrange⟩ := run.txCache hvtx'
    obtain ⟨_, _, heq0, harranged⟩ := hrun0.arranged nBlockTime MAX_BLOCK_TX_SIZE
    obtain ⟨rfl, rfl⟩ := Prod.mk.inj (Option.some.inj (harrange.symm.trans heq0))
    obtain ⟨n, -, rfl⟩ := Option.map_eq_some_iff.1 hwork
    obtain ⟨kept, rest, rfl, hkept⟩ := workTxLoop_kept _ vtx' n vPledgeRewardTxList 0
    exact ⟨pool0, nBlockTime, nFee, kept, rest, hrun0, harrange, hkept, harranged.closed.of_append⟩

/-- The child and the grandchild of the toy pool, in this order. -/
theorem arrangeBlockTx_closed_toy :
    ∃ pool, PoolRun toyEnv (Orderly toyEnv toyRank) pool ∧ pool.totalTxFee < 2 ^ 63 ∧
      pool.txView.arrangeBlockTx toyEnv pool.mapTx (GENESIS_TIME + 60) MAX_BLOCK_TX_SIZE =
        some ([toyChild, toyGrandchild], 2 * MIN_TX_FEE) ∧ pool.Closed toyEnv [toyChild, toyGrandchild] := by
  obtain ⟨pool, run, hfee, harrange⟩ := PoolRun.exists_calls (Orderly toyEnv toyRank) toyBackCalls (P := fun pool =>
    pool.totalTxFee < 2 ^ 63 ∧
    pool.txView.arrangeBlockTx toyEnv pool.mapTx (GENESIS_TIME + 60) MAX_BLOCK_TX_SIZE =
      some ([toyChild, toyGrandchild], 2 * MIN_TX_FEE)) (by decide +kernel)
  obtain ⟨vtx, nTotalTxFee, heq, harranged, -⟩ :=
    (arrangeBlockTx_closed run hfee).1 (GENESIS_TIME + 60) MAX_BLOCK_TX_SIZE
  obtain ⟨rfl, rfl⟩ := Prod.mk.inj (Option.some.inj (heq.symm.trans harrange))
  exact ⟨pool, run, hfee, harrange, harranged.closed⟩

/-- **A block with a child before its parent**: the parent is pooled, and its number is the higher one. -/
theorem arrangeBlockTx_not_closed :
    ∃ pool vtx nTotalTxFee, PoolRun toyEnv (fun _ _ x => x.isLoad = false) pool ∧ pool.fAdded = true ∧
      pool.txView.arrangeBlockTx toyEnv pool.mapTx (GENESIS_TIME + 60) MAX_BLOCK_TX_SIZE =
        some (vtx, nTotalTxFee) ∧ ¬pool.Closed toyEnv vtx := by
  obtain ⟨pool, run, hadded, ⟨l, hl, hid⟩, harrange⟩ := PoolRun.exists_calls (fun _ _ x => x.isLoad = false)
    toyStaleCalls (P := fun pool =>
    pool.fAdded = true ∧ (∃ l ∈ pool.txView.setTxLinkIndex, l.hashTX = toyGrandparent.getHash toyEnv) ∧
      pool.txView.arrangeBlockTx toyEnv pool.mapTx (GENESIS_TIME + 60) MAX_BLOCK_TX_SIZE =
        some ([toyParent2, toyGrandparent, toyChild, toyGrandchild], 4 * MIN_TX_FEE)) (by decide +kernel)
  refine ⟨pool, _, _, run, hadded, harrange, fun hclosed => ?_⟩
  -- nothing stands before the first transaction
  obtain ⟨tx, htx, -⟩ := hclosed [] toyParent2 _ rfl (toyOutput toyGrandparent) List.mem_cons_self (by decide)
    ⟨l, hl, hid⟩
  exact absurd htx List.not_mem_nil

end Minemon
