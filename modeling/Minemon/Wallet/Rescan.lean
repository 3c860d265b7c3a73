import Minemon.Accounts.Balances
import Minemon.Utxo.Parents
import Minemon.Wallet.Coins

/-!
# The rescan of a wallet

`ResynchronizeWalletTx` clears the coins of a wallet and goes through the main chain and the pool again. What
it finds depends on what `ClearTx` keeps, and on the order in which the pool hands out its transactions.

* `unspentCoins`: the coins of an address, by what the transactions of the chain and the pool pay and spend.
* `RescanOK`, `resynchronizeWalletTx_iff`: **when a rescan finds the coins**.
-/

namespace Minemon

open CBlockBase

/-! ## Transactions of a node -/

def CAssembledTx.ofContext (nBlockHeight : ℕ) (t : CTransaction × CTxContxt) : CAssembledTx :=
  ⟨t.1, nBlockHeight, t.2.destIn, t.2.getValueIn⟩

/-- The transactions of a stored block, each with the answer to whether it is the mint transaction. -/
def CBlockEx.tagged (nBlockHeight : ℕ) (b : CBlockEx) : List (Bool × CAssembledTx) :=
  (if b.block.txMint.sendTo.isNull then []
    else [(true, CAssembledTx.ofContext nBlockHeight (b.block.txMint, ({} : CTxContxt)))]) ++
    (b.block.vtx.zip b.vTxContxt).map fun t => (false, CAssembledTx.ofContext nBlockHeight t)

def chainTagged (s : CBlockBase) : CBlockIndexPtr → List (Bool × CAssembledTx)
  | [] => []
  | p :: l => chainTagged s l ++ (s.read p).elim [] (CBlockEx.tagged p.nHeight)

def CBlockBase.mainTxs (s : CBlockBase) : List CAssembledTx := (chainTagged s s.pIndexLast).map Prod.snd

def CPooledTx.assembled (t : CPooledTx) : CAssembledTx := ⟨t.tx, -1, t.destIn, t.nValueIn⟩

def CTxPool.txs (pool : CTxPool) : List CAssembledTx :=
  (pool.txView.setTxLinkIndex.insertionSort fun a b => a.hashTX ≤ b.hashTX).filterMap fun link =>
    (pool.mapTx.find? link.ptx).map CPooledTx.assembled

def nodeTxs (s : CBlockBase) (pool : CTxPool) : List CAssembledTx := s.mainTxs ++ pool.txs

def CAssembledTx.outputsTo (E : Env) (d : CDestination) (t : CAssembledTx) : List (CTxOutPoint × ℤ) :=
  [0, 1].filterMap fun n =>
    if (t.getOutput n).destTo = d then (t.getOutput n).value.map fun v => (⟨t.tx.getHash E, n⟩, v) else none

/-- **The coins of an address**: what is paid to it by the transactions and spent by none of them. -/
def unspentCoins (E : Env) (txs : List CAssembledTx) (d : CDestination) : Finset (CTxOutPoint × ℤ) :=
  (txs.flatMap (CAssembledTx.outputsTo E d)).toFinset.filter fun e => ∀ t ∈ txs, e.1 ∉ t.tx.vInput

def wanted (setDest : Finset CDestination) : Bool × CAssembledTx → Bool
  | (true, t) => t.tx.nAmount > 0 && decide (t.tx.sendTo ∈ setDest)
  | (false, t) => decide (t.tx.sendTo ∈ setDest ∨ t.destIn ∈ setDest)

/-- The transactions of the node as the filters go through them. -/
def nodeTagged (s : CBlockBase) (pool : CTxPool) : List (Bool × CAssembledTx) :=
  chainTagged s s.pIndexLast ++ pool.txs.map fun t => (false, t)

def delivered (keys : CWalletKeys) (N : List (Bool × CAssembledTx)) : List CAssembledTx :=
  (N.filter (wanted keys.getDestinations)).map Prod.snd

section

variable {E : Env} {keys : CWalletKeys} {s : CBlockBase} {setDest : Finset CDestination} {σ : Type}
  {foundTx : σ → CAssembledTx → σ}

theorem mem_getDestinations {d : CDestination} : d ∈ keys.getDestinations ↔ keys.isMine d = true := by
  unfold CWalletKeys.getDestinations CWalletKeys.isMine CDestination.isPubKey CDestination.isTemplate
  rw [Finset.mem_union, Finset.mem_image, Finset.mem_image]
  cases d with
  | mk nPrefix data =>
    simp only [CDestination.mk.injEq, beq_iff_eq]
    constructor
    · rintro (⟨a, ha, rfl, rfl⟩ | ⟨a, ha, rfl, rfl⟩)
      · simpa using ha
      · simpa [CDestination.PREFIX_PUBKEY, CDestination.PREFIX_TEMPLATE] using ha
    · split_ifs with h1 h2
      · intro h
        exact Or.inl ⟨data, by simpa using h, h1.symm, rfl⟩
      · intro h
        exact Or.inr ⟨data, by simpa using h, h2.symm, rfl⟩
      · intro h
        cases h

theorem not_isNull_of_isMine {d : CDestination} (h : keys.isMine d = true) : d.isNull = false := by
  rw [Bool.eq_false_iff]
  intro hnull
  unfold CDestination.isNull at hnull
  rw [beq_iff_eq] at hnull
  unfold CWalletKeys.isMine CDestination.isPubKey CDestination.isTemplate at h
  rw [hnull] at h
  cases h

/-! ## Filters -/

theorem wanted_mint {t : CAssembledTx} :
    wanted setDest (true, t) = true ↔ t.tx.nAmount > 0 ∧ t.tx.sendTo ∈ setDest := by
  rw [wanted, Bool.and_eq_true, decide_eq_true_eq, decide_eq_true_eq]

theorem wanted_tx {t : CAssembledTx} :
    wanted setDest (false, t) = true ↔ t.tx.sendTo ∈ setDest ∨ t.destIn ∈ setDest := decide_eq_true_iff

theorem filterBlockTx_eq {nBlockHeight : ℕ} {vtx : List CTransaction} {vTxContxt : List CTxContxt}
    (hlen : vtx.length ≤ vTxContxt.length) (x : σ) :
    filterBlockTx setDest foundTx nBlockHeight vtx vTxContxt x =
      some ((((vtx.zip vTxContxt).map fun t => (false, CAssembledTx.ofContext nBlockHeight t)).filter
        (wanted setDest)).foldl (fun x t => foundTx x t.2) x) := by
  rw [List.foldl_filter]
  induction vtx generalizing vTxContxt x with
  | nil => rfl
  | cons tx vtx ih =>
    cases vTxContxt with
    | nil => simp at hlen
    | cons ctxt vTxContxt =>
      rw [List.length_cons, List.length_cons] at hlen
      rw [filterBlockTx, ih (by omega), List.zip_cons_cons, List.map_cons, List.foldl_cons]
      simp only [wanted_tx]
      rfl

theorem filterBlock_eq {nBlockHeight : ℕ} {b : CBlockEx} (hset : ∀ d ∈ setDest, d.isNull = false)
    (hlen : b.vTxContxt.length = b.block.vtx.length) (x : σ) : filterBlock setDest foundTx nBlockHeight b x =
      some (((b.tagged nBlockHeight).filter (wanted setDest)).foldl (fun x t => foundTx x t.2) x) := by
  unfold filterBlock CBlockEx.tagged
  rw [filterBlockTx_eq hlen.ge, List.filter_append, List.foldl_append]
  congr 2
  rw [List.foldl_filter]
  by_cases hnull : b.block.txMint.sendTo.isNull = true
  · rw [if_pos hnull, if_neg]
    · rfl
    · rintro ⟨-, hmem⟩
      rw [hset _ hmem] at hnull
      cases hnull
  · rw [if_neg hnull, List.foldl_cons, List.foldl_nil]
    simp only [wanted_mint]
    rfl

/-- **The chain hands out the transactions that are wanted**, from its first block to the last. -/
theorem filterTx_eq (hset : ∀ d ∈ setDest, d.isNull = false)
    (hread : ∀ q ∈ s.pIndexLast, (s.read q).isSome) (hlen : ContextLengths s s.pIndexLast) (x : σ) :
    s.filterTx setDest foundTx x =
      some (((chainTagged s s.pIndexLast).filter (wanted setDest)).foldl (fun x t => foundTx x t.2) x) := by
  unfold CBlockBase.filterTx
  generalize s.pIndexLast = ptr at *
  induction ptr with
  | nil => rfl
  | cons p l ih =>
    obtain ⟨b, hb⟩ := Option.isSome_iff_exists.1 (hread p List.mem_cons_self)
    rw [List.reverse_cons, List.foldlM_append, ih (fun q hq => hread q (List.mem_cons_of_mem _ hq))
      (fun q hq => hlen q (List.mem_cons_of_mem _ hq)), chainTagged, hb, List.filter_append, List.foldl_append]
    simp only [Option.bind_eq_bind, Option.bind_some, List.foldlM_cons, hb,
      filterBlock_eq hset (hlen p List.mem_cons_self b hb)]
    rfl

/-- **The pool hands out the transactions that are wanted**, in the order of their ids. -/
theorem pool_filterTx_eq {pool : CTxPool}
    (hentry : ∀ link ∈ pool.txView.setTxLinkIndex, (pool.mapTx.find? link.ptx).isSome) (x : σ) :
    pool.filterTx setDest foundTx x =
      some (((pool.txs.map fun t => (false, t)).filter (wanted setDest)).foldl (fun x t => foundTx x t.2) x) := by
  rw [List.foldl_filter]
  unfold CTxPool.filterTx CTxPool.txs
  have hsort : ∀ link ∈ pool.txView.setTxLinkIndex.insertionSort fun a b => a.hashTX ≤ b.hashTX,
      (pool.mapTx.find? link.ptx).isSome := fun link hlink => hentry link ((List.mem_insertionSort _).1 hlink)
  generalize (pool.txView.setTxLinkIndex.insertionSort fun a b => a.hashTX ≤ b.hashTX) = links at *
  induction links generalizing x with
  | nil => rfl
  | cons link links ih =>
    obtain ⟨t, ht⟩ := Option.isSome_iff_exists.1 (hsort link List.mem_cons_self)
    have hrest := fun x => ih x fun l hl => hsort l (List.mem_cons_of_mem _ hl)
    rw [List.foldlM_cons, List.filterMap_cons_some (by rw [ht]; rfl), List.map_cons, List.foldl_cons, ← hrest]
    simp only [ht, wanted_tx, CPooledTx.assembled]
    split_ifs <;> rfl

end

/-! ## Consistent pools -/

/-- The links lead to transactions that are not on the main chain, and each finds what
it spends there or in the pool. -/
structure ConsistentPool (E : Env) (s : CBlockBase) (pool : CTxPool) : Prop where
  entry : ∀ link ∈ pool.txView.setTxLinkIndex, ∃ t, pool.mapTx.find? link.ptx = some t ∧
    t.tx.getHash E = link.hashTX
  ids : (pool.txView.setTxLinkIndex.map CPooledTxLink.hashTX).Nodup
  unmined : ∀ t ∈ pool.txs, ∀ u ∈ s.mainTxs, t.tx.getHash E ≠ u.tx.getHash E
  inputs : ∀ t ∈ pool.txs, ∀ out ∈ t.tx.vInput, out.hash ≠ t.tx.getHash E ∧
    ((∃ o, s.dbUnspent out = some o ∧ o.destTo = t.destIn) ∨
      ∃ u ∈ pool.txs, u.tx.getHash E = out.hash ∧ (u.getOutput out.n).isNull = false ∧
        (u.getOutput out.n).destTo = t.destIn)

section

variable {E : Env} {keys : CWalletKeys} {c : CBlockChain} {s : CBlockBase} {pool : CTxPool} {t u : CAssembledTx}
  {n : ℕ}

theorem mainTxs_map (s : CBlockBase) : s.mainTxs.map (fun t => (t.tx, t.destIn, t.nValueIn)) =
    (chainTxs s s.pIndexLast).map fun t => (t.1, t.2.destIn, t.2.getValueIn) := by
  unfold CBlockBase.mainTxs
  generalize s.pIndexLast = ptr
  induction ptr with
  | nil => rfl
  | cons p l ih =>
    rw [chainTagged, chainTxs, List.map_append, List.map_append, List.map_append, ih]
    congr 1
    cases s.read p with
    | none => rfl
    | some b =>
      simp only [Option.elim_some, CBlockEx.tagged, CBlockEx.txs, List.map_append, List.map_map]
      congr 1
      split_ifs <;> rfl

theorem mem_mainTxs (ht : t ∈ s.mainTxs) :
    ∃ u ∈ chainTxs s s.pIndexLast, u.1 = t.tx ∧ u.2.destIn = t.destIn ∧ u.2.getValueIn = t.nValueIn := by
  have hmem : (t.tx, t.destIn, t.nValueIn) ∈ s.mainTxs.map fun t => (t.tx, t.destIn, t.nValueIn) :=
    List.mem_map.2 ⟨t, ht, rfl⟩
  rw [mainTxs_map] at hmem
  obtain ⟨u, hu, heq⟩ := List.mem_map.1 hmem
  simp only [Prod.mk.injEq] at heq
  exact ⟨u, hu, heq⟩

theorem getOutput_of_txOutputs {v : CTransaction × CTxContxt} {o : CTxOut} (htx : v.1 = t.tx)
    (hdest : v.2.destIn = t.destIn) (hvalue : v.2.getValueIn = t.nValueIn) (h : (n, o) ∈ txOutputs v.1 v.2) :
    (t.getOutput n).isNull = false ∧ (t.getOutput n).destTo = o.destTo := by
  rw [txOutputs, List.mem_filter, List.mem_cons, List.mem_singleton, Bool.not_eq_true'] at h
  obtain ⟨heq | heq, hnull⟩ := h
  · obtain ⟨rfl, rfl⟩ := Prod.mk.inj heq
    rw [htx] at hnull ⊢
    exact ⟨hnull, rfl⟩
  · obtain ⟨rfl, rfl⟩ := Prod.mk.inj heq
    rw [htx, hdest, hvalue] at hnull ⊢
    exact ⟨hnull, rfl⟩

variable {out : CTxOutPoint} {x : Bool × CAssembledTx} {p : Posting CTxOutPoint CDestination ℤ}
  {T : CAssembledTx → Prop} {e : CTxOutPoint × ℤ}

/-- The assembled transaction of one of the chain that has the output `out`. -/
theorem assembled_of_context {v : CTransaction × CTxContxt} {A : List CAssembledTx} {o : CTxOut}
    (hmem : (v.1, v.2.destIn, v.2.getValueIn) ∈ A.map fun t => (t.tx, t.destIn, t.nValueIn))
    (ho : (n, o) ∈ txOutputs v.1 v.2) :
    ∃ u ∈ A, u.tx = v.1 ∧ (u.getOutput n).isNull = false ∧ (u.getOutput n).destTo = o.destTo := by
  obtain ⟨u, hu, hueq⟩ := List.mem_map.1 hmem
  simp only [Prod.mk.injEq] at hueq
  exact ⟨u, hu, hueq.1, getOutput_of_txOutputs hueq.1.symm hueq.2.1.symm hueq.2.2.symm ho⟩

theorem HistoryOK.main_parent (h : HistoryOK E c) {A C : List CAssembledTx}
    (heq : c.cntrBlock.mainTxs = A ++ t :: C) (hout : out ∈ t.tx.vInput) :
    ∃ u ∈ A, u.tx.getHash E = out.hash ∧ (u.getOutput out.n).isNull = false ∧
      (u.getOutput out.n).destTo = t.destIn := by
  obtain ⟨p, l, hlast, hp⟩ := h.store.last
  have hmap := mainTxs_map c.cntrBlock
  rw [heq, List.map_append, List.map_cons, eq_comm, List.map_eq_append_iff] at hmap
  obtain ⟨A', C', hsplit, hA, hC⟩ := hmap
  obtain ⟨v, C'', rfl, hv, -⟩ := List.map_eq_cons_iff.1 hC
  simp only [Prod.mk.injEq] at hv
  rw [hlast] at hsplit
  obtain ⟨v', hv', hid, o, ho, hdest⟩ := h.parent hp hsplit (hv.1 ▸ hout)
  obtain ⟨u, hu, htx, hnull, hto⟩ := assembled_of_context (hA ▸ List.mem_map_of_mem hv') ho
  exact ⟨u, hu, by rw [htx]; exact hid, hnull, by rw [hto, hdest, hv.2.1]⟩

theorem HistoryOK.main_same (h : HistoryOK E c) (hf : CollisionFree E c.cntrBlock) :
    SameIds E (· ∈ c.cntrBlock.mainTxs) := by
  intro t t' ht ht' hid
  obtain ⟨p, l, hlast, hp⟩ := h.store.last
  obtain ⟨u, hu, h1, h2, h3⟩ := mem_mainTxs ht
  obtain ⟨u', hu', h1', h2', h3'⟩ := mem_mainTxs ht'
  rw [hlast] at hu hu'
  have heq := h.same_context hf hp hp hu hu' (by rw [h1, h1']; exact hid)
  rw [← h1, ← h1', ← h2, ← h2', ← h3, ← h3', heq]
  exact ⟨rfl, rfl, rfl⟩

theorem ConsistentPool.entry_of_mem (h : ConsistentPool E s pool) (ht : t ∈ pool.txs) :
    ∃ link ∈ pool.txView.setTxLinkIndex, ∃ x, pool.mapTx.find? link.ptx = some x ∧ x.assembled = t ∧
      t.tx.getHash E = link.hashTX := by
  obtain ⟨link, hlink, heq⟩ := List.mem_filterMap.1 ht
  have hmem := (List.mem_insertionSort _).1 hlink
  obtain ⟨x, hx, hid⟩ := h.entry link hmem
  rw [hx, Option.map_some, Option.some.injEq] at heq
  exact ⟨link, hmem, x, hx, heq, by rw [← heq]; exact hid⟩

/-- A chain without collisions and a pool on it. -/
structure NodeOK (E : Env) (c : CBlockChain) (pool : CTxPool) : Prop extends ConsistentPool E c.cntrBlock pool where
  history : HistoryOK E c
  free : CollisionFree E c.cntrBlock

/-- **An id names one transaction of the node.** -/
theorem NodeOK.same (h : NodeOK E c pool) : SameIds E (· ∈ nodeTxs c.cntrBlock pool) := by
  intro t t' ht ht' hid
  rcases List.mem_append.1 ht with ht | ht
  · rcases List.mem_append.1 ht' with ht' | ht'
    · exact h.history.main_same h.free t t' ht ht' hid
    · exact absurd hid.symm (h.unmined t' ht' t ht)
  · rcases List.mem_append.1 ht' with ht' | ht'
    · exact absurd hid (h.unmined t ht t' ht')
    · obtain ⟨link, hlink, x, hx, rfl, hl⟩ := h.entry_of_mem ht
      obtain ⟨link', hlink', x', hx', rfl, hl'⟩ := h.entry_of_mem ht'
      obtain rfl : link = link' := List.inj_on_of_nodup_map h.ids hlink hlink' (hl.symm.trans (hid.trans hl'))
      rw [hx, Option.some.injEq] at hx'
      rw [hx']
      exact ⟨rfl, rfl, rfl⟩

theorem HistoryOK.main_unspent (h : HistoryOK E c) {o : CTxOut}
    (hout : c.cntrBlock.dbUnspent out = some o) : ∃ u ∈ c.cntrBlock.mainTxs, u.tx.getHash E = out.hash ∧
      (u.getOutput out.n).isNull = false ∧ (u.getOutput out.n).destTo = o.destTo := by
  obtain ⟨x, hx, hex⟩ := List.mem_flatMap.1 (h.backed out o hout).2
  obtain ⟨v, hv, rfl⟩ := List.mem_map.1 hx
  obtain ⟨e, he, heq⟩ := List.mem_map.1 hex
  obtain ⟨rfl, rfl⟩ := Prod.mk.inj heq
  obtain ⟨u, hu, htx, hnull, hto⟩ := assembled_of_context (mainTxs_map c.cntrBlock ▸ List.mem_map_of_mem hv) he
  exact ⟨u, hu, by rw [htx], hnull, hto⟩

/-- **A transaction of the node finds what it spends** among the others. -/
theorem NodeOK.parent (h : NodeOK E c pool) (ht : t ∈ nodeTxs c.cntrBlock pool) (hout : out ∈ t.tx.vInput) :
    ∃ u ∈ nodeTxs c.cntrBlock pool, u.tx.getHash E = out.hash ∧ (u.getOutput out.n).isNull = false ∧
      (u.getOutput out.n).destTo = t.destIn := by
  rcases List.mem_append.1 ht with ht | ht
  · obtain ⟨A, C, heq⟩ := List.append_of_mem ht
    obtain ⟨u, hu, hrest⟩ := h.history.main_parent heq hout
    refine ⟨u, List.mem_append_left _ ?_, hrest⟩
    rw [heq]
    exact List.mem_append_left _ hu
  · rcases (h.inputs t ht out hout).2 with ⟨o, ho, hdest⟩ | ⟨u, hu, hrest⟩
    · obtain ⟨u, hu, hid, hnull, hto⟩ := h.history.main_unspent ho
      exact ⟨u, List.mem_append_left _ hu, hid, hnull, hto.trans hdest⟩
    · exact ⟨u, List.mem_append_right _ hu, hrest⟩

theorem HistoryOK.main_first (h : HistoryOK E c) (hf : CollisionFree E c.cntrBlock) (ht : t ∈ c.cntrBlock.mainTxs)
    (hout : out ∈ t.tx.vInput) : ∃ A C, c.cntrBlock.mainTxs = A ++ C ∧
      (∀ v ∈ A, v.tx.getHash E ≠ t.tx.getHash E) ∧ ∃ u ∈ A, u.tx.getHash E = out.hash := by
  obtain ⟨_, _, hmap, hnot⟩ := List.eq_append_cons_of_mem
    (List.mem_map_of_mem (f := fun v : CAssembledTx => v.tx.getHash E) ht)
  obtain ⟨A, _, heq, rfl, hrest⟩ := List.map_eq_append_iff.1 hmap
  obtain ⟨a, C, rfl, hid, -⟩ := List.map_eq_cons_iff.1 hrest
  have ha : a ∈ c.cntrBlock.mainTxs := by
    rw [heq]
    exact List.mem_append_right _ List.mem_cons_self
  obtain ⟨u, hu, huid, -⟩ := h.main_parent heq ((h.main_same hf a t ha ht hid).1.symm ▸ hout)
  exact ⟨A, a :: C, heq, fun v hv hvid => hnot (hvid ▸ List.mem_map_of_mem hv), u, hu, huid⟩

theorem NodeOK.selfless (h : NodeOK E c pool) (ht : t ∈ nodeTxs c.cntrBlock pool) : t.Selfless E := by
  intro out hout heq
  rcases List.mem_append.1 ht with ht | ht
  · obtain ⟨A, C, -, hA, u, hu, huid⟩ := h.history.main_first h.free ht hout
    exact hA u hu (huid.trans heq)
  · exact (h.inputs t ht out hout).1 heq

/-! ## Deliveries -/

theorem nodeTagged_map (s : CBlockBase) (pool : CTxPool) : (nodeTagged s pool).map Prod.snd = nodeTxs s pool := by
  unfold nodeTagged nodeTxs CBlockBase.mainTxs
  rw [List.map_append, List.map_map]
  congr 1
  exact List.map_id _

theorem mem_nodeTxs (hx : x ∈ nodeTagged s pool) : x.2 ∈ nodeTxs s pool := by
  rw [← nodeTagged_map]
  exact List.mem_map_of_mem hx

theorem exists_tagged (ht : t ∈ nodeTxs s pool) : ∃ x ∈ nodeTagged s pool, x.2 = t := by
  rw [← nodeTagged_map] at ht
  exact List.mem_map.1 ht

theorem delivered_append (keys : CWalletKeys) (N M : List (Bool × CAssembledTx)) :
    delivered keys (N ++ M) = delivered keys N ++ delivered keys M := by
  unfold delivered
  rw [List.filter_append, List.map_append]

theorem mem_of_delivered {N : List (Bool × CAssembledTx)} (h : t ∈ delivered keys N) : ∃ x ∈ N, x.2 = t := by
  obtain ⟨x, hx, rfl⟩ := List.mem_map.1 h
  exact ⟨x, (List.mem_filter.1 hx).1, rfl⟩

theorem destIn_of_mint {ptr : CBlockIndexPtr} (h : (true, t) ∈ chainTagged s ptr) : t.destIn = CDestination.null := by
  induction ptr with
  | nil => simp [chainTagged] at h
  | cons p l ih =>
    rw [chainTagged, List.mem_append] at h
    rcases h with h | h
    · exact ih h
    · cases hb : s.read p with
      | none => simp [hb] at h
      | some b =>
        rw [hb, Option.elim_some, CBlockEx.tagged, List.mem_append] at h
        rcases h with h | h
        · split_ifs at h
          · simp at h
          · obtain ⟨-, rfl⟩ := Prod.mk.inj (List.mem_singleton.1 h)
            rfl
        · obtain ⟨v, -, hv⟩ := List.mem_map.1 h
          simp at hv

theorem mint_of_mem (hx : x ∈ nodeTagged s pool) (htag : x.1 = true) : x.2.destIn = CDestination.null := by
  rcases List.mem_append.1 hx with h | h
  · exact destIn_of_mint (by rw [← htag]; exact h)
  · obtain ⟨v, -, rfl⟩ := List.mem_map.1 h
    cases htag

theorem wanted_of_from (hx : x ∈ nodeTagged s pool) (hown : keys.isMine x.2.destIn = true) :
    wanted keys.getDestinations x = true := by
  obtain ⟨_ | _, t⟩ := x
  · exact wanted_tx.2 (Or.inr (mem_getDestinations.2 hown))
  · have hnull := not_isNull_of_isMine hown
    rw [mint_of_mem hx rfl] at hnull
    cases hnull

theorem output_le_one {n : ℕ} (h : (t.getOutput n).isNull = false) : n = 0 ∨ n = 1 := by
  match n with
  | 0 => exact Or.inl rfl
  | 1 => exact Or.inr rfl
  | _ + 2 => cases h

theorem wanted_of_output (hx : x ∈ nodeTagged s pool)
    (hnull : (x.2.getOutput n).isNull = false) (hown : keys.isMine (x.2.getOutput n).destTo = true) :
    wanted keys.getDestinations x = true := by
  rcases output_le_one hnull with rfl | rfl
  · have hmem : x.2.tx.sendTo ∈ keys.getDestinations := mem_getDestinations.2 hown
    obtain ⟨_ | _, t⟩ := x
    · exact wanted_tx.2 (Or.inl hmem)
    · exact wanted_mint.2 ⟨CTxOut.pos_of_not_isNull hnull, hmem⟩
  · exact wanted_of_from hx hown

/-! ## Postings of deliveries -/

theorem mem_postings : p ∈ t.postings E keys ↔
    (keys.isMine t.destIn = true ∧ p = ⟨⟨t.tx.getHash E, 1⟩, t.destIn, (t.getOutput 1).value, t.tx.vInput⟩) ∨
      (keys.isMine t.tx.sendTo = true ∧ p = ⟨⟨t.tx.getHash E, 0⟩, t.tx.sendTo, (t.getOutput 0).value, []⟩) := by
  show p ∈ (if keys.isMine t.destIn then [_] else []) ++ (if keys.isMine t.tx.sendTo then [_] else []) ↔ _
  rw [List.mem_append, List.mem_ite_nil_right, List.mem_ite_nil_right, List.mem_singleton, List.mem_singleton]
  rfl

theorem hash_of_postings (h : p ∈ t.postings E keys) : p.key.hash = t.tx.getHash E := by
  rcases mem_postings.1 h with ⟨-, rfl⟩ | ⟨-, rfl⟩ <;> rfl

theorem posting_of_output (hnull : (t.getOutput n).isNull = false) (hown : keys.isMine (t.getOutput n).destTo = true) :
    ∃ p ∈ t.postings E keys, p.key = ⟨t.tx.getHash E, n⟩ ∧ p.owner = (t.getOutput n).destTo ∧
      p.value = some (t.getOutput n).nAmount := by
  have hv : (t.getOutput n).value = some (t.getOutput n).nAmount := if_neg (by rw [hnull]; simp)
  rcases output_le_one hnull with rfl | rfl
  · exact ⟨_, mem_postings.2 (Or.inr ⟨hown, rfl⟩), rfl, rfl, hv⟩
  · exact ⟨_, mem_postings.2 (Or.inl ⟨hown, rfl⟩), rfl, rfl, hv⟩

theorem output_of_posting (h : p ∈ t.postings E keys) {v : ℤ}
    (hv : p.value = some v) : p.key.hash = t.tx.getHash E ∧ (t.getOutput p.key.n).isNull = false ∧
      (t.getOutput p.key.n).destTo = p.owner ∧ (t.getOutput p.key.n).nAmount = v := by
  have hval : ∀ {o : CTxOut}, o.value = some v → o.isNull = false ∧ o.nAmount = v := by
    intro o ho
    unfold CTxOut.value at ho
    split_ifs at ho with hn
    exact ⟨Bool.eq_false_iff.2 hn, Option.some.inj ho⟩
  rcases mem_postings.1 h with ⟨-, rfl⟩ | ⟨-, rfl⟩ <;> exact ⟨rfl, (hval hv).1, rfl, (hval hv).2⟩

theorem SameIds.postings (hT : SameIds E T) (ht : T t) (hu : T u)
    (h : t.tx.getHash E = u.tx.getHash E) : t.postings E keys = u.postings E keys := by
  obtain ⟨h1, h2, h3⟩ := hT t u ht hu h
  refine CWalletTx.postings_congr ?_ ?_ ?_
  · unfold CAssembledTx.walletTx
    rw [h]
    exact hT.core ht hu h _ _ _ _ _
  · show keys.isMine t.tx.sendTo = keys.isMine u.tx.sendTo
    rw [h1]
  · show keys.isMine t.destIn = keys.isMine u.destIn
    rw [h2]

theorem SameIds.output (hT : SameIds E T) (ht : T t) (hu : T u)
    (h : t.tx.getHash E = u.tx.getHash E) (n : ℕ) : t.getOutput n = u.getOutput n := by
  obtain ⟨h1, h2, h3⟩ := hT t u ht hu h
  unfold CAssembledTx.getOutput
  rw [h1, h2, h3]

theorem SameIds.coherent {L : List CAssembledTx} (hL : SameIds E (· ∈ L)) :
    Book.Coherent (L.flatMap (CAssembledTx.postings E keys)) := by
  intro p hp q hq hkey
  obtain ⟨t, ht, hpt⟩ := List.mem_flatMap.1 hp
  obtain ⟨u, hu, hqu⟩ := List.mem_flatMap.1 hq
  have hid : u.tx.getHash E = t.tx.getHash E := by rw [← hash_of_postings hqu, ← hkey, hash_of_postings hpt]
  rw [hL.postings hu ht hid] at hqu
  rcases mem_postings.1 hpt with ⟨-, rfl⟩ | ⟨-, rfl⟩
  · rcases mem_postings.1 hqu with ⟨-, rfl⟩ | ⟨-, rfl⟩
    · rfl
    · exact absurd (congrArg CTxOutPoint.n hkey) (by simp)
  · rcases mem_postings.1 hqu with ⟨-, rfl⟩ | ⟨-, rfl⟩
    · exact absurd (congrArg CTxOutPoint.n hkey) (by simp)
    · rfl

/-! ## The order of deliveries -/

/-- The rescan goes through `t` before `u`: the chain, parents before children, then the pool by its ids. -/
def Precedes (E : Env) (s : CBlockBase) (t u : CAssembledTx) : Prop :=
  u ∈ s.mainTxs ∨ t ∈ s.mainTxs ∨ t.tx.getHash E < u.tx.getHash E

theorem ConsistentPool.sorted (h : ConsistentPool E s pool) :
    (pool.txs.map fun t => t.tx.getHash E).Pairwise (· < ·) := by
  have hids : pool.txs.map (fun t => t.tx.getHash E) =
      (pool.txView.setTxLinkIndex.insertionSort fun a b => a.hashTX ≤ b.hashTX).map CPooledTxLink.hashTX := by
    rw [CTxPool.txs, List.map_filterMap, ← List.filterMap_eq_map]
    refine List.filterMap_congr fun link hlink => ?_
    obtain ⟨x, hx, hid⟩ := h.entry link ((List.mem_insertionSort _).1 hlink)
    rw [hx]
    exact congrArg some hid
  rw [hids]
  have htotal : Std.Total fun a b : CPooledTxLink => a.hashTX ≤ b.hashTX := ⟨fun a b => le_total _ _⟩
  have htrans : IsTrans CPooledTxLink fun a b => a.hashTX ≤ b.hashTX := ⟨fun a b c => le_trans⟩
  have hle := List.pairwise_insertionSort (fun a b : CPooledTxLink => a.hashTX ≤ b.hashTX)
    pool.txView.setTxLinkIndex
  have hnd : ((pool.txView.setTxLinkIndex.insertionSort fun a b => a.hashTX ≤ b.hashTX).map
      CPooledTxLink.hashTX).Nodup :=
    ((List.perm_insertionSort _ _).map _).nodup_iff.2 h.ids
  rw [List.pairwise_map]
  exact (hle.and (List.pairwise_map.1 hnd)).imp fun hab => lt_of_le_of_ne hab.1 hab.2

theorem ConsistentPool.split (h : ConsistentPool E s pool) (ht : t ∈ pool.txs)
    (hu : ∀ x ∈ s.mainTxs, x.tx.getHash E ≠ n)
    (hlt : t.tx.getHash E < n) : ∃ N M, nodeTagged s pool = N ++ M ∧ (∃ x ∈ N, x.2 = t) ∧
      ∀ x ∈ N, x.2.tx.getHash E ≠ n := by
  obtain ⟨A, C, heq⟩ := List.append_of_mem ht
  have hsorted := h.sorted
  rw [heq, List.map_append, List.map_cons, List.pairwise_append] at hsorted
  refine ⟨chainTagged s s.pIndexLast ++ (A ++ [t]).map fun t => (false, t), C.map fun t => (false, t), ?_, ?_, ?_⟩
  · unfold nodeTagged
    rw [heq, List.append_cons A t C, List.map_append, List.append_assoc]
  · exact ⟨(false, t), by simp, rfl⟩
  · intro x hx
    rcases List.mem_append.1 hx with hx | hx
    · exact hu x.2 (List.mem_map_of_mem hx)
    · obtain ⟨y, hy, rfl⟩ := List.mem_map.1 hx
      rcases List.mem_append.1 hy with hy | hy
      · exact ((hsorted.2.2 _ (List.mem_map_of_mem hy) _ List.mem_cons_self).trans hlt).ne
      · rw [List.mem_singleton.1 hy]
        exact hlt.ne

theorem NodeOK.split_of_precedes (h : NodeOK E c pool) (ht : t ∈ nodeTxs c.cntrBlock pool)
    (hu : u ∈ nodeTxs c.cntrBlock pool) (hin : ⟨t.tx.getHash E, n⟩ ∈ u.tx.vInput)
    (hprec : Precedes E c.cntrBlock t u) : ∃ N M, nodeTagged c.cntrBlock pool = N ++ M ∧
      (∃ x ∈ N, x.2.tx.getHash E = t.tx.getHash E) ∧ ∀ x ∈ N, x.2.tx.getHash E ≠ u.tx.getHash E := by
  by_cases hmain : u ∈ c.cntrBlock.mainTxs
  · obtain ⟨A, C, heq, hA, v, hv, hvid⟩ := h.history.main_first h.free hmain hin
    obtain ⟨A', C', hsplit, rfl, -⟩ := List.map_eq_append_iff.1 heq
    refine ⟨A', C' ++ pool.txs.map fun t => (false, t), ?_, ?_, fun x hx => hA x.2 (List.mem_map_of_mem hx)⟩
    · unfold nodeTagged
      rw [hsplit, List.append_assoc]
    · obtain ⟨x, hx, rfl⟩ := List.mem_map.1 hv
      exact ⟨x, hx, hvid⟩
  · have hupool := (List.mem_append.1 hu).resolve_left hmain
    have hnot := fun x hx => (h.unmined u hupool x hx).symm
    by_cases htmain : t ∈ c.cntrBlock.mainTxs
    · obtain ⟨x, hx, hxt⟩ := List.mem_map.1 htmain
      exact ⟨_, _, rfl, ⟨x, hx, by rw [hxt]⟩, fun x hx => hnot x.2 (List.mem_map_of_mem hx)⟩
    · have htpool := (List.mem_append.1 ht).resolve_left htmain
      have hlt := (hprec.resolve_left hmain).resolve_left htmain
      obtain ⟨N, M, heq, ⟨x, hx, hxt⟩, hN⟩ := h.split htpool hnot hlt
      exact ⟨N, M, heq, ⟨x, hx, by rw [hxt]⟩, hN⟩

theorem ConsistentPool.split_of_not_precedes (h : ConsistentPool E s pool) (ht : t ∈ nodeTxs s pool)
    (hu : u ∈ nodeTxs s pool) (hne : t.tx.getHash E ≠ u.tx.getHash E) (hprec : ¬ Precedes E s t u) :
    ∃ N M, nodeTagged s pool = N ++ M ∧ (∃ x ∈ N, x.2 = u) ∧ ∀ x ∈ N, x.2.tx.getHash E ≠ t.tx.getHash E := by
  unfold Precedes at hprec
  rw [not_or, not_or] at hprec
  obtain ⟨hmain, htmain, hle⟩ := hprec
  have htpool := (List.mem_append.1 ht).resolve_left htmain
  have hupool := (List.mem_append.1 hu).resolve_left hmain
  exact h.split hupool (fun x hx => (h.unmined t htpool x hx).symm) (lt_of_le_of_ne (not_lt.1 hle) hne.symm)

/-! ## The coins that a rescan finds -/

variable (keys) in
theorem WalletOK.updateTxs {w : CWallet} (h : WalletOK w) (hk : w.Knows E T)
    (hT : SameIds E T) {L : List CAssembledTx} (hL : ∀ t ∈ L, T t ∧ t.Selfless E) :
    WalletOK (L.foldl (CWallet.updateTx E keys) w) ∧
      (L.foldl (CWallet.updateTx E keys) w).book = w.book.posts (L.flatMap (CAssembledTx.postings E keys)) := by
  induction L generalizing w with
  | nil => exact ⟨h, rfl⟩
  | cons t L ih =>
    obtain ⟨ht, hself⟩ := hL t List.mem_cons_self
    obtain ⟨hok, hknows, hbook⟩ := h.updateTx keys hk hT ht hself
    obtain ⟨hok', hbook'⟩ := ih hok hknows fun u hu => hL u (List.mem_cons_of_mem _ hu)
    refine ⟨hok', ?_⟩
    rw [List.foldl_cons, hbook', hbook, List.flatMap_cons, Book.posts_append]

theorem clearTx_ok (w : CWallet) : WalletOK w.clearTx where
  place _ _ h := absurd h.symm (Option.some_ne_none _)
  coin _ c h := absurd h (Finset.notMem_empty c)
  count _ _ h := absurd h.symm (Option.some_ne_none _)
  total _ := rfl

/-- A book without coins, in which some outputs have been seen. -/
def seenBook (W : Finset CTxOutPoint) : Book CTxOutPoint CDestination ℤ := ⟨W, fun _ => ∅⟩

variable (keys) in
/-- **A rescan posts what is delivered**, in a book where what the wallet had seen before counts as seen. -/
theorem rescan_book (h : NodeOK E c pool) (w : CWallet) :
    ∃ w', CWallet.resynchronizeWalletTx E keys c.cntrBlock pool w = some w' ∧ WalletOK w' ∧
      w'.book = (seenBook w.setWalletTxOut).posts
        ((delivered keys (nodeTagged c.cntrBlock pool)).flatMap (CAssembledTx.postings E keys)) := by
  obtain ⟨p, l, hlast, hp⟩ := h.history.store.last
  have hset : ∀ d ∈ keys.getDestinations, d.isNull = false :=
    fun d hd => not_isNull_of_isMine (mem_getDestinations.1 hd)
  have hread : ∀ q ∈ c.cntrBlock.pIndexLast, (c.cntrBlock.read q).isSome := by
    rw [hlast]
    exact (h.history.store.chain _ _ _ hp).2.read
  have hlen : ContextLengths c.cntrBlock c.cntrBlock.pIndexLast := by
    rw [hlast]
    exact h.history.blocks.lengths hp
  have hentry : ∀ link ∈ pool.txView.setTxLinkIndex, (pool.mapTx.find? link.ptx).isSome := by
    intro link hlink
    obtain ⟨x, hx, -⟩ := h.entry link hlink
    rw [hx]
    rfl
  have hfold : ∀ (N : List (Bool × CAssembledTx)) (w : CWallet),
      (N.filter (wanted keys.getDestinations)).foldl (fun w t => CWallet.updateTx E keys w t.2) w =
        (delivered keys N).foldl (CWallet.updateTx E keys) w := by
    intro N w
    unfold delivered
    rw [List.foldl_map]
  have hknows : w.clearTx.Knows E (· ∈ nodeTxs c.cntrBlock pool) := fun _ _ h => absurd h.symm (Option.some_ne_none _)
  obtain ⟨hok, hbook⟩ := (clearTx_ok w).updateTxs keys hknows h.same
    (L := delivered keys (nodeTagged c.cntrBlock pool)) fun t ht => by
      obtain ⟨x, hx, rfl⟩ := mem_of_delivered ht
      exact ⟨mem_nodeTxs hx, h.selfless (mem_nodeTxs hx)⟩
  refine ⟨_, ?_, hok, hbook⟩
  unfold CWallet.resynchronizeWalletTx
  rw [filterTx_eq hset hread hlen]
  dsimp only
  rw [pool_filterTx_eq hentry, hfold, hfold, ← List.foldl_append, ← delivered_append]
  rfl

theorem mem_outputsTo {d : CDestination} : e ∈ t.outputsTo E d ↔
    t.tx.getHash E = e.1.hash ∧ (t.getOutput e.1.n).isNull = false ∧ (t.getOutput e.1.n).destTo = d ∧
      (t.getOutput e.1.n).nAmount = e.2 := by
  unfold CAssembledTx.outputsTo CTxOut.value
  rw [List.mem_filterMap]
  constructor
  · rintro ⟨n, -, hn⟩
    split_ifs at hn with hd hnull
    · cases hn
    · obtain rfl := Option.some.inj hn
      exact ⟨rfl, Bool.eq_false_iff.2 hnull, hd, rfl⟩
  · rintro ⟨hid, hnull, hd, hv⟩
    refine ⟨e.1.n, ?_, ?_⟩
    · rcases output_le_one hnull with h | h <;> simp [h]
    · rw [if_pos hd, if_neg (by rw [hnull]; simp), Option.map_some, Option.some.injEq, hid, hv]

theorem mem_unspentCoins {txs : List CAssembledTx} {d : CDestination} :
    e ∈ unspentCoins E txs d ↔ (∃ t ∈ txs, e ∈ t.outputsTo E d) ∧ ∀ u ∈ txs, e.1 ∉ u.tx.vInput := by
  unfold unspentCoins
  rw [Finset.mem_filter, List.mem_toFinset, List.mem_flatMap]

theorem NodeOK.before_iff (h : NodeOK E c pool) (ht : t ∈ nodeTxs c.cntrBlock pool)
    (hu : u ∈ nodeTxs c.cntrBlock pool) (hnull : (t.getOutput n).isNull = false)
    (hown : keys.isMine (t.getOutput n).destTo = true) (hfrom : keys.isMine u.destIn = true)
    (hin : ⟨t.tx.getHash E, n⟩ ∈ u.tx.vInput) :
    Book.Before (((delivered keys (nodeTagged c.cntrBlock pool)).flatMap (CAssembledTx.postings E keys)).map
      Posting.key) ⟨t.tx.getHash E, n⟩ ⟨u.tx.getHash E, 1⟩ ↔ Precedes E c.cntrBlock t u := by
  -- a list that begins with one key and without the other
  have hbefore : ∀ {N M : List (Bool × CAssembledTx)} {k k' : CTxOutPoint}, nodeTagged c.cntrBlock pool = N ++ M →
      (∃ v ∈ delivered keys N, k ∈ (v.postings E keys).map Posting.key) →
      (∀ x ∈ N, x.2.tx.getHash E ≠ k'.hash) →
      Book.Before (((delivered keys (nodeTagged c.cntrBlock pool)).flatMap (CAssembledTx.postings E keys)).map
        Posting.key) k k' := by
    rintro N M k k' heq ⟨v, hv, hk⟩ hN
    rw [heq, delivered_append, List.flatMap_append, List.map_append]
    refine Book.before_append ?_ fun hk' => ?_
    · obtain ⟨p, hp, rfl⟩ := List.mem_map.1 hk
      exact List.mem_map_of_mem (List.mem_flatMap.2 ⟨v, hv, hp⟩)
    · obtain ⟨p, hp, hpk⟩ := List.mem_map.1 hk'
      obtain ⟨v', hv', hp'⟩ := List.mem_flatMap.1 hp
      obtain ⟨x, hx, rfl⟩ := mem_of_delivered hv'
      exact hN x hx ((hash_of_postings hp').symm.trans (congrArg CTxOutPoint.hash hpk))
  constructor
  · intro hb
    by_contra hprec
    have hne : t.tx.getHash E ≠ u.tx.getHash E := fun heq => h.selfless hu _ hin heq
    obtain ⟨N, M, heq, ⟨x, hx, rfl⟩, hN⟩ := h.split_of_not_precedes ht hu hne hprec
    refine hb.asymm (hbefore heq ⟨x.2, ?_, ?_⟩ hN)
    · exact List.mem_map_of_mem (List.mem_filter.2 ⟨hx, wanted_of_from (heq ▸ List.mem_append_left _ hx) hfrom⟩)
    · exact List.mem_map.2 ⟨_, mem_postings.2 (Or.inl ⟨hfrom, rfl⟩), rfl⟩
  · intro hprec
    obtain ⟨N, M, heq, ⟨x, hx, hxt⟩, hN⟩ := h.split_of_precedes ht hu hin hprec
    have hnode : x ∈ nodeTagged c.cntrBlock pool := heq ▸ List.mem_append_left _ hx
    have hout := h.same.output (mem_nodeTxs hnode) ht hxt n
    rw [← hout] at hnull hown
    refine hbefore heq ⟨x.2, ?_, ?_⟩ hN
    · exact List.mem_map_of_mem (List.mem_filter.2 ⟨hx, wanted_of_output hnode hnull hown⟩)
    · obtain ⟨p, hp, hkey, -⟩ := posting_of_output (E := E) hnull hown
      exact List.mem_map.2 ⟨p, hp, by rw [hkey, hxt]⟩

/-- **What a rescan finds**: an output that is new to the wallet and that no later transaction new to it spends. -/
theorem NodeOK.mem_rescan (h : NodeOK E c pool) {W : Finset CTxOutPoint} {d : CDestination}
    (hown : keys.isMine d = true) : e ∈ ((seenBook W).posts ((delivered keys (nodeTagged c.cntrBlock pool)).flatMap
      (CAssembledTx.postings E keys))).coins d ↔
      e.1 ∉ W ∧ ∃ t ∈ nodeTxs c.cntrBlock pool, e ∈ t.outputsTo E d ∧
        ∀ u ∈ nodeTxs c.cntrBlock pool, e.1 ∈ u.tx.vInput → ⟨u.tx.getHash E, 1⟩ ∉ W → ¬ Precedes E c.cntrBlock t u := by
  have hnode : ∀ t ∈ delivered keys (nodeTagged c.cntrBlock pool), t ∈ nodeTxs c.cntrBlock pool := by
    intro t ht
    obtain ⟨x, hx, rfl⟩ := mem_of_delivered ht
    exact mem_nodeTxs hx
  have hL : SameIds E (· ∈ delivered keys (nodeTagged c.cntrBlock pool)) :=
    fun t u ht hu => h.same t u (hnode t ht) (hnode u hu)
  -- who spends an output of an own address is that address
  have hspender : ∀ {t u : CAssembledTx}, t ∈ nodeTxs c.cntrBlock pool → e ∈ t.outputsTo E d →
      u ∈ nodeTxs c.cntrBlock pool → e.1 ∈ u.tx.vInput → u.destIn = d := by
    intro t u ht he hu hin
    obtain ⟨hid, -, hd, -⟩ := mem_outputsTo.1 he
    obtain ⟨v, hv, hvid, -, hvd⟩ := h.parent hu hin
    rw [← hvd, h.same.output hv ht (hvid.trans hid.symm), hd]
  have hkey : ∀ {t : CAssembledTx}, e ∈ t.outputsTo E d → e.1 = ⟨t.tx.getHash E, e.1.n⟩ := by
    intro t he
    rw [(mem_outputsTo.1 he).1]
  rw [Book.mem_coins_posts (fun _ => rfl) hL.coherent]
  constructor
  · rintro ⟨hnew, ⟨p, hp, hpk, hpo, hpv⟩, hkept⟩
    obtain ⟨t, ht, hpt⟩ := List.mem_flatMap.1 hp
    obtain ⟨hid, hnull, hd, hv⟩ := output_of_posting hpt hpv
    rw [hpk] at hid hnull hd hv
    have he : e ∈ t.outputsTo E d := mem_outputsTo.2 ⟨hid.symm, hnull, hd.trans hpo, hv⟩
    refine ⟨hnew, t, hnode t ht, he, fun u hu hin hseen hprec => ?_⟩
    have hdest := hspender (hnode t ht) he hu hin
    have hfrom : keys.isMine u.destIn = true := by rw [hdest, hown]
    have hb := (h.before_iff (hnode t ht) hu hnull (by rw [hd, hpo, hown]) hfrom (hkey he ▸ hin)).2 hprec
    obtain ⟨x, hx, rfl⟩ := exists_tagged hu
    have hxd : x.2 ∈ delivered keys (nodeTagged c.cntrBlock pool) :=
      List.mem_map_of_mem (List.mem_filter.2 ⟨hx, wanted_of_from hx hfrom⟩)
    rw [← hkey he] at hb
    exact hkept _ (List.mem_flatMap.2 ⟨x.2, hxd, mem_postings.2 (Or.inl ⟨hfrom, rfl⟩)⟩) hdest hin hseen hb
  · rintro ⟨hnew, t, ht, he, hkept⟩
    obtain ⟨hid, hnull, hd, hv⟩ := mem_outputsTo.1 he
    have hown' : keys.isMine (t.getOutput e.1.n).destTo = true := by rw [hd, hown]
    obtain ⟨x, hx, rfl⟩ := exists_tagged ht
    obtain ⟨p, hp, hpk, hpo, hpv⟩ := posting_of_output (E := E) hnull hown'
    have hxd : x.2 ∈ delivered keys (nodeTagged c.cntrBlock pool) :=
      List.mem_map_of_mem (List.mem_filter.2 ⟨hx, wanted_of_output hx hnull hown'⟩)
    refine ⟨hnew, ⟨p, List.mem_flatMap.2 ⟨x.2, hxd, hp⟩, hpk.trans (hkey he).symm, hpo.trans hd, hpv.trans ?_⟩, ?_⟩
    · rw [hv]
    · intro q hq _ htake hseen
      obtain ⟨u, hu, hqu⟩ := List.mem_flatMap.1 hq
      rcases mem_postings.1 hqu with ⟨hfrom, rfl⟩ | ⟨-, rfl⟩
      · have hnot := hkept u (hnode u hu) htake hseen
        rw [hkey he] at htake ⊢
        rwa [h.before_iff ht (hnode u hu) hnull hown' hfrom htake]
      · exact absurd htake List.not_mem_nil

/-- The wallet has not seen its unspent outputs before; of each spent output it has seen the output itself, or a later
transaction that is new to it spends it; and the sums fit their words. -/
structure RescanOK (E : Env) (keys : CWalletKeys) (s : CBlockBase) (pool : CTxPool) (W : Finset CTxOutPoint) :
    Prop where
  unseen : ∀ d, keys.isMine d = true → ∀ e ∈ unspentCoins E (nodeTxs s pool) d, e.1 ∉ W
  spent : ∀ t ∈ nodeTxs s pool, ∀ n, (t.getOutput n).isNull = false → keys.isMine (t.getOutput n).destTo = true →
    (∃ u ∈ nodeTxs s pool, ⟨t.tx.getHash E, n⟩ ∈ u.tx.vInput) → ⟨t.tx.getHash E, n⟩ ∈ W ∨
      ∃ u ∈ nodeTxs s pool, ⟨t.tx.getHash E, n⟩ ∈ u.tx.vInput ∧ ⟨u.tx.getHash E, 1⟩ ∉ W ∧ Precedes E s t u
  fits : ∀ d, keys.isMine d = true → ∑ e ∈ unspentCoins E (nodeTxs s pool) d, e.2 < 2 ^ 63

theorem unspentCoins_nonneg (txs : List CAssembledTx) (d : CDestination) : 0 ≤ ∑ e ∈ unspentCoins E txs d, e.2 := by
  refine Finset.sum_nonneg fun e he => ?_
  obtain ⟨⟨t, -, ht⟩, -⟩ := mem_unspentCoins.1 he
  obtain ⟨-, hnull, -, hv⟩ := mem_outputsTo.1 ht
  rw [← hv]
  exact (CTxOut.pos_of_not_isNull hnull).le

variable {P : CBlockChain → CBlock → Prop}

/-- **A rescan finds the coins of the own addresses if and only if** `RescanOK`. -/
theorem resynchronizeWalletTx_iff (hrun : Run E P c) (hf : CollisionFree E c.cntrBlock)
    (h : ConsistentPool E c.cntrBlock pool) (keys : CWalletKeys) (w : CWallet) :
    ∃ w', CWallet.resynchronizeWalletTx E keys c.cntrBlock pool w = some w' ∧
      ((∀ d, keys.isMine d = true → w'.coinSet d = unspentCoins E (nodeTxs c.cntrBlock pool) d ∧
        (w'.mapWalletUnspent d).nTotalValue = ∑ e ∈ unspentCoins E (nodeTxs c.cntrBlock pool) d, e.2) ↔
        RescanOK E keys c.cntrBlock pool w.setWalletTxOut) := by
  have hnode : NodeOK E c pool := ⟨h, hrun.historyOK hf, hf⟩
  obtain ⟨w', hw', hok, hbook⟩ := rescan_book keys hnode w
  have hmem : ∀ {d e}, keys.isMine d = true → (e ∈ w'.coinSet d ↔ e.1 ∉ w.setWalletTxOut ∧
      ∃ t ∈ nodeTxs c.cntrBlock pool, e ∈ t.outputsTo E d ∧ ∀ u ∈ nodeTxs c.cntrBlock pool, e.1 ∈ u.tx.vInput →
        ⟨u.tx.getHash E, 1⟩ ∉ w.setWalletTxOut → ¬ Precedes E c.cntrBlock t u) := by
    intro d e hown
    rw [← hnode.mem_rescan hown, ← hbook]
    rfl
  refine ⟨w', hw', ?_, ?_⟩
  · intro hall
    refine ⟨fun d hown e he => ?_, fun t ht n hnull hown hspent => ?_, fun d hown => ?_⟩
    · rw [← (hall d hown).1] at he
      exact ((hmem hown).1 he).1
    · by_contra hcon
      rw [not_or] at hcon
      obtain ⟨hnew, hnone⟩ := hcon
      have hcoin := (hmem (e := (⟨t.tx.getHash E, n⟩, (t.getOutput n).nAmount)) hown).2
        ⟨hnew, t, ht, mem_outputsTo.2 ⟨rfl, hnull, rfl, rfl⟩,
          fun u hu hin hseen hprec => hnone ⟨u, hu, hin, hseen, hprec⟩⟩
      rw [(hall _ hown).1] at hcoin
      obtain ⟨u, hu, hin⟩ := hspent
      exact (mem_unspentCoins.1 hcoin).2 u hu hin
    · have htotal := (hall d hown).2
      rw [hok.nTotalValue_eq, (hall d hown).1] at htotal
      rw [← htotal]
      exact (wrap64_fits _).2
  · intro hr d hown
    have hset : w'.coinSet d = unspentCoins E (nodeTxs c.cntrBlock pool) d := by
      ext e
      rw [hmem hown, mem_unspentCoins]
      constructor
      · rintro ⟨hnew, t, ht, he, hkept⟩
        refine ⟨⟨t, ht, he⟩, fun u hu hin => ?_⟩
        obtain ⟨hid, hnull, hd, -⟩ := mem_outputsTo.1 he
        have hkey : (⟨t.tx.getHash E, e.1.n⟩ : CTxOutPoint) = e.1 := by rw [hid]
        rcases hr.spent t ht e.1.n hnull (by rw [hd, hown]) ⟨u, hu, by rw [hkey]; exact hin⟩ with hseen | hlate
        · exact hnew (hkey ▸ hseen)
        · obtain ⟨u', hu', hin', hseen', hprec⟩ := hlate
          exact hkept u' hu' (hkey ▸ hin') hseen' hprec
      · rintro ⟨⟨t, ht, he⟩, hnone⟩
        exact ⟨hr.unseen d hown e (mem_unspentCoins.2 ⟨⟨t, ht, he⟩, hnone⟩), t, ht, he,
          fun u hu hin => absurd hin (hnone u hu)⟩
    refine ⟨hset, ?_⟩
    rw [hok.nTotalValue_eq, hset]
    exact wrap64_eq (fits64_of_nonneg (unspentCoins_nonneg _ d) (hr.fits d hown))

end

/-! ## On the toy network -/

def toyMinerDest : CDestination := toyMiner.dest toyEnv

def toyOwner : CWalletKeys := ⟨∅, {toyMinerDest.data}⟩

theorem toyOwner_isMine {d : CDestination} (h : toyOwner.isMine d = true) : d = toyMinerDest := by
  have hmem := mem_getDestinations.2 h
  rw [show toyOwner.getDestinations = {toyMinerDest} by decide] at hmem
  exact Finset.mem_singleton.1 hmem

theorem toyFirst_run : Run toyEnv (fun _ _ => True) toyFirst := Run.genesis.toyMine toyMine_toyFirst trivial

theorem toyFirst_collisionFree : CollisionFree toyEnv toyFirst.cntrBlock :=
  .of_hashes (addNewBlock_hashes (genesis_storeOK _) (addNewBlock_of_toyMine toyMine_toyFirst) (genesis_hashes toyEnv))
    (by decide +kernel)

theorem emptyPool_consistent (E : Env) (s : CBlockBase) : ConsistentPool E s {} where
  entry _ h := absurd h List.not_mem_nil
  ids := List.nodup_nil
  unmined _ h := absurd h List.not_mem_nil
  inputs _ h := absurd h List.not_mem_nil

/-- A pool with a pledge of what the last block minted. -/
def toyRescanPool (c : CBlockChain) : CTxPool :=
  ((({} : CTxPool).push toyEnv 10 c.cntrBlock (toyPledgeTx ((toyMints c).take 1) (toyTipTime c + 1) 10000000)).map
    fun r => r.2.2).getD {}

/-- The links have their entries, and each transaction spends outputs of the chain. -/
def spendsChain (s : CBlockBase) (pool : CTxPool) : Bool :=
  (pool.txView.setTxLinkIndex.all fun link =>
      (pool.mapTx.find? link.ptx).any fun t => t.tx.getHash toyEnv = link.hashTX) &&
    decide (pool.txView.setTxLinkIndex.map CPooledTxLink.hashTX).Nodup &&
    (pool.txs.all fun t => s.mainTxs.all fun u => t.tx.getHash toyEnv ≠ u.tx.getHash toyEnv) &&
    pool.txs.all fun t => t.tx.vInput.all fun out =>
      (pool.txs.all fun u => out.hash ≠ u.tx.getHash toyEnv) && (s.dbUnspent out).any fun o => o.destTo = t.destIn

theorem ConsistentPool.of_spendsChain {s : CBlockBase} {pool : CTxPool} (h : spendsChain s pool = true) :
    ConsistentPool toyEnv s pool := by
  simp only [spendsChain, Bool.and_eq_true, List.all_eq_true, decide_eq_true_eq] at h
  obtain ⟨⟨⟨hentry, hids⟩, hmined⟩, hinputs⟩ := h
  refine ⟨fun link hlink => ?_, hids, hmined, fun t ht out hout => ⟨(hinputs t ht out hout).1 t ht, Or.inl ?_⟩⟩
  · obtain ⟨t, ht, hid⟩ := (Option.any_eq_true _ _).1 (hentry link hlink)
    exact ⟨t, ht, of_decide_eq_true hid⟩
  · obtain ⟨o, ho, hdest⟩ := (Option.any_eq_true _ _).1 (hinputs t ht out hout).2
    exact ⟨o, ho, of_decide_eq_true hdest⟩

/-- A new wallet finds what is left of the coins of four blocks, one of them spent by the pool. -/
theorem resynchronizeWalletTx_toy :
    ∃ c w', Run toyEnv (fun _ _ => True) c ∧ CollisionFree toyEnv c.cntrBlock ∧
      ConsistentPool toyEnv c.cntrBlock (toyRescanPool c) ∧ (toyRescanPool c).txs.length = 1 ∧
      (unspentCoins toyEnv (nodeTxs c.cntrBlock (toyRescanPool c)) toyMinerDest).card = 2 ∧
      CWallet.resynchronizeWalletTx toyEnv toyOwner c.cntrBlock (toyRescanPool c) {} = some w' ∧
        ∀ d, toyOwner.isMine d = true →
          w'.coinSet d = unspentCoins toyEnv (nodeTxs c.cntrBlock (toyRescanPool c)) d ∧
          (w'.mapWalletUnspent d).nTotalValue =
            ∑ e ∈ unspentCoins toyEnv (nodeTxs c.cntrBlock (toyRescanPool c)) d, e.2 := by
  obtain ⟨c, blocks, hover, hf, hfacts, -⟩ := toyRun_any (P := fun _ _ => True) (Q := fun _ _ => true)
    (fun _ _ _ => trivial) toyPledgePlans (fun c _ => spendsChain c.cntrBlock (toyRescanPool c) &&
      decide ((toyRescanPool c).txs.length = 1 ∧
        (unspentCoins toyEnv (nodeTxs c.cntrBlock (toyRescanPool c)) toyMinerDest).card = 2 ∧
        ∑ e ∈ unspentCoins toyEnv (nodeTxs c.cntrBlock (toyRescanPool c)) toyMinerDest, e.2 < 2 ^ 63 ∧
        ∀ t ∈ (toyRescanPool c).txs, ∀ u ∈ nodeTxs c.cntrBlock (toyRescanPool c), ∀ o ∈ u.tx.vInput,
          o.hash ≠ t.tx.getHash toyEnv)) (by decide +kernel)
  obtain ⟨hspends, hrest⟩ := Bool.and_eq_true_iff.1 hfacts
  obtain ⟨hlen, hcard, hsum, hown⟩ := of_decide_eq_true hrest
  have hpool := ConsistentPool.of_spendsChain hspends
  obtain ⟨w', hw', hiff⟩ := resynchronizeWalletTx_iff hover.run hf hpool toyOwner {}
  refine ⟨c, w', hover.run, hf, hpool, hlen, hcard, hw', hiff.2 ⟨?_, ?_, ?_⟩⟩
  · exact fun d _ e _ => Finset.notMem_empty e.1
  · -- what is spent is an output of the chain, and the chain comes before the pool
    rintro t ht n - - ⟨u, hu, hin⟩
    rcases List.mem_append.1 ht with hmain | hpooled
    · exact Or.inr ⟨u, hu, hin, Finset.notMem_empty _, Or.inr (Or.inl hmain)⟩
    · exact (hown t hpooled u hu ⟨t.tx.getHash toyEnv, n⟩ hin rfl).elim
  · intro d hd
    rw [toyOwner_isMine hd]
    exact hsum

/-- **The second rescan loses the coin**: the first one has seen it. -/
theorem resynchronizeWalletTx_twice :
    Run toyEnv (fun _ _ => True) toyFirst ∧ CollisionFree toyEnv toyFirst.cntrBlock ∧
      ConsistentPool toyEnv toyFirst.cntrBlock {} ∧
      toyOwner.isMine toyMinerDest = true ∧
      (unspentCoins toyEnv (nodeTxs toyFirst.cntrBlock {}) toyMinerDest).card = 1 ∧
      ∃ w₁ w₂, CWallet.resynchronizeWalletTx toyEnv toyOwner toyFirst.cntrBlock {} {} = some w₁ ∧
        CWallet.resynchronizeWalletTx toyEnv toyOwner toyFirst.cntrBlock {} w₁ = some w₂ ∧
        (w₁.coinSet toyMinerDest).card = 1 ∧ w₂.coinSet toyMinerDest = ∅ := by
  have hboth : ((CWallet.resynchronizeWalletTx toyEnv toyOwner toyFirst.cntrBlock {} {}).bind fun w₁ =>
      (CWallet.resynchronizeWalletTx toyEnv toyOwner toyFirst.cntrBlock {} w₁).map fun w₂ =>
        ((w₁.coinSet toyMinerDest).card, w₂.coinSet toyMinerDest)) = some (1, ∅) := by
    decide +kernel
  obtain ⟨w₁, h₁, hrest⟩ := Option.bind_eq_some_iff.1 hboth
  obtain ⟨w₂, h₂, hcoins⟩ := Option.map_eq_some_iff.1 hrest
  obtain ⟨hcard, hempty⟩ := Prod.mk.inj hcoins
  exact ⟨toyFirst_run, toyFirst_collisionFree, emptyPool_consistent _ _, by decide, by decide +kernel, w₁, w₂, h₁, h₂,
    hcard, hempty⟩

end Minemon
