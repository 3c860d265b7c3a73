import Minemon.Utxo.Reorganise

/-!
# The transaction index

The index of the fork says for every transaction on the chain of the last block, and for no other, at
what height and where in the files it stands.

* `TxIndexExact`: the index says where each transaction of the chain stands, and nothing else.
* `run_txIndex_iff`: the index along a run, and at the next commit.
-/

namespace Minemon

open CBlockBase

/-! ## Where a transaction stands -/

/-- A transaction of the block begins at a position of its bytes. -/
inductive CBlock.TxAt (b : CBlock) : CTransaction → ℕ → Prop
  | mint : b.TxAt b.txMint b.headBytes.length
  | vtx (A : List CTransaction) (tx : CTransaction) (C : List CTransaction) (h : b.vtx = A ++ tx :: C) :
      b.TxAt tx (b.headBytes ++ b.txMint.toBytes ++ varInt b.vtx.length
        ++ (A.map CTransaction.toBytes).flatten).length

theorem CBlock.TxAt.bytes {b : CBlock} {tx : CTransaction} {n : ℕ} (h : b.TxAt tx n) :
    ∃ front back, b.toBytes = front ++ tx.toBytes ++ back ∧ front.length = n := by
  cases h with
  | mint =>
    refine ⟨b.headBytes, varInt b.vtx.length ++ (b.vtx.map CTransaction.toBytes).flatten, ?_, rfl⟩
    unfold CBlock.toBytes
    rw [List.append_assoc]
  | vtx A tx C h =>
    refine ⟨_, (C.map CTransaction.toBytes).flatten, ?_, rfl⟩
    have hflat : (b.vtx.map CTransaction.toBytes).flatten =
        (A.map CTransaction.toBytes).flatten ++ (tx.toBytes ++ (C.map CTransaction.toBytes).flatten) := by
      rw [h, List.map_append, List.map_cons, List.flatten_append, List.flatten_cons]
    unfold CBlock.toBytes
    rw [hflat]
    simp only [List.append_assoc]

/-- `e` says at what height, and where in the files, a transaction of the chain stands. -/
def StandsAt (E : Env) (s : CBlockBase) (ptr : CBlockIndexPtr) (txid : ℕ) (e : CTxIndex) : Prop :=
  ∃ p l, p :: l <:+ ptr ∧ ∃ b, s.read p = some b ∧ ∃ tx n, b.block.TxAt tx n ∧ tx.getHash E = txid ∧
    e = ⟨l.length, p.nFile, p.nOffset + n⟩

/-- **The transaction index of the chain of the last block.** -/
def TxIndexExact (E : Env) (s : CBlockBase) : Prop :=
  ∀ txid e, s.dbTxIndex txid = some e ↔ StandsAt E s s.pIndexLast txid e

/-! ## The entries of a chain -/

/-- The entries that `GetTxNewIndex` would make for the blocks of a chain, or of a part of one. -/
def chainTxIndex (E : Env) (s : CBlockBase) : CBlockIndexPtr → List (ℕ × CTxIndex)
  | [] => []
  | p :: l => chainTxIndex E s l ++ (s.read p).elim [] fun b => blockTxIndex E p b.block

/-- Every transaction of the block is sent somewhere. -/
def CBlock.Sends (b : CBlock) : Prop := ∀ tx ∈ b.txMint :: b.vtx, tx.sendTo.isNull = false

section

variable {E : Env} {s s' : CBlockBase} {ptr : CBlockIndexPtr} {p : CBlockIndex}

theorem mem_vtxIndex {nHeight nFile nOffset : ℕ} {vtx : List CTransaction} {txid : ℕ} {e : CTxIndex} :
    (txid, e) ∈ vtxIndex E nHeight nFile nOffset vtx ↔ ∃ A tx C, vtx = A ++ tx :: C ∧ tx.getHash E = txid ∧
      e = ⟨nHeight, nFile, nOffset + (A.map CTransaction.toBytes).flatten.length⟩ := by
  induction vtx generalizing nOffset with
  | nil => simp [vtxIndex]
  | cons t vtx ih =>
    rw [vtxIndex, List.mem_cons, ih]
    constructor
    · rintro (heq | ⟨A, tx, C, rfl, hid, rfl⟩)
      · obtain ⟨rfl, rfl⟩ := Prod.mk.inj heq
        exact ⟨[], t, vtx, rfl, rfl, rfl⟩
      · refine ⟨t :: A, tx, C, rfl, hid, ?_⟩
        rw [List.map_cons, List.flatten_cons, List.length_append, t.length_toBytes, Nat.add_assoc]
    · rintro ⟨A, tx, C, hvtx, rfl, rfl⟩
      cases A with
      | nil =>
        obtain ⟨rfl, rfl⟩ := List.cons.inj hvtx
        exact Or.inl rfl
      | cons t' A =>
        obtain ⟨rfl, rfl⟩ := List.cons.inj hvtx
        refine Or.inr ⟨A, tx, C, rfl, rfl, ?_⟩
        rw [List.map_cons, List.flatten_cons, List.length_append, t.length_toBytes, Nat.add_assoc]

theorem mem_blockTxIndex {b : CBlock} (hb : b.Sends) {txid : ℕ} {e : CTxIndex} :
    (txid, e) ∈ blockTxIndex E p b ↔
      ∃ tx n, b.TxAt tx n ∧ tx.getHash E = txid ∧ e = ⟨p.nHeight, p.nFile, p.nOffset + n⟩ := by
  have hmint : b.txMint.sendTo.isNull = false := hb _ List.mem_cons_self
  unfold blockTxIndex
  simp only [hmint, Bool.false_eq_true, if_false]
  rw [List.mem_append, List.mem_singleton, mem_vtxIndex]
  constructor
  · rintro (heq | ⟨A, tx, C, hvtx, hid, rfl⟩)
    · obtain ⟨rfl, rfl⟩ := Prod.mk.inj heq
      exact ⟨_, _, .mint, rfl, by rw [b.length_headBytes]⟩
    · refine ⟨tx, _, .vtx A tx C hvtx, hid, ?_⟩
      simp only [List.length_append, b.length_headBytes, CTransaction.length_toBytes, length_varInt, Nat.add_assoc]
  · rintro ⟨tx, n, hat, rfl, rfl⟩
    cases hat with
    | mint => exact Or.inl (by rw [b.length_headBytes])
    | vtx A tx C hvtx =>
      refine Or.inr ⟨A, tx, C, hvtx, rfl, ?_⟩
      simp only [List.length_append, b.length_headBytes, CTransaction.length_toBytes, length_varInt, Nat.add_assoc]

theorem mem_chainTxIndex (hchain : StoredChain E s ptr)
    (hsends : ∀ q ∈ ptr, ∀ b, s.read q = some b → b.block.Sends) {txid : ℕ} {e : CTxIndex} :
    (txid, e) ∈ chainTxIndex E s ptr ↔ StandsAt E s ptr txid e := by
  induction ptr with
  | nil => cases hchain
  | cons p l ih =>
    obtain ⟨b, hb⟩ := Option.isSome_iff_exists.1 (hchain.read p List.mem_cons_self)
    have hheight := hchain.nHeight_eq p l rfl
    have hl : (txid, e) ∈ chainTxIndex E s l ↔ StandsAt E s l txid e := by
      cases l with
      | nil => simp [chainTxIndex, StandsAt]
      | cons q l => exact ih hchain.tail fun q hq => hsends q (List.mem_cons_of_mem _ hq)
    rw [chainTxIndex, hb, Option.elim_some, List.mem_append, hl, mem_blockTxIndex (hsends p List.mem_cons_self b hb),
      hheight]
    constructor
    · rintro (⟨q, l', hsuf, h⟩ | h)
      · exact ⟨q, l', hsuf.trans (List.suffix_cons p l), h⟩
      · exact ⟨p, l, List.suffix_refl _, b, hb, h⟩
    · rintro ⟨q, l', hsuf, b', hb', h⟩
      rcases List.suffix_cons_iff.1 hsuf with heq | hsuf
      · obtain ⟨rfl, rfl⟩ := List.cons.inj heq
        rw [hb] at hb'
        obtain rfl := Option.some.inj hb'
        exact Or.inr h
      · exact Or.inl ⟨q, l', hsuf, b', hb', h⟩

theorem chainTxIndex_append (up base : CBlockIndexPtr) :
    chainTxIndex E s (up ++ base) = chainTxIndex E s base ++ chainTxIndex E s up := by
  induction up with
  | nil => simp [chainTxIndex]
  | cons p up ih => rw [List.cons_append, chainTxIndex, chainTxIndex, ih, List.append_assoc]

theorem keys_vtxIndex (nHeight nFile nOffset : ℕ) (vtx : List CTransaction) :
    (vtxIndex E nHeight nFile nOffset vtx).map Prod.fst = vtx.map (CTransaction.getHash E) := by
  induction vtx generalizing nOffset with
  | nil => rfl
  | cons tx vtx ih => rw [vtxIndex, List.map_cons, ih, List.map_cons]

theorem keys_blockTxIndex (p : CBlockIndex) (b : CBlock) :
    (blockTxIndex E p b).map Prod.fst = b.txList.map (CTransaction.getHash E) := by
  unfold blockTxIndex CBlock.txList
  simp only
  rw [List.map_append, List.map_append, keys_vtxIndex]
  split_ifs <;> rfl

theorem keys_chainTxIndex (ptr : CBlockIndexPtr) :
    (chainTxIndex E s ptr).map Prod.fst = (chainTxList s ptr).map (CTransaction.getHash E) := by
  induction ptr with
  | nil => rfl
  | cons p l ih =>
    rw [chainTxIndex, chainTxList, List.map_append, List.map_append, ih]
    cases s.read p with
    | none => rfl
    | some b => rw [Option.elim_some, Option.elim_some, keys_blockTxIndex]

theorem Extends.chainTxIndex (h : Extends E s s') (hread : ∀ p ∈ ptr, (s.read p).isSome) :
    chainTxIndex E s' ptr = Minemon.chainTxIndex E s ptr := by
  induction ptr with
  | nil => rfl
  | cons p l ih =>
    rw [Minemon.chainTxIndex, Minemon.chainTxIndex, ih fun q hq => hread q (List.mem_cons_of_mem _ hq),
      h.read_eq (hread p List.mem_cons_self)]

theorem pathTxIndex_append {l1 l2 : List CBlockIndex} {v1 v2 : List (ℕ × CTxIndex)}
    (h1 : pathTxIndex E s l1 = some v1) (h2 : pathTxIndex E s l2 = some v2) :
    pathTxIndex E s (l1 ++ l2) = some (v1 ++ v2) := by
  induction l1 generalizing v1 with
  | nil =>
    obtain rfl : [] = v1 := by simpa [pathTxIndex] using h1
    exact h2
  | cons p l1 ih =>
    rw [pathTxIndex] at h1
    rw [List.cons_append, pathTxIndex]
    cases hb : s.read p with
    | none => simp [hb] at h1
    | some b =>
      simp only [hb] at h1 ⊢
      obtain ⟨v, hv, rfl⟩ := Option.map_eq_some_iff.1 h1
      rw [ih hv, Option.map_some, List.append_assoc]

theorem pathTxIndex_reverse {up : List CBlockIndex} (hread : ∀ p ∈ up, (s.read p).isSome) :
    pathTxIndex E s up.reverse = some (chainTxIndex E s up) := by
  induction up with
  | nil => rfl
  | cons p up ih =>
    obtain ⟨b, hb⟩ := Option.isSome_iff_exists.1 (hread p List.mem_cons_self)
    have hp : pathTxIndex E s [p] = some (blockTxIndex E p b.block) := by
      rw [pathTxIndex, hb]
      simp [pathTxIndex]
    rw [List.reverse_cons, pathTxIndex_append (ih fun q hq => hread q (List.mem_cons_of_mem _ hq)) hp,
      chainTxIndex, hb]
    rfl

/-! ## What a view erases -/

/-- The transactions that read as null in a view, and those that were removed. -/
def CBlockView.txMarks (view : CBlockView) : (ℕ → Bool) × List ℕ := (view.isTxNull, view.vTxRemove)

theorem foldl_txMarks {α : Type} {f : CBlockView → α → CBlockView} (hf : ∀ v a, (f v a).txMarks = v.txMarks)
    (l : List α) (view : CBlockView) : (l.foldl f view).txMarks = view.txMarks := by
  induction l generalizing view with
  | nil => rfl
  | cons a l ih => rw [List.foldl_cons, ih, hf]

theorem isTxNull_update (mapTx : ℕ → Option CTransaction) (txid : ℕ) (tx : CTransaction) :
    (fun id => ((Function.update mapTx txid (some tx) id).getD CTransaction.null).isNull) =
      Function.update (fun id => ((mapTx id).getD CTransaction.null).isNull) txid tx.isNull := by
  funext id
  by_cases hid : id = txid
  · rw [hid, Function.update_self, Function.update_self]
    rfl
  · rw [Function.update_of_ne hid, Function.update_of_ne hid]

def markPart (E : Env) : ViewPart E ((ℕ → Bool) × List ℕ) where
  part := CBlockView.txMarks
  add m t := (Function.update m.1 (t.1.getHash E) t.1.isNull, m.2)
  remove m t := (Function.update m.1 (t.1.getHash E) true, m.2 ++ [t.1.getHash E])
  part_addTx view t := by
    unfold CBlockView.addTx
    simp only
    rw [foldl_txMarks (f := fun v (o : ℕ × CTxOut) => CBlockView.enable v ⟨t.1.getHash E, o.1⟩ o.2) fun _ _ => rfl,
      foldl_txMarks (f := fun v (i : CTxOutPoint × CTxOut) => CBlockView.disable v i.1 i.2) fun _ _ => rfl]
    exact congrArg (·, view.vTxRemove) (isTxNull_update _ _ _)
  part_removeTx view t := by
    unfold CBlockView.removeTx
    simp only
    rw [foldl_txMarks (f := fun v (o : ℕ × CTxOut) => CBlockView.disable v ⟨t.1.getHash E, o.1⟩ o.2) fun _ _ => rfl,
      foldl_txMarks (f := fun v (i : CTxOutPoint × CTxOut) => CBlockView.enable v i.1 i.2) fun _ _ => rfl]
    exact congrArg (·, view.vTxRemove ++ [t.1.getHash E]) (isTxNull_update _ _ _)
  part_addBlock _ _ _ := rfl
  part_removeBlock _ _ _ := rfl

theorem marks_remove (txs : List (CTransaction × CTxContxt)) :
    txs.foldl (markPart E).remove (fun _ => true, []) = (fun _ => true, txs.map fun t => t.1.getHash E) := by
  induction txs using List.reverseRecOn with
  | nil => rfl
  | append_singleton txs t ih =>
    rw [List.foldl_append, ih, List.map_append]
    exact congrArg (·, _) (Function.update_eq_self _ _)

theorem marks_add (txs : List (CTransaction × CTxContxt)) (hnull : ∀ t ∈ txs, t.1.isNull = false)
    (m : (ℕ → Bool) × List ℕ) :
    (txs.foldl (markPart E).add m).2 = m.2 ∧
      ∀ k, (txs.foldl (markPart E).add m).1 k = if k ∈ txs.map fun t => t.1.getHash E then false else m.1 k := by
  induction txs generalizing m with
  | nil => exact ⟨rfl, fun k => by simp⟩
  | cons t txs ih =>
    obtain ⟨h1, h2⟩ := ih (fun u hu => hnull u (List.mem_cons_of_mem _ hu)) ((markPart E).add m t)
    refine ⟨h1, fun k => ?_⟩
    rw [List.foldl_cons, h2 k, List.map_cons]
    by_cases hk : k = t.1.getHash E
    · rw [if_pos (List.mem_cons.2 (Or.inl hk))]
      split_ifs
      · rfl
      · show Function.update m.1 (t.1.getHash E) t.1.isNull k = false
        rw [hk, Function.update_self]
        exact hnull t List.mem_cons_self
    · have hmem : (k ∈ t.1.getHash E :: txs.map fun t => t.1.getHash E) ↔ k ∈ txs.map fun t => t.1.getHash E := by
        rw [List.mem_cons, or_iff_right hk]
      rw [if_congr hmem rfl rfl]
      show (if _ then false else Function.update m.1 (t.1.getHash E) t.1.isNull k) = _
      rw [Function.update_of_ne hk]

end

/-! ## A commit -/

/-- Each stored block has one context for each transaction, and every transaction is sent somewhere. -/
def BlocksOK (s : CBlockBase) : Prop :=
  ∀ h p l, s.mapIndex h = p :: l → ∀ q ∈ p :: l, ∀ b, s.read q = some b →
    b.vTxContxt.length = b.block.vtx.length ∧ b.block.Sends

section

variable {E : Env} {s : CBlockBase} {hash : ℕ} {ptr : CBlockIndexPtr} {p : CBlockIndex} {l : CBlockIndexPtr}

theorem BlocksOK.lengths (h : BlocksOK s) (hp : s.mapIndex hash = p :: l) : ContextLengths s (p :: l) :=
  fun q hq b hb => (h hash p l hp q hq b hb).1

theorem CBlockEx.fst_mem_of_mem_txs {b : CBlockEx} {t : CTransaction × CTxContxt} (h : t ∈ b.txs) :
    t.1 ∈ b.block.txMint :: b.block.vtx := by
  unfold CBlockEx.txs at h
  rcases List.mem_append.1 h with h | h
  · split_ifs at h
    · simp at h
    · rw [List.mem_singleton.1 h]
      exact List.mem_cons_self
  · exact List.mem_cons_of_mem _ (List.of_mem_zip h).1

theorem not_isNull_of_sends {b : CBlockEx} (hb : b.block.Sends) : ∀ t ∈ b.txs, t.1.isNull = false := by
  intro t ht
  unfold CTransaction.isNull
  rw [hb _ (CBlockEx.fst_mem_of_mem_txs ht), Bool.and_false]

theorem not_isNull_of_chain (h : ∀ q ∈ ptr, ∀ b, s.read q = some b → b.block.Sends) :
    ∀ t ∈ chainTxs s ptr, t.1.isNull = false := by
  intro t ht
  obtain ⟨q, hq, b, hb, htb⟩ := mem_chainTxs.1 ht
  exact not_isNull_of_sends (h q hq b hb) t htb

theorem keys_eq_ids (h : ContextLengths s ptr) :
    (chainTxIndex E s ptr).map Prod.fst = (chainTxs s ptr).map fun t => t.1.getHash E := by
  rw [keys_chainTxIndex, ← chainTxs_map_fst h, List.map_map]
  rfl

variable {c : CBlockChain} {nNetTime : ℤ} {block : CBlock} (a : Stored E nNetTime c block)

/-- **What the view of a new block erases from the index**: what is below the last block but not below
the new one. -/
theorem Stored.mem_getTxRemoved (hs : StoreOK E c.cntrBlock) (hb : BlocksOK c.cntrBlock) (hN : block.Sends) :
    ∃ down up base, c.cntrBlock.pIndexLast = down ++ base ∧ a.p :: a.pPrev = up ++ base ∧
      ∀ k, k ∈ (a.view1.addBlock (block.getHash E) a.b).getTxRemoved ↔
        k ∈ (Minemon.chainTxs c.cntrBlock down).map (fun t => t.1.getHash E) ∧
          k ∉ (Minemon.chainTxs c.cntrBlock up ++ a.b.txs).map fun t => t.1.getHash E := by
  obtain ⟨down, up, base, hd, hu, hpart⟩ := getBlockView_parts hs a.prev a.getView
  refine ⟨down, up, base, hd, hu, fun k => ?_⟩
  have hnull : ∀ t ∈ Minemon.chainTxs c.cntrBlock up ++ a.b.txs, t.1.isNull = false := by
    intro t ht
    rcases List.mem_append.1 ht with ht | ht
    · refine not_isNull_of_chain (fun q hq b hqb => ?_) t ht
      exact (hb _ _ _ a.prev q (by rw [hu]; exact List.mem_append_left _ hq) b hqb).2
    · exact not_isNull_of_sends hN t ht
  have hmarks : (a.view1.addBlock (block.getHash E) a.b).txMarks =
      (Minemon.chainTxs c.cntrBlock up ++ a.b.txs).foldl (markPart E).add
        (fun _ => true, (Minemon.chainTxs c.cntrBlock down).reverse.map fun t => t.1.getHash E) := by
    show (markPart E).part a.view1 = _
    rw [a.view_eq, (markPart E).part_viewAfter, hpart (markPart E), List.foldl_append, ← marks_remove]
    rfl
  obtain ⟨h1, h2⟩ := marks_add (E := E) _ hnull
    (fun _ => true, (Minemon.chainTxs c.cntrBlock down).reverse.map fun t => t.1.getHash E)
  rw [← hmarks] at h1 h2
  show k ∈ (a.view1.addBlock (block.getHash E) a.b).txMarks.2.filter
    (fun txid => (a.view1.addBlock (block.getHash E) a.b).txMarks.1 txid) ↔ _
  rw [List.mem_filter, h1, h2, List.map_reverse, List.mem_reverse]
  by_cases hk : k ∈ (Minemon.chainTxs c.cntrBlock up ++ a.b.txs).map fun t => t.1.getHash E
  · rw [if_pos hk]
    exact ⟨fun h => absurd h.2 (by simp), fun h => absurd hk h.2⟩
  · rw [if_neg hk]
    exact ⟨fun h => ⟨h.1, hk⟩, fun h => ⟨h.1, rfl⟩⟩

/-- **A commit moves the index to the chain of the new block.** -/
theorem Stored.txIndex_commit (hs : StoreOK E c.cntrBlock) (hb : BlocksOK c.cntrBlock) (hN : block.Sends)
    (hu0 : UniqueIds E c.cntrBlock) (hu : UniqueIds E a.s1)
    (hidx : Ledger.Holds (chainTxIndex E c.cntrBlock c.cntrBlock.pIndexLast) c.cntrBlock.dbTxIndex)
    {s' : CBlockBase}
    (hcommit : a.s1.commitBlockView E (a.view1.addBlock (block.getHash E) a.b) a.pIndexNew = some (true, s')) :
    Ledger.Holds (chainTxIndex E a.s1 a.pIndexNew) s'.dbTxIndex := by
  have hext := a.extends hs
  have hchainN := a.storedChain hs
  have ht := a.added.touched
  obtain ⟨q, l', hlast, hq⟩ := hs.last
  have hchainL := (hs.chain _ _ _ hq).2
  obtain ⟨-, vTxNew, hnew, rfl⟩ := commitBlockView_cases hchainN.read hcommit
  obtain ⟨down, up, base, hd, hup, hrem⟩ := a.mem_getTxRemoved hs hb hN
  -- the new entries: a second walk, that may begin at another common block
  unfold getTxNewIndex at hnew
  rw [ht.pIndexLast] at hnew
  split at hnew
  · simp at hnew
  rename_i base' vPath hbranch
  rw [hlast] at hbranch
  obtain ⟨-, down', up', hd', hup', hpath⟩ := getBranch_some (hext.storedChain hchainL) hchainN hbranch
  have hread' : ∀ r ∈ up', (a.s1.read r).isSome := fun r hr =>
    hchainN.read r (by rw [hup']; exact List.mem_append_left _ hr)
  rw [hpath, pathTxIndex_reverse hread'] at hnew
  obtain rfl : chainTxIndex E a.s1 up' = vTxNew := by simpa using hnew
  -- the identifiers of the two chains
  have hlenL : ContextLengths c.cntrBlock (q :: l') := hb.lengths hq
  have hkeysL : (chainTxIndex E a.s1 (q :: l')).map Prod.fst =
      (Minemon.chainTxs c.cntrBlock base ++ Minemon.chainTxs c.cntrBlock down).map fun t => t.1.getHash E := by
    rw [hext.chainTxIndex hchainL.read, keys_eq_ids hlenL, ← chainTxs_append, ← hd, hlast]
  have hkeysN : (chainTxIndex E a.s1 a.pIndexNew).map Prod.fst =
      (Minemon.chainTxs c.cntrBlock base ++ (Minemon.chainTxs c.cntrBlock up ++ a.b.txs)).map fun t =>
        t.1.getHash E := by
    rw [keys_eq_ids (a.contextLengths hs (hb.lengths a.prev)), a.chainTxs hs, hup, chainTxs_append, List.append_assoc]
  have hndL : ((chainTxIndex E a.s1 (q :: l')).map Prod.fst).Nodup := by
    rw [hext.chainTxIndex hchainL.read, keys_chainTxIndex]
    exact hu0 _ _ _ hq
  have hndN : ((chainTxIndex E a.s1 a.pIndexNew).map Prod.fst).Nodup := by
    have hidxN := a.index
    rw [a.pIndexNew_eq] at hidxN ⊢
    rw [keys_chainTxIndex]
    exact hu _ _ _ hidxN
  have hdisj : ∀ k ∈ (Minemon.chainTxs c.cntrBlock down).map (fun t => t.1.getHash E),
      k ∉ (Minemon.chainTxs c.cntrBlock base).map fun t => t.1.getHash E := by
    rw [hkeysL, List.map_append] at hndL
    exact fun k hk hk' => (List.nodup_append.1 hndL).2.2 k hk' k hk rfl
  show Ledger.Holds _ (Ledger.eraseAll (Ledger.insertAll a.s1.dbTxIndex _) _)
  have hidx1 : Ledger.Holds (chainTxIndex E a.s1 base' ++ chainTxIndex E a.s1 down') a.s1.dbTxIndex := by
    rw [← chainTxIndex_append, ← hd', hext.chainTxIndex hchainL.read, ht.dbTxIndex, ← hlast]
    exact hidx
  have hL : chainTxIndex E a.s1 base' ++ chainTxIndex E a.s1 down' = chainTxIndex E a.s1 (q :: l') := by
    rw [← chainTxIndex_append, ← hd']
  have hNew : chainTxIndex E a.s1 base' ++ chainTxIndex E a.s1 up' = chainTxIndex E a.s1 a.pIndexNew := by
    rw [← chainTxIndex_append, ← hup']
  show Ledger.Holds (chainTxIndex E a.s1 a.pIndexNew) _
  rw [← hNew]
  apply hidx1.update
  · rw [hNew]
    exact hndN
  · intro k hk
    obtain ⟨hdown, hnot⟩ := (hrem k).1 hk
    rw [hNew, hkeysN, List.map_append, List.mem_append, not_or]
    exact ⟨hdisj k hdown, hnot⟩
  · intro k hk hnot
    rw [hL, hkeysL, List.map_append, List.mem_append] at hk
    rw [hNew, hkeysN, List.map_append, List.mem_append, not_or] at hnot
    exact (hrem k).2 ⟨hk.resolve_left hnot.1, hnot.2⟩

theorem Stored.commit_iff (hs : StoreOK E c.cntrBlock) (view : CBlockView) :
    (∃ s', a.s1.commitBlockView E view a.pIndexNew = some (true, s')) ↔ block.nTimeStamp ≠ GENESIS_TIME := by
  have hext := a.extends hs
  have hchainN := a.storedChain hs
  have hchainL : StoredChain E a.s1 a.s1.pIndexLast := by
    rw [a.added.touched.pIndexLast]
    exact hext.storedChain hs.lastChain
  have hcount : genesisTimeCount E c.cntrBlock.pIndexLast = genesisTimeCount E (a.p :: a.pPrev) := by
    by_contra hne
    have hview := a.getView
    rw [getBlockView_none hs a.prev hne] at hview
    simp at hview
  have hbranch := getBranch_isSome_iff hchainL hchainN
  have htime : genesisTimeCount E a.s1.pIndexLast = genesisTimeCount E a.pIndexNew ↔
      block.nTimeStamp ≠ GENESIS_TIME := by
    rw [a.added.touched.pIndexLast, hcount, a.pIndexNew_eq, genesisTimeCount_cons E a.entry]
    show (_ = _ + if block.nTimeStamp = GENESIS_TIME then 1 else 0) ↔ _
    split_ifs with h <;> simp [h]
  rw [← htime, ← hbranch]
  constructor
  · rintro ⟨s', hcommit⟩
    obtain ⟨-, vTxNew, hnew, -⟩ := commitBlockView_cases hchainN.read hcommit
    unfold getTxNewIndex at hnew
    split at hnew
    · simp at hnew
    · rename_i hsome
      rw [hsome]
      rfl
  · intro hsome
    obtain ⟨⟨pBranch, vPath⟩, hb⟩ := Option.isSome_iff_exists.1 hsome
    obtain ⟨-, down, up, -, hup, hpath⟩ := getBranch_some hchainL hchainN hb
    have hnew : getTxNewIndex E a.s1 a.pIndexNew = some (some (chainTxIndex E a.s1 up)) := by
      unfold getTxNewIndex
      rw [hb]
      simp only
      rw [hpath, pathTxIndex_reverse fun r hr => hchainN.read r (by rw [hup]; exact List.mem_append_left _ hr)]
    exact ⟨_, by unfold commitBlockView; rw [hnew]⟩

theorem txIndexExact_iff (hs : StoreOK E s) (hb : BlocksOK s) :
    TxIndexExact E s ↔ Ledger.Holds (chainTxIndex E s s.pIndexLast) s.dbTxIndex := by
  obtain ⟨q, l', hlast, hq⟩ := hs.last
  unfold TxIndexExact Ledger.Holds
  refine forall_congr' fun txid => forall_congr' fun e => ?_
  rw [hlast, mem_chainTxIndex (hs.chain _ _ _ hq).2 fun r hr b hrb => (hb _ _ _ hq r hr b hrb).2]

theorem BlocksOK.stored (hs : StoreOK E c.cntrBlock) (hb : BlocksOK c.cntrBlock) (hN : block.Sends) :
    BlocksOK a.s1 := by
  have hext := a.extends hs
  have hold : ∀ h p l, c.cntrBlock.mapIndex h = p :: l → ∀ q ∈ p :: l, ∀ b, a.s1.read q = some b →
      b.vTxContxt.length = b.block.vtx.length ∧ b.block.Sends := by
    intro h p l hp q hq b hqb
    rw [hext.read_eq ((hs.chain _ _ _ hp).2.read q hq)] at hqb
    exact hb h p l hp q hq b hqb
  intro h p l hp q hq b hqb
  by_cases hh : h = block.getHash E
  · rw [hh, a.index, a.pIndexNew_eq] at hp
    rw [← hp] at hq
    rcases List.mem_cons.1 hq with rfl | hq
    · rw [a.read] at hqb
      obtain rfl := Option.some.inj hqb
      exact ⟨a.length_contexts, hN⟩
    · exact hold _ _ _ a.prev q hq b hqb
  · rw [a.added.touched.index h hh] at hp
    exact hold h p l hp q hq b hqb

theorem Stored.sends (a : Stored E nNetTime c block)
    (hcache : Entries (fun _ => RewardForms) c.mapCacheDistributePledgeReward) : block.Sends := by
  intro tx htx
  have hmap : a.b.txs.map Prod.fst = block.txMint :: block.vtx := by
    rw [a.txs_eq, List.map_cons, List.map_fst_zip a.length_contexts.ge]
  rw [← hmap] at htx
  obtain ⟨t, ht, rfl⟩ := List.mem_map.1 htx
  exact (a.nodup_inputs hcache t ht).2

/-! ## Runs -/

variable {P : CBlockChain → CBlock → Prop}

theorem Run.cache_forms (h : Run E P c) : Entries (fun _ => RewardForms) c.mapCacheDistributePledgeReward := by
  refine h.invariant (I := fun c => Entries (fun _ => RewardForms) c.mapCacheDistributePledgeReward)
    Entries.empty ?_ ?_
  · exact fun c c' nNetTime block _ a _ ih => a.cache_forms ih
  · exact fun c c' block _ r ih => r.cache_forms ih

theorem genesis_sends (E : Env) : (getGenesisBlock E).Sends := by
  intro tx htx
  obtain rfl : tx = (getGenesisBlock E).txMint := by simpa [getGenesisBlock] using htx
  rfl

theorem Run.blocksOK (h : Run E P c) : BlocksOK c.cntrBlock := by
  intro hash p l hp
  refine h.everyBlock (Q := fun b => b.vTxContxt.length = b.block.vtx.length ∧ b.block.Sends)
    ⟨rfl, genesis_sends E⟩ ?_ hp
  exact fun c nNetTime block a hrun _ => ⟨a.length_contexts, a.sends hrun.cache_forms⟩

theorem genesis_txIndex (E : Env) :
    Ledger.Holds (chainTxIndex E (genesisChain E).cntrBlock (genesisChain E).cntrBlock.pIndexLast)
      (genesisChain E).cntrBlock.dbTxIndex := by
  intro txid e
  show Function.update (fun _ => none) ((getGenesisBlock E).txMint.getHash E)
    (some ⟨0, 1, 8 + (getGenesisBlock E).getTxSerializedOffset⟩) txid = some e ↔
      (txid, e) ∈ [((getGenesisBlock E).txMint.getHash E,
        (⟨(genesisEntry E).nHeight, 1, 8 + (getGenesisBlock E).getTxSerializedOffset⟩ : CTxIndex))]
  rw [genesisEntry_nHeight, List.mem_singleton, Prod.mk.injEq]
  by_cases hid : txid = (getGenesisBlock E).txMint.getHash E
  · rw [hid, Function.update_self, Option.some.injEq]
    exact ⟨fun h => ⟨rfl, h.symm⟩, fun h => h.2.symm⟩
  · rw [Function.update_of_ne hid]
    exact ⟨fun h => by simp at h, fun h => absurd h.1 hid⟩

theorem Run.txIndex (h : Run E P c) (hu : UniqueIds E c.cntrBlock) :
    Ledger.Holds (chainTxIndex E c.cntrBlock c.cntrBlock.pIndexLast) c.cntrBlock.dbTxIndex := by
  have hsame : ∀ c c' : CBlockChain, StoreOK E c.cntrBlock → Extends E c.cntrBlock c'.cntrBlock →
      c'.cntrBlock.pIndexLast = c.cntrBlock.pIndexLast → c'.cntrBlock.dbTxIndex = c.cntrBlock.dbTxIndex →
      Ledger.Holds (chainTxIndex E c.cntrBlock c.cntrBlock.pIndexLast) c.cntrBlock.dbTxIndex →
      Ledger.Holds (chainTxIndex E c'.cntrBlock c'.cntrBlock.pIndexLast) c'.cntrBlock.dbTxIndex := by
    intro c c' hs hext hl hdb ih
    rwa [hl, hdb, hext.chainTxIndex hs.lastChain.read]
  refine h.invariant (I := fun c => UniqueIds E c.cntrBlock → Ledger.Holds
    (chainTxIndex E c.cntrBlock c.cntrBlock.pIndexLast) c.cntrBlock.dbTxIndex) (fun _ => genesis_txIndex E) ?_ ?_ hu
  · intro c c' nNetTime block hrun a _ ih hu
    have hs := hrun.storeOK
    have hu0 := hu.of_extends hs (a.extends hs)
    rcases a.final with ⟨-, heq⟩ | ⟨-, hcommit⟩
    · refine hsame c c' hs (a.extends hs) ?_ ?_ (ih hu0)
      · rw [heq, a.added.touched.pIndexLast]
      · rw [heq, a.added.touched.dbTxIndex]
    · have hextN := a.extends_new hs
      have hu1 := hu.of_extends (hs.stored a.toStored) hextN
      have hmove := a.toStored.txIndex_commit hs hrun.blocksOK (a.toStored.sends hrun.cache_forms) hu0 hu1
        (ih hu0) hcommit
      have hlast : c'.cntrBlock.pIndexLast = a.pIndexNew := by
        obtain ⟨-, vTxNew, -, heq⟩ := commitBlockView_cases (a.toStored.storedChain hs).read hcommit
        rw [heq]
      rwa [hlast, hextN.chainTxIndex (a.toStored.storedChain hs).read]
  · intro c c' block hrun r ih hu
    have hext := r.extends hrun.storeOK
    have hkeep : c'.cntrBlock.pIndexLast = c.cntrBlock.pIndexLast ∧
        c'.cntrBlock.dbTxIndex = c.cntrBlock.dbTxIndex := by
      rcases r.store with heq | ⟨-, b, ht⟩
      · rw [heq]
        exact ⟨rfl, rfl⟩
      · exact ⟨ht.pIndexLast, ht.dbTxIndex⟩
    exact hsame c c' hrun.storeOK hext hkeep.1 hkeep.2 (ih (hu.of_extends hrun.storeOK hext))

/-- **The transaction index is that of the chain of the last block in every state of a run**, and the
commit of the next block brings it to the chain of that block, unless the block has the time of the genesis
block: then `CommitBlockView` steps back from the genesis block and does not return. -/
theorem run_txIndex_iff (h : Run E P c) (hu : UniqueIds E c.cntrBlock) :
    TxIndexExact E c.cntrBlock ∧
      ∀ nNetTime block (a : Stored E nNetTime c block), UniqueIds E a.s1 →
        ((∃ s', a.s1.commitBlockView E (a.view1.addBlock (block.getHash E) a.b) a.pIndexNew = some (true, s') ∧
          s'.pIndexLast = a.pIndexNew ∧ TxIndexExact E s') ↔ block.nTimeStamp ≠ GENESIS_TIME) := by
  have hs := h.storeOK
  refine ⟨(txIndexExact_iff hs h.blocksOK).2 (h.txIndex hu), fun nNetTime block a hu1 => ?_⟩
  rw [← a.commit_iff hs (a.view1.addBlock (block.getHash E) a.b)]
  refine ⟨fun ⟨s', hcommit, _⟩ => ⟨s', hcommit⟩, fun ⟨s', hcommit⟩ => ⟨s', hcommit, ?_⟩⟩
  have hN := a.sends h.cache_forms
  have hmove := a.txIndex_commit hs h.blocksOK hN hu hu1 (h.txIndex hu) hcommit
  have hblocks := h.blocksOK.stored a hs hN
  have hchainN := a.storedChain hs
  have hstoreN := hs.stored a
  obtain ⟨-, vTxNew, -, heq⟩ := commitBlockView_cases hchainN.read hcommit
  have hext : Extends E a.s1 s' := by
    rw [heq]
    exact ⟨fun _ _ => rfl, fun _ _ _ h => h, fun _ _ => rfl, fun _ _ => rfl, .refl⟩
  have hlast : s'.pIndexLast = a.pIndexNew := by rw [heq]
  have hstore : StoreOK E s' := by
    rw [heq, a.pIndexNew_eq]
    rw [a.pIndexNew_eq] at hchainN
    exact hstoreN.commit hchainN.index
  have hblocks' : BlocksOK s' := by
    rw [heq]
    exact hblocks
  refine ⟨hlast, (txIndexExact_iff hstore hblocks').2 ?_⟩
  rw [hlast, hext.chainTxIndex hchainN.read]
  exact hmove

end

/-! ## On the toy network -/

/-- A block on the genesis block, with the time that it has. -/
def toyTimed (nTimeStamp : ℕ) : CBlock :=
  workBlock toyEnv toyMiner (hashGenesisBlock toyEnv) GENESIS_TIME nTimeStamp
    (getCompact (nProofOfWorkInit toyEnv)) 0 []

theorem toyTimed_stored {t : ℕ}
    (hpre : (precheckBlock toyEnv (genesisChain toyEnv).cntrBlock GENESIS_TIME (toyTimed t)).any
      (fun r => r.toOption = some (genesisEntry toyEnv)) = true)
    (hpow : verifyPowRewardTx (toyTimed t) (genesisEntry toyEnv).nTimeStamp = true)
    (hmint : (mintView toyEnv (genesisChain toyEnv).cntrBlock (toyTimed t)).any Option.isSome = true)
    (hlist : (getDistributePledgeRewardTxList toyEnv (genesisChain toyEnv).cntrBlock
      (genesisChain toyEnv).mapCacheDistributePledgeReward (toyTimed t).hashPrev
      (genesisEntry toyEnv).nTimeStamp).any (fun r => r.1.isSome) = true)
    (hstore : (getBlockTrust (toyTimed t)).any (fun nChainTrust =>
      (addNew toyEnv (genesisChain toyEnv).cntrBlock ((toyTimed t).getHash toyEnv) ⟨toyTimed t, []⟩
        nChainTrust).any fun r => r.1.any fun pIndexNew => decide (isShortChain r.2.pIndexLast pIndexNew = false ∧
          ∀ h ∈ [(toyTimed t).getHash toyEnv, hashGenesisBlock toyEnv],
            ((chainTxList r.2 (r.2.mapIndex h)).map (CTransaction.getHash toyEnv)).Nodup)) = true) :
    ∃ a : Stored toyEnv GENESIS_TIME (genesisChain toyEnv) (toyTimed t), UniqueIds toyEnv a.s1 ∧
      isShortChain a.s1.pIndexLast a.pIndexNew = false := by
  obtain ⟨r, hr, hp⟩ := (Option.any_eq_true _ _).1 hpre
  have hcheck : precheckBlock toyEnv (genesisChain toyEnv).cntrBlock GENESIS_TIME (toyTimed t) =
      some (.ok (genesisEntry toyEnv)) := by
    cases r with
    | error e => exact absurd (of_decide_eq_true hp) (by simp [Except.toOption])
    | ok p => rw [hr, Option.some.inj (of_decide_eq_true hp : some p = _)]
  obtain ⟨-, hvalid, pPrev, hprev, hverify, hrepeat⟩ := precheckBlock_ok hcheck
  obtain ⟨o, ho, hsome⟩ := (Option.any_eq_true _ _).1 hmint
  obtain ⟨mview, rfl⟩ := Option.isSome_iff_exists.1 hsome
  have hmview : mintView toyEnv (genesisChain toyEnv).cntrBlock (toyTimed t) = some (some mview) := ho
  obtain ⟨view, hview, -⟩ := mintView_some hmview (verifyPowRewardTx_true hpow)
  obtain ⟨⟨o, cache⟩, hrewards, hsome⟩ := (Option.any_eq_true _ _).1 hlist
  obtain ⟨rewards, rfl⟩ := Option.isSome_iff_exists.1 (hsome : o.isSome = true)
  obtain ⟨nChainTrust, htrust, hany⟩ := (Option.any_eq_true _ _).1 hstore
  obtain ⟨⟨o, s1⟩, hadd, hany⟩ := (Option.any_eq_true _ _).1 hany
  obtain ⟨pIndexNew, rfl : o = some pIndexNew, hfacts⟩ := (Option.any_eq_true _ _).1 hany
  obtain ⟨hshort, hids⟩ := of_decide_eq_true hfacts
  obtain ⟨ptr, hptr, ⟨hadded⟩⟩ | ⟨hnone, -⟩ := addNew_cases hadd
  swap
  · simp at hnone
  obtain rfl := Option.some.inj hptr
  refine ⟨{ p := genesisEntry toyEnv, pPrev, view, rewards, cache, vTxContxt := [], nChainTrust, pIndexNew, s1
            view1 := view.addTx ((toyTimed t).txMint.getHash toyEnv) (toyTimed t).txMint {}
            valid := hvalid, prev := hprev, verify := hverify, repeatMint := hrepeat, getView := hview
            pow := hpow, rewardList := hrewards, txs := rfl, redeem := rfl, trust := htrust
            added := hadded }, ?_, hshort⟩
  refine .of_hashes (fun h hh => ?_) hids
  by_cases heq : h = (toyTimed t).getHash toyEnv
  · rw [heq]
    exact List.mem_cons_self
  · refine List.mem_cons_of_mem _ (List.mem_singleton.2 ?_)
    by_contra hne
    rw [hadded.touched.index h heq, genesis_mapIndex, Function.update_of_ne hne] at hh
    exact hh rfl

theorem run_txIndex_toy :
    (Run toyEnv (fun _ _ => True) toyFork ∧ UniqueIds toyEnv toyFork.cntrBlock ∧
      TxIndexExact toyEnv toyFork.cntrBlock) ∧
    ∃ (a : Stored toyEnv GENESIS_TIME (genesisChain toyEnv) (toyTimed (GENESIS_TIME + 60))) (s' : CBlockBase),
      a.s1.commitBlockView toyEnv (a.view1.addBlock ((toyTimed (GENESIS_TIME + 60)).getHash toyEnv) a.b) a.pIndexNew =
        some (true, s') ∧ s'.pIndexLast = a.pIndexNew ∧ TxIndexExact toyEnv s' := by
  refine ⟨⟨Run.toyFork, toyFork_uniqueIds, (run_txIndex_iff Run.toyFork toyFork_uniqueIds).1⟩, ?_⟩
  obtain ⟨a, hu, -⟩ := @toyTimed_stored (GENESIS_TIME + 60) (by decide +kernel) (by decide +kernel) (by decide +kernel)
    (by decide +kernel) (by decide +kernel)
  have hgenesis : UniqueIds toyEnv (genesisChain toyEnv).cntrBlock :=
    .of_hashes (genesis_hashes toyEnv) (by decide +kernel)
  have hrun : Run toyEnv (fun _ _ => True) (genesisChain toyEnv) := .genesis
  exact ⟨a, ((run_txIndex_iff hrun hgenesis).2 _ _ a hu).2 (by decide)⟩

/-- With the time of the genesis block, the first block is stored, and `CommitBlockView` does not return. -/
theorem run_txIndex_genesis_time :
    ∃ a : Stored toyEnv GENESIS_TIME (genesisChain toyEnv) toySideBlock, UniqueIds toyEnv a.s1 ∧
      isShortChain a.s1.pIndexLast a.pIndexNew = false ∧
      a.s1.commitBlockView toyEnv (a.view1.addBlock (toySideBlock.getHash toyEnv) a.b) a.pIndexNew = none := by
  obtain ⟨a, hu, hshort⟩ : ∃ a : Stored toyEnv GENESIS_TIME (genesisChain toyEnv) toySideBlock, UniqueIds toyEnv a.s1 ∧
      isShortChain a.s1.pIndexLast a.pIndexNew = false :=
    @toyTimed_stored GENESIS_TIME (by decide +kernel) (by decide +kernel) (by decide +kernel) (by decide +kernel)
      (by decide +kernel)
  have hs := genesis_storeOK toyEnv
  refine ⟨a, hu, hshort, ?_⟩
  have htime : toySideBlock.nTimeStamp = GENESIS_TIME := by decide
  have hnot := mt (a.commit_iff hs (a.view1.addBlock (toySideBlock.getHash toyEnv) a.b)).1 (not_not.2 htime)
  rw [Option.eq_none_iff_forall_ne_some]
  rintro ⟨fOk, s'⟩ hcommit
  obtain ⟨rfl, -⟩ := commitBlockView_cases (a.storedChain hs).read hcommit
  exact hnot ⟨s', hcommit⟩

end Minemon
