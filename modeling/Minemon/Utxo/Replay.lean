import Minemon.Utxo.View

/-!
# Replay

The set of unspent outputs after a chain, with no view and no stored context: each transaction in turn
takes what it names out of the set and puts its own outputs in.

* `replayTxs`, `utxoOf`: the set after a list of transactions, and after the blocks of a chain.
* `Replayable`: the contexts that are stored with a chain are those of its replay.
-/

namespace Minemon

open CBlockBase

/-! ## The set of unspent outputs -/

/-- The context that a set of outputs gives a transaction. -/
def contextIn (u : CTxOutPoint → Option CTxOut) (tx : CTransaction) : CTxContxt :=
  ⟨(tx.vInput.head?.bind u).elim CDestination.null CTxOut.destTo,
    tx.vInput.filterMap fun out => (u out).map CTxInContxt.ofOut⟩

def replayTx (E : Env) (u : CTxOutPoint → Option CTxOut) (tx : CTransaction) : CTxOutPoint → Option CTxOut :=
  Ledger.apply u (txTransfer E (tx, contextIn u tx))

def replayTxs (E : Env) (txs : List CTransaction) : CTxOutPoint → Option CTxOut :=
  txs.foldl (replayTx E) fun _ => none

def CBlock.txList (b : CBlock) : List CTransaction :=
  (if b.txMint.sendTo.isNull then [] else [b.txMint]) ++ b.vtx

def chainTxList (s : CBlockBase) : CBlockIndexPtr → List CTransaction
  | [] => []
  | p :: l => chainTxList s l ++ (s.read p).elim [] fun b => b.block.txList

/-- **The outputs that are unspent on a chain.** -/
def utxoOf (E : Env) (s : CBlockBase) (ptr : CBlockIndexPtr) : CTxOutPoint → Option CTxOut :=
  replayTxs E (chainTxList s ptr)

section

variable {E : Env} {s : CBlockBase} {ptr : CBlockIndexPtr}

theorem replayTxs_concat (txs : List CTransaction) (tx : CTransaction) :
    replayTxs E (txs ++ [tx]) = replayTx E (replayTxs E txs) tx := by
  unfold replayTxs
  rw [List.foldl_append]
  rfl

/-- Each stored block of the chain has one context for each transaction. -/
def ContextLengths (s : CBlockBase) (ptr : CBlockIndexPtr) : Prop :=
  ∀ p ∈ ptr, ∀ b, s.read p = some b → b.vTxContxt.length = b.block.vtx.length

theorem CBlockEx.txs_map_fst {b : CBlockEx} (h : b.vTxContxt.length = b.block.vtx.length) :
    b.txs.map Prod.fst = b.block.txList := by
  unfold CBlockEx.txs CBlock.txList
  rw [List.map_append, List.map_fst_zip (by omega)]
  split_ifs <;> rfl

theorem chainTxs_map_fst (h : ContextLengths s ptr) : (chainTxs s ptr).map Prod.fst = chainTxList s ptr := by
  induction ptr with
  | nil => rfl
  | cons p l ih =>
    rw [chainTxs, chainTxList, List.map_append, ih fun q hq => h q (List.mem_cons_of_mem _ hq)]
    cases hb : s.read p with
    | none => rfl
    | some b => rw [Option.elim_some, Option.elim_some, CBlockEx.txs_map_fst (h p List.mem_cons_self b hb)]

/-! ## Contexts -/

/-- The context of the transaction is what it finds in the set `u`. -/
structure TxReads (u : CTxOutPoint → Option CTxOut) (t : CTransaction × CTxContxt) : Prop where
  nodup : t.1.vInput.Nodup
  inputs : ∀ out ∈ t.1.vInput, ∃ o, u out = some o ∧ o.destTo = t.2.destIn
  context : t.2 = contextIn u t.1

variable {u : CTxOutPoint → Option CTxOut} {t : CTransaction × CTxContxt}

theorem length_filterMap_of_isSome {α β : Type*} {f : α → Option β} {l : List α}
    (h : ∀ a ∈ l, (f a).isSome) : (l.filterMap f).length = l.length := by
  induction l with
  | nil => rfl
  | cons a l ih =>
    obtain ⟨b, hb⟩ := Option.isSome_iff_exists.1 (h a List.mem_cons_self)
    rw [List.filterMap_cons_some hb, List.length_cons, List.length_cons,
      ih fun c hc => h c (List.mem_cons_of_mem _ hc)]

theorem mem_zip_filterMap {α β : Type*} {f : α → Option β} {l : List α} (h : ∀ a ∈ l, (f a).isSome) :
    ∀ e ∈ l.zip (l.filterMap f), f e.1 = some e.2 := by
  induction l with
  | nil => simp
  | cons a l ih =>
    obtain ⟨b, hb⟩ := Option.isSome_iff_exists.1 (h a List.mem_cons_self)
    rw [List.filterMap_cons_some hb, List.zip_cons_cons]
    intro e he
    rcases List.mem_cons.1 he with rfl | he
    · exact hb
    · exact ih (fun c hc => h c (List.mem_cons_of_mem _ hc)) e he

theorem TxReads.isSome (h : TxReads u t) : ∀ out ∈ t.1.vInput, ((u out).map CTxInContxt.ofOut).isSome := by
  intro out hout
  obtain ⟨o, ho, -⟩ := h.inputs out hout
  rw [ho]
  rfl

theorem TxReads.vin_eq (h : TxReads u t) : t.2.vin = t.1.vInput.filterMap fun out => (u out).map CTxInContxt.ofOut :=
  congrArg CTxContxt.vin h.context

/-- What the code relies on in a context: one entry for each input, and no address without one. -/
structure TxShape (t : CTransaction × CTxContxt) : Prop where
  length : t.2.vin.length = t.1.vInput.length
  destIn : t.1.vInput = [] → t.2.destIn = CDestination.null

theorem TxReads.shape (h : TxReads u t) : TxShape t := by
  refine ⟨by rw [h.vin_eq, length_filterMap_of_isSome h.isSome], fun hnil => ?_⟩
  rw [h.context, contextIn, hnil]
  rfl

theorem TxShape.spends_keys (h : TxShape t) : (txTransfer E t).spends.map Prod.fst = t.1.vInput := by
  unfold txTransfer txInputs
  rw [List.map_map]
  exact List.map_fst_zip (by rw [h.length])

theorem TxShape.vin_eq (h : TxShape t) : (txInputs t.1 t.2).map (fun e => CTxInContxt.ofOut e.2) = t.2.vin := by
  unfold txInputs
  rw [List.map_map]
  exact List.map_snd_zip (by rw [h.length])

theorem TxReads.spends (h : TxReads u t) : ∀ e ∈ (txTransfer E t).spends, u e.1 = some e.2 := by
  intro e he
  obtain ⟨i, hi, rfl⟩ := List.mem_map.1 he
  have hmem := hi
  rw [h.vin_eq] at hi
  have hread := mem_zip_filterMap h.isSome i hi
  obtain ⟨o, ho, hdest⟩ := h.inputs i.1 (List.of_mem_zip hmem).1
  rw [ho, Option.map_some, Option.some.injEq] at hread
  rw [ho, ← hdest, ← hread]
  rfl

/-- **A transaction that finds its inputs can follow** on a history that backs them. -/
theorem TxReads.legal {X : List UtxoTransfer} (h : TxReads u t) (hu : Ledger.Backed X u) :
    Ledger.Legal X (txTransfer E t) := by
  refine ⟨?_, txTransfer_creates_nodup t, fun e he => hu e.1 e.2 (h.spends e he)⟩
  rw [h.shape.spends_keys]
  exact h.nodup

theorem TxShape.eq_of_spends {t' : CTransaction × CTxContxt} (h : TxShape t) (h' : TxShape t') (htx : t.1 = t'.1)
    (hspent : txInputs t.1 t.2 = txInputs t'.1 t'.2) : t = t' := by
  have hvin : t.2.vin = t'.2.vin := by rw [← h.vin_eq, ← h'.vin_eq, hspent]
  have hdest : t.2.destIn = t'.2.destIn := by
    cases hv : t.1.vInput with
    | nil => rw [h.destIn hv, h'.destIn (htx ▸ hv)]
    | cons out vInput =>
      have hlen := h.length
      rw [hv, List.length_cons] at hlen
      obtain ⟨i, vin, hi⟩ := List.exists_cons_of_length_eq_add_one hlen
      unfold txInputs at hspent
      rw [← hvin, ← htx, hv, hi] at hspent
      simp only [List.zip_cons_cons, List.map_cons, List.cons.injEq, Prod.mk.injEq, CTxOut.mk.injEq] at hspent
      exact hspent.1.2.1
  refine Prod.ext htx ?_
  rw [CTxContxt.mk.injEq]
  exact ⟨hdest, hvin⟩

theorem determined {t' : CTransaction × CTxContxt} (h : TxShape t) (h' : TxShape t')
    (hfree : t.1.getHash E = t'.1.getHash E → t.1 = t'.1) : Ledger.Determined (txTransfer E t) (txTransfer E t') := by
  intro k hk hk'
  obtain ⟨e, he, rfl⟩ := List.mem_map.1 hk
  obtain ⟨e', he', hkey⟩ := List.mem_map.1 hk'
  have htx : t.1 = t'.1 :=
    hfree ((hash_of_mem_creates he).symm.trans ((congrArg CTxOutPoint.hash hkey).symm.trans (hash_of_mem_creates he')))
  refine ⟨by rw [h.spends_keys, h'.spends_keys, htx], fun hspends => ?_⟩
  rw [h.eq_of_spends h' htx hspends]

/-! ## Chains -/

/-- The contexts are those of the replay. -/
def Replayable (E : Env) (txs : List (CTransaction × CTxContxt)) : Prop :=
  ∀ A t C, txs = A ++ t :: C → TxReads (replayTxs E (A.map Prod.fst)) t

variable {txs : List (CTransaction × CTxContxt)}

theorem Replayable.left {A C : List (CTransaction × CTxContxt)} (h : Replayable E (A ++ C)) : Replayable E A := by
  intro A' t C' heq
  refine h A' t (C' ++ C) ?_
  rw [heq, List.append_assoc]
  rfl

theorem Replayable.concat (h : Replayable E txs) (ht : TxReads (replayTxs E (txs.map Prod.fst)) t) :
    Replayable E (txs ++ [t]) :=
  Ledger.forall_split_concat h ht

theorem Replayable.shape (h : Replayable E txs) : ∀ t ∈ txs, TxShape t := by
  intro t ht
  obtain ⟨A, C, heq⟩ := List.append_of_mem ht
  exact (h A t C heq).shape

/-- **The replay of a chain, by its stored contexts.** -/
theorem Replayable.replay (h : Replayable E txs) :
    replayTxs E (txs.map Prod.fst) = Ledger.replay (txs.map (txTransfer E)) ∧
      Ledger.Valid (txs.map (txTransfer E)) := by
  induction txs using List.reverseRecOn with
  | nil => exact ⟨rfl, .nil⟩
  | append_singleton txs t ih =>
    obtain ⟨heq, hvalid⟩ := ih h.left
    have hreads : TxReads (replayTxs E (txs.map Prod.fst)) t := h txs t [] rfl
    rw [List.map_append, List.map_append]
    constructor
    · show replayTxs E (txs.map Prod.fst ++ [t.1]) = Ledger.replay (txs.map (txTransfer E) ++ [txTransfer E t])
      rw [replayTxs_concat, Ledger.replay_concat, replayTx, ← hreads.context, heq]
    · refine hvalid.concat (hreads.legal ?_)
      rw [heq]
      exact Ledger.replay_backed hvalid

theorem unique_of_ids (h : (txs.map fun t => t.1.getHash E).Nodup) : Ledger.Unique (txs.map (txTransfer E)) := by
  induction txs with
  | nil => exact List.nodup_nil
  | cons t txs ih =>
    rw [List.map_cons, List.nodup_cons] at h
    unfold Ledger.Unique Ledger.created at ih ⊢
    rw [List.map_cons, List.flatMap_cons, List.map_append]
    refine List.nodup_append.2 ⟨txTransfer_creates_nodup t, ih h.2, ?_⟩
    rintro k hk k' hk' rfl
    obtain ⟨e, he, rfl⟩ := List.mem_map.1 hk
    obtain ⟨e', he', hkey⟩ := List.mem_map.1 hk'
    obtain ⟨f, hf, hef⟩ := List.mem_flatMap.1 he'
    obtain ⟨t', ht', rfl⟩ := List.mem_map.1 hf
    apply h.1
    rw [← hash_of_mem_creates he, ← hkey, hash_of_mem_creates hef]
    exact List.mem_map_of_mem ht'

theorem mem_chainTxs {t : CTransaction × CTxContxt} :
    t ∈ chainTxs s ptr ↔ ∃ p ∈ ptr, ∃ b, s.read p = some b ∧ t ∈ b.txs := by
  induction ptr with
  | nil => simp [chainTxs]
  | cons q l ih =>
    rw [chainTxs, List.mem_append, ih]
    cases hb : s.read q with
    | none => simp [hb]
    | some b => simp [hb, or_comm]

theorem contextsDefined_of_shape {p : CBlockIndex} {b : CBlockEx} (hlen : ContextLengths s ptr)
    (hshape : ∀ t ∈ chainTxs s ptr, TxShape t) (hp : p ∈ ptr) (hb : s.read p = some b) : contextsDefined b = true := by
  have htx : ∀ t ∈ b.txs, contextDefined t.1 t.2 = true := fun t ht => by
    have := (hshape t (mem_chainTxs.2 ⟨p, hp, b, hb, ht⟩)).length
    simp [contextDefined, this]
  unfold contextsDefined
  rw [Bool.and_eq_true, Bool.and_eq_true, Bool.or_eq_true, decide_eq_true_eq, List.all_eq_true]
  refine ⟨⟨(hlen p hp b hb).ge, fun t ht => htx t (List.mem_append_right _ ht)⟩, ?_⟩
  by_cases hnull : b.block.txMint.sendTo.isNull = true
  · exact Or.inl hnull
  · refine Or.inr (htx (b.block.txMint, {}) (List.mem_append_left _ ?_))
    rw [if_neg hnull]
    exact List.mem_singleton_self _

/-! ## Later states of the store -/

section

variable {s' : CBlockBase} (h : Extends E s s') (hread : ∀ p ∈ ptr, (s.read p).isSome)

include h hread

theorem Extends.chainTxs : chainTxs s' ptr = Minemon.chainTxs s ptr := by
  induction ptr with
  | nil => rfl
  | cons p l ih =>
    rw [Minemon.chainTxs, Minemon.chainTxs, ih fun q hq => hread q (List.mem_cons_of_mem _ hq),
      h.read_eq (hread p List.mem_cons_self)]

theorem Extends.chainTxList : chainTxList s' ptr = Minemon.chainTxList s ptr := by
  induction ptr with
  | nil => rfl
  | cons p l ih =>
    rw [Minemon.chainTxList, Minemon.chainTxList, ih fun q hq => hread q (List.mem_cons_of_mem _ hq),
      h.read_eq (hread p List.mem_cons_self)]

theorem Extends.contextLengths (hlen : ContextLengths s ptr) : ContextLengths s' ptr := by
  intro p hp b hb
  rw [h.read_eq (hread p hp)] at hb
  exact hlen p hp b hb

end

end

end Minemon
