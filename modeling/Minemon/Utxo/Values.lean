import Minemon.Utxo.UniqueIds

/-!
# The values of transactions

A transaction pays what its inputs are worth, less the fee; only mints bring in value. As long as a chain
has minted less than an `int64` holds, no sum of input values wraps around.

* `values_exact`: no more is unspent than was minted, and input values do not wrap.
* `net_eq_sum`: what a chain leaves at some addresses, by what each transaction moves.
-/

namespace Minemon

/-! ## One transaction -/

/-- The value of an output for the addresses in `g`. -/
def outValue (g : CDestination → Bool) (o : CTxOut) : ℤ := if g o.destTo then o.nAmount else 0

/-- What a transaction moves to the addresses in `g`, less what it moves out of them. -/
def txMoves (g : CDestination → Bool) (t : CTransaction × CTxContxt) : ℤ :=
  (if g t.1.sendTo then t.1.nAmount else 0) - if g t.2.destIn then t.1.nAmount + t.1.nTxFee else 0

structure Mints (t : CTransaction × CTxContxt) : Prop where
  inputs : t.1.vInput = []
  amount : 0 ≤ t.1.nAmount

structure Pays (t : CTransaction × CTxContxt) : Prop where
  destIn : t.2.destIn.isNull = false
  amount : 0 ≤ t.1.nAmount
  fee : 0 ≤ t.1.nTxFee
  bounded : t.1.nAmount + t.1.nTxFee < 2 ^ 63
  enough : t.1.nAmount + t.1.nTxFee ≤ t.2.getValueIn

structure Balanced (t : CTransaction × CTxContxt) : Prop where
  shape : TxShape t
  sendTo : t.1.sendTo.isNull = false
  values : if t.1.isMintTx then Mints t else Pays t

def inputValue (txContxt : CTxContxt) : ℤ := (txContxt.vin.map CTxInContxt.nAmount).sum

theorem getValueIn_eq (txContxt : CTxContxt) : txContxt.getValueIn = wrap64 (inputValue txContxt) := by
  have main : ∀ (l : List CTxInContxt) (n : ℤ), l.foldl (fun n i => wrap64 (n + i.nAmount)) (wrap64 n) =
      wrap64 (n + (l.map CTxInContxt.nAmount).sum) := by
    intro l
    induction l with
    | nil =>
      intro n
      rw [List.map_nil, List.sum_nil, add_zero]
      rfl
    | cons i l ih =>
      intro n
      rw [List.foldl_cons, wrap64_add_left, ih, List.map_cons, List.sum_cons, add_assoc]
  have h := main txContxt.vin 0
  rw [zero_add] at h
  exact h

section

variable {E : Env} {t : CTransaction × CTxContxt}

theorem spends_value (h : TxShape t) (g : CDestination → Bool) :
    ((txTransfer E t).spends.map fun e => outValue g e.2).sum = if g t.2.destIn then inputValue t.2 else 0 := by
  unfold txTransfer txInputs outValue inputValue
  simp only [List.map_map]
  have hsnd : (t.1.vInput.zip t.2.vin).map Prod.snd = t.2.vin := List.map_snd_zip (by rw [h.length])
  by_cases hg : g t.2.destIn = true
  · rw [if_pos hg]
    nth_rewrite 2 [← hsnd]
    rw [List.map_map]
    congr 2
    funext i
    simp [hg]
  · rw [if_neg hg]
    refine List.sum_eq_zero fun x hx => ?_
    obtain ⟨i, -, rfl⟩ := List.mem_map.1 hx
    simp [hg]

theorem outValue_filter (g : CDestination → Bool) (l : List (ℕ × CTxOut))
    (hl : ∀ o ∈ l, o.2.isNull = true → outValue g o.2 = 0) :
    ((l.filter fun o => !o.2.isNull).map fun o => outValue g o.2).sum = (l.map fun o => outValue g o.2).sum := by
  induction l with
  | nil => rfl
  | cons o l ih =>
    have hrest := ih fun o' ho' => hl o' (List.mem_cons_of_mem _ ho')
    by_cases ho : o.2.isNull = true
    · rw [List.filter_cons_of_neg (by simpa using ho), hrest, List.map_cons, List.sum_cons,
        hl o List.mem_cons_self ho, zero_add]
    · rw [List.filter_cons_of_pos (by simpa using ho), List.map_cons, List.sum_cons, hrest, List.map_cons,
        List.sum_cons]

variable {g : CDestination → Bool}

theorem outValue_of_null {o : CTxOut} (hdest : o.destTo.isNull = false)
    (hamount : 0 ≤ o.nAmount) (hnull : o.isNull = true) : outValue g o = 0 := by
  simp only [CTxOut.isNull, hdest, Bool.false_or, decide_eq_true_eq] at hnull
  unfold outValue
  split_ifs
  · omega
  · rfl

theorem creates_value (g : CDestination → Bool) :
    ((txTransfer E t).creates.map fun e => outValue g e.2).sum =
      ((txOutputs t.1 t.2).map fun o => outValue g o.2).sum := by
  unfold txTransfer
  rw [List.map_map]
  rfl

theorem Mints.context (h : Mints t) (hshape : TxShape t) : t.2.destIn = CDestination.null ∧ t.2.vin = [] := by
  refine ⟨hshape.destIn h.inputs, List.length_eq_zero_iff.1 ?_⟩
  rw [hshape.length, h.inputs]
  rfl

/-- **A mint** brings its amount to the receiver. -/
theorem Mints.creates (h : Mints t) (hshape : TxShape t) (hsend : t.1.sendTo.isNull = false) (g : CDestination → Bool) :
    ((txTransfer E t).creates.map fun e => outValue g e.2).sum = if g t.1.sendTo then t.1.nAmount else 0 := by
  have hchange : (CTxOut.ofChange t.1 t.2.destIn t.2.getValueIn).isNull = true := by
    unfold CTxOut.isNull CTxOut.ofChange
    rw [(h.context hshape).1]
    rfl
  rw [creates_value, txOutputs, List.filter_cons, List.filter_cons_of_neg (by simpa using hchange)]
  by_cases hnull : (CTxOut.ofTx t.1).isNull = true
  · have hzero := outValue_of_null (g := g) hsend h.amount hnull
    simp only [hnull, Bool.not_true, Bool.false_eq_true, if_false, List.filter_nil, List.map_nil, List.sum_nil]
    exact hzero.symm
  · simp only [hnull, Bool.not_false, if_true, List.filter_nil, List.map_cons, List.map_nil, List.sum_cons,
      List.sum_nil, add_zero]
    rfl

/-- **Another transaction** pays its amount to the receiver, and the rest but the fee back. -/
theorem Pays.creates (h : Pays t) (hsend : t.1.sendTo.isNull = false) (hexact : t.2.getValueIn = inputValue t.2)
    (g : CDestination → Bool) :
    ((txTransfer E t).creates.map fun e => outValue g e.2).sum =
      (if g t.1.sendTo then t.1.nAmount else 0) +
        if g t.2.destIn then inputValue t.2 - t.1.nAmount - t.1.nTxFee else 0 := by
  have hfits : Fits64 t.2.getValueIn := by
    rw [getValueIn_eq]
    exact wrap64_fits _
  have hchange : t.1.getChange t.2.getValueIn = inputValue t.2 - t.1.nAmount - t.1.nTxFee := by
    have h1 := h.amount
    have h2 := h.fee
    have h3 := h.enough
    have h4 := hfits.2
    rw [← hexact]
    exact wrap64_eq ⟨by omega, by omega⟩
  rw [creates_value, txOutputs, outValue_filter]
  · simp only [List.map_cons, List.map_nil, List.sum_cons, List.sum_nil, add_zero]
    unfold outValue CTxOut.ofTx CTxOut.ofChange
    simp only [hchange]
  · intro o ho
    simp only [List.mem_cons, List.not_mem_nil, or_false] at ho
    rcases ho with rfl | rfl
    · exact outValue_of_null hsend h.amount
    · refine outValue_of_null h.destIn ?_
      have h3 := h.enough
      rw [hexact] at h3
      show 0 ≤ t.1.getChange t.2.getValueIn
      rw [hchange]
      omega

theorem Balanced.net (h : Balanced t) (hexact : t.2.getValueIn = inputValue t.2)
    (hg : g CDestination.null = false) : Ledger.net (outValue g) [txTransfer E t] = txMoves g t := by
  have hvalues := h.values
  unfold Ledger.net txMoves
  rw [List.map_singleton, List.sum_singleton, spends_value h.shape]
  split_ifs at hvalues with hmint
  · rw [hvalues.creates h.shape h.sendTo, (hvalues.context h.shape).1, hg]
    rfl
  · rw [hvalues.creates h.sendTo hexact]
    by_cases hin : g t.2.destIn = true
    · rw [if_pos hin, if_pos hin, if_pos hin]
      ring
    · rw [if_neg hin, if_neg hin, if_neg hin]
      ring

/-! ## Chains -/

/-- What the mints of a list of transactions pay. -/
def minted (txs : List CTransaction) : ℤ := ((txs.filter CTransaction.isMintTx).map CTransaction.nAmount).sum

theorem minted_append (A C : List CTransaction) : minted (A ++ C) = minted A + minted C := by
  unfold minted
  rw [List.filter_append, List.map_append, List.sum_append]

theorem Balanced.net_all (h : Balanced t) (hexact : t.2.getValueIn = inputValue t.2) :
    Ledger.net (outValue fun _ => true) [txTransfer E t] ≤ minted [t.1] := by
  have hvalues := h.values
  unfold Ledger.net minted
  rw [List.map_singleton, List.sum_singleton, spends_value h.shape]
  split_ifs at hvalues with hmint
  · rw [hvalues.creates h.shape h.sendTo, List.filter_cons_of_pos hmint]
    simp [inputValue, (hvalues.context h.shape).2]
  · rw [hvalues.creates h.sendTo hexact, List.filter_cons_of_neg hmint]
    have := hvalues.fee
    simp only [if_true, List.filter_nil, List.map_nil, List.sum_nil]
    omega

variable {X : List (CTransaction × CTxContxt)}

theorem minted_nonneg (hX : ∀ t ∈ X, Balanced t) : 0 ≤ minted (X.map Prod.fst) := by
  unfold minted
  refine List.sum_nonneg fun x hx => ?_
  obtain ⟨tx, htx, rfl⟩ := List.mem_map.1 hx
  obtain ⟨hmem, hmint⟩ := List.mem_filter.1 htx
  obtain ⟨t, ht, rfl⟩ := List.mem_map.1 hmem
  have hvalues := (hX t ht).values
  rw [if_pos hmint] at hvalues
  exact hvalues.amount

/-- **No more is unspent than was minted, and no input value wraps around**, if what is minted fits an `int64`. -/
theorem values_exact (hX : ∀ t ∈ X, Balanced t) (hvalid : Ledger.Valid (X.map (txTransfer E)))
    (hag : Ledger.Agree (X.map (txTransfer E)) (X.map (txTransfer E))) (hminted : minted (X.map Prod.fst) < 2 ^ 63) :
    Ledger.net (outValue fun _ => true) (X.map (txTransfer E)) ≤ minted (X.map Prod.fst) ∧
      ∀ t ∈ X, t.2.getValueIn = inputValue t.2 := by
  induction X using List.reverseRecOn with
  | nil => exact ⟨le_rfl, fun t ht => by simp at ht⟩
  | append_singleton X t ih =>
    have hmap : (X ++ [t]).map (txTransfer E) = X.map (txTransfer E) ++ [txTransfer E t] := List.map_append
    have hfst : (X ++ [t]).map Prod.fst = X.map Prod.fst ++ [t.1] := List.map_append
    have ht : Balanced t := hX t (by simp)
    have hleft : ∀ u ∈ X, Balanced u := fun u hu => hX u (List.mem_append_left _ hu)
    have hone : 0 ≤ minted [t.1] := minted_nonneg (X := [t]) (by simpa using ht)
    rw [hmap] at hvalid hag
    rw [hfst, minted_append] at hminted
    have hcreated : ∀ e ∈ Ledger.created (X.map (txTransfer E)),
        e ∈ Ledger.created (X.map (txTransfer E) ++ [txTransfer E t]) := fun e he => by
      rw [Ledger.created_append]
      exact List.mem_append_left _ he
    have hagX : Ledger.Agree (X.map (txTransfer E)) (X.map (txTransfer E)) := fun e he e' he' =>
      hag e (hcreated e he) e' (hcreated e' he')
    have hpos : ∀ e ∈ Ledger.created (X.map (txTransfer E)), 0 ≤ outValue (fun _ => true) e.2 := fun e he =>
      (CTxOut.pos_of_not_isNull (not_isNull_of_mem_created he)).le
    obtain ⟨hnet, hexact⟩ := ih hleft hvalid.left hagX (by omega)
    have htx : t.2.getValueIn = inputValue t.2 := by
      have hspends : ((txTransfer E t).spends.map fun e => outValue (fun _ => true) e.2).sum = inputValue t.2 :=
        spends_value ht.shape _
      have hle := hvalid.legal.spends_le hvalid.left hagX hpos
      have hge : 0 ≤ ((txTransfer E t).spends.map fun e => outValue (fun _ => true) e.2).sum := by
        refine List.sum_nonneg fun x hx => ?_
        obtain ⟨e, he, rfl⟩ := List.mem_map.1 hx
        exact hpos e (hvalid.legal.spent e he).2
      rw [hspends] at hle hge
      rw [getValueIn_eq]
      exact wrap64_eq (fits64_of_nonneg hge (by omega))
    refine ⟨?_, fun u hu => ?_⟩
    · have hstep := ht.net_all (E := E) htx
      rw [hmap, hfst, Ledger.net_append, minted_append]
      omega
    · rcases List.mem_append.1 hu with hu | hu
      · exact hexact u hu
      · rw [List.mem_singleton.1 hu]
        exact htx

/-- **What a history leaves at some addresses**, by what each transaction moves. -/
theorem net_eq_sum (hX : ∀ t ∈ X, Balanced t) (hexact : ∀ t ∈ X, t.2.getValueIn = inputValue t.2)
    (hg : g CDestination.null = false) : Ledger.net (outValue g) (X.map (txTransfer E)) = (X.map (txMoves g)).sum := by
  induction X with
  | nil => rfl
  | cons t X ih =>
    rw [List.map_cons, ← List.singleton_append, Ledger.net_append,
      (hX t List.mem_cons_self).net (hexact t List.mem_cons_self) hg,
      ih (fun u hu => hX u (List.mem_cons_of_mem _ hu)) fun u hu => hexact u (List.mem_cons_of_mem _ hu)]
    rfl

end

/-! ## Blocks -/

section

variable {E : Env} {c : CBlockChain} {nNetTime : ℤ} {block : CBlock}

section

variable (a : Stored E nNetTime c block) (hcache : Entries (fun _ => RewardForms) c.mapCacheDistributePledgeReward)

include a hcache

theorem Stored.destIn_not_null {t : CTransaction × CTxContxt}
    (ht : t ∈ block.vtx.zip a.vTxContxt) (htype : t.1.isMintTx = false) : t.2.destIn.isNull = false := by
  have hmem : t ∈ a.b.txs := by
    rw [a.txs_eq]
    exact List.mem_cons_of_mem _ ht
  have hsig := (verifyBlockTx_ok E (a.verified hcache t hmem htype)).2.2
  by_contra hnull
  exact verifyBlockTxSignature_null _ (by simpa using hnull) _ _ hsig

theorem Stored.reward_or_not_mint {tx : CTransaction} (htx : tx ∈ block.vtx) : RewardForm tx ∨ tx.isMintTx = false := by
  have hforms := (getDistributePledgeRewardTxList_forms hcache a.rewardList).2 _ rfl
  obtain ⟨htake, hdrop⟩ := checkTxLoop_rewards _ _ _ _ a.txs
  rw [← List.take_append_drop a.rewards.length block.vtx, htake] at htx
  rcases List.mem_append.1 htx with htx | htx
  · exact Or.inl (hforms tx (List.mem_of_mem_take htx))
  · exact Or.inr (hdrop tx htx)

end

theorem moneyRange_true {n : ℤ} (h : moneyRange n = true) : 0 ≤ n ∧ n ≤ 10 ^ 18 := by
  simp only [moneyRange, Bool.and_eq_true, decide_eq_true_eq] at h
  exact ⟨h.1, h.2.trans (by decide)⟩

/-- **The transactions of a stored block are balanced** when its mints pay no negative amounts. -/
theorem Stored.balanced (a : Stored E nNetTime c block)
    (hcache : Entries (fun _ => RewardForms) c.mapCacheDistributePledgeReward) (hshape : ∀ t ∈ a.b.txs, TxShape t)
    (hmint : ∀ tx ∈ block.txMint :: block.vtx, tx.isMintTx = true → 0 ≤ tx.nAmount) : ∀ t ∈ a.b.txs, Balanced t := by
  intro t ht
  have hmem := CBlockEx.fst_mem_of_mem_txs ht
  refine ⟨hshape t ht, (a.nodup_inputs hcache t ht).2, ?_⟩
  have htxs := ht
  rw [a.txs_eq] at ht
  split_ifs with htype
  · refine ⟨?_, hmint t.1 hmem htype⟩
    rcases List.mem_cons.1 ht with rfl | ht
    · exact a.mint.inputs
    · exact ((a.reward_or_not_mint hcache (List.of_mem_zip ht).1).resolve_right (by simp [htype])).inputs
  · have hnot : t.1.isMintTx = false := by simpa using htype
    rcases List.mem_cons.1 ht with rfl | ht
    · exact absurd a.valid.mint htype
    · have hv := (verifyBlockTx_ok E (a.verified hcache t htxs hnot)).1
      obtain ⟨h1, h2⟩ := moneyRange_true (a.valid.vtx t.1 (List.of_mem_zip ht).1 hnot).amount
      obtain ⟨h3, h4⟩ := moneyRange_true hv.fee
      have henough := hv.enough
      rw [wrap64_eq (fits64_of_nonneg (by omega) (by omega))] at henough
      exact ⟨a.destIn_not_null hcache ht hnot, h1, h3, by omega, henough⟩

end

/-! ## Runs -/

structure MintsBounded (txs : List CTransaction) (block : CBlock) : Prop where
  nonneg : ∀ tx ∈ block.txMint :: block.vtx, tx.isMintTx = true → 0 ≤ tx.nAmount
  bounded : minted (txs ++ block.txMint :: block.vtx) < 2 ^ 63

def outPoints (E : Env) (txs : List CTransaction) : Finset CTxOutPoint :=
  (txs.flatMap fun tx => [⟨tx.getHash E, 0⟩, ⟨tx.getHash E, 1⟩]).toFinset

/-- What the addresses in `g` have unspent on a chain. -/
def unspentValue (E : Env) (s : CBlockBase) (g : CDestination → Bool) (ptr : CBlockIndexPtr) : ℤ :=
  ∑ out ∈ outPoints E (chainTxList s ptr), (utxoOf E s ptr out).elim 0 (outValue g)

section

variable {E : Env} {P : CBlockChain → CBlock → Prop} {c : CBlockChain} {hash : ℕ} {p q : CBlockIndex}
  {l : CBlockIndexPtr}

theorem Run.everyAddition {Q : List CTransaction → CBlock → Prop} (h : Run E P c)
    (hP : ∀ c block, P c block → Q (chainTxList c.cntrBlock (c.cntrBlock.mapIndex block.hashPrev)) block)
    (hp : c.cntrBlock.mapIndex hash = p :: q :: l) {b : CBlockEx} (hb : c.cntrBlock.read p = some b) :
    Q (chainTxList c.cntrBlock (q :: l)) b.block := by
  obtain ⟨c0, c1, nNetTime, block, a, hrun, hcond, hnew, hext⟩ := h.origin hp
  rw [a.toStored.pIndexNew_eq] at hnew
  obtain ⟨rfl, htail⟩ := List.cons.inj hnew
  have hs := hrun.storeOK
  have hchain := (hs.chain _ _ _ a.prev).2
  obtain rfl := Option.some.inj ((hext.read a.toStored.read).symm.trans hb)
  have hQ := hP c0 block hcond
  rw [a.prev] at hQ
  rw [← htail, ((a.toStored.extends hs).trans hext).chainTxList hchain.read]
  exact hQ

theorem genesis_balanced (E : Env) : ∀ t ∈ ({ block := getGenesisBlock E } : CBlockEx).txs, Balanced t := by
  intro t ht
  obtain rfl : t = ((getGenesisBlock E).txMint, {}) := List.mem_singleton.1 ht
  exact ⟨⟨rfl, fun _ => rfl⟩, rfl, rfl, show (0 : ℤ) ≤ BPX_INIT_REWARD_TOKEN by decide⟩

/-- **Every transaction of a run is balanced** when no mint pays a negative amount. -/
theorem Run.balanced (h : Run E P c) (hf : CollisionFree E c.cntrBlock)
    (hP : ∀ c block, P c block → ∀ tx ∈ block.txMint :: block.vtx, tx.isMintTx = true → 0 ≤ tx.nAmount)
    (hp : c.cntrBlock.mapIndex hash = p :: l) : ∀ t ∈ chainTxs c.cntrBlock (p :: l), Balanced t := by
  intro t ht
  obtain ⟨q, hq, b, hb, htb⟩ := mem_chainTxs.1 ht
  refine h.everyBlock (Q := fun b => (∀ t ∈ b.txs, TxShape t) → ∀ t ∈ b.txs, Balanced t)
    (fun _ => genesis_balanced E) ?_ hp q hq b hb ?_ t htb
  · intro c nNetTime block a hrun hcond hshape
    exact a.balanced hrun.cache_forms hshape (hP c block hcond)
  · intro u hu
    exact ((h.historyOK hf).valid _ _ _ hp).2 u (mem_chainTxs.2 ⟨q, hq, b, hb, hu⟩)

theorem Run.minted_lt (h : Run E P c)
    (hP : ∀ c block, P c block →
      MintsBounded (chainTxList c.cntrBlock (c.cntrBlock.mapIndex block.hashPrev)) block)
    (hp : c.cntrBlock.mapIndex hash = p :: l) : minted (chainTxList c.cntrBlock (p :: l)) < 2 ^ 63 := by
  have hchain := (h.storeOK.chain _ _ _ hp).2
  obtain ⟨b, hb⟩ := Option.isSome_iff_exists.1 (hchain.read p List.mem_cons_self)
  cases l with
  | nil =>
    rw [chainTxList, hchain.read_genesis]
    show minted [(getGenesisBlock E).txMint] < 2 ^ 63
    exact show BPX_INIT_REWARD_TOKEN + 0 < 2 ^ 63 by decide
  | cons q l =>
    have hbound := (h.everyAddition (Q := MintsBounded) hP hp hb).bounded
    rw [chainTxList, hb, Option.elim_some, CBlock.txList, hchain.txMint_not_null hb]
    exact hbound

theorem mem_outPoints {e : CTxOutPoint × CTxOut} {s : CBlockBase} {ptr : CBlockIndexPtr}
    (hlen : ContextLengths s ptr) (he : e ∈ Ledger.created (history E s ptr)) :
    e.1 ∈ outPoints E (chainTxList s ptr) := by
  obtain ⟨f, hf, hef⟩ := List.mem_flatMap.1 he
  obtain ⟨t, ht, rfl⟩ := List.mem_map.1 hf
  have htx : t.1 ∈ chainTxList s ptr := chainTxs_map_fst hlen ▸ List.mem_map_of_mem ht
  refine List.mem_toFinset.2 (List.mem_flatMap.2 ⟨t.1, htx, ?_⟩)
  obtain ⟨o, ho, rfl⟩ := List.mem_map.1 hef
  have hout := (List.mem_filter.1 ho).1
  simp only [List.mem_cons, List.not_mem_nil, or_false] at hout
  rcases hout with rfl | rfl <;> simp

variable (h : TreeOK E c) (hp : c.cntrBlock.mapIndex hash = p :: l)

include h hp

theorem TreeOK.unspentValue_le (g : CDestination → Bool) :
    0 ≤ unspentValue E c.cntrBlock g (p :: l) ∧
      unspentValue E c.cntrBlock g (p :: l) ≤ unspentValue E c.cntrBlock (fun _ => true) (p :: l) := by
  have hpos : ∀ out, 0 ≤ (utxoOf E c.cntrBlock (p :: l) out).elim 0 (outValue g) ∧
      (utxoOf E c.cntrBlock (p :: l) out).elim 0 (outValue g) ≤
        (utxoOf E c.cntrBlock (p :: l) out).elim 0 (outValue fun _ => true) := by
    intro out
    cases hout : utxoOf E c.cntrBlock (p :: l) out with
    | none => exact ⟨le_rfl, le_rfl⟩
    | some o =>
      rw [h.utxoOf_eq hp] at hout
      have hcreated := (Ledger.replay_backed (h.history_valid hp) out o hout).2
      have ho : 0 < o.nAmount := CTxOut.pos_of_not_isNull (not_isNull_of_mem_created hcreated)
      simp only [Option.elim_some, outValue, if_true]
      split_ifs <;> omega
  exact ⟨Finset.sum_nonneg fun out _ => (hpos out).1, Finset.sum_le_sum fun out _ => (hpos out).2⟩

variable (hu : UniqueIds E c.cntrBlock)

include hu

theorem TreeOK.unspentValue_eq (g : CDestination → Bool) :
    unspentValue E c.cntrBlock g (p :: l) = Ledger.net (outValue g) (history E c.cntrBlock (p :: l)) :=
  Ledger.sum_eq_net (h.history_valid hp) (h.history_unique hp hu) (h.utxoOf_exact hp hu)
    fun _ he => mem_outPoints (h.lengths _ _ _ hp) he

/-- **What addresses have unspent** is what the transactions of the chain moved to them. -/
theorem TreeOK.unspentValue_eq_sum (hbal : ∀ t ∈ chainTxs c.cntrBlock (p :: l), Balanced t)
    (hminted : minted (chainTxList c.cntrBlock (p :: l)) < 2 ^ 63) {g : CDestination → Bool}
    (hg : g CDestination.null = false) :
    unspentValue E c.cntrBlock g (p :: l) = ((chainTxs c.cntrBlock (p :: l)).map (txMoves g)).sum ∧
      unspentValue E c.cntrBlock g (p :: l) ≤ minted (chainTxList c.cntrBlock (p :: l)) := by
  rw [← chainTxs_map_fst (h.lengths _ _ _ hp)] at hminted ⊢
  obtain ⟨hnet, hexact⟩ := values_exact hbal (h.history_valid hp) (h.history_unique hp hu).agree hminted
  constructor
  · rw [h.unspentValue_eq hp hu]
    exact net_eq_sum hbal hexact hg
  · refine (h.unspentValue_le hp g).2.trans ?_
    rw [h.unspentValue_eq hp hu]
    exact hnet

end

end Minemon
