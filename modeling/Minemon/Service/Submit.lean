import Minemon.Pool.Arrange

/-!
# The size of submitted work

`GetWorkTx` completes the block of a submitted proof. It budgets the transactions against an empty block with a
proof of full length, and counts neither the data and the template of the mint transaction nor a counter of more
than one byte.

* `submitWork_size_iff`: when the block is within `MAX_BLOCK_SIZE`.
-/

namespace Minemon

/-! ## SubmitWork -/

section

variable (E : Env)

def CService.getWorkTx (c : CBlockChain) (pool : CTxPool) (templMint : CTemplateProof) (nPrevBlockTime : ℕ)
    (block : CBlock) : Option (Option CBlock) :=
  let destMintPow := templMint.dest E
  let nPledgeReward := getMintPledgeReward E c.cntrBlock block.hashPrev destMintPow
  if nPledgeReward < 0 then some none
  else
    match pool.arrangeBlockTx block.hashPrev with
    | none => some none
    | some (vtx, _) =>
      match getDistributePledgeRewardTxList E c.cntrBlock c.mapCacheDistributePledgeReward block.hashPrev
          nPrevBlockTime with
      | none => none
      | some (none, _) => some none
      | some (some vPledgeRewardTxList, _) =>
        some <| (Minemon.getWorkTx vPledgeRewardTxList vtx).map fun work =>
          { block with
            txMint :=
              { block.txMint with
                nType := CTransaction.TX_WORK
                nTimeStamp := (nPrevBlockTime + 1) % 2 ^ 32
                sendTo := destMintPow
                nAmount := wrap64 (getBlockPowReward block.getBlockHeight + work.2)
                vchSig := (CTemplate.proof templMint).buildTemplateData
                vchData := block.txMint.vchData ++ int64Bytes nPledgeReward }
            vtx := block.vtx ++ work.1 }

/-- `SubmitWork` until the block is complete, for the fields that it reads from the work data. -/
def CService.submitWork (c : CBlockChain) (pool : CTxPool) (templMint : CTemplateProof) (work : CBlock) :
    Option (Option CBlock) :=
  if work.vchProof.length > PROOFHASHWORK_SIZE then some none
  else
    match c.cntrBlock.mapIndex work.hashPrev with
    | [] => some none
    | blockPrev :: _ =>
      CService.getWorkTx E c pool templMint blockPrev.nTimeStamp
        { nVersion := work.nVersion
          nType := work.nType
          nTimeStamp := work.nTimeStamp
          hashPrev := work.hashPrev
          hashMerkle := work.hashMerkle
          nBits := work.nBits
          vchProof := work.vchProof }

end

/-! ## The budget -/

def txsSize (vtx : List CTransaction) : ℕ := (vtx.map CTransaction.getSerializeSize).sum

@[simp] theorem txsSize_append (l l' : List CTransaction) : txsSize (l ++ l') = txsSize l + txsSize l' := by
  simp [txsSize]

@[simp] theorem txsSize_cons (tx : CTransaction) (l : List CTransaction) :
    txsSize (tx :: l) = tx.getSerializeSize + txsSize l := by simp [txsSize]

def nMaxTxSize : ℕ :=
  MAX_BLOCK_SIZE - ({ vchProof := List.replicate PROOFHASHWORK_SIZE 0 } : CBlock).getSerializeSize

theorem nMaxTxSize_eq : nMaxTxSize = 1998996 := by
  have hsize : ({ vchProof := List.replicate PROOFHASHWORK_SIZE 0 } : CBlock).getSerializeSize = 1004 := by
    unfold CBlock.getSerializeSize CBlock.getTxSerializedOffset streamBytesSize
    rw [List.length_replicate]
    rfl
  rw [nMaxTxSize, hsize]
  rfl

theorem workRewardLoop_eq_some {nMax n m : ℕ} {l : List CTransaction} (h : workRewardLoop nMax l n = some m) :
    m = n + txsSize l ∧ (l ≠ [] → m ≤ nMax) := by
  induction l generalizing n with
  | nil =>
    rw [workRewardLoop, Option.some.injEq] at h
    exact ⟨by rw [← h]; rfl, fun hne => absurd rfl hne⟩
  | cons tx l ih =>
    rw [workRewardLoop] at h
    split_ifs at h with hfit
    obtain ⟨hm, hle⟩ := ih h
    refine ⟨by rw [hm, txsSize_cons]; omega, fun _ => ?_⟩
    cases l with
    | nil =>
      rw [hm]
      exact not_lt.1 hfit
    | cons tx' l => exact hle (by simp)

/-- **The loop over the pool's list** keeps as many transactions as fit. -/
theorem workTxLoop_fit (nMax : ℕ) (l : List CTransaction) (n : ℕ) (vtx : List CTransaction) (fee : ℤ) :
    ∃ k ≤ l.length, (workTxLoop nMax l n vtx fee).1 = vtx ++ l.take k ∧ (k = 0 ∨ n + txsSize (l.take k) ≤ nMax) ∧
      ∀ j, k < j → j ≤ l.length → nMax < n + txsSize (l.take j) := by
  induction l generalizing n vtx fee with
  | nil => exact ⟨0, le_rfl, by simp [workTxLoop], Or.inl rfl, fun j hj hle => absurd hle (by simpa using hj.ne')⟩
  | cons tx l ih =>
    rw [workTxLoop]
    split_ifs with hfit
    · refine ⟨0, Nat.zero_le _, by simp, Or.inl rfl, fun j hj hle => ?_⟩
      obtain ⟨j, rfl⟩ := Nat.exists_eq_succ_of_ne_zero hj.ne'
      rw [List.take_succ_cons, txsSize_cons]
      omega
    · obtain ⟨k, hk, heq, hle, hmax⟩ := ih (n + tx.getSerializeSize) (vtx ++ [tx]) (wrap64 (fee + tx.nTxFee))
      refine ⟨k + 1, Nat.succ_le_succ hk, by rw [heq, List.take_succ_cons]; simp, Or.inr ?_, fun j hj hjl => ?_⟩
      · rw [List.take_succ_cons, txsSize_cons]
        rcases hle with rfl | hle
        · rw [List.take_zero, txsSize, List.map_nil, List.sum_nil]
          omega
        · omega
      · obtain ⟨j, rfl⟩ := Nat.exists_eq_succ_of_ne_zero (Nat.ne_zero_of_lt hj)
        rw [List.take_succ_cons, txsSize_cons]
        have := hmax j (Nat.lt_of_succ_lt_succ hj) (Nat.le_of_succ_le_succ hjl)
        omega

theorem varIntSize_mono {m n : ℕ} (h : m ≤ n) : varIntSize m ≤ varIntSize n := by
  unfold varIntSize
  split_ifs <;> omega

theorem txsSize_take_mono (l : List CTransaction) {j k : ℕ} (h : j ≤ k) : txsSize (l.take j) ≤ txsSize (l.take k) := by
  have hsplit := List.take_append_drop j (l.take k)
  rw [List.take_take, min_eq_left h] at hsplit
  rw [← hsplit, txsSize_append]
  omega

/-! ## The block -/

theorem length_proofData (templMint : CTemplateProof) :
    ((CTemplate.proof templMint).buildTemplateData).length = 37 := by
  show (templMint.destSpent.toBytes ++ leBytes 4 templMint.nPledgeFee).length = 37
  rw [List.length_append, CDestination.length_toBytes, length_leBytes]

theorem mintTx_size {tx : CTransaction} (hInput : tx.vInput = []) (hData : tx.vchData.length = 8)
    (hSig : tx.vchSig.length = 37) : tx.getSerializeSize = 109 := by
  rw [CTransaction.getSerializeSize, streamBytesSize, streamBytesSize, hInput, hData, hSig]
  rfl

section

variable {E : Env} {c : CBlockChain} {pool : CTxPool} {templMint : CTemplateProof} {work done : CBlock}

theorem submitWork_cases (h : CService.submitWork E c pool templMint work = some (some done)) :
    work.vchProof.length ≤ PROOFHASHWORK_SIZE ∧ ∃ blockPrev l vtx nFee vPledgeRewardTxList cache txs nTotalTxFee,
      c.cntrBlock.mapIndex work.hashPrev = blockPrev :: l ∧ pool.arrangeBlockTx work.hashPrev = some (vtx, nFee) ∧
      getDistributePledgeRewardTxList E c.cntrBlock c.mapCacheDistributePledgeReward work.hashPrev
        blockPrev.nTimeStamp = some (some vPledgeRewardTxList, cache) ∧
      getWorkTx vPledgeRewardTxList vtx = some (txs, nTotalTxFee) ∧ done.vtx = txs ∧
      done.getSerializeSize = 185 + streamBytesSize work.vchProof + varIntSize txs.length + txsSize txs := by
  unfold CService.submitWork at h
  by_cases hproof : work.vchProof.length > PROOFHASHWORK_SIZE
  · rw [if_pos hproof] at h
    simp at h
  rw [if_neg hproof] at h
  split at h
  · simp at h
  · rename_i blockPrev l hprev
    unfold CService.getWorkTx at h
    dsimp only at h
    split at h
    · simp at h
    split at h
    · simp at h
    · rename_i vtx nFee hvtx
      split at h
      · simp at h
      · simp at h
      · rename_i vPledgeRewardTxList cache hrewards
        obtain ⟨⟨txs, nTotalTxFee⟩, hwork, rfl⟩ := Option.map_eq_some_iff.1 (Option.some.inj h)
        refine ⟨not_lt.1 hproof, blockPrev, l, vtx, nFee, vPledgeRewardTxList, cache, txs, nTotalTxFee, hprev, hvtx,
          hrewards, hwork, rfl, ?_⟩
        rw [CBlock.getSerializeSize, mintTx_size rfl (length_int64Bytes _) (length_proofData templMint)]
        show 2 + 2 + 4 + 32 + 32 + 4 + streamBytesSize work.vchProof + 109 + varIntSize txs.length + txsSize txs = _
        omega

/-- **The size of submitted work.** The block is within the limit exactly when every number of pool transactions
that the budget allows leaves room for its counter and the proof: 819 bytes are left for them besides the budget,
after the 45 of the mint transaction that it does not count. -/
theorem submitWork_size_iff (h : CService.submitWork E c pool templMint work = some (some done)) :
    done.getSerializeSize ≤ MAX_BLOCK_SIZE ↔
      ∀ blockPrev l vtx nFee vPledgeRewardTxList cache, c.cntrBlock.mapIndex work.hashPrev = blockPrev :: l →
        pool.arrangeBlockTx work.hashPrev = some (vtx, nFee) →
        getDistributePledgeRewardTxList E c.cntrBlock c.mapCacheDistributePledgeReward work.hashPrev
          blockPrev.nTimeStamp = some (some vPledgeRewardTxList, cache) →
        ∀ k ≤ vtx.length, txsSize (vPledgeRewardTxList ++ vtx.take k) ≤ nMaxTxSize →
          txsSize (vPledgeRewardTxList ++ vtx.take k) + varIntSize (vPledgeRewardTxList.length + k)
            + streamBytesSize work.vchProof ≤ nMaxTxSize + 819 := by
  obtain ⟨-, blockPrev, l, vtx, nFee, rewards, cache, txs, fee, hprev, hvtx, hrewards, hwork, -, hsize⟩ :=
    submitWork_cases h
  obtain ⟨n, hn, hloop⟩ := Option.map_eq_some_iff.1 hwork
  obtain ⟨hn, hnmax⟩ := workRewardLoop_eq_some hn
  obtain ⟨k, hk, hkept, hfit, hmax⟩ := workTxLoop_fit nMaxTxSize vtx n rewards 0
  rw [Nat.zero_add] at hn
  obtain rfl : txs = rewards ++ vtx.take k := by rw [← hkept]; exact (congrArg Prod.fst hloop).symm
  have hlen : (rewards ++ vtx.take k).length = rewards.length + k := by
    rw [List.length_append, List.length_take, min_eq_left hk]
  have hbudget : txsSize (rewards ++ vtx.take k) ≤ nMaxTxSize := by
    rw [txsSize_append, ← hn]
    rcases hfit with rfl | hfit
    · rw [List.take_zero]
      by_cases hr : rewards = []
      · rw [hn, hr]
        exact Nat.zero_le _
      · exact hnmax hr
    · exact hfit
  rw [hsize, hlen, show MAX_BLOCK_SIZE = 2000000 from rfl, nMaxTxSize_eq]
  constructor
  · -- any other number of transactions that fits is smaller
    intro hle blockPrev' l' vtx' nFee' rewards' cache' hprev' hvtx' hrewards' j hj hjfit
    obtain rfl := (List.cons.inj (hprev.symm.trans hprev')).1
    obtain ⟨rfl, -⟩ := Prod.mk.inj (Option.some.inj (hvtx.symm.trans hvtx'))
    obtain ⟨heq, -⟩ := Prod.mk.inj (Option.some.inj (hrewards.symm.trans hrewards'))
    obtain rfl := Option.some.inj heq
    have hjk : j ≤ k := by
      by_contra hlt
      have := hmax j (not_le.1 hlt) hj
      rw [txsSize_append, ← hn] at hjfit
      rw [nMaxTxSize_eq] at this
      omega
    have h1 := txsSize_take_mono vtx hjk
    have h2 := varIntSize_mono (Nat.add_le_add_left hjk rewards.length)
    rw [txsSize_append] at hle ⊢
    omega
  · intro hall
    have := hall blockPrev l vtx nFee rewards cache hprev hvtx hrewards k hk (by rwa [nMaxTxSize_eq] at hbudget)
    omega

end

/-! ## Toy work -/

/-- A pool with a list for the block on the genesis block. -/
def toyListPool (vtx : List CTransaction) : CTxPool := { txCache := OrdMap.empty.insert (hashGenesisBlock toyEnv) vtx }

/-- Work on the genesis block with a proof of the given length. -/
def toySubmitted (nProofSize : ℕ) : CBlock where
  nType := CBlock.BLOCK_PRIMARY
  nTimeStamp := GENESIS_TIME + 60
  hashPrev := hashGenesisBlock toyEnv
  nBits := getCompact (nProofOfWorkInit toyEnv)
  vchProof := List.replicate nProofSize 0

theorem toySubmitted_proof (nProofSize : ℕ) : (toySubmitted nProofSize).vchProof.length = nProofSize :=
  List.length_replicate

/-- A pool with two transactions for the block on the genesis block. -/
def toyTwoPool : CTxPool := toyListPool [toyCoinTx 1 [⟨1, 0⟩] 1, toyCoinTx 2 [⟨2, 0⟩] 1]

theorem submitWork_size_toy :
    ∃ done, CService.submitWork toyEnv (genesisChain toyEnv) toyTwoPool toyMiner (toySubmitted 138) =
        some (some done) ∧ done.vtx.length = 2 ∧ done.getSerializeSize ≤ MAX_BLOCK_SIZE ∧
      ∀ blockPrev l vtx nFee vPledgeRewardTxList cache,
        (genesisChain toyEnv).cntrBlock.mapIndex (toySubmitted 138).hashPrev = blockPrev :: l →
        toyTwoPool.arrangeBlockTx (toySubmitted 138).hashPrev = some (vtx, nFee) →
        getDistributePledgeRewardTxList toyEnv (genesisChain toyEnv).cntrBlock
          (genesisChain toyEnv).mapCacheDistributePledgeReward (toySubmitted 138).hashPrev blockPrev.nTimeStamp =
            some (some vPledgeRewardTxList, cache) →
        ∀ k ≤ vtx.length, txsSize (vPledgeRewardTxList ++ vtx.take k) ≤ nMaxTxSize →
          txsSize (vPledgeRewardTxList ++ vtx.take k) + varIntSize (vPledgeRewardTxList.length + k)
            + streamBytesSize (toySubmitted 138).vchProof ≤ nMaxTxSize + 819 := by
  obtain ⟨done, hdone, hlen, hle⟩ : ∃ done, (CService.submitWork toyEnv (genesisChain toyEnv) toyTwoPool toyMiner
      (toySubmitted 138)).bind id = some done ∧ done.vtx.length = 2 ∧ done.getSerializeSize ≤ MAX_BLOCK_SIZE :=
    exists_some_of_any (by decide +kernel)
  obtain ⟨r, hr, rfl⟩ := Option.bind_eq_some_iff.1 hdone
  exact ⟨done, hr, hlen, hle, (submitWork_size_iff hr).1 hle⟩

def toyBigTx (nSeconds nData : ℕ) : CTransaction :=
  { toyCoinTx nSeconds [⟨nSeconds, 0⟩] 1 with vchData := List.replicate nData 0 }

theorem toyBigTx_size (nSeconds : ℕ) {nData : ℕ} (h : 65535 < nData) (h' : nData ≤ 4294967295) :
    (toyBigTx nSeconds nData).getSerializeSize = 165 + nData := by
  have hData : streamBytesSize (toyBigTx nSeconds nData).vchData = 5 + nData := by
    show varIntSize (List.replicate nData (0 : UInt8)).length + (List.replicate nData (0 : UInt8)).length = _
    rw [List.length_replicate, varIntSize, if_neg (by omega), if_neg (by omega), if_pos h']
  rw [CTransaction.getSerializeSize, hData]
  show 2 + 2 + 4 + 4 + (varIntSize 1 + 33 * 1) + 33 + 8 + 8 + (5 + nData) + (varIntSize 64 + 64) = _
  rw [show varIntSize 1 = 1 from rfl, show varIntSize 64 = 1 from rfl]
  omega

/-- Twenty transactions that fill the budget; none of them is larger than `MAX_TX_SIZE`. -/
def toyBigTxs : List CTransaction := (List.range 19).map (fun i => toyBigTx i 99785) ++ [toyBigTx 19 99781]

theorem toyBigTxs_size : txsSize toyBigTxs = 1998996 ∧ ∀ tx ∈ toyBigTxs, tx.getSerializeSize ≤ MAX_TX_SIZE := by
  have hsize : ∀ i, (toyBigTx i 99785).getSerializeSize = 99950 := fun i => toyBigTx_size i (by norm_num) (by norm_num)
  have hlast : (toyBigTx 19 99781).getSerializeSize = 99946 := toyBigTx_size 19 (by norm_num) (by norm_num)
  constructor
  · have hsum : txsSize ((List.range 19).map fun i => toyBigTx i 99785) = 19 * 99950 := by
      have hmap : (List.range 19).map (CTransaction.getSerializeSize ∘ fun i => toyBigTx i 99785) =
          (List.range 19).map fun _ => 99950 := List.map_congr_left fun i _ => hsize i
      rw [txsSize, List.map_map, hmap]
      rfl
    rw [toyBigTxs, txsSize_append, hsum, txsSize_cons, hlast]
    rfl
  · intro tx htx
    rcases List.mem_append.1 htx with htx | htx
    · obtain ⟨i, -, rfl⟩ := List.mem_map.1 htx
      rw [hsize]
      decide
    · rw [List.mem_singleton.1 htx, hlast]
      decide

/-- **An oversized block**: the transactions fill the budget, and the proof has its full length. -/
theorem submitWork_oversized :
    ∃ vtx done, (∀ tx ∈ vtx, tx.getSerializeSize ≤ MAX_TX_SIZE) ∧
      CService.submitWork toyEnv (genesisChain toyEnv) (toyListPool vtx) toyMiner (toySubmitted PROOFHASHWORK_SIZE) =
        some (some done) ∧ MAX_BLOCK_SIZE < done.getSerializeSize := by
  have hprev : (genesisChain toyEnv).cntrBlock.mapIndex (hashGenesisBlock toyEnv) = [genesisEntry toyEnv] := by
    decide +kernel
  have hreward : ¬getMintPledgeReward toyEnv (genesisChain toyEnv).cntrBlock (hashGenesisBlock toyEnv)
      (toyMiner.dest toyEnv) < 0 := by decide +kernel
  have hvtx : ∃ nFee, (toyListPool toyBigTxs).arrangeBlockTx (hashGenesisBlock toyEnv) = some (toyBigTxs, nFee) := by
    have hfind : (toyListPool toyBigTxs).txCache.find? (hashGenesisBlock toyEnv) = some toyBigTxs :=
      (OrdMap.find?_insert _ _ _ _).trans (if_pos rfl)
    exact ⟨_, by rw [CTxPool.arrangeBlockTx, hfind, Option.map_some]⟩
  obtain ⟨nFee, hvtx⟩ := hvtx
  have hrewards : getDistributePledgeRewardTxList toyEnv (genesisChain toyEnv).cntrBlock
      (genesisChain toyEnv).mapCacheDistributePledgeReward (hashGenesisBlock toyEnv) (genesisEntry toyEnv).nTimeStamp =
        some (some [], (genesisChain toyEnv).mapCacheDistributePledgeReward) := by
    rw [getDistributePledgeRewardTxList, height_hashGenesisBlock]
    exact if_pos (by decide)
  -- all of the transactions fit
  have hwork : ∃ fee, getWorkTx [] toyBigTxs = some (toyBigTxs, fee) := by
    obtain ⟨k, hk, hkept, -, hmax⟩ := workTxLoop_fit nMaxTxSize toyBigTxs 0 [] 0
    have hall : k = toyBigTxs.length := by
      by_contra hne
      have := hmax toyBigTxs.length (lt_of_le_of_ne hk hne) le_rfl
      rw [List.take_length, toyBigTxs_size.1, nMaxTxSize_eq] at this
      omega
    rw [hall, List.take_length, List.nil_append] at hkept
    cases hloop : workTxLoop nMaxTxSize toyBigTxs 0 [] 0 with
    | mk txs fee =>
      rw [hloop] at hkept
      dsimp only at hkept
      have hdef : ∀ vtx, getWorkTx [] vtx =
          (workRewardLoop nMaxTxSize [] 0).map fun n => workTxLoop nMaxTxSize vtx n [] 0 := fun _ => rfl
      exact ⟨fee, by rw [hdef, workRewardLoop, Option.map_some, hloop, hkept]⟩
  obtain ⟨fee, hwork⟩ := hwork
  have hdone : ∃ done, CService.submitWork toyEnv (genesisChain toyEnv) (toyListPool toyBigTxs) toyMiner
      (toySubmitted PROOFHASHWORK_SIZE) = some (some done) := by
    have hproof : ¬(toySubmitted PROOFHASHWORK_SIZE).vchProof.length > PROOFHASHWORK_SIZE := by
      rw [toySubmitted_proof]
      exact lt_irrefl _
    unfold CService.submitWork
    rw [if_neg hproof, show (toySubmitted PROOFHASHWORK_SIZE).hashPrev = hashGenesisBlock toyEnv from rfl, hprev]
    unfold CService.getWorkTx
    dsimp only
    rw [if_neg hreward, hvtx]
    dsimp only
    rw [hrewards]
    dsimp only
    rw [hwork]
    exact ⟨_, rfl⟩
  obtain ⟨done, hdone⟩ := hdone
  refine ⟨toyBigTxs, done, toyBigTxs_size.2, hdone, ?_⟩
  obtain ⟨-, blockPrev, l, vtx, nFee', rewards, cache, txs, fee', hprev', hvtx', hrewards', hwork', -, hsize⟩ :=
    submitWork_cases hdone
  obtain rfl := (List.cons.inj (hprev.symm.trans hprev')).1
  obtain ⟨rfl, -⟩ := Prod.mk.inj (Option.some.inj (hvtx.symm.trans hvtx'))
  obtain ⟨heq, -⟩ := Prod.mk.inj (Option.some.inj (hrewards.symm.trans hrewards'))
  obtain rfl := Option.some.inj heq
  obtain ⟨rfl, -⟩ := Prod.mk.inj (Option.some.inj (hwork.symm.trans hwork'))
  have hproof : streamBytesSize (toySubmitted PROOFHASHWORK_SIZE).vchProof = 863 := by
    rw [streamBytesSize, toySubmitted_proof]
    rfl
  rw [hsize, hproof, toyBigTxs_size.1, show MAX_BLOCK_SIZE = 2000000 from rfl]
  omega

end Minemon
