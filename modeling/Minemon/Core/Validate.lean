import Minemon.Common.Block

/-!
# Checks without context

`ValidateTransaction` and `ValidateBlock` of `minemon/core.cpp`: what a transaction and a block must
satisfy on their own.

* `ValidTx`, `ValidBlock`: the conditions, with the theorems that the checks decide them.
-/

namespace Minemon

def validateTransaction (tx : CTransaction) : Errno :=
  if tx.isMintTx then .ERR_TRANSACTION_INVALID
  else if tx.sendTo.isNull then .ERR_TRANSACTION_OUTPUT_INVALID
  else if !moneyRange tx.nAmount then .ERR_TRANSACTION_OUTPUT_INVALID
  else if !tx.vInput.all (fun prevout => !(prevout.isNull || prevout.n > 1)) then
    .ERR_TRANSACTION_INPUT_INVALID
  else if ¬tx.vInput.Nodup then .ERR_TRANSACTION_INPUT_INVALID
  else if tx.getSerializeSize > MAX_TX_SIZE then .ERR_TRANSACTION_OVERSIZE
  else .OK

structure ValidTx (tx : CTransaction) : Prop where
  not_mint : tx.isMintTx = false
  sendTo : tx.sendTo.isNull = false
  amount : moneyRange tx.nAmount = true
  inputs : ∀ prevout ∈ tx.vInput, prevout.isNull = false ∧ prevout.n ≤ 1
  nodup : tx.vInput.Nodup
  size : tx.getSerializeSize ≤ MAX_TX_SIZE

theorem validateTransaction_ok {tx : CTransaction} (h : validateTransaction tx = .OK) : ValidTx tx := by
  unfold validateTransaction at h
  split_ifs at h with h1 h2 h3 h4 h5 h6
  exact ⟨by simpa using h1, by simpa using h2, by simpa using h3, by simpa using h4, h5, by omega⟩

section

variable (E : Env)

def validateBlock (nNetTime : ℤ) (block : CBlock) : Errno :=
  if (block.nTimeStamp : ℤ) > nNetTime + MAX_CLOCK_DRIFT then .ERR_BLOCK_TIMESTAMP_OUT_OF_RANGE
  else if !block.txMint.isMintTx then .ERR_BLOCK_TRANSACTIONS_INVALID
  else if block.getSerializeSize > MAX_BLOCK_SIZE then .ERR_BLOCK_OVERSIZE
  else if block.nType == CBlock.BLOCK_ORIGIN && !block.vtx.isEmpty then .ERR_BLOCK_TRANSACTIONS_INVALID
  else if block.hashMerkle ≠ block.buildMerkleTree E then .ERR_BLOCK_TXHASH_MISMATCH
  -- `setTx` takes the first `vtx.size()` hashes: the mint transaction's, and all but the last of `vtx`
  else if ¬((block.txids E).take block.vtx.length).Nodup then .ERR_BLOCK_DUPLICATED_TRANSACTION
  else if !block.vtx.all (fun tx => tx.isMintTx || validateTransaction tx == .OK) then
    .ERR_BLOCK_TRANSACTIONS_INVALID
  else .OK

structure ValidBlock (nNetTime : ℤ) (block : CBlock) : Prop where
  time : (block.nTimeStamp : ℤ) ≤ nNetTime + MAX_CLOCK_DRIFT
  mint : block.txMint.isMintTx = true
  size : block.getSerializeSize ≤ MAX_BLOCK_SIZE
  merkle : block.hashMerkle = block.buildMerkleTree E
  nodup : ((block.txids E).take block.vtx.length).Nodup
  vtx : ∀ tx ∈ block.vtx, tx.isMintTx = false → ValidTx tx

theorem validateBlock_ok {nNetTime : ℤ} {block : CBlock} (h : validateBlock E nNetTime block = .OK) :
    ValidBlock E nNetTime block := by
  unfold validateBlock at h
  split_ifs at h with h1 h2 h3 h4 h5 h6 h7
  have hvtx : ∀ tx ∈ block.vtx, tx.isMintTx = false → validateTransaction tx = .OK := by simpa using h7
  refine ⟨by omega, by simpa using h2, by omega, by simpa using h5, h6, ?_⟩
  intro tx htx hm
  exact validateTransaction_ok (hvtx tx htx hm)

end

end Minemon
