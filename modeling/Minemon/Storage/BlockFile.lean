import Minemon.Mining.BlockMaker
import Minemon.Storage.TimeSeries
import Minemon.Utxo.TxIndex

/-!
# The block file

One `Serialize` of each class says how an object is written to a stream and how it is read. A block file has the
blocks with their contexts; a block without them and a single transaction are read from the same bytes.

* `read_write_read`: **whatever is read can be written and read back**.
* `block_file_read`: **what was written is read from the file**, the block and each transaction where it stands.
-/

namespace Minemon

/-! ## Serialize -/

theorem readVarInt_lt {bs r : List UInt8} {n : ℕ} (h : readVarInt bs = some (n, r)) : n < 2 ^ 64 := by
  unfold readVarInt at h
  split at h
  · simp at h
  · rename_i b bs
    have hb := b.toNat_lt
    dsimp only at h
    split_ifs at h with hsmall hlong <;> obtain ⟨rfl, -⟩ := Prod.mk.inj (Option.some.inj h)
    · omega
    · refine (ofLeBytes_lt _).trans_le ?_
      have hk : b.toNat - 0xFD ≤ 2 := by omega
      rw [List.length_take_of_le hlong]
      interval_cases b.toNat - 0xFD <;> decide

theorem length_readStreamBytes {bs vch r : List UInt8} (h : readStreamBytes bs = some (vch, r)) :
    vch.length < 2 ^ 64 := by
  unfold readStreamBytes at h
  split at h
  · simp at h
  · rename_i n bs' hn
    split_ifs at h with hlong
    obtain ⟨rfl, -⟩ := Prod.mk.inj (Option.some.inj h)
    rw [List.length_take_of_le hlong]
    exact readVarInt_lt hn

/-- A read from a stream that is too short throws. -/
def orThrow {α : Type} (read : List UInt8 → Option (α × List UInt8)) (bs : List UInt8) :
    Except Fault (α × List UInt8) :=
  (read bs).elim (.error .exception) .ok

theorem orThrow_eq_ok {α : Type} {read : List UInt8 → Option (α × List UInt8)} {bs : List UInt8}
    {x : α × List UInt8} : orThrow read bs = .ok x ↔ read bs = some x := by
  unfold orThrow
  cases read bs <;> simp

def varIntFormat : Format ℕ where
  enc := varInt
  dec := orThrow readVarInt
  Valid n := n < 2 ^ 64
  dec_enc _ r h := orThrow_eq_ok.2 (readVarInt_varInt h r)
  valid_dec _ _ _ h := readVarInt_lt (orThrow_eq_ok.1 h)

def bytesFormat : Format (List UInt8) where
  enc := streamBytes
  dec := orThrow readStreamBytes
  Valid vch := vch.length < 2 ^ 64
  dec_enc _ r h := orThrow_eq_ok.2 (readStreamBytes_streamBytes h r)
  valid_dec _ _ _ h := length_readStreamBytes (orThrow_eq_ok.1 h)

def wordFormat (n : ℕ) : Format ℕ := (Codec.uint n).toFormat

def int64Format : Format ℤ := (Codec.int 8).toFormat

def vectorFormat {α : Type} (f : Format α) : Format (List α) := .vector varIntFormat f

def CTxOutPoint.format : Format CTxOutPoint :=
  ((wordFormat 32).pair (wordFormat 1)).iso (fun p => ⟨p.1, p.2⟩) (fun o => (o.hash, o.n)) (fun _ => rfl) fun _ => rfl

def CTransaction.format : Format CTransaction :=
  ((wordFormat 2).pair <| (wordFormat 2).pair <| (wordFormat 4).pair <| (wordFormat 4).pair <|
    (vectorFormat CTxOutPoint.format).pair <| CDestination.codec.toFormat.pair <| int64Format.pair <|
    int64Format.pair <| bytesFormat.pair bytesFormat).iso
    (fun (nVersion, nType, nTimeStamp, nLockUntil, vInput, sendTo, nAmount, nTxFee, vchData, vchSig) =>
      ⟨nVersion, nType, nTimeStamp, nLockUntil, vInput, sendTo, nAmount, nTxFee, vchData, vchSig⟩)
    (fun tx => (tx.nVersion, tx.nType, tx.nTimeStamp, tx.nLockUntil, tx.vInput, tx.sendTo, tx.nAmount, tx.nTxFee,
      tx.vchData, tx.vchSig)) (fun _ => rfl) fun _ => rfl

def CBlock.format : Format CBlock :=
  ((wordFormat 2).pair <| (wordFormat 2).pair <| (wordFormat 4).pair <| (wordFormat 32).pair <| (wordFormat 32).pair <|
    (wordFormat 4).pair <| bytesFormat.pair <| CTransaction.format.pair <| vectorFormat CTransaction.format).iso
    (fun (nVersion, nType, nTimeStamp, hashPrev, hashMerkle, nBits, vchProof, txMint, vtx) =>
      ⟨nVersion, nType, nTimeStamp, hashPrev, hashMerkle, nBits, vchProof, txMint, vtx⟩)
    (fun b => (b.nVersion, b.nType, b.nTimeStamp, b.hashPrev, b.hashMerkle, b.nBits, b.vchProof, b.txMint, b.vtx))
    (fun _ => rfl) fun _ => rfl

def CTxInContxt.format : Format CTxInContxt :=
  (int64Format.pair <| (wordFormat 4).pair (wordFormat 4)).iso (fun p => ⟨p.1, p.2.1, p.2.2⟩)
    (fun i => (i.nAmount, i.nTxTime, i.nLockUntil)) (fun _ => rfl) fun _ => rfl

def CTxContxt.format : Format CTxContxt :=
  (CDestination.codec.toFormat.pair (vectorFormat CTxInContxt.format)).iso (fun p => ⟨p.1, p.2⟩)
    (fun c => (c.destIn, c.vin)) (fun _ => rfl) fun _ => rfl

def CBlockEx.format : Format CBlockEx :=
  (CBlock.format.pair (vectorFormat CTxContxt.format)).iso (fun p => ⟨p.1, p.2⟩) (fun b => (b.block, b.vTxContxt))
    (fun _ => rfl) fun _ => rfl

theorem CTransaction.format_enc (tx : CTransaction) : format.enc tx = tx.toBytes := by
  simp only [toBytes, toSignBytes, format, Format.iso, Format.pair, vectorFormat, Format.vector, List.append_assoc]
  rfl

theorem CBlock.format_enc (b : CBlock) : format.enc b = b.toBytes := by
  have hvtx : (b.vtx.map CTransaction.format.enc).flatten = (b.vtx.map CTransaction.toBytes).flatten := by
    rw [List.map_congr_left fun tx _ => tx.format_enc]
  unfold toBytes headBytes
  rw [← hvtx, ← b.txMint.format_enc]
  simp only [List.append_assoc]
  rfl

/-- **Whatever is read can be written and read back**, though not always from the same bytes. -/
theorem read_write_read (bs after : List UInt8) :
    (∀ tx rest, CTransaction.format.dec bs = .ok (tx, rest) →
      CTransaction.format.dec (tx.toBytes ++ after) = .ok (tx, after)) ∧
    (∀ b rest, CBlock.format.dec bs = .ok (b, rest) → CBlock.format.dec (b.toBytes ++ after) = .ok (b, after)) ∧
    ∀ b rest, CBlockEx.format.dec bs = .ok (b, rest) →
      CBlockEx.format.dec (CBlockEx.format.enc b ++ after) = .ok (b, after) := by
  refine ⟨fun tx rest h => ?_, fun b rest h => ?_, fun b rest h => ?_⟩
  · rw [← tx.format_enc]
    exact CTransaction.format.dec_enc tx after (CTransaction.format.valid_dec bs tx rest h)
  · rw [← b.format_enc]
    exact CBlock.format.dec_enc b after (CBlock.format.valid_dec bs b rest h)
  · exact CBlockEx.format.dec_enc b after (CBlockEx.format.valid_dec bs b rest h)

def toyWrittenTx : CTransaction where
  vInput := [⟨1, 0⟩, ⟨2, 1⟩]
  sendTo := ⟨CDestination.PREFIX_PUBKEY, 7⟩
  nAmount := 100
  vchSig := List.replicate 64 0

/-- A block with a transaction of two inputs and its context. -/
def toyWritten : CBlockEx where
  block := { nTimeStamp := 60, vtx := [toyWrittenTx] }
  vTxContxt := [{ destIn := ⟨CDestination.PREFIX_PUBKEY, 5⟩, vin := [⟨70, 10, 0⟩, ⟨130, 20, 0⟩] }]

theorem toyWritten_dec : CBlockEx.format.dec (CBlockEx.format.enc toyWritten) = .ok (toyWritten, []) := by
  decide +kernel

theorem toyWritten_valid : CBlockEx.format.Valid toyWritten := CBlockEx.format.valid_dec _ _ _ toyWritten_dec

/-- The length of a signature in three bytes, and a block that is read from the bytes of a block with contexts. -/
theorem read_write_read_toy :
    let bs := toyWrittenTx.toSignBytes ++ [0xFD, 64, 0] ++ toyWrittenTx.vchSig
    (CTransaction.format.dec bs = .ok (toyWrittenTx, []) ∧ bs ≠ toyWrittenTx.toBytes ∧
      CTransaction.format.dec (toyWrittenTx.toBytes ++ [1]) = .ok (toyWrittenTx, [1])) ∧
    CBlock.format.dec (toyWritten.block.toBytes ++ [1]) = .ok (toyWritten.block, [1]) ∧
    CBlockEx.format.dec (CBlockEx.format.enc toyWritten ++ [1]) = .ok (toyWritten, [1]) := by
  intro bs
  have htx : CTransaction.format.dec bs = .ok (toyWrittenTx, []) := by decide +kernel
  have hblock : CBlock.format.dec (CBlockEx.format.enc toyWritten) =
      .ok (toyWritten.block, (vectorFormat CTxContxt.format).enc toyWritten.vTxContxt) := by decide +kernel
  refine ⟨⟨htx, by decide +kernel, (read_write_read bs [1]).1 _ _ htx⟩, ?_⟩
  obtain ⟨-, hread, hreadEx⟩ := read_write_read (CBlockEx.format.enc toyWritten) [1]
  exact ⟨hread _ _ hblock, hreadEx _ _ toyWritten_dec⟩

/-! ## The file -/

namespace CTimeSeriesBase

theorem Holds.inner {b : CTimeSeriesBase} {pos : CDiskPos} (front : List UInt8) {data back : List UInt8}
    (h : b.Holds pos (front ++ data ++ back)) : b.Holds ⟨pos.nFile, pos.nOffset + front.length⟩ data := by
  obtain ⟨before, after, hfile, hlen⟩ := h
  refine ⟨before ++ front, back ++ after, ?_, by rw [List.length_append, hlen]⟩
  simpa only [List.append_assoc] using hfile

end CTimeSeriesBase

theorem CBlock.TxAt.mem {b : CBlock} {tx : CTransaction} {n : ℕ} (h : b.TxAt tx n) : tx ∈ b.txMint :: b.vtx := by
  cases h with
  | mint => exact List.mem_cons_self
  | vtx A tx C h => rw [h]; simp

/-- **A block that was written is read from the file**, whatever is written later: with and without its contexts, and
each transaction at the position that the transaction index keeps. -/
theorem block_file_read {b b' : CTimeSeriesBase} {turns : ℕ} {block : CBlockEx} {pos : CDiskPos}
    (hfits : CBlockEx.format.Valid block) (hwrite : (b.write turns (CBlockEx.format.enc block)).1 = some pos)
    (hlater : (b.write turns (CBlockEx.format.enc block)).2.Extends b') :
    b'.read CBlockEx.format pos = some block ∧ b'.read CBlock.format pos = some block.block ∧
      ∀ tx n, block.block.TxAt tx n → b'.read CTransaction.format ⟨pos.nFile, pos.nOffset + n⟩ = some tx := by
  have hholds := ((b.write_spec turns _).2 pos hwrite).extend hlater
  refine ⟨hholds.read hfits, (hholds.inner []).read hfits.1, fun tx n htx => ?_⟩
  obtain ⟨front, back, hbytes, rfl⟩ := htx.bytes
  obtain ⟨-, -, -, -, -, -, -, hmint, -, hvtx⟩ := hfits.1
  have henc : CBlockEx.format.enc block = front ++ CTransaction.format.enc tx ++
      (back ++ (vectorFormat CTxContxt.format).enc block.vTxContxt) := by
    rw [tx.format_enc, ← List.append_assoc, ← hbytes, ← block.block.format_enc]
    rfl
  rw [henc] at hholds
  exact (hholds.inner front).read (List.forall_mem_cons.2 ⟨hmint, hvtx⟩ tx htx.mem)

/-- The block and its second transaction are read after the next write. -/
theorem block_file_read_toy :
    let b := ((({} : CTimeSeriesBase).write 1 (CBlockEx.format.enc toyWritten)).2.write 1 [0]).2
    b.read CBlockEx.format ⟨1, 8⟩ = some toyWritten ∧ b.read CTransaction.format ⟨1, 8 + 142⟩ = some toyWrittenTx := by
  have hwrite : (({} : CTimeSeriesBase).write 1 (CBlockEx.format.enc toyWritten)).1 = some ⟨1, 8⟩ := by decide +kernel
  obtain ⟨hblock, -, htx⟩ := block_file_read toyWritten_valid hwrite (CTimeSeriesBase.write_spec _ 1 [0]).1
  exact ⟨hblock, htx _ _ (.vtx [] toyWrittenTx [] rfl)⟩

end Minemon
