import Minemon.Common.Transaction

/-!
# Pooled transactions

The data of `minemon/txpool.h`, for one fork. The entries of `mapTx` are the only pooled transactions
there are: a pointer to one of them is the key of its entry, and a pointer whose entry was erased cannot
be read.

* `CPooledTx`, `CPooledTxLink`, `CSpent`, `MapTx`.
-/

namespace Minemon

/-- `GetLockUntil(n)`: the lock, if it is on output `n`. -/
def CTransaction.getLockUntil (tx : CTransaction) (n : ℕ) : ℕ :=
  if n = tx.nLockUntil / 2 ^ 31 then tx.nLockUntil % 2 ^ 31 else 0

def CTxOut.isLocked (o : CTxOut) (nBlockHeight : ℕ) : Bool := nBlockHeight < o.nLockUntil % 2 ^ 31

structure CAssembledTx where
  tx : CTransaction
  nBlockHeight : ℤ
  destIn : CDestination := CDestination.null
  nValueIn : ℤ := 0
deriving DecidableEq, Repr

def CAssembledTx.getOutput (t : CAssembledTx) : ℕ → CTxOut
  | 0 => ⟨t.tx.sendTo, t.tx.nAmount, t.tx.nTimeStamp, t.tx.getLockUntil 0⟩
  | 1 => ⟨t.destIn, t.tx.getChange t.nValueIn, t.tx.nTimeStamp, t.tx.getLockUntil 1⟩
  | _ => CTxOut.null

/-- `CPooledTx` without the block height of its `CAssembledTx`, which the pool does not read. -/
structure CPooledTx where
  tx : CTransaction
  destIn : CDestination
  nValueIn : ℤ
  nSequenceNumber : ℕ
  nSerializeSize : ℕ
  nNextSequenceNumber : ℕ
deriving DecidableEq, Repr

namespace CPooledTx

def ofTx (tx : CTransaction) (nSequenceNumber : ℕ) (destIn : CDestination) (nValueIn : ℤ) : CPooledTx :=
  ⟨tx, destIn, nValueIn, nSequenceNumber, tx.getSerializeSize, 0⟩

def getOutput (t : CPooledTx) : ℕ → CTxOut
  | 0 => ⟨t.tx.sendTo, t.tx.nAmount, t.tx.nTimeStamp, t.tx.getLockUntil 0⟩
  | 1 => ⟨t.destIn, t.tx.getChange t.nValueIn, t.tx.nTimeStamp, t.tx.getLockUntil 1⟩
  | _ => CTxOut.null

end CPooledTx

/-- `CPooledTxLink`; `nType` serves an order that nothing reads. -/
structure CPooledTxLink where
  hashTX : ℕ
  nSequenceNumber : ℕ
  ptx : ℕ
deriving DecidableEq, Repr

structure CSpent where
  output : CTxOut
  txidNextTx : ℕ
deriving DecidableEq, Repr

namespace CSpent

def ofSpent (txidNextTx : ℕ) : CSpent := ⟨CTxOut.null, txidNextTx⟩
def ofUnspent (output : CTxOut) : CSpent := ⟨output, 0⟩
def isSpent (c : CSpent) : Bool := c.txidNextTx != 0

end CSpent

/-- `mapTx` of `CTxPool`. -/
abbrev MapTx := OrdMap ℕ CPooledTx

/-! ## What validation asks the pool -/

/-- The loop of `GetDestAmount`, in the order of the ids: the first transaction to `dest` ends it. -/
def destAmountLoop (dest : CDestination) : List (ℕ × CPooledTx) → ℤ → ℤ
  | [], nAmount => nAmount
  | (_, t) :: l, nAmount =>
    if t.tx.sendTo = dest then t.tx.nAmount
    else if t.destIn = dest then
      destAmountLoop dest l (wrap64 (nAmount - wrap64 (t.tx.nAmount + t.tx.nTxFee)))
    else destAmountLoop dest l nAmount

def getDestAmount (mapTx : MapTx) (dest : CDestination) : ℤ := destAmountLoop dest mapTx.toList 0

/-- `VerifyPledgeTx`: no pooled transaction pays to `dest`. -/
def verifyPledgeTx (mapTx : MapTx) (dest : CDestination) : Bool :=
  mapTx.toList.all fun e => e.2.tx.sendTo ≠ dest

end Minemon
