import Minemon.Pool.Data

/-!
# The wallet database

`common/wallettx.h` and `storage/walletdb.cpp`: the transactions of a wallet, in the order in which they were
stored, and those that are only in memory until the next start.

* `CWalletTxDB.updateTx`, `CWalletDB.updateTx`: transactions are written, then others erased.
-/

namespace Minemon

/-! ## Wallet transactions -/

/-- `CWalletTx`; the two flags are the bits of `nFlags`. -/
structure CWalletTx where
  nTimeStamp : ℕ
  nLockUntil : ℕ
  vInput : List CTxOutPoint
  sendTo : CDestination
  nAmount : ℤ
  nTxFee : ℤ
  destIn : CDestination
  nValueIn : ℤ
  nBlockHeight : ℤ
  fIsMine : Bool
  fFromMe : Bool
  txid : ℕ
  nRefCount : ℤ
deriving DecidableEq, Repr

namespace CWalletTx

/-- The constructor from a `CAssembledTx`. -/
def ofTx (txid : ℕ) (t : CAssembledTx) (fIsMine fFromMe : Bool) : CWalletTx where
  nTimeStamp := t.tx.nTimeStamp
  nLockUntil := t.tx.nLockUntil
  vInput := t.tx.vInput
  sendTo := t.tx.sendTo
  nAmount := t.tx.nAmount
  nTxFee := t.tx.nTxFee
  destIn := t.destIn
  nValueIn := t.nValueIn
  nBlockHeight := t.nBlockHeight
  fIsMine := fIsMine
  fFromMe := fFromMe
  txid := txid
  nRefCount := 0

def null : CWalletTx :=
  ⟨0, 0, [], CDestination.null, 0, 0, CDestination.null, 0, 0, false, false, 0, 0⟩

instance : Inhabited CWalletTx := ⟨null⟩

section

variable (wtx : CWalletTx)

def getChange : ℤ := wrap64 (wtx.nValueIn - wtx.nAmount - wtx.nTxFee)

def getLockUntil (n : ℕ) : ℕ := if n = wtx.nLockUntil / 2 ^ 31 then wtx.nLockUntil % 2 ^ 31 else 0

def getOutput : ℕ → CTxOut
  | 0 => ⟨wtx.sendTo, wtx.nAmount, wtx.nTimeStamp, wtx.getLockUntil 0⟩
  | 1 => ⟨wtx.destIn, wtx.getChange, wtx.nTimeStamp, wtx.getLockUntil 1⟩
  | _ => CTxOut.null

def getAmount (n : ℕ) : ℤ := if n = 0 then wtx.nAmount else wtx.getChange

end

end CWalletTx

/-! ## The stored transactions -/

/-- `CWalletTxDB`: the records `wtx` by id, and the records `seq` by sequence number. -/
structure CWalletTxDB where
  wtx : ℕ → Option (ℕ × CWalletTx) := fun _ => none
  seq : OrdMap ℕ ℕ := OrdMap.empty
  nSequence : ℕ := 0

namespace CWalletTxDB

/-- A sequence number for each transaction: the one it has, or the next. -/
def numberTxs : CWalletTxDB → List CWalletTx → ℕ → List (ℕ × CWalletTx) × ℕ
  | _, [], nSequence => ([], nSequence)
  | db, t :: l, nSequence =>
    match db.wtx t.txid with
    | some pairWalletTx =>
      let r := numberTxs db l nSequence
      ((pairWalletTx.1, t) :: r.1, r.2)
    | none =>
      let r := numberTxs db l (nSequence + 1)
      ((nSequence, t) :: r.1, r.2)

def writeTx (db : CWalletTxDB) (e : ℕ × CWalletTx) : CWalletTxDB :=
  { db with wtx := Function.update db.wtx e.2.txid (some e), seq := db.seq.insert e.1 e.2.txid }

def eraseTx (db : CWalletTxDB) (e : ℕ × ℕ) : CWalletTxDB :=
  { db with wtx := Function.update db.wtx e.2 none, seq := db.seq.erase e.1 }

/-- `UpdateTx`: all reads come before the writes, and the erasures come last. -/
def updateTx (db : CWalletTxDB) (vWalletTx : List CWalletTx) (vRemove : List ℕ) : CWalletTxDB :=
  let (vTxUpdate, nSequence) := numberTxs db vWalletTx db.nSequence
  let vTxRemove := vRemove.filterMap fun txid => (db.wtx txid).map fun e => (e.1, txid)
  let db' := vTxRemove.foldl eraseTx (vTxUpdate.foldl writeTx db)
  { db' with nSequence := nSequence }

end CWalletTxDB

/-! ## The transactions in memory -/

/-- `CWalletTxCache`; each id occurs once. -/
abbrev CWalletTxCache := List CWalletTx

namespace CWalletTxCache

def remove (cache : CWalletTxCache) (txid : ℕ) : CWalletTxCache := List.filter (fun t => t.txid ≠ txid) cache

end CWalletTxCache

structure CWalletDB where
  dbWtx : CWalletTxDB := {}
  txCache : CWalletTxCache := []

namespace CWalletDB

def updateTx (db : CWalletDB) (vWalletTx : List CWalletTx) (vRemove : List ℕ) : CWalletDB where
  dbWtx := db.dbWtx.updateTx vWalletTx vRemove
  txCache := vRemove.foldl CWalletTxCache.remove
    ((vWalletTx.map CWalletTx.txid).foldl CWalletTxCache.remove db.txCache)

def clearTx (_ : CWalletDB) : CWalletDB := {}

end CWalletDB

end Minemon
