import Minemon.Common.Destination

/-!
# Transactions

`common/transaction.h`: outpoints, transactions with the bytes they serialize to, outputs, and the
context a block keeps for the inputs of each of its transactions.
-/

namespace Minemon

/-! ## Variable-length integers -/

def varInt (nValue : ℕ) : List UInt8 :=
  if nValue < 0xFD then leBytes 1 nValue
  else if nValue ≤ 0xFFFF then 0xFD :: leBytes 2 nValue
  else if nValue ≤ 0xFFFFFFFF then 0xFE :: leBytes 4 nValue
  else 0xFF :: leBytes 8 nValue

/-- `CVarInt::Serialize` with a size to add to. -/
def varIntSize (nValue : ℕ) : ℕ :=
  if nValue < 0xFD then 1 else if nValue ≤ 0xFFFF then 1 + 2 else if nValue ≤ 0xFFFFFFFF then 1 + 4 else 1 + 8

def streamBytes (vch : List UInt8) : List UInt8 := varInt vch.length ++ vch

def streamBytesSize (vch : List UInt8) : ℕ := varIntSize vch.length + vch.length

@[simp] theorem length_varInt (nValue : ℕ) : (varInt nValue).length = varIntSize nValue := by
  unfold varInt varIntSize
  split_ifs <;> simp [Nat.add_comm]

@[simp] theorem length_streamBytes (vch : List UInt8) : (streamBytes vch).length = streamBytesSize vch := by
  unfold streamBytes streamBytesSize
  rw [List.length_append, length_varInt]

def int64Bytes (x : ℤ) : List UInt8 := (Codec.int 8).enc x

@[simp] theorem length_int64Bytes (x : ℤ) : (int64Bytes x).length = 8 := length_leBytes 8 _

/-! ## Outpoints -/

structure CTxOutPoint where
  hash : ℕ
  n : ℕ
deriving DecidableEq, Repr

namespace CTxOutPoint

def isNull (o : CTxOutPoint) : Bool := o.hash == 0 && o.n == 255

instance : LinearOrder CTxOutPoint := .byPair hash n fun a b h1 h2 => by cases a; cases b; cases h1; cases h2; rfl

def toBytes (o : CTxOutPoint) : List UInt8 := leBytes 32 o.hash ++ leBytes 1 o.n

@[simp] theorem length_toBytes (o : CTxOutPoint) : o.toBytes.length = 33 := by
  unfold toBytes
  rw [List.length_append, length_leBytes, length_leBytes]

end CTxOutPoint

/-! ## Transactions -/

/-- `CTransaction`; an input is its `prevout`. -/
structure CTransaction where
  nVersion : ℕ := 2
  nType : ℕ := 0
  nTimeStamp : ℕ := 0
  nLockUntil : ℕ := 0
  vInput : List CTxOutPoint := []
  sendTo : CDestination := CDestination.null
  nAmount : ℤ := 0
  nTxFee : ℤ := 0
  vchData : List UInt8 := []
  vchSig : List UInt8 := []
deriving DecidableEq, Repr, Inhabited

namespace CTransaction

def TX_TOKEN : ℕ := 0x0000
def TX_GENESIS : ℕ := 0x0100
def TX_STAKE : ℕ := 0x0200
def TX_WORK : ℕ := 0x0300

/-- `SetNull` -/
def null : CTransaction := {}

def isNull (tx : CTransaction) : Bool := tx.vInput.isEmpty && tx.sendTo.isNull

def isMintTx (tx : CTransaction) : Bool :=
  tx.nType == TX_GENESIS || tx.nType == TX_STAKE || tx.nType == TX_WORK

/-- What the signature signs: every field but `vchSig`. -/
def toSignBytes (tx : CTransaction) : List UInt8 :=
  leBytes 2 tx.nVersion ++ leBytes 2 tx.nType ++ leBytes 4 tx.nTimeStamp ++ leBytes 4 tx.nLockUntil
    ++ (varInt tx.vInput.length ++ (tx.vInput.map CTxOutPoint.toBytes).flatten) ++ tx.sendTo.toBytes
    ++ int64Bytes tx.nAmount ++ int64Bytes tx.nTxFee ++ streamBytes tx.vchData

def toBytes (tx : CTransaction) : List UInt8 := tx.toSignBytes ++ streamBytes tx.vchSig

def getSerializeSize (tx : CTransaction) : ℕ :=
  2 + 2 + 4 + 4 + (varIntSize tx.vInput.length + 33 * tx.vInput.length) + 33 + 8 + 8
    + streamBytesSize tx.vchData + streamBytesSize tx.vchSig

theorem length_toBytes (tx : CTransaction) : tx.toBytes.length = tx.getSerializeSize := by
  have hInput : ((tx.vInput.map CTxOutPoint.toBytes).flatten).length = 33 * tx.vInput.length := by
    rw [List.length_flatten, List.map_map]
    show (tx.vInput.map fun o => o.toBytes.length).sum = _
    rw [List.map_congr_left fun o _ => CTxOutPoint.length_toBytes o, List.map_const', List.sum_replicate,
      smul_eq_mul, Nat.mul_comm]
  unfold toBytes toSignBytes getSerializeSize
  simp only [List.length_append, length_leBytes, length_varInt, length_streamBytes, length_int64Bytes,
    CDestination.length_toBytes, hInput]

/-- `GetHash`: the time stamp in front of 224 bits of the hash. -/
def getHash (E : Env) (tx : CTransaction) : ℕ :=
  tx.nTimeStamp * 2 ^ 224 + E.hash tx.toBytes % 2 ^ 224

def getSignatureHash (E : Env) (tx : CTransaction) : ℕ := E.hash tx.toSignBytes

def getChange (tx : CTransaction) (nValueIn : ℤ) : ℤ := wrap64 (nValueIn - tx.nAmount - tx.nTxFee)

def totalFee (vtx : List CTransaction) : ℤ := vtx.foldl (fun n tx => wrap64 (n + tx.nTxFee)) 0

end CTransaction

/-! ## Outputs and input contexts -/

structure CTxOut where
  destTo : CDestination
  nAmount : ℤ
  nTxTime : ℕ
  nLockUntil : ℕ
deriving DecidableEq, Repr

namespace CTxOut

def null : CTxOut := ⟨CDestination.null, 0, 0, 0⟩

instance : Inhabited CTxOut := ⟨null⟩

def isNull (o : CTxOut) : Bool := o.destTo.isNull || o.nAmount ≤ 0

def ofTx (tx : CTransaction) : CTxOut := ⟨tx.sendTo, tx.nAmount, tx.nTimeStamp, tx.nLockUntil⟩

/-- `CTxOut(tx, destToIn, nValueIn)`: the change. -/
def ofChange (tx : CTransaction) (destTo : CDestination) (nValueIn : ℤ) : CTxOut :=
  ⟨destTo, tx.getChange nValueIn, tx.nTimeStamp, 0⟩

theorem pos_of_not_isNull {o : CTxOut} (h : o.isNull = false) : 0 < o.nAmount := by
  simp only [isNull, Bool.or_eq_false_iff, decide_eq_false_iff_not, not_le] at h
  exact h.2

end CTxOut

structure CTxInContxt where
  nAmount : ℤ
  nTxTime : ℕ
  nLockUntil : ℕ
deriving DecidableEq, Repr

namespace CTxInContxt

def ofOut (prevOutput : CTxOut) : CTxInContxt :=
  ⟨prevOutput.nAmount, prevOutput.nTxTime, prevOutput.nLockUntil⟩

def isLocked (c : CTxInContxt) (nBlockHeight : ℕ) : Bool := nBlockHeight < c.nLockUntil % 2 ^ 31

end CTxInContxt

/-- `CTxContxt`: where the inputs of a transaction come from, and what they are worth. -/
structure CTxContxt where
  destIn : CDestination := CDestination.null
  vin : List CTxInContxt := []
deriving DecidableEq, Repr, Inhabited

def CTxContxt.getValueIn (c : CTxContxt) : ℤ := c.vin.foldl (fun n i => wrap64 (n + i.nAmount)) 0

structure CTxIndex where
  nBlockHeight : ℕ
  nFile : ℕ
  nOffset : ℕ
deriving DecidableEq, Repr

structure CDestRedeem where
  nBalance : ℤ := 0
  nLockAmount : ℤ := 0
  nLockBeginHeight : ℕ := 0
deriving DecidableEq, Repr, Inhabited

end Minemon
