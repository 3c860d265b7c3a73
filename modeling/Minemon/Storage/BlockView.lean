import Minemon.Common.Block

/-!
# The view of a branch

`CBlockView` of `storage/blockbase.cpp`: the changes that lead from the database, which stands at the
last block of the fork, to some other block. For each output touched the view keeps a spent flag and a
signed count of operations; an output whose count is zero is as the database has it. The transaction
type and the height kept with an output, which nothing here reads, are left out.
-/

namespace Minemon

structure CViewUnspent where
  output : CTxOut := CTxOut.null
  fSpent : Bool := false
  nOpt : ℤ := 0
deriving DecidableEq, Repr

namespace CViewUnspent

def enable (u : CViewUnspent) (output : CTxOut) : CViewUnspent := ⟨output, false, u.nOpt + 1⟩

def disable (u : CViewUnspent) (output : CTxOut) : CViewUnspent := ⟨output, true, u.nOpt - 1⟩

def isModified (u : CViewUnspent) : Bool := u.nOpt != 0

end CViewUnspent

structure CBlockView where
  hashFork : ℕ
  /-- `mapTx`; a removed transaction is null. -/
  mapTx : ℕ → Option CTransaction := fun _ => none
  mapUnspent : OrdMap CTxOutPoint CViewUnspent := OrdMap.empty
  vTxRemove : List ℕ := []
  vTxAddNew : List ℕ := []
  vBlockAddNew : List (ℕ × CBlockEx) := []
  vBlockRemove : List (ℕ × CBlockEx) := []

/-- The outputs of a transaction that are not null, with the number of each. -/
def txOutputs (tx : CTransaction) (txContxt : CTxContxt) : List (ℕ × CTxOut) :=
  [(0, CTxOut.ofTx tx), (1, CTxOut.ofChange tx txContxt.destIn txContxt.getValueIn)].filter
    fun o => !o.2.isNull

/-- The outputs a transaction spends, rebuilt from its context. -/
def txInputs (tx : CTransaction) (txContxt : CTxContxt) : List (CTxOutPoint × CTxOut) :=
  (tx.vInput.zip txContxt.vin).map fun i =>
    (i.1, ⟨txContxt.destIn, i.2.nAmount, i.2.nTxTime, i.2.nLockUntil⟩)

/-- `AddTx` and `RemoveTx` read `vin[i]` for each input. -/
def contextDefined (tx : CTransaction) (txContxt : CTxContxt) : Bool :=
  tx.vInput.length ≤ txContxt.vin.length

namespace CBlockView

section

variable (view : CBlockView)

def enable (out : CTxOutPoint) (output : CTxOut) : CBlockView :=
  { view with mapUnspent := view.mapUnspent.upsert out fun u => (u.getD {}).enable output }

def disable (out : CTxOutPoint) (output : CTxOut) : CBlockView :=
  { view with mapUnspent := view.mapUnspent.upsert out fun u => (u.getD {}).disable output }

def retrieveUnspent (dbUnspent : CTxOutPoint → Option CTxOut) (out : CTxOutPoint) : Option CTxOut :=
  match view.mapUnspent.find? out with
  | some u => if u.fSpent then none else some u.output
  | none => dbUnspent out

/-- `AddTx`: spend the inputs, create the outputs. -/
def addTx (txid : ℕ) (tx : CTransaction) (txContxt : CTxContxt) : CBlockView :=
  let view1 : CBlockView :=
    { view with
      mapTx := Function.update view.mapTx txid (some tx)
      vTxAddNew := view.vTxAddNew ++ [txid] }
  let view2 := (txInputs tx txContxt).foldl (fun v i => v.disable i.1 i.2) view1
  (txOutputs tx txContxt).foldl (fun v o => v.enable ⟨txid, o.1⟩ o.2) view2

/-- `RemoveTx`: restore the inputs, drop the outputs. -/
def removeTx (txid : ℕ) (tx : CTransaction) (txContxt : CTxContxt) : CBlockView :=
  let view1 : CBlockView :=
    { view with
      mapTx := Function.update view.mapTx txid (some CTransaction.null)
      vTxRemove := view.vTxRemove ++ [txid] }
  let view2 := (txInputs tx txContxt).foldl (fun v i => v.enable i.1 i.2) view1
  (txOutputs tx txContxt).foldl (fun v o => v.disable ⟨txid, o.1⟩ o.2) view2

/-- `InsertBlockList`: the list runs from the last block to the first. -/
def insertBlockList (hash : ℕ) (block : CBlockEx) (l : List (ℕ × CBlockEx)) : List (ℕ × CBlockEx) :=
  match l.head?, l.getLast? with
  | some front, some back =>
    if block.block.hashPrev = front.1 then (hash, block) :: l
    else if back.2.block.hashPrev = hash then l ++ [(hash, block)]
    else l
  | _, _ => [(hash, block)]

def addBlock (hash : ℕ) (block : CBlockEx) : CBlockView :=
  { view with vBlockAddNew := insertBlockList hash block view.vBlockAddNew }

def removeBlock (hash : ℕ) (block : CBlockEx) : CBlockView :=
  { view with vBlockRemove := insertBlockList hash block view.vBlockRemove }

/-- `GetUnspentChanges`: the outputs to write and those to remove. -/
def getUnspentChanges : List (CTxOutPoint × CTxOut) × List CTxOutPoint :=
  let modified := view.mapUnspent.toList.filter fun kv => kv.2.isModified
  ((modified.filter fun kv => !kv.2.fSpent).map fun kv => (kv.1, kv.2.output),
    (modified.filter fun kv => kv.2.fSpent).map Prod.fst)

def isTxNull (txid : ℕ) : Bool := ((view.mapTx txid).getD CTransaction.null).isNull

def getTxRemoved : List ℕ := view.vTxRemove.filter fun txid => view.isTxNull txid

end

end CBlockView

end Minemon
