import Minemon.Chain.AddNewBlock
import Minemon.Core.VerifyTransaction
import Minemon.Pool.View

/-!
# The pool

`CTxPool` of `minemon/txpool.cpp` for the one fork: transactions enter with `Push`, leave with `Pop` and
follow the chain with `SynchronizeBlockChain`. The storage of the chain is an argument of each call.

* `PoolCall`, `CTxPool.call`: any of them, as a step of the pool.

`none` as in `Minemon.Pool.View`; `fuel` bounds each loop of the view.
-/

namespace Minemon

/-- `CTxCache`: the transactions arranged on each block. -/
abbrev CTxCache := OrdMap ℕ (List CTransaction)

def CACHE_HEIGHT_INTERVAL : ℕ := 23

/-- `CTxCache::AddNew`: the blocks too far below the highest one are dropped. -/
def CTxCache.addNew (cache : CTxCache) (hash : ℕ) (vtx : List CTransaction) : CTxCache :=
  let mapCache := cache.insert hash vtx
  let upperHeight := getBlockHeightByHash ((mapCache.keys.getLast?).getD 0)
  if upperHeight > CACHE_HEIGHT_INTERVAL then
    mapCache.filter fun e => upperHeight - (CACHE_HEIGHT_INTERVAL - 1) ≤ getBlockHeightByHash e.1
  else mapCache

/-- `CTxPool`; for `fAdded` see `PoolViews`. -/
structure CTxPool where
  mapTx : MapTx := OrdMap.empty
  txView : CTxPoolView := {}
  nLastSequenceNumber : ℕ := 0
  txCache : CTxCache := OrdMap.empty
  fAdded : Bool := true

/-- `CBlockChainUpdate`, as far as the pool reads it. -/
structure CBlockChainUpdate where
  hashLastBlock : ℕ
  nLastBlockHeight : ℕ
  setTxUpdate : List ℕ
  vBlockAddNew : List CBlockEx
  vBlockRemove : List CBlockEx

structure CTxSetChange where
  mapTxUpdate : OrdMap ℕ ℤ := OrdMap.empty
  vTxAddNew : List CAssembledTx := []
  vTxRemove : List (ℕ × List CTxOutPoint) := []

/-- `mapTxUpdate.insert`: the first height stays. -/
def CTxSetChange.updateTx (change : CTxSetChange) (txid : ℕ) (nHeight : ℤ) : CTxSetChange :=
  { change with mapTxUpdate := change.mapTxUpdate.upsert txid fun h => h.getD nHeight }

def MAX_BLOCK_TX_SIZE : ℕ := MAX_BLOCK_SIZE - 512

namespace CTxPool

def views (pool : CTxPool) : PoolViews := ⟨pool.mapTx, pool.txView, {}, pool.fAdded⟩

def withViews (pool : CTxPool) (w : PoolViews) : CTxPool :=
  { pool with mapTx := w.mapTx, txView := w.txView, fAdded := w.fAdded }

/-- `GetSequenceNumber`: the numbers start again when the pool is empty. -/
def getSequenceNumber (mapTx : MapTx) (nLastSequenceNumber : ℕ) : ℕ × ℕ :=
  let nLast := ((if mapTx.toList.isEmpty then 0 else nLastSequenceNumber) + 1) % 2 ^ 64
  (nLast * CTxPoolView.SEQUENCE_GAP % 2 ^ 64, nLast)

/-- The call of `GetTxUnspent`: what the pool does not have is looked up in the chain. -/
def prevOutput (s : CBlockBase) (view : CTxPoolView) (prevout : CTxOutPoint) : CTxOut :=
  let output := view.getUnspent prevout
  if output.isNull then (s.dbUnspent prevout).getD output else output

section

variable (E : Env) (fuel : ℕ)

/-- A new entry of `mapTx` and its link: the end of `AddNew`. An entry that is there already is kept. -/
def insertTx (w : PoolViews) (nLastSequenceNumber txid : ℕ) (tx : CTransaction) (destIn : CDestination)
    (nValueIn : ℤ) : Option (Bool × PoolViews × ℕ) :=
  let (nSeq, nLast) := getSequenceNumber w.mapTx nLastSequenceNumber
  let mapTx := w.mapTx.upsert txid fun t => t.getD (CPooledTx.ofTx tx nSeq destIn nValueIn)
  match w.txView.addNew E fuel mapTx txid txid with
  | none => none
  | some (ok, mapTx, view) => some (ok, { w with mapTx := mapTx, txView := view, fAdded := w.fAdded && ok }, nLast)

def addNew (s : CBlockBase) (w : PoolViews) (nLastSequenceNumber txid : ℕ) (tx : CTransaction)
    (nForkHeight hashLastBlock : ℕ) : Option (Errno × PoolViews × ℕ) :=
  if tx.vInput.any w.txView.isSpent then some (.ERR_TRANSACTION_CONFLICTING_INPUT, w, nLastSequenceNumber)
  else
    let vPrevOutput := tx.vInput.map (prevOutput s w.txView)
    if vPrevOutput.any CTxOut.isNull then some (.ERR_TRANSACTION_CONFLICTING_INPUT, w, nLastSequenceNumber)
    else
      match verifyTransaction E s w.mapTx tx vPrevOutput nForkHeight hashLastBlock s.hashFork with
      | none => none
      | some .OK =>
        let nValueIn := vPrevOutput.foldl (fun n output => wrap64 (n + output.nAmount)) 0
        let destIn := (vPrevOutput.head?.map CTxOut.destTo).getD CDestination.null
        match insertTx E fuel w nLastSequenceNumber txid tx destIn nValueIn with
        | none => none
        | some (true, w, nLast) => some (.OK, w, nLast)
        | some (false, w, nLast) => some (.ERR_NOT_FOUND, w, nLast)
      | some err => some (err, w, nLastSequenceNumber)

/-- `Push`: the error, and `destIn` and `nValueIn` of the pooled transaction. -/
def push (s : CBlockBase) (pool : CTxPool) (tx : CTransaction) :
    Option (Errno × Option (CDestination × ℤ) × CTxPool) :=
  let txid := tx.getHash E
  if (pool.mapTx.find? txid).isSome then some (.ERR_ALREADY_HAVE, none, pool)
  else if tx.isMintTx then some (.ERR_TRANSACTION_INVALID, none, pool)
  else
    match s.pIndexLast with
    | [] => some (.ERR_TRANSACTION_INVALID, none, pool)
    | last :: _ =>
      match addNew E fuel s pool.views pool.nLastSequenceNumber txid tx last.nHeight last.hashBlock with
      | none => none
      | some (.OK, w, nLast) =>
        let pool := { pool.withViews w with nLastSequenceNumber := nLast }
        match pool.txView.get txid with
        | none => some (.ERR_NOT_FOUND, none, pool)
        | some link =>
          match pool.mapTx.find? link.ptx with
          | none => none
          | some t => some (.OK, some (t.destIn, t.nValueIn), pool)
      | some (err, w, nLast) => some (err, none, { pool.withViews w with nLastSequenceNumber := nLast })

def eraseInvolved (w : PoolViews) : PoolViews :=
  { w with mapTx := (w.viewInvolvedTx.setTxLinkIndex.map CPooledTxLink.hashTX).foldl OrdMap.erase w.mapTx }

/-- `Pop`, which is `RemoveTx`. The entry of `txid` itself stays in `mapTx`. -/
def pop (pool : CTxPool) (txid : ℕ) : Option CTxPool :=
  match pool.mapTx.find? txid with
  | none => some pool
  | some _ =>
    match pool.txView.remove pool.mapTx txid with
    | none => none
    | some view =>
      match PoolViews.invalidateSpent E fuel { pool.views with txView := view } ⟨txid, 0⟩ with
      | none => none
      | some w =>
        match w.invalidateSpent E fuel ⟨txid, 1⟩ with
        | none => none
        | some w => some (pool.withViews (eraseInvolved w))

/-! ## SynchronizeBlockChain -/

def invalidateInputs : List CTxOutPoint → PoolViews → Option PoolViews
  | [], w => some w
  | prevout :: l, w =>
    match w.invalidateSpent E fuel prevout with
    | none => none
    | some w => invalidateInputs l w

def connectTx (setTxUpdate : List ℕ) (nBlockHeight : ℕ) (tx : CTransaction) (txContxt : CTxContxt) :
    PoolViews × CTxSetChange → Option (PoolViews × CTxSetChange)
  | (w, change) =>
    let txid := tx.getHash E
    if txid ∈ setTxUpdate then some (w, change.updateTx txid nBlockHeight)
    else if (w.txView.get txid).isSome then
      match w.txView.remove w.mapTx txid with
      | none => none
      | some view => some ({ w with txView := view, mapTx := w.mapTx.erase txid }, change.updateTx txid nBlockHeight)
    else
      match invalidateInputs E fuel tx.vInput w with
      | none => none
      | some w =>
        let atx : CAssembledTx := ⟨tx, nBlockHeight, txContxt.destIn, txContxt.getValueIn⟩
        some (w, { change with vTxAddNew := change.vTxAddNew ++ [atx] })

def connectTxs (setTxUpdate : List ℕ) (nBlockHeight : ℕ) :
    List (CTransaction × CTxContxt) → PoolViews × CTxSetChange → Option (PoolViews × CTxSetChange)
  | [], x => some x
  | (tx, txContxt) :: l, x =>
    match connectTx E fuel setTxUpdate nBlockHeight tx txContxt x with
    | none => none
    | some x => connectTxs setTxUpdate nBlockHeight l x

/-- A block that is added: `vTxContxt[i]` is read for each transaction. -/
def connectBlock (setTxUpdate : List ℕ) (b : CBlockEx) :
    PoolViews × CTxSetChange → Option (PoolViews × CTxSetChange)
  | (w, change) =>
    let nBlockHeight := b.block.getBlockHeight
    let change := if b.block.txMint.nAmount ≠ 0 then
        { change with vTxAddNew := change.vTxAddNew ++ [⟨b.block.txMint, nBlockHeight, CDestination.null, 0⟩] }
      else change
    if b.vTxContxt.length < b.block.vtx.length then none
    else connectTxs E fuel setTxUpdate nBlockHeight (b.block.vtx.zip b.vTxContxt) (w, change)

def connectBlocks (setTxUpdate : List ℕ) :
    List CBlockEx → PoolViews × CTxSetChange → Option (PoolViews × CTxSetChange)
  | [], x => some x
  | b :: l, x =>
    match connectBlock E fuel setTxUpdate b x with
    | none => none
    | some x => connectBlocks setTxUpdate l x

/-- The pool while blocks are removed: `nLast` is `nLastSequenceNumber`, `vTxRemove` what left the chain. -/
structure Disconnect where
  w : PoolViews
  nLast : ℕ
  change : CTxSetChange
  vTxRemove : List (ℕ × List CTxOutPoint) := []

/-- The mark of an output that `AddNew` has overwritten. -/
def restoreSpent (view : CTxPoolView) (out : CTxOutPoint) (txidNextTx : ℕ) : CTxPoolView :=
  if txidNextTx ≠ 0 then view.setSpent out txidNextTx else view

def disconnectTx (s : CBlockBase) (update : CBlockChainUpdate) (tx : CTransaction) (x : Disconnect) :
    Option Disconnect :=
  let txid := tx.getHash E
  if tx.isMintTx then
    match x.w.invalidateSpent E fuel ⟨txid, 0⟩ with
    | none => none
    | some w => some { x with w := w, vTxRemove := x.vTxRemove ++ [(txid, tx.vInput)] }
  else if txid ∈ update.setTxUpdate then some x
  else
    let spent0 := x.w.txView.getSpent ⟨txid, 0⟩
    let spent1 := x.w.txView.getSpent ⟨txid, 1⟩
    match addNew E fuel s x.w x.nLast txid tx update.nLastBlockHeight update.hashLastBlock with
    | none => none
    | some (.OK, w, nLast) =>
      let view := restoreSpent (restoreSpent w.txView ⟨txid, 0⟩ spent0) ⟨txid, 1⟩ spent1
      some { x with w := { w with txView := view }, nLast := nLast, change := x.change.updateTx txid (-1) }
    | some (_, w, nLast) =>
      match w.invalidateSpent E fuel ⟨txid, 0⟩ with
      | none => none
      | some w =>
        match w.invalidateSpent E fuel ⟨txid, 1⟩ with
        | none => none
        | some w => some { x with w := w, nLast := nLast, vTxRemove := x.vTxRemove ++ [(txid, tx.vInput)] }

def disconnectTxs (s : CBlockBase) (update : CBlockChainUpdate) :
    List CTransaction → Disconnect → Option Disconnect
  | [], x => some x
  | tx :: l, x =>
    match disconnectTx E fuel s update tx x with
    | none => none
    | some x => disconnectTxs s update l x

def disconnectBlock (s : CBlockBase) (update : CBlockChainUpdate) (b : CBlockEx) (x : Disconnect) :
    Option Disconnect :=
  match disconnectTxs E fuel s update b.block.vtx x with
  | none => none
  | some x =>
    if b.block.txMint.nAmount ≠ 0 then
      let txidMint := b.block.txMint.getHash E
      match x.w.invalidateSpent E fuel ⟨txidMint, 0⟩ with
      | none => none
      | some w => some { x with w := w, vTxRemove := x.vTxRemove ++ [(txidMint, b.block.txMint.vInput)] }
    else some x

def disconnectBlocks (s : CBlockBase) (update : CBlockChainUpdate) :
    List CBlockEx → Disconnect → Option Disconnect
  | [], x => some x
  | b :: l, x =>
    match disconnectBlock E fuel s update b x with
    | none => none
    | some x => disconnectBlocks s update l x

/-- What the involved transactions add to `vTxRemove`: those that `mapTx` still has, the last ones first. -/
def involvedRemoved (w : PoolViews) : List (ℕ × List CTxOutPoint) :=
  w.viewInvolvedTx.setTxLinkIndex.reverse.filterMap fun link =>
    (w.mapTx.find? link.hashTX).map fun t => (link.hashTX, t.tx.vInput)

/-- `SynchronizeBlockChain`. The source reads `vBlockAddNew[0]` without asking whether there is one. -/
def synchronizeBlockChain (s : CBlockBase) (pool : CTxPool) (update : CBlockChainUpdate) :
    Option (CTxSetChange × CTxPool) :=
  match connectBlocks E fuel update.setTxUpdate update.vBlockAddNew.reverse (pool.views, {}) with
  | none => none
  | some (w, change) =>
    match disconnectBlocks E fuel s update update.vBlockRemove.reverse ⟨w, pool.nLastSequenceNumber, change, []⟩ with
    | none => none
    | some x =>
      let change := { x.change with vTxRemove := involvedRemoved x.w ++ x.vTxRemove.reverse }
      let w := eraseInvolved x.w
      match update.vBlockAddNew with
      | [] => none
      | last :: _ =>
        match w.txView.arrangeBlockTx E w.mapTx last.block.nTimeStamp MAX_BLOCK_TX_SIZE with
        | none => none
        | some (vtx, _) =>
          some (change, { pool.withViews w with
            nLastSequenceNumber := x.nLast
            txCache := pool.txCache.addNew (last.block.getHash E) vtx })

/-! ## LoadData -/

/-- The loop of `LoadData`; an entry that is there already is kept. -/
def loadLoop : List (ℕ × CAssembledTx) → CTxPool → Option CTxPool
  | [], pool => some pool
  | (txid, atx) :: l, pool =>
    match insertTx E fuel pool.views pool.nLastSequenceNumber txid atx.tx atx.destIn atx.nValueIn with
    | none => none
    | some (_, w, nLast) => loadLoop l { pool.withViews w with nLastSequenceNumber := nLast }

/-- `LoadData` for the transactions that the file has. -/
def loadData (s : CBlockBase) (pool : CTxPool) (vTx : List (ℕ × CAssembledTx)) : Option CTxPool :=
  match loadLoop E fuel vTx pool with
  | none => none
  | some pool =>
    match s.pIndexLast with
    | [] => some pool
    | last :: _ =>
      match pool.txView.arrangeBlockTx E pool.mapTx last.nTimeStamp MAX_BLOCK_SIZE with
      | none => none
      | some (vtx, _) => some { pool with txCache := pool.txCache.addNew last.hashBlock vtx }

end

end CTxPool

/-! ## Runs -/

/-- A call of the pool, with the storage of the chain at that moment. -/
inductive PoolCall
  | push (s : CBlockBase) (tx : CTransaction)
  | pop (txid : ℕ)
  | sync (s : CBlockBase) (update : CBlockChainUpdate)
  | load (s : CBlockBase) (vTx : List (ℕ × CAssembledTx))

def PoolCall.isLoad : PoolCall → Bool
  | .load _ _ => true
  | _ => false

def CTxPool.call (E : Env) (fuel : ℕ) (pool : CTxPool) : PoolCall → Option CTxPool
  | .push s tx => (pool.push E fuel s tx).map fun r => r.2.2
  | .pop txid => pool.pop E fuel txid
  | .sync s update => (pool.synchronizeBlockChain E fuel s update).map Prod.snd
  | .load s vTx => pool.loadData E fuel s vTx

/-- The pools that calls lead to, each of them with `P` for the pool before it. -/
inductive PoolRun (E : Env) (P : CTxPool → ℕ → PoolCall → Prop) : CTxPool → Prop
  | empty : PoolRun E P {}
  | call {pool pool' : CTxPool} {fuel : ℕ} {x : PoolCall} (run : PoolRun E P pool) (hP : P pool fuel x)
      (h : pool.call E fuel x = some pool') : PoolRun E P pool'

/-- The pool after a list of calls; `none` when one of them does not meet `P`. -/
def CTxPool.calls (E : Env) (P : CTxPool → ℕ → PoolCall → Prop) [∀ pool fuel x, Decidable (P pool fuel x)]
    (fuel : ℕ) : List PoolCall → CTxPool → Option CTxPool
  | [], pool => some pool
  | x :: l, pool => if P pool fuel x then (pool.call E fuel x).bind (calls E P fuel l) else none

theorem PoolRun.calls {E : Env} {P : CTxPool → ℕ → PoolCall → Prop} [∀ pool fuel x, Decidable (P pool fuel x)]
    {fuel : ℕ} {l : List PoolCall} {pool pool' : CTxPool} (run : PoolRun E P pool)
    (h : CTxPool.calls E P fuel l pool = some pool') : PoolRun E P pool' := by
  induction l generalizing pool with
  | nil =>
    rw [CTxPool.calls, Option.some.injEq] at h
    rwa [← h]
  | cons x l ih =>
    rw [CTxPool.calls] at h
    split_ifs at h with hP
    obtain ⟨pool1, hcall, hrest⟩ := Option.bind_eq_some_iff.1 h
    exact ih (run.call hP hcall) hrest

end Minemon
