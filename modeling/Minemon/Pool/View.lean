import Minemon.Pool.Data

/-!
# The view of the pool

`CTxPoolView` of `minemon/txpool.cpp`: the links to the pooled transactions in the order of their sequence
numbers, and what becomes of the outputs they touch.

* `addTxIndex`, `addNew`: a transaction gets a number below those of the transactions that spend it, and so
  do its own pooled parents.
* `remove`, `invalidateSpent`: a transaction leaves, alone or with everything that descends from it.

A result of `none` is one the source does not define (a link is read whose transaction is gone), or a loop
that is not over after `fuel` turns.
-/

namespace Minemon

/-- The links by sequence number; each `hashTX` occurs once. -/
structure CTxPoolView where
  setTxLinkIndex : List CPooledTxLink := []
  mapSpent : OrdMap CTxOutPoint CSpent := OrdMap.empty
deriving DecidableEq

namespace CTxPoolView

/-! ## Lookups -/

section

variable (view : CTxPoolView)

def get (txid : ℕ) : Option CPooledTxLink := view.setTxLinkIndex.find? fun l => l.hashTX = txid

def getSeq (nSeq : ℕ) : Option CPooledTxLink := view.setTxLinkIndex.find? fun l => l.nSequenceNumber = nSeq

/-- `GetSpent`: the `txidNextTx` of an output, which is 0 when it is not spent. -/
def getSpent (out : CTxOutPoint) : ℕ :=
  match view.mapSpent.find? out with
  | none => 0
  | some c => c.txidNextTx

def isSpent (out : CTxOutPoint) : Bool := view.getSpent out != 0

/-- `GetUnspent`, into a null output. -/
def getUnspent (out : CTxOutPoint) : CTxOut :=
  match view.mapSpent.find? out with
  | none => CTxOut.null
  | some c => if c.isSpent then CTxOut.null else c.output

/-! ## Changes -/

def eraseLink (txid : ℕ) : CTxPoolView :=
  { view with setTxLinkIndex := view.setTxLinkIndex.filter fun l => l.hashTX ≠ txid }

/-- `setTxLinkIndex.insert` at the end of its sequence number, if the id is new. -/
def insertLink (link : CPooledTxLink) : Bool × CTxPoolView :=
  if (view.get link.hashTX).isSome then (false, view)
  else
    (true, { view with setTxLinkIndex :=
      view.setTxLinkIndex.orderedInsert (fun a b => a.nSequenceNumber < b.nSequenceNumber) link })

def eraseSpent (out : CTxOutPoint) : CTxPoolView := { view with mapSpent := view.mapSpent.erase out }

def setSpent (out : CTxOutPoint) (txidNextTx : ℕ) : CTxPoolView :=
  { view with mapSpent := view.mapSpent.insert out (CSpent.ofSpent txidNextTx) }

/-- `SetUnspent`: the output as its pooled transaction has it, or nothing. -/
def setUnspent (mapTx : MapTx) (out : CTxOutPoint) : Option CTxPoolView :=
  match view.get out.hash with
  | none => some (view.eraseSpent out)
  | some link =>
    match mapTx.find? link.ptx with
    | none => none
    | some t => some { view with mapSpent := view.mapSpent.insert out (CSpent.ofUnspent (t.getOutput out.n)) }

end

def setUnspents (mapTx : MapTx) : List CTxOutPoint → CTxPoolView → Option CTxPoolView
  | [], view => some view
  | out :: l, view =>
    match view.setUnspent mapTx out with
    | none => none
    | some view => setUnspents mapTx l view

def remove (mapTx : MapTx) (view : CTxPoolView) (txid : ℕ) : Option CTxPoolView :=
  match view.get txid with
  | none => some view
  | some link =>
    match mapTx.find? link.ptx with
    | none => none
    | some t => (setUnspents mapTx t.tx.vInput view).map fun v => v.eraseLink txid

/-! ## Sequence numbers -/

def SEQUENCE_GAP : ℕ := 2 ^ 24

/-- The loop of `AddTxIndex`: the pooled spender with the least number, with its key; `some none` when one of the
spenders is not in the view. -/
def minNext (mapTx : MapTx) (view : CTxPoolView) (txid : ℕ) :
    List ℕ → Option (ℕ × CPooledTx) → Option (Option (Option (ℕ × CPooledTx)))
  | [], pMin => some (some pMin)
  | i :: l, pMin =>
    if view.getSpent ⟨txid, i⟩ = 0 then minNext mapTx view txid l pMin
    else
      match view.get (view.getSpent ⟨txid, i⟩) with
      | none => some none
      | some link =>
        match mapTx.find? link.ptx with
        | none => none
        | some t =>
          match pMin with
          | none => minNext mapTx view txid l (some (link.ptx, t))
          | some m =>
            minNext mapTx view txid l
              (if m.2.nSequenceNumber > t.nSequenceNumber then some (link.ptx, t) else some m)

/-- The search for an idle number from `nBase + n` down to `nBase + 1`. -/
def idleLoop (view : CTxPoolView) (nBase : ℕ) : ℕ → Option ℕ
  | 0 => none
  | n + 1 => if (view.getSeq (nBase + (n + 1))).isNone then some (nBase + (n + 1)) else idleLoop view nBase n

/-- The transaction at the top of the gap that `m` is in; `some none` when it is not in the view. -/
def rootOf (mapTx : MapTx) (view : CTxPoolView) (m : ℕ × CPooledTx) : Option (Option (ℕ × CPooledTx)) :=
  if m.2.nSequenceNumber % SEQUENCE_GAP = 0 then some (some m)
  else
    match view.getSeq ((m.2.nSequenceNumber / SEQUENCE_GAP + 1) * SEQUENCE_GAP % 2 ^ 64) with
    | none => some none
    | some link =>
      match mapTx.find? link.ptx with
      | none => none
      | some r => some (some (link.ptx, r))

/-- The next number that the top of the gap of `m` gives away, or an idle one. `some none` when there is none. -/
def nextNumber (mapTx : MapTx) (view : CTxPoolView) (m : ℕ × CPooledTx) : Option (Option (ℕ × MapTx)) :=
  match rootOf mapTx view m with
  | none => none
  | some (some (key, r)) =>
    let n := if r.nNextSequenceNumber = 0 then (r.nSequenceNumber + (2 ^ 64 - 1)) % 2 ^ 64
      else r.nNextSequenceNumber
    some (some (n, mapTx.insert key { r with nNextSequenceNumber := (n + (2 ^ 64 - 1)) % 2 ^ 64 }))
  | some none =>
    let nSeq := m.2.nSequenceNumber
    some ((idleLoop view (nSeq / SEQUENCE_GAP * SEQUENCE_GAP) (nSeq % SEQUENCE_GAP - 1)).map fun n => (n, mapTx))

section

variable (E : Env)

def linkTx (mapTx : MapTx) (view : CTxPoolView) (key : ℕ) : Option (Bool × MapTx × CTxPoolView) :=
  match mapTx.find? key with
  | none => none
  | some t =>
    if (view.getSeq t.nSequenceNumber).isSome then some (false, mapTx, view)
    else
      match view.insertLink ⟨t.tx.getHash E, t.nSequenceNumber, key⟩ with
      | (ok, view) => some (ok, mapTx, view)

def addTxIndex (mapTx : MapTx) (view : CTxPoolView) (txid key : ℕ) : Option (Bool × MapTx × CTxPoolView) :=
  let view := view.eraseLink txid
  match minNext mapTx view txid [0, 1] none with
  | none => none
  | some none => some (false, mapTx, view)
  | some (some none) => linkTx E mapTx view key
  | some (some (some m)) =>
    match nextNumber mapTx view m with
    | none => none
    | some none => some (false, mapTx, view)
    | some (some (n, mapTx)) =>
      match mapTx.find? key with
      | none => none
      | some t => linkTx E (mapTx.insert key { t with nSequenceNumber := n }) view key

/-! ## New transactions -/

/-- The loop of `AddNew` over the parents, each with the number of the child that asks for it. -/
def addNewLoop : ℕ → MapTx → CTxPoolView → List (ℕ × ℕ) → Option (Bool × MapTx × CTxPoolView)
  | _, mapTx, view, [] => some (true, mapTx, view)
  | 0, _, _, _ :: _ => none
  | fuel + 1, mapTx, view, (txidPrev, nSeq) :: vPrevTxid =>
    match view.get txidPrev with
    | none => addNewLoop fuel mapTx view vPrevTxid
    | some link =>
      match mapTx.find? link.ptx with
      | none => none
      | some t =>
        if t.nSequenceNumber > nSeq then
          match addTxIndex E mapTx view txidPrev link.ptx with
          | none => none
          | some (false, mapTx, view) => some (false, mapTx, view)
          | some (true, mapTx, view) =>
            match mapTx.find? link.ptx with
            | none => none
            | some t =>
              addNewLoop fuel mapTx view
                (vPrevTxid ++ t.tx.vInput.map fun prevout => (prevout.hash, t.nSequenceNumber))
        else addNewLoop fuel mapTx view vPrevTxid

/-- What `AddNew` writes to `mapSpent`: the inputs are spent, the outputs are not. -/
def spendTx (view : CTxPoolView) (txid : ℕ) (t : CPooledTx) : CTxPoolView :=
  [0, 1].foldl (fun v i =>
      if (t.getOutput i).isNull then v
      else { v with mapSpent := v.mapSpent.insert ⟨txid, i⟩ (CSpent.ofUnspent (t.getOutput i)) })
    (t.tx.vInput.foldl (fun v prevout => v.setSpent prevout txid) view)

def addNew (fuel : ℕ) (mapTx : MapTx) (view : CTxPoolView) (txid key : ℕ) :
    Option (Bool × MapTx × CTxPoolView) :=
  match addTxIndex E mapTx view txid key with
  | none => none
  | some (false, mapTx, view) => some (false, mapTx, view)
  | some (true, mapTx, view) =>
    match mapTx.find? key with
    | none => none
    | some t =>
      addNewLoop E fuel mapTx (view.spendTx txid t)
        (t.tx.vInput.map fun prevout => (prevout.hash, t.nSequenceNumber))

end

end CTxPoolView

/-! ## Transactions that lose their inputs -/

/-- The views of one call. `fAdded` is not in the source: every `CTxPoolView::AddNew` so far has returned `true`. -/
structure PoolViews where
  mapTx : MapTx
  txView : CTxPoolView
  viewInvolvedTx : CTxPoolView := {}
  fAdded : Bool := true

namespace PoolViews

/-- An output of a transaction that leaves: it goes on the list if it is spent, out of the map if not. -/
def leaveOutput (view : CTxPoolView) (out : CTxOutPoint) : CTxPoolView × List CTxOutPoint :=
  if view.isSpent out then (view, [out]) else (view.eraseSpent out, [])

def invalidateLoop (E : Env) (nFuel : ℕ) : ℕ → PoolViews → List CTxOutPoint → Option PoolViews
  | _, w, [] => some w
  | 0, _, _ :: _ => none
  | fuel + 1, w, out :: vOutPoint =>
    let txidNextTx := w.txView.getSpent out
    match (if txidNextTx = 0 then none else w.txView.get txidNextTx) with
    | none => invalidateLoop E nFuel fuel { w with txView := w.txView.eraseSpent out } vOutPoint
    | some link =>
      match w.mapTx.find? link.ptx with
      | none => none
      | some t =>
        match CTxPoolView.setUnspents w.mapTx t.tx.vInput w.txView with
        | none => none
        | some view =>
          let (view, l0) := leaveOutput view ⟨txidNextTx, 0⟩
          let (view, l1) := leaveOutput view ⟨txidNextTx, 1⟩
          match w.viewInvolvedTx.addNew E nFuel w.mapTx txidNextTx link.ptx with
          | none => none
          | some (ok, mapTx, viewInvolvedTx) =>
            invalidateLoop E nFuel fuel ⟨mapTx, view.eraseLink txidNextTx, viewInvolvedTx, w.fAdded && ok⟩
              (vOutPoint ++ l0 ++ l1)

def invalidateSpent (E : Env) (fuel : ℕ) (w : PoolViews) (out : CTxOutPoint) : Option PoolViews :=
  invalidateLoop E fuel fuel w [out]

end PoolViews

/-! ## Transactions for a block -/

namespace CTxPoolView

/-- The loop of `ArrangeBlockTx` with `AddArrangeBlockTx`. -/
def arrangeLoop (E : Env) (mapTx : MapTx) (nBlockTime : ℤ) (nMaxSize : ℕ) :
    List CPooledTxLink → List CTransaction → ℤ → ℕ → List ℕ → Option (List CTransaction × ℤ)
  | [], vtx, nTotalTxFee, _, _ => some (vtx, nTotalTxFee)
  | link :: l, vtx, nTotalTxFee, nTotalSize, setUnTx =>
    match mapTx.find? link.ptx with
    | none => none
    | some t =>
      if t.tx.nTimeStamp ≤ nBlockTime then
        if t.tx.vInput.any (fun prevout => prevout.hash ∈ setUnTx) then
          arrangeLoop E mapTx nBlockTime nMaxSize l vtx nTotalTxFee nTotalSize (t.tx.getHash E :: setUnTx)
        else if nTotalSize + t.nSerializeSize > nMaxSize then some (vtx, nTotalTxFee)
        else
          arrangeLoop E mapTx nBlockTime nMaxSize l (vtx ++ [t.tx]) (wrap64 (nTotalTxFee + t.tx.nTxFee))
            (nTotalSize + t.nSerializeSize) setUnTx
      else arrangeLoop E mapTx nBlockTime nMaxSize l vtx nTotalTxFee nTotalSize (t.tx.getHash E :: setUnTx)

/-- `ArrangeBlockTx`: the transactions and their fees. -/
def arrangeBlockTx (E : Env) (mapTx : MapTx) (view : CTxPoolView) (nBlockTime : ℤ) (nMaxSize : ℕ) :
    Option (List CTransaction × ℤ) :=
  arrangeLoop E mapTx nBlockTime nMaxSize view.setTxLinkIndex [] 0 0 []

end CTxPoolView

end Minemon
