import Minemon.Pool.TxPool
import Minemon.Storage.WalletDB

/-!
# The wallet

The transactions and coins of `CWallet` in `minemon/wallet.cpp`, for the one fork. The objects behind its
shared pointers are in `heap`, and a pointer is a place there: the wallet compares coins by pointer, and drops
a transaction from `mapWalletTx` when no coin points to it.

* `CWallet.updateTx`: one transaction that the wallet is told of.
* `CWallet.resynchronizeWalletTx`: the rescan, over `FilterTx` of the chain and of the pool.

`none` is a result that the source does not define, or a function that returned false.
-/

namespace Minemon

/-! ## Addresses -/

/-- The keys of `mapKeyStore` and of `mapTemplatePtr`. -/
structure CWalletKeys where
  mapKeyStore : Finset ℕ
  mapTemplatePtr : Finset ℕ

namespace CWalletKeys

variable (keys : CWalletKeys)

def isMine (dest : CDestination) : Bool :=
  if dest.isPubKey then decide (dest.data ∈ keys.mapKeyStore)
  else if dest.isTemplate then decide (dest.data ∈ keys.mapTemplatePtr)
  else false

def getDestinations : Finset CDestination :=
  keys.mapKeyStore.image (fun pubkey => ⟨CDestination.PREFIX_PUBKEY, pubkey⟩) ∪
    keys.mapTemplatePtr.image fun tid => ⟨CDestination.PREFIX_TEMPLATE, tid⟩

end CWalletKeys

/-! ## Coins -/

/-- `CWalletCoins`: each coin is a pointer and the number of an output. -/
structure CWalletCoins where
  nTotalValue : ℤ := 0
  setCoins : Finset (ℕ × ℕ) := ∅

structure CWallet where
  heap : ℕ → CWalletTx := fun _ => CWalletTx.null
  /-- The next free place of the heap. -/
  nHeap : ℕ := 0
  mapWalletTx : ℕ → Option ℕ := fun _ => none
  mapWalletUnspent : CDestination → CWalletCoins := fun _ => {}
  setWalletTxOut : Finset CTxOutPoint := ∅
  dbWallet : CWalletDB := {}

namespace CWallet

section

variable (w : CWallet)

def addRef (p : ℕ) (n : ℤ) : CWallet :=
  { w with heap := Function.update w.heap p { w.heap p with nRefCount := (w.heap p).nRefCount + n } }

/-- `mapWalletUnspent[dest].Push(spWalletTx, n)` -/
def pushCoin (dest : CDestination) (p n : ℕ) : CWallet :=
  let coins := w.mapWalletUnspent dest
  if ((w.heap p).getOutput n).isNull then w
  else if (p, n) ∈ coins.setCoins then w
  else
    let coins' : CWalletCoins :=
      ⟨wrap64 (coins.nTotalValue + (w.heap p).getAmount n), insert (p, n) coins.setCoins⟩
    { w.addRef p 1 with mapWalletUnspent := Function.update w.mapWalletUnspent dest coins' }

def popCoin (dest : CDestination) (p n : ℕ) : CWallet :=
  let coins := w.mapWalletUnspent dest
  if ((w.heap p).getOutput n).isNull then w
  else if (p, n) ∈ coins.setCoins then
    let coins' : CWalletCoins :=
      ⟨wrap64 (coins.nTotalValue - (w.heap p).getAmount n), coins.setCoins.erase (p, n)⟩
    { w.addRef p (-1) with mapWalletUnspent := Function.update w.mapWalletUnspent dest coins' }
  else w

def eraseTx (txid : ℕ) : CWallet := { w with mapWalletTx := Function.update w.mapWalletTx txid none }

/-- `if (!spWalletTx->GetRefCount()) mapWalletTx.erase(txid)` -/
def eraseIdle (txid p : ℕ) : CWallet := if (w.heap p).nRefCount = 0 then w.eraseTx txid else w

def newTx (wtx : CWalletTx) : CWallet :=
  { w with
    heap := Function.update w.heap w.nHeap wtx
    nHeap := w.nHeap + 1
    mapWalletTx := Function.update w.mapWalletTx wtx.txid (some w.nHeap) }

/-! ## The coins of one transaction -/

/-- One input in `AddNewWalletTx`: the coin goes if the wallet has it. -/
def popInput (destIn : CDestination) (prevout : CTxOutPoint) : CWallet :=
  match w.mapWalletTx prevout.hash with
  | none => w
  | some p => (w.popCoin destIn p prevout.n).eraseIdle prevout.hash p

/-- `AddWalletTxOut` when the output is new. -/
def addTxOut (txout : CTxOutPoint) : CWallet := { w with setWalletTxOut := insert txout w.setWalletTxOut }

def addFromMe (p : ℕ) : CWallet :=
  let wtx := w.heap p
  if wtx.fFromMe then
    if ⟨wtx.txid, 1⟩ ∈ w.setWalletTxOut then w
    else (wtx.vInput.foldl (fun w prevout => w.popInput wtx.destIn prevout) (w.addTxOut ⟨wtx.txid, 1⟩)).pushCoin
      wtx.destIn p 1
  else w

def addIsMine (p : ℕ) : CWallet :=
  let wtx := w.heap p
  if wtx.fIsMine then
    if ⟨wtx.txid, 0⟩ ∈ w.setWalletTxOut then w
    else (w.addTxOut ⟨wtx.txid, 0⟩).pushCoin wtx.sendTo p 0
  else w

def addNewWalletTx (p : ℕ) : CWallet := (w.addFromMe p).addIsMine p

/-- `InsertWalletTx`: the pointer of the transaction, which is a new one if `mapWalletTx` has none. -/
def insertWalletTx (txid : ℕ) (t : CAssembledTx) (fIsMine fFromMe : Bool) : ℕ × CWallet :=
  match w.mapWalletTx txid with
  | none => (w.nHeap, w.newTx (CWalletTx.ofTx txid t fIsMine fFromMe))
  | some p =>
    let wtx := { w.heap p with nBlockHeight := t.nBlockHeight, fIsMine := fIsMine, fFromMe := fFromMe }
    (p, { w with heap := Function.update w.heap p wtx })

end

/-! ## Calls -/

section

variable (E : Env) (keys : CWalletKeys)

def updateTx (w : CWallet) (t : CAssembledTx) : CWallet :=
  let fIsMine := keys.isMine t.tx.sendTo
  let fFromMe := keys.isMine t.destIn
  if fFromMe || fIsMine then
    let txid := t.tx.getHash E
    let (p, w) := w.insertWalletTx txid t fIsMine fFromMe
    let w := w.addNewWalletTx p
    -- the copy for the database is made before the transaction can be dropped
    let wtx := w.heap p
    let w := w.eraseIdle txid p
    { w with dbWallet := w.dbWallet.updateTx [wtx] [] }
  else w

end

end CWallet

/-! ## Filters -/

/-- The loop over the transactions of a block in `CBlockBase::FilterTx`; `none` when `vTxContxt[i]` is not
defined. -/
def filterBlockTx {σ : Type} (setDest : Finset CDestination) (foundTx : σ → CAssembledTx → σ) (nBlockHeight : ℕ) :
    List CTransaction → List CTxContxt → σ → Option σ
  | [], _, x => some x
  | _ :: _, [], _ => none
  | tx :: vtx, ctxt :: vTxContxt, x =>
    filterBlockTx setDest foundTx nBlockHeight vtx vTxContxt
      (if tx.sendTo ∈ setDest ∨ ctxt.destIn ∈ setDest then
        foundTx x ⟨tx, nBlockHeight, ctxt.destIn, ctxt.getValueIn⟩
      else x)

def filterBlock {σ : Type} (setDest : Finset CDestination) (foundTx : σ → CAssembledTx → σ) (nBlockHeight : ℕ)
    (b : CBlockEx) (x : σ) : Option σ :=
  filterBlockTx setDest foundTx nBlockHeight b.block.vtx b.vTxContxt
    (if b.block.txMint.nAmount > 0 ∧ b.block.txMint.sendTo ∈ setDest then
      foundTx x { tx := b.block.txMint, nBlockHeight := nBlockHeight }
    else x)

/-- `CBlockBase::FilterTx`, along the main chain from its first block to the last. -/
def CBlockBase.filterTx {σ : Type} (s : CBlockBase) (setDest : Finset CDestination) (foundTx : σ → CAssembledTx → σ)
    (x : σ) : Option σ :=
  s.pIndexLast.reverse.foldlM (fun x p =>
    match s.read p with
    | none => none
    | some b => filterBlock setDest foundTx p.nHeight b x) x

/-- `CTxPool::FilterTx`, in the order of the ids. -/
def CTxPool.filterTx {σ : Type} (pool : CTxPool) (setDest : Finset CDestination) (foundTx : σ → CAssembledTx → σ)
    (x : σ) : Option σ :=
  (pool.txView.setTxLinkIndex.insertionSort fun a b => a.hashTX ≤ b.hashTX).foldlM (fun x link =>
    match pool.mapTx.find? link.ptx with
    | none => none
    | some t =>
      if t.tx.sendTo ∈ setDest ∨ t.destIn ∈ setDest then some (foundTx x ⟨t.tx, -1, t.destIn, t.nValueIn⟩)
      else some x) x

namespace CWallet

/-- `ClearTx`: `setWalletTxOut` stays. -/
def clearTx (w : CWallet) : CWallet :=
  { w with mapWalletUnspent := fun _ => {}, mapWalletTx := fun _ => none, dbWallet := w.dbWallet.clearTx }

def resynchronizeWalletTx (E : Env) (keys : CWalletKeys) (s : CBlockBase) (pool : CTxPool) (w : CWallet) :
    Option CWallet :=
  match s.filterTx keys.getDestinations (updateTx E keys) w.clearTx with
  | none => none
  | some w => pool.filterTx keys.getDestinations (updateTx E keys) w

end CWallet

end Minemon
