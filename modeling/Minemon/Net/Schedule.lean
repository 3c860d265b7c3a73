import Minemon.Common.Block
import Minemon.Lib.Multimap
import Minemon.Lib.OrdSet

/-!
# The schedule of downloads

`CSchedule` of `minemon/schedule.cpp` and `schedule.h`: which peers have announced which blocks and transactions,
which of them was asked for each one, and which received objects wait for another one to come.

* `CSchedule` and its operations; `SchedCall`, `CSchedule.call`: any of them, as a step.

`now` is what `GetTime` returns during a call.
-/

namespace Minemon

/-! ## Inventories -/

/-- `CInv::nType`; `MSG_ERROR` is the type of no inventory of a schedule. -/
inductive InvType
  | MSG_TX
  | MSG_BLOCK
deriving DecidableEq, Repr

def InvType.code : InvType → ℕ
  | MSG_TX => 1
  | MSG_BLOCK => 2

theorem InvType.code_injective : Function.Injective InvType.code := by
  intro a b h
  cases a <;> cases b <;> first | rfl | cases h

/-- `network::CInv` -/
@[ext] structure CInv where
  nType : InvType
  nHash : ℕ
deriving DecidableEq, Repr

namespace CInv

/-- `operator<`: the type first, the hash then. -/
instance : LinearOrder CInv :=
  .byPair (fun a => a.nType.code) nHash fun _ _ h1 h2 => CInv.ext (InvType.code_injective h1) h2

end CInv

/-! ## Orphans -/

/-- `COrphan::mapOrphanByPrev`: pairs of an object that is missing and one that waits for it. -/
abbrev COrphan := List (ℕ × ℕ)

namespace COrphan

variable (o : COrphan)

def addNew (prev hash : ℕ) : COrphan := Multimap.insert (prev, hash) o

def remove (hash : ℕ) : COrphan := o.filter fun e => e.2 ≠ hash

def getNext (prev : ℕ) : List ℕ := (o.filter fun e => e.1 = prev).map Prod.snd

def removeNext (prev : ℕ) : COrphan := o.filter fun e => e.1 ≠ prev

/-- The loop of `GetNext` with a set: what the set does not have yet goes into it and on the list. -/
def takeNew : List ℕ → OrdSet ℕ → List ℕ × OrdSet ℕ
  | [], setHash => ([], setHash)
  | hash :: l, setHash =>
    if hash ∈ setHash then takeNew l setHash
    else
      let (vNext, setHash) := takeNew l (setHash.add hash)
      (hash :: vNext, setHash)

def getNextNew (prev : ℕ) (setHash : OrdSet ℕ) : List ℕ × OrdSet ℕ := takeNew (o.getNext prev) setHash

/-- The loop of `RemoveBranch`. A turn that puts hashes on the list erases as many pairs. -/
def removeBranchLoop : ℕ → COrphan → List ℕ → OrdSet ℕ → COrphan × List ℕ
  | 0, o, _, _ => (o, [])
  | _ + 1, o, [], _ => (o, [])
  | turns + 1, o, hash :: vBranch, setBranch =>
    let (vNext, setBranch) := getNextNew o hash setBranch
    let (o, vDone) := removeBranchLoop turns (removeNext o hash) (vBranch ++ vNext) setBranch
    (o, hash :: vDone)

/-- `RemoveBranch`: the index without the branch, and `vBranch`. -/
def removeBranch (root : ℕ) : COrphan × List ℕ :=
  let (vBranch, setBranch) := getNextNew o root OrdMap.empty
  removeBranchLoop o.length (removeNext o root) vBranch setBranch

end COrphan

/-! ## Peers and inventories -/

structure CInvPeerState where
  listKnown : List ℕ := []
  setAssigned : OrdSet ℕ := OrdMap.empty
  nNextGetBlocksTime : ℤ := 0
  mapRepeat : OrdMap ℕ (OrdSet ℕ) := OrdMap.empty

structure CInvPeer where
  invKnown : InvType → CInvPeerState := fun _ => {}
  hashGetBlockLocatorDepth : ℕ := 0
  nInvHeight : ℤ := 0
  hashInvBlock : ℕ := 0

namespace CInvPeer

variable (peer : CInvPeer)

def getKnownList (type : InvType) : List ℕ := (peer.invKnown type).listKnown
def getAssigned (type : InvType) : OrdSet ℕ := (peer.invKnown type).setAssigned

def empty (type : InvType) : Bool := (peer.getKnownList type).isEmpty
def getCount (type : InvType) : ℕ := (peer.getKnownList type).length

/-- `invKnown[type - MSG_TX]` with other contents. -/
def setKnown (type : InvType) (f : CInvPeerState → CInvPeerState) : CInvPeer :=
  { peer with invKnown := Function.update peer.invKnown type (f (peer.invKnown type)) }

/-- `GetKnownInv`: the blocks first. -/
def getKnownInv : List CInv :=
  (peer.getKnownList .MSG_BLOCK).map (CInv.mk .MSG_BLOCK) ++ (peer.getKnownList .MSG_TX).map (CInv.mk .MSG_TX)

def addNewInv (inv : CInv) : CInvPeer :=
  peer.setKnown inv.nType fun k => { k with listKnown := k.listKnown.filter (· ≠ inv.nHash) ++ [inv.nHash] }

/-- What `RemoveInv` does to `mapRepeat`: the hash leaves, and with the last one the height. -/
def dropRepeat (mapRepeat : OrdMap ℕ (OrdSet ℕ)) (hash : ℕ) : OrdMap ℕ (OrdSet ℕ) :=
  match mapRepeat.find? (getBlockHeightByHash hash) with
  | none => mapRepeat
  | some setHash =>
    if (setHash.erase hash).toList.isEmpty then mapRepeat.erase (getBlockHeightByHash hash)
    else mapRepeat.insert (getBlockHeightByHash hash) (setHash.erase hash)

def removeInv (inv : CInv) : CInvPeer :=
  peer.setKnown inv.nType fun k =>
    { k with
      listKnown := k.listKnown.filter (· ≠ inv.nHash)
      setAssigned := k.setAssigned.erase inv.nHash
      mapRepeat := if inv.nType = .MSG_BLOCK then dropRepeat k.mapRepeat inv.nHash else k.mapRepeat }

def knownInvExists (inv : CInv) : Bool := inv.nHash ∈ peer.getKnownList inv.nType

def assign (inv : CInv) : CInvPeer :=
  peer.setKnown inv.nType fun k => { k with setAssigned := k.setAssigned.add inv.nHash }

def completed (inv : CInv) : CInvPeer :=
  peer.setKnown inv.nType fun k => { k with setAssigned := k.setAssigned.erase inv.nHash }

def isAssigned : Bool :=
  !(peer.getAssigned .MSG_TX).toList.isEmpty || !(peer.getAssigned .MSG_BLOCK).toList.isEmpty

def setLocatorInvBlockHash (nHeight : ℤ) (hashBlock hashNext : ℕ) : CInvPeer :=
  if nHeight ≥ peer.nInvHeight then { peer with nInvHeight := nHeight, hashInvBlock := hashBlock }
  else if hashNext = 0 && peer.hashInvBlock = 0 then { peer with nInvHeight := nHeight, hashInvBlock := hashBlock }
  else { peer with nInvHeight := peer.nInvHeight - 1, hashInvBlock := 0 }

def setNextGetBlocksTime (now nWaitTime : ℤ) : CInvPeer :=
  peer.setKnown .MSG_BLOCK fun k => { k with nNextGetBlocksTime := now + nWaitTime }

def checkNextGetBlocksTime (now : ℤ) : Bool := (peer.invKnown .MSG_BLOCK).nNextGetBlocksTime ≤ now

/-- `AddRepeatBlock`: how many repeated blocks of the height the peer has sent, 0 for a block it does not know. -/
def addRepeatBlock (hash : ℕ) : ℕ × CInvPeer :=
  if peer.knownInvExists ⟨.MSG_BLOCK, hash⟩ then
    let nHeight := getBlockHeightByHash hash
    let setHash := (((peer.invKnown .MSG_BLOCK).mapRepeat.find? nHeight).getD OrdMap.empty).add hash
    (setHash.size, peer.setKnown .MSG_BLOCK fun k => { k with mapRepeat := k.mapRepeat.insert nHeight setHash })
  else (0, peer)

end CInvPeer

/-- `CInvObject`: `CNil`, a block or a transaction. -/
inductive CInvObject
  | nil
  | block (block : CBlock)
  | tx (tx : CTransaction)

/-- `CSchedule::CInvState`; `nAssigned = 0` says that no peer was asked. -/
structure CInvState where
  nAssigned : ℕ := 0
  objReceived : CInvObject := .nil
  setKnownPeer : OrdSet ℕ := OrdMap.empty
  nRecvInvTime : ℤ := 0
  nRecvObjTime : ℤ := 0
  nClearObjTime : ℤ := 0
  nGetDataCount : ℕ := 0
  fRepeatMintBlock : Bool := false

def CInvState.isReceived (state : CInvState) : Bool :=
  match state.objReceived with
  | .nil => false
  | _ => true

/-! ## The schedule -/

structure CSchedule where
  orphanBlock : COrphan := []
  orphanTx : COrphan := []
  mapPeer : OrdMap ℕ CInvPeer := OrdMap.empty
  mapState : OrdMap CInv CInvState := OrdMap.empty
  setMissPrevTxInv : OrdSet CInv := OrdMap.empty

namespace CSchedule

def MAX_INV_COUNT : ℕ := 1024 * 256
def MAX_PEER_BLOCK_INV_COUNT : ℕ := 1024
def MAX_PEER_TX_INV_COUNT : ℕ := 1024 * 256
def MAX_REGETDATA_COUNT : ℕ := 10
def MAX_INV_WAIT_TIME : ℤ := 3600
def MAX_OBJ_WAIT_TIME : ℤ := 7200
def MAX_REPEAT_BLOCK_TIME : ℤ := 180
def MAX_REPEAT_BLOCK_COUNT : ℕ := 4

section

variable (s : CSchedule)

/-- The entry of a peer; one that is not there is empty. -/
def peer (nPeerNonce : ℕ) : CInvPeer := (s.mapPeer.find? nPeerNonce).getD {}

/-- `mapPeer[nPeerNonce]` with `f` applied to it: a peer that is not there yet comes in. -/
def modifyPeer (nPeerNonce : ℕ) (f : CInvPeer → CInvPeer) : CSchedule :=
  { s with mapPeer := s.mapPeer.upsert nPeerNonce fun peer => f (peer.getD {}) }

def setState (inv : CInv) (state : CInvState) : CSchedule := { s with mapState := s.mapState.insert inv state }

/-- Whether the inventory is in `mapState` and its object was received. -/
def received (inv : CInv) : Bool := (s.mapState.find? inv).any CInvState.isReceived

def orphans : InvType → COrphan
  | .MSG_TX => s.orphanTx
  | .MSG_BLOCK => s.orphanBlock

def checkPrevTxInv (inv : CInv) : Bool × CSchedule :=
  match s.mapState.find? inv with
  | some state =>
    (true, if state.isReceived then s else { s with setMissPrevTxInv := s.setMissPrevTxInv.add inv })
  | none => (false, { s with setMissPrevTxInv := s.setMissPrevTxInv.add inv })

def removeOrphan (inv : CInv) : CSchedule :=
  match inv.nType with
  | .MSG_TX => { s with orphanTx := s.orphanTx.remove inv.nHash }
  | .MSG_BLOCK => { s with orphanBlock := s.orphanBlock.remove inv.nHash }

def eraseState (inv : CInv) : CSchedule :=
  { s with setMissPrevTxInv := s.setMissPrevTxInv.erase inv, mapState := s.mapState.erase inv }

/-- One turn of the loop of `RemovePeer`; `mapState[inv]` makes a state where there is none. -/
def removePeerInv (nPeerNonce : ℕ) (inv : CInv) : CSchedule :=
  let state := (s.mapState.find? inv).getD {}
  let state := { state with setKnownPeer := state.setKnownPeer.erase nPeerNonce }
  if state.setKnownPeer.toList.isEmpty then (s.removeOrphan inv).eraseState inv
  else if state.nAssigned = nPeerNonce then s.setState inv { state with nAssigned := 0, objReceived := .nil }
  else s.setState inv state

def removePeer (nPeerNonce : ℕ) : CSchedule :=
  match s.mapPeer.find? nPeerNonce with
  | none => s
  | some peer =>
    let s := peer.getKnownInv.foldl (fun s inv => s.removePeerInv nPeerNonce inv) s
    { s with mapPeer := s.mapPeer.erase nPeerNonce }

/-- `CheckAddInvIdleLocation`: the peer comes in if there is room in `mapState`. -/
def checkAddInvIdleLocation (nPeerNonce : ℕ) (type : InvType) : Bool × CSchedule :=
  if s.mapState.size < MAX_INV_COUNT then
    let s := s.modifyPeer nPeerNonce id
    let nMax := match type with
      | .MSG_TX => MAX_PEER_TX_INV_COUNT
      | .MSG_BLOCK => MAX_PEER_BLOCK_INV_COUNT
    ((s.peer nPeerNonce).getCount type < nMax, s)
  else (false, s)

def addNewInv (now : ℤ) (inv : CInv) (nPeerNonce : ℕ) : Bool × CSchedule :=
  match s.checkAddInvIdleLocation nPeerNonce inv.nType with
  | (false, s) => (false, s)
  | (true, s) =>
    let state := (s.mapState.find? inv).getD {}
    let state := { state with
      setKnownPeer := state.setKnownPeer.add nPeerNonce
      nRecvInvTime := if state.nRecvInvTime = 0 then now else state.nRecvInvTime }
    (true, (s.setState inv state).modifyPeer nPeerNonce fun peer => peer.addNewInv inv)

def removeFromPeers (inv : CInv) (state : CInvState) : CSchedule :=
  state.setKnownPeer.keys.foldl (fun s nPeerNonce => s.modifyPeer nPeerNonce fun peer => peer.removeInv inv) s

/-- `RemoveInv`; the set that grows by the known peers is left to the caller. -/
def removeInv (inv : CInv) : Bool × CSchedule :=
  match s.mapState.find? inv with
  | none => (false, s)
  | some state =>
    let s := s.removeFromPeers inv state
    let s := if state.isReceived then s.removeOrphan inv else s
    (true, s.eraseState inv)

/-- `ReceiveBlock` and `ReceiveTx`: an object comes from the peer that was asked for it. -/
def receive (now : ℤ) (nPeerNonce : ℕ) (inv : CInv) (obj : CInvObject) : Bool × CSchedule :=
  match s.mapState.find? inv with
  | none => (false, s)
  | some state =>
    if state.nAssigned = nPeerNonce && !state.isReceived then
      let state := { state with
        objReceived := obj, nRecvObjTime := now, nClearObjTime := now + MAX_OBJ_WAIT_TIME }
      (true, (s.setState inv state).modifyPeer nPeerNonce fun peer => peer.completed inv)
    else (false, s)

def receiveBlock (now : ℤ) (nPeerNonce hash : ℕ) (block : CBlock) : Bool × CSchedule :=
  s.receive now nPeerNonce ⟨.MSG_BLOCK, hash⟩ (.block block)

def receiveTx (now : ℤ) (nPeerNonce txid : ℕ) (tx : CTransaction) : Bool × CSchedule :=
  match s.receive now nPeerNonce ⟨.MSG_TX, txid⟩ (.tx tx) with
  | (false, s) => (false, s)
  | (true, s) => (true, { s with setMissPrevTxInv := s.setMissPrevTxInv.erase ⟨.MSG_TX, txid⟩ })

def addOrphanBlockPrev (hash prev : ℕ) : CSchedule := { s with orphanBlock := s.orphanBlock.addNew prev hash }
def addOrphanTxPrev (txid prev : ℕ) : CSchedule := { s with orphanTx := s.orphanTx.addNew prev txid }

/-- It leaves, but `RemoveOrphan` is not called. A block stays in `setMissPrevTxInv`. -/
def invalidateInv (inv : CInv) : CSchedule :=
  match s.mapState.find? inv with
  | none => s
  | some state =>
    let s := s.removeFromPeers inv state
    match inv.nType with
    | .MSG_TX => s.eraseState inv
    | .MSG_BLOCK => { s with mapState := s.mapState.erase inv }

def invalidateBlock (hash : ℕ) : CSchedule :=
  let (orphanBlock, vInvalid) := s.orphanBlock.removeBranch hash
  let s := vInvalid.foldl (fun s hash => s.invalidateInv ⟨.MSG_BLOCK, hash⟩) { s with orphanBlock := orphanBlock }
  (s.removeInv ⟨.MSG_BLOCK, hash⟩).2

def invalidateTx (txid : ℕ) : CSchedule :=
  let (orphanTx, vInvalid) := s.orphanTx.removeBranch txid
  let s := vInvalid.foldl (fun s txid => s.invalidateInv ⟨.MSG_TX, txid⟩) { s with orphanTx := orphanTx }
  (s.removeInv ⟨.MSG_TX, txid⟩).2

end

/-! ### ScheduleKnownInv -/

def invTimeout (now : ℤ) (state : CInvState) : Bool :=
  MAX_REGETDATA_COUNT ≤ state.nGetDataCount
    || (1 ≤ state.nGetDataCount && MAX_INV_WAIT_TIME ≤ now - state.nRecvInvTime)
    || MAX_INV_WAIT_TIME * 12 ≤ now - state.nRecvInvTime

/-- The variables of `ScheduleKnownInv`; `peer` is a reference into `mapPeer`. -/
structure KnownLoop where
  s : CSchedule
  vInv : List CInv := []
  setRemoveInv : OrdSet CInv := OrdMap.empty
  setRemovePeerInv : OrdSet CInv := OrdMap.empty
  nReceived : ℕ := 0

def assignInv (s : CSchedule) (nPeerNonce : ℕ) (inv : CInv) (state : CInvState) : CSchedule :=
  (s.setState inv { state with
      nAssigned := nPeerNonce, nGetDataCount := state.nGetDataCount + 1 }).modifyPeer nPeerNonce
    fun peer => peer.assign inv

def KnownLoop.assign (x : KnownLoop) (nPeerNonce : ℕ) (inv : CInv) (state : CInvState) : KnownLoop :=
  { x with s := x.s.assignInv nPeerNonce inv state, vInv := x.vInv ++ [inv] }

def missPrevLoop (now : ℤ) (nPeerNonce nMaxCount : ℕ) : List CInv → KnownLoop → KnownLoop
  | [], x => x
  | inv :: l, x =>
    match x.s.mapState.find? inv with
    | none =>
      missPrevLoop now nPeerNonce nMaxCount l
        { x with s := { x.s with setMissPrevTxInv := x.s.setMissPrevTxInv.erase inv } }
    | some state =>
      if state.nAssigned = 0 && (x.s.peer nPeerNonce).knownInvExists inv then
        if invTimeout now state then
          missPrevLoop now nPeerNonce nMaxCount l { x with setRemoveInv := x.setRemoveInv.add inv }
        else
          let x := x.assign nPeerNonce inv state
          if nMaxCount ≤ x.vInv.length then x else missPrevLoop now nPeerNonce nMaxCount l x
      else missPrevLoop now nPeerNonce nMaxCount l x

def listKnownLoop (now : ℤ) (nPeerNonce nMaxCount : ℕ) : List CInv → KnownLoop → KnownLoop
  | [], x => x
  | inv :: l, x =>
    match x.s.mapState.find? inv with
    | none =>
      listKnownLoop now nPeerNonce nMaxCount l { x with setRemovePeerInv := x.setRemovePeerInv.add inv }
    | some state =>
      if state.nAssigned = 0 then
        if invTimeout now state then
          listKnownLoop now nPeerNonce nMaxCount l { x with setRemoveInv := x.setRemoveInv.add inv }
        else
          let x := x.assign nPeerNonce inv state
          if nMaxCount ≤ x.vInv.length then x else listKnownLoop now nPeerNonce nMaxCount l x
      else if state.isReceived then
        if state.nClearObjTime ≤ now then
          listKnownLoop now nPeerNonce nMaxCount l { x with setRemoveInv := x.setRemoveInv.add inv }
        else listKnownLoop now nPeerNonce nMaxCount l { x with nReceived := x.nReceived + 1 }
      else listKnownLoop now nPeerNonce nMaxCount l x

def knownLoops (now : ℤ) (s : CSchedule) (nPeerNonce : ℕ) (peer : CInvPeer) (type : InvType) (nMaxCount : ℕ) :
    KnownLoop :=
  let x :=
    if type = .MSG_TX then missPrevLoop now nPeerNonce nMaxCount s.setMissPrevTxInv.keys { s := s } else { s := s }
  if x.vInv.length < nMaxCount then
    listKnownLoop now nPeerNonce nMaxCount ((peer.getKnownList type).map (CInv.mk type)) x
  else x

/-- `ScheduleKnownInv`: what it returns, `vInv` and `fReceivedAll`. -/
def scheduleKnownInv (now : ℤ) (s : CSchedule) (nPeerNonce : ℕ) (peer : CInvPeer) (type : InvType) (nMaxCount : ℕ) :
    (Bool × List CInv × Bool) × CSchedule :=
  let x := knownLoops now s nPeerNonce peer type nMaxCount
  let s := x.setRemoveInv.keys.foldl (fun s inv => (s.removeInv inv).2) x.s
  let s := x.setRemovePeerInv.keys.foldl
    (fun s inv => s.modifyPeer nPeerNonce fun peer => peer.removeInv inv) s
  let listKnown := (s.peer nPeerNonce).getKnownList type
  ((!x.vInv.isEmpty || listKnown.isEmpty, x.vInv, x.nReceived = listKnown.length && x.nReceived ≠ 0), s)

section

variable (s : CSchedule)

/-- `ScheduleBlockInv`: what it returns, `vInv`, `fMissingPrev` and `fEmpty`. -/
def scheduleBlockInv (now : ℤ) (nPeerNonce nMaxCount : ℕ) : (Bool × List CInv × Bool × Bool) × CSchedule :=
  match s.mapPeer.find? nPeerNonce with
  | none => ((true, [], false, true), s)
  | some peer =>
    let fEmpty := peer.empty .MSG_BLOCK
    if peer.isAssigned then ((true, [], false, fEmpty), s)
    else
      match scheduleKnownInv now s nPeerNonce peer .MSG_BLOCK nMaxCount with
      | ((fScheduled, vInv, fReceivedAll), s) =>
        let peer := s.peer nPeerNonce
        if fScheduled then ((true, vInv, fEmpty && peer.checkNextGetBlocksTime now, fEmpty), s)
        else if fReceivedAll && peer.checkNextGetBlocksTime now then
          let (fIdle, s) := s.checkAddInvIdleLocation nPeerNonce .MSG_BLOCK
          ((peer.getCount .MSG_BLOCK < MAX_PEER_BLOCK_INV_COUNT, vInv, fIdle, fEmpty), s)
        else ((!fReceivedAll || peer.getCount .MSG_BLOCK < MAX_PEER_BLOCK_INV_COUNT, vInv, false, fEmpty), s)

/-- `ScheduleTxInv`: what it returns, `vInv` and `fReceivedAll`, which is as it was when the loops are not run. -/
def scheduleTxInv (now : ℤ) (nPeerNonce nMaxCount : ℕ) (fReceivedAll : Bool) :
    (Bool × List CInv × Bool) × CSchedule :=
  match s.mapPeer.find? nPeerNonce with
  | none => ((true, [], fReceivedAll), s)
  | some peer =>
    if peer.isAssigned then ((true, [], fReceivedAll), s)
    else
      match scheduleKnownInv now s nPeerNonce peer .MSG_TX nMaxCount with
      | ((fScheduled, vInv, fReceivedAll), s) =>
        let peer := s.peer nPeerNonce
        if fScheduled then ((true, vInv, fReceivedAll || peer.empty .MSG_TX), s)
        else ((!fReceivedAll || peer.getCount .MSG_TX < MAX_PEER_TX_INV_COUNT, vInv, fReceivedAll), s)

/-- `CancelAssignedInv`. For an object that was received the state stays as it is. -/
def cancelAssignedInv (nPeerNonce : ℕ) (inv : CInv) : Bool × CSchedule :=
  match s.mapState.find? inv with
  | none => (false, s)
  | some state =>
    if state.nAssigned ≠ nPeerNonce then (false, s)
    else
      let s :=
        if state.isReceived then s
        else
          let state := { state with nAssigned := 0, setKnownPeer := state.setKnownPeer.erase nPeerNonce }
          if state.setKnownPeer.toList.isEmpty then (s.removeOrphan inv).eraseState inv else s.setState inv state
      match s.mapPeer.find? nPeerNonce with
      | none => (false, s)
      | some _ => (true, s.modifyPeer nPeerNonce fun peer => peer.removeInv inv)

def setRepeatBlock (now : ℤ) (nNonce hash : ℕ) : Bool × CSchedule :=
  let s := match s.mapState.find? ⟨.MSG_BLOCK, hash⟩ with
    | none => s
    | some state => s.setState ⟨.MSG_BLOCK, hash⟩
        { state with fRepeatMintBlock := true, nClearObjTime := now + MAX_REPEAT_BLOCK_TIME }
  (((s.peer nNonce).addRepeatBlock hash).1 < MAX_REPEAT_BLOCK_COUNT,
    s.modifyPeer nNonce fun peer => (peer.addRepeatBlock hash).2)

def setDelayedClear (now : ℤ) (inv : CInv) (nDelayedTime : ℤ) : Bool × CSchedule :=
  match s.mapState.find? inv with
  | none => (false, s)
  | some state => (true, s.setState inv { state with nClearObjTime := now + nDelayedTime })

end

end CSchedule

/-! ## Calls -/

/-- The nonce of a peer: `CPeerNet::AddNewPeer` draws until it is above `0xFF`. -/
def PeerNonce : Type := { n : ℕ // 0xFF < n }

/-- A call that may change a schedule. -/
inductive SchedCall
  | checkPrevTxInv (inv : CInv)
  | removePeer (nPeerNonce : PeerNonce)
  | checkAddInvIdleLocation (nPeerNonce : PeerNonce) (type : InvType)
  | addNewInv (now : ℤ) (inv : CInv) (nPeerNonce : PeerNonce)
  | removeInv (inv : CInv)
  | receiveBlock (now : ℤ) (nPeerNonce : PeerNonce) (hash : ℕ) (block : CBlock)
  | receiveTx (now : ℤ) (nPeerNonce : PeerNonce) (txid : ℕ) (tx : CTransaction)
  | addOrphanBlockPrev (hash prev : ℕ)
  | addOrphanTxPrev (txid prev : ℕ)
  | invalidateBlock (hash : ℕ)
  | invalidateTx (txid : ℕ)
  | scheduleBlockInv (now : ℤ) (nPeerNonce : PeerNonce) (nMaxCount : ℕ)
  | scheduleTxInv (now : ℤ) (nPeerNonce : PeerNonce) (nMaxCount : ℕ) (fReceivedAll : Bool)
  | cancelAssignedInv (nPeerNonce : PeerNonce) (inv : CInv)
  | setLocatorDepthHash (nPeerNonce : PeerNonce) (hashDepth : ℕ)
  | setLocatorInvBlockHash (nPeerNonce : PeerNonce) (nHeight : ℤ) (hashBlock hashNext : ℕ)
  | setNextGetBlocksTime (now : ℤ) (nPeerNonce : PeerNonce) (nWaitTime : ℤ)
  | setRepeatBlock (now : ℤ) (nNonce : PeerNonce) (hash : ℕ)
  | setDelayedClear (now : ℤ) (inv : CInv) (nDelayedTime : ℤ)

def CSchedule.call (s : CSchedule) : SchedCall → CSchedule
  | .checkPrevTxInv inv => (s.checkPrevTxInv inv).2
  | .removePeer p => s.removePeer p.1
  | .checkAddInvIdleLocation p type => (s.checkAddInvIdleLocation p.1 type).2
  | .addNewInv now inv p => (s.addNewInv now inv p.1).2
  | .removeInv inv => (s.removeInv inv).2
  | .receiveBlock now p hash block => (s.receiveBlock now p.1 hash block).2
  | .receiveTx now p txid tx => (s.receiveTx now p.1 txid tx).2
  | .addOrphanBlockPrev hash prev => s.addOrphanBlockPrev hash prev
  | .addOrphanTxPrev txid prev => s.addOrphanTxPrev txid prev
  | .invalidateBlock hash => s.invalidateBlock hash
  | .invalidateTx txid => s.invalidateTx txid
  | .scheduleBlockInv now p nMaxCount => (s.scheduleBlockInv now p.1 nMaxCount).2
  | .scheduleTxInv now p nMaxCount fReceivedAll => (s.scheduleTxInv now p.1 nMaxCount fReceivedAll).2
  | .cancelAssignedInv p inv => (s.cancelAssignedInv p.1 inv).2
  | .setLocatorDepthHash p hashDepth =>
      s.modifyPeer p.1 fun peer => { peer with hashGetBlockLocatorDepth := hashDepth }
  | .setLocatorInvBlockHash p nHeight hashBlock hashNext =>
      s.modifyPeer p.1 fun peer => peer.setLocatorInvBlockHash nHeight hashBlock hashNext
  | .setNextGetBlocksTime now p nWaitTime => s.modifyPeer p.1 fun peer => peer.setNextGetBlocksTime now nWaitTime
  | .setRepeatBlock now p hash => (s.setRepeatBlock now p.1 hash).2
  | .setDelayedClear now inv nDelayedTime => (s.setDelayedClear now inv nDelayedTime).2

end Minemon
