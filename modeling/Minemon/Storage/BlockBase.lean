import Minemon.Common.Template
import Minemon.Core.ProofOfWork
import Minemon.Storage.BlockView
import Minemon.Storage.PledgeDB
import Minemon.Storage.RedeemDB

/-!
# Block storage

`storage/blockbase.cpp`: the block index, the block file, the databases, and the operations that
`AddNewBlock` performs on them. Databases that are only read by key are functions. Operations of the
storage layer itself do not fail; where the source has no defined result the outer `Option` is `none`.

* `CBlockBase.getBranch`, `CBlockBase.getBlockView`: from the last block of the fork to another.
* `CBlockBase.addNew`: a block with its template data, pledges, redeems and index entry.
-/

namespace Minemon

structure CBlockBase where
  /-- `mapIndex`; an absent hash has the null pointer. -/
  mapIndex : ℕ → CBlockIndexPtr
  /-- The block file: file and offset to block. -/
  tsBlock : ℕ → ℕ → Option CBlockEx
  nLastFile : ℕ
  nLastFileSize : ℕ
  /-- The one fork, named by its origin. -/
  hashFork : ℕ
  pIndexLast : CBlockIndexPtr
  dbTxIndex : ℕ → Option CTxIndex
  dbUnspent : CTxOutPoint → Option CTxOut
  dbTemplateData : CDestination → Option (List UInt8)
  dbPledge : ℕ → Option CPledgeContext
  dbRedeem : ℕ → Option CRedeemContext

def MAX_FILE_SIZE : ℕ := 0x7F000000

def createMintPledgePtr (vchData : List UInt8) : Option (Option CTemplateMintPledge) :=
  match createTemplatePtr TEMPLATE_MINTPLEDGE vchData with
  | some (some (.mintpledge p)) => some (some p)
  | some none => some none
  | _ => none

theorem createMintPledgePtr_some {vchData : List UInt8} {pledge : CTemplateMintPledge}
    (h : createMintPledgePtr vchData = some (some pledge)) :
    createTemplatePtr TEMPLATE_MINTPLEDGE vchData = some (some (.mintpledge pledge)) := by
  unfold createMintPledgePtr at h
  split at h
  · rename_i p hread
    rw [hread, Option.some.inj (Option.some.inj h)]
  · simp at h
  · simp at h

def createProofPtr (vchData : List UInt8) : Option (Option CTemplateProof) :=
  match createTemplatePtr TEMPLATE_PROOF vchData with
  | some (some (.proof p)) => some (some p)
  | some none => some none
  | _ => none

namespace CBlockBase

/-! ## The block file -/

/-- `tsBlock.Write`: the file and the offset written to, and the state after. -/
def write (s : CBlockBase) (block : CBlockEx) : (ℕ × ℕ) × CBlockBase :=
  let nSize := block.getSerializeSize
  let nFile := if s.nLastFileSize + nSize + 8 ≤ MAX_FILE_SIZE then s.nLastFile else s.nLastFile + 1
  let nOffset := (if s.nLastFileSize + nSize + 8 ≤ MAX_FILE_SIZE then s.nLastFileSize else 0) + 8
  ((nFile, nOffset),
    { s with
      tsBlock := fun f o => if f = nFile ∧ o = nOffset then some block else s.tsBlock f o
      nLastFile := nFile
      nLastFileSize := nOffset + nSize })

def read (s : CBlockBase) (p : CBlockIndex) : Option CBlockEx := s.tsBlock p.nFile p.nOffset

/-! ## Branches and views -/

/-- `GetBranch`: the common block and the path from `pIndex` down to it; `none` where a null pointer is followed. -/
def getBranchLoop : ℕ → CBlockIndexPtr → CBlockIndexPtr → List CBlockIndexPtr →
    Option (CBlockIndexPtr × List CBlockIndexPtr)
  | 0, _, _, _ => none
  | fuel + 1, pIndexRef, pIndex, vPath =>
    if samePtr pIndex pIndexRef then some (pIndex, vPath)
    else
      match pIndexRef, pIndex with
      | r :: pRefPrev, p :: pPrev =>
        if r.nTimeStamp > p.nTimeStamp then getBranchLoop fuel pRefPrev pIndex vPath
        else if p.nTimeStamp > r.nTimeStamp then getBranchLoop fuel pIndexRef pPrev (vPath ++ [pIndex])
        else getBranchLoop fuel pRefPrev pPrev (vPath ++ [pIndex])
      | _, _ => none

def getBranch (pIndexRef pIndex : CBlockIndexPtr) : Option (CBlockIndexPtr × List CBlockIndexPtr) :=
  getBranchLoop (pIndexRef.length + pIndex.length + 1) pIndexRef pIndex []

/-- The entries from `p` back to `pBranch`, the latter left out. -/
def pathDownTo (pBranch : CBlockIndexPtr) : CBlockIndexPtr → List CBlockIndex
  | [] => []
  | p :: pPrev => if samePtr (p :: pPrev) pBranch then [] else p :: pathDownTo pBranch pPrev

section

variable (E : Env)

/-- The reads of `vTxContxt[j]` and of `vin[i]` in it, for one stored block. -/
def contextsDefined (b : CBlockEx) : Bool :=
  b.block.vtx.length ≤ b.vTxContxt.length
    && (b.block.vtx.zip b.vTxContxt).all (fun t => contextDefined t.1 t.2)
    && (b.block.txMint.sendTo.isNull || contextDefined b.block.txMint {})

/-- The removal of one block from a view: its transactions from the last to the first, the mint
transaction. -/
def removeBlockTx (view : CBlockView) (b : CBlockEx) : CBlockView :=
  let view1 := (b.block.vtx.zip b.vTxContxt).reverse.foldl
    (fun v t => v.removeTx (t.1.getHash E) t.1 t.2) view
  if b.block.txMint.sendTo.isNull then view1
  else view1.removeTx (b.block.txMint.getHash E) b.block.txMint {}

def addBlockTx (view : CBlockView) (b : CBlockEx) : CBlockView :=
  let view1 :=
    if b.block.txMint.sendTo.isNull then view
    else view.addTx (b.block.txMint.getHash E) b.block.txMint {}
  (b.block.vtx.zip b.vTxContxt).foldl (fun v t => v.addTx (t.1.getHash E) t.1 t.2) view1

/-- Apply `f` for the stored block of each entry; `some none` where a block cannot be read. -/
def foldBlocks (s : CBlockBase) (f : CBlockView → ℕ → CBlockEx → CBlockView) :
    List CBlockIndex → CBlockView → Option (Option CBlockView)
  | [], view => some (some view)
  | p :: l, view =>
    match s.read p with
    | none => some none
    | some b => if contextsDefined b then foldBlocks s f l (f view p.hashBlock b) else none

/-- `GetBlockView(hash, view)`: `some none` is `false`. -/
def getBlockView (s : CBlockBase) (hash : ℕ) : Option (Option CBlockView) :=
  match s.mapIndex hash with
  | [] => some none
  | p :: pPrev =>
    if p.hashOrigin ≠ s.hashFork then some none
    else
      match getBranch s.pIndexLast (p :: pPrev) with
      | none => none
      | some (pBranch, vPath) =>
        let view : CBlockView := { hashFork := p.hashOrigin }
        match foldBlocks s (fun v h b => (removeBlockTx E v b).removeBlock h b)
            (pathDownTo pBranch s.pIndexLast) view with
        | none => none
        | some none => some none
        | some (some view1) =>
          foldBlocks s (fun v h b => (addBlockTx E v b).addBlock h b)
            (vPath.filterMap List.head?).reverse view1

/-! ## Template data -/

/-- A template read from the front of `vch` is recorded at `dest`; `some none` is a check that failed. -/
def recordTemplate (db : CDestination → Option (List UInt8)) (dest : CDestination) (vch : List UInt8) :
    Option (Option (CTemplate × (CDestination → Option (List UInt8)))) :=
  match createTemplatePtr dest.templateType vch with
  | none => none
  | some none => some none
  | some (some t) =>
    if t.getTemplateId E ≠ dest.getTemplateId then some none
    else some (some (t, Function.update db dest (some t.buildTemplateData)))

/-- One turn of the loop of `UpdateTxTemplateData`: the flag and the database after. -/
def updateTemplateTx (db : CDestination → Option (List UInt8)) (tx : CTransaction) (txContxt : CTxContxt) :
    Option (Bool × (CDestination → Option (List UInt8))) :=
  let recordDestIn (db : CDestination → Option (List UInt8)) (vDestInData : List UInt8) :
      Option (Bool × (CDestination → Option (List UInt8))) :=
    if txContxt.destIn.isTemplate then
      match recordTemplate E db txContxt.destIn vDestInData with
      | none => none
      | some none => some (false, db)
      | some (some (_, db')) => some (true, db')
    else some (true, db)
  if tx.vchSig.isEmpty then some (true, db)
  else if tx.sendTo.isTemplate && isDestInRecorded tx.sendTo then
    match recordTemplate E db tx.sendTo tx.vchSig with
    | none => none
    | some none => some (false, db)
    | some (some (t, db')) =>
      match getSignDestination t tx.sendTo 0 0 tx.vchSig with
      | none => some (false, db')
      | some (_, vDestInData) => recordDestIn db' vDestInData
  else recordDestIn db tx.vchSig

def updateTemplateTxs :
    List (CTransaction × CTxContxt) → (CDestination → Option (List UInt8)) →
      Option (Bool × (CDestination → Option (List UInt8)))
  | [], db => some (true, db)
  | (tx, txContxt) :: l, db =>
    match updateTemplateTx E db tx txContxt with
    | none => none
    | some (false, db') => some (false, db')
    | some (true, db') => updateTemplateTxs l db'

def updateTxTemplateData (db : CDestination → Option (List UInt8)) (b : CBlockEx) :
    Option (Bool × (CDestination → Option (List UInt8))) :=
  let mint := b.block.txMint
  if mint.sendTo.isTemplate && isDestInRecorded mint.sendTo then
    match recordTemplate E db mint.sendTo mint.vchSig with
    | none => none
    | some none => some (false, db)
    | some (some (_, db')) => updateTemplateTxs E (b.block.vtx.zip b.vTxContxt) db'
  else updateTemplateTxs E (b.block.vtx.zip b.vTxContxt) db

/-! ## Pledges and redeems of a block -/

/-- The template of a pledge address: in front of `vch`, or else in the database. -/
def pledgeTemplate (db : CDestination → Option (List UInt8)) (dest : CDestination) (vch : List UInt8) :
    Option (Option CTemplateMintPledge) :=
  let fromDb : Option (Option CTemplateMintPledge) :=
    match db dest with
    | none => some none
    | some vTemplateData => createMintPledgePtr vTemplateData
  if vch.isEmpty then fromDb
  else
    match createMintPledgePtr vch with
    | some none => fromDb
    | r => r

/-- `mapBlockPledge[destPowMint][dest]` changed by `f`. -/
def changePledge (m : PledgeMap) (destPowMint dest : CDestination) (f : ℤ × ℕ → ℤ × ℕ) : PledgeMap :=
  m.upsert destPowMint fun pow => (pow.getD OrdMap.empty).upsert dest fun md => f (md.getD (0, 0))

/-- `UpdatePledge`: the part of a turn for `tx.sendTo`. -/
def pledgeSendTo (db : CDestination → Option (List UInt8)) (nHeight : ℕ) (m : PledgeMap)
    (tx : CTransaction) (txContxt : CTxContxt) : Option (Option PledgeMap) :=
  if isTemplateOf tx.sendTo TEMPLATE_MINTPLEDGE then
    match pledgeTemplate db tx.sendTo tx.vchSig with
    | none => none
    | some none => some none
    | some (some pledge) =>
      some (some (changePledge m pledge.destPowMint tx.sendTo fun md =>
        (wrap64 (md.1 + tx.nAmount),
          if tx.nType ≠ CTransaction.TX_STAKE && !txContxt.destIn.isNull then nHeight else md.2)))
  else some (some m)

/-- `UpdatePledge`: the part of a turn for `txContxt.destIn`. -/
def pledgeDestIn (db : CDestination → Option (List UInt8)) (m : PledgeMap)
    (tx : CTransaction) (txContxt : CTxContxt) : Option (Option PledgeMap) :=
  let change (vDestInData : List UInt8) : Option (Option PledgeMap) :=
    match pledgeTemplate db txContxt.destIn vDestInData with
    | none => none
    | some none => some none
    | some (some pledge) =>
      some (some (changePledge m pledge.destPowMint txContxt.destIn fun md =>
        (wrap64 (md.1 - wrap64 (tx.nAmount + tx.nTxFee)), md.2)))
  if isTemplateOf txContxt.destIn TEMPLATE_MINTPLEDGE then
    if tx.sendTo.isTemplate && isDestInRecorded tx.sendTo then
      match createTemplatePtr tx.sendTo.templateType tx.vchSig with
      | none => none
      | some none => some none
      | some (some t) =>
        match getSignDestination t tx.sendTo 0 0 tx.vchSig with
        | none => some none
        | some (_, vDestInData) => change vDestInData
    else change tx.vchSig
  else some (some m)

def blockPledges (db : CDestination → Option (List UInt8)) (nHeight : ℕ) :
    List (CTransaction × CTxContxt) → PledgeMap → Option (Option PledgeMap)
  | [], m => some (some m)
  | (tx, txContxt) :: l, m =>
    match pledgeSendTo db nHeight m tx txContxt with
    | none => none
    | some none => some none
    | some (some m1) =>
      match pledgeDestIn db m1 tx txContxt with
      | none => none
      | some none => some none
      | some (some m2) => blockPledges db nHeight l m2

/-- `UpdatePledge`: the context written for the block; `some none` is `false`. -/
def updatePledge (s : CBlockBase) (hash : ℕ) (b : CBlockEx) : Option (Option CPledgeContext) :=
  match blockPledges s.dbTemplateData b.block.getBlockHeight (b.block.vtx.zip b.vTxContxt) OrdMap.empty with
  | none => none
  | some none => some none
  | some (some m) => some (addBlockPledge E s.dbPledge hash b.block.hashPrev m)

/-- `UpdateRedeem`: what each redeem address receives and spends. -/
def blockRedeems (l : List (CTransaction × CTxContxt)) : List (CDestination × ℤ) :=
  l.flatMap fun t =>
    (if isTemplateOf t.1.sendTo TEMPLATE_MINTREDEEM then [(t.1.sendTo, t.1.nAmount)] else [])
      ++ (if isTemplateOf t.2.destIn TEMPLATE_MINTREDEEM then
            [(t.2.destIn, wrap64 (0 - wrap64 (t.1.nAmount + t.1.nTxFee)))] else [])

def updateRedeem (s : CBlockBase) (hash : ℕ) (b : CBlockEx) : Option CRedeemContext :=
  addBlockRedeem E s.dbRedeem hash b.block.hashPrev (blockRedeems (b.block.vtx.zip b.vTxContxt))

/-! ## New blocks -/

/-- `CBlockIndex(block, nFile, nOffset)` on top of the entries at `pPrev`. -/
def newIndex (hash : ℕ) (block : CBlock) (nFile nOffset : ℕ) (nChainTrust : ℕ) (nMint : ℤ)
    (pPrev : CBlockIndexPtr) : CBlockIndex where
  hashBlock := hash
  hashOrigin :=
    match pPrev with
    | [] => hash
    | prev :: _ => if block.isOrigin then hash else prev.hashOrigin
  txidMint := if block.nType = CBlock.BLOCK_VACANT then 0 else block.txMint.getHash E
  nMintType := block.txMint.nType
  destMint := block.txMint.sendTo
  nVersion := block.nVersion
  nType := block.nType
  nTimeStamp := block.nTimeStamp
  nHeight := block.getBlockHeight
  nChainTrust := (nChainTrust + (pPrev.head?.map CBlockIndex.nChainTrust).getD 0) % 2 ^ 256
  nMoneySupply := wrap64 (nMint + (pPrev.head?.map CBlockIndex.nMoneySupply).getD 0)
  nProofBits := block.nBits
  nFile := nFile
  nOffset := nOffset

/-- `AddNewIndex`: the new pointer; `none` for a block that mints less than nothing. -/
def addNewIndex (s : CBlockBase) (hash : ℕ) (block : CBlock) (nFile nOffset nChainTrust : ℕ) :
    Option (CBlockIndexPtr × CBlockBase) :=
  let nMint := block.getBlockMint
  if nMint < 0 then none
  else
    let pPrev := s.mapIndex block.hashPrev
    let pIndexNew := newIndex E hash block nFile nOffset nChainTrust nMint pPrev :: pPrev
    some (pIndexNew, { s with mapIndex := Function.update s.mapIndex hash pIndexNew })

/-- `AddNew`: the new index entry when it returns `true`, and the state after either way. -/
def addNew (s : CBlockBase) (hash : ℕ) (b : CBlockEx) (nChainTrust : ℕ) :
    Option (Option CBlockIndexPtr × CBlockBase) :=
  if s.mapIndex hash ≠ [] then some (none, s)
  else
    let ((nFile, nOffset), s1) := s.write b
    match updateTxTemplateData E s1.dbTemplateData b with
    | none => none
    | some (false, db) => some (none, { s1 with dbTemplateData := db })
    | some (true, db) =>
      let s2 := { s1 with dbTemplateData := db }
      match updatePledge E s2 hash b with
      | none => none
      | some none => some (none, s2)
      | some (some ctxtPledge) =>
        let s3 := { s2 with dbPledge := Function.update s2.dbPledge hash (some ctxtPledge) }
        match updateRedeem E s3 hash b with
        | none => some (none, s3)
        | some ctxtRedeem =>
          let s4 := { s3 with dbRedeem := Function.update s3.dbRedeem hash (some ctxtRedeem) }
          match addNewIndex E s4 hash b.block nFile nOffset nChainTrust with
          | none => some (none, s4)
          | some (pIndexNew, s5) => some (some pIndexNew, s5)

/-! ## Commit -/

/-- The entries of the transactions after the mint transaction, from `nOffset` on. -/
def vtxIndex (nHeight nFile : ℕ) : ℕ → List CTransaction → List (ℕ × CTxIndex)
  | _, [] => []
  | nOffset, tx :: vtx =>
    (tx.getHash E, ⟨nHeight, nFile, nOffset⟩) :: vtxIndex nHeight nFile (nOffset + tx.getSerializeSize) vtx

/-- The entries that `GetTxNewIndex` makes for one block. -/
def blockTxIndex (p : CBlockIndex) (block : CBlock) : List (ℕ × CTxIndex) :=
  let nOffset := p.nOffset + block.getTxSerializedOffset
  (if block.txMint.sendTo.isNull then []
    else [(block.txMint.getHash E, ⟨p.nHeight, p.nFile, nOffset⟩)])
    ++ vtxIndex E p.nHeight p.nFile
      (nOffset + block.txMint.getSerializeSize + varIntSize block.vtx.length) block.vtx

/-- The entries for the blocks of a path, in the order of the path. -/
def pathTxIndex (s : CBlockBase) : List CBlockIndex → Option (List (ℕ × CTxIndex))
  | [] => some []
  | p :: l =>
    match s.read p with
    | none => none
    | some b => (pathTxIndex s l).map fun r => blockTxIndex E p b.block ++ r

def getTxNewIndex (s : CBlockBase) (pIndexNew : CBlockIndexPtr) : Option (Option (List (ℕ × CTxIndex))) :=
  match getBranch s.pIndexLast pIndexNew with
  | none => none
  | some (_, vPath) => some (pathTxIndex E s (vPath.filterMap List.head?).reverse)

/-- `CTxIndexDB::Update`: write, then erase. -/
def updateTxIndex (db : ℕ → Option CTxIndex) (vTxNew : List (ℕ × CTxIndex)) (vTxDel : List ℕ) :
    ℕ → Option CTxIndex :=
  vTxDel.foldl (fun db txid => Function.update db txid none)
    (vTxNew.foldl (fun db e => Function.update db e.1 (some e.2)) db)

/-- `CForkUnspentDB::UpdateUnspent`: a null output reads as none. -/
def updateUnspent (db : CTxOutPoint → Option CTxOut) (vAddNew : List (CTxOutPoint × CTxOut))
    (vRemove : List CTxOutPoint) : CTxOutPoint → Option CTxOut :=
  vRemove.foldl (fun db out => Function.update db out none)
    (vAddNew.foldl (fun db e => Function.update db e.1 (if e.2.isNull then none else some e.2)) db)

/-- `CommitBlockView`: the flag and the state after. -/
def commitBlockView (s : CBlockBase) (view : CBlockView) (pIndexNew : CBlockIndexPtr) :
    Option (Bool × CBlockBase) :=
  match getTxNewIndex E s pIndexNew with
  | none => none
  | some none => some (false, s)
  | some (some vTxNew) =>
    let (vAddNewUnspent, vRemoveUnspent) := view.getUnspentChanges
    some (true,
      { s with
        dbTxIndex := updateTxIndex s.dbTxIndex vTxNew view.getTxRemoved
        dbUnspent := updateUnspent s.dbUnspent vAddNewUnspent vRemoveUnspent
        pIndexLast := pIndexNew })

/-! ## The beginning -/

/-- `Initiate` with the genesis block, on an empty storage. -/
def initiate (blockGenesis : CBlock) : CBlockBase :=
  let hashGenesis := blockGenesis.getHash E
  let nOffset := 8
  let mint := blockGenesis.txMint
  let pIndexNew := [newIndex E hashGenesis blockGenesis 1 nOffset 0 blockGenesis.getBlockMint []]
  { mapIndex := Function.update (fun _ => []) hashGenesis pIndexNew
    tsBlock := fun f o => if f = 1 ∧ o = nOffset then some { block := blockGenesis } else none
    nLastFile := 1
    nLastFileSize := nOffset + ({ block := blockGenesis } : CBlockEx).getSerializeSize
    hashFork := hashGenesis
    pIndexLast := pIndexNew
    dbTxIndex :=
      updateTxIndex (fun _ => none)
        [(mint.getHash E, ⟨0, 1, nOffset + blockGenesis.getTxSerializedOffset⟩)] []
    dbUnspent := updateUnspent (fun _ => none) [(⟨mint.getHash E, 0⟩, CTxOut.ofTx mint)] []
    dbTemplateData := fun _ => none
    dbPledge := Function.update (fun _ => none) hashGenesis (some {})
    dbRedeem := Function.update (fun _ => none) hashGenesis (some {}) }

end

end CBlockBase

end Minemon
