import Minemon.Common.Transaction

/-!
# Blocks

`common/block.h` and `common/proof.h`. The height of a block is kept in the top 32 bits of its hash;
heights are not bounded here.

* `CBlockEx`: a block with the contexts of its transactions, as it is stored.
* `CBlockIndex` and `CBlockIndexPtr`: a pointer into the block index is the list of the entries met
  by following `pPrev`, the null pointer is the empty list.
-/

namespace Minemon

/-! ## Blocks -/

structure CBlock where
  nVersion : ℕ := 2
  nType : ℕ := 0
  nTimeStamp : ℕ := 0
  hashPrev : ℕ := 0
  hashMerkle : ℕ := 0
  nBits : ℕ := 0
  vchProof : List UInt8 := []
  txMint : CTransaction := CTransaction.null
  vtx : List CTransaction := []
deriving DecidableEq, Repr

/-- `GetBlockHeightByHash`: the top word of the hash. -/
def getBlockHeightByHash (hash : ℕ) : ℕ := hash / 2 ^ 224

/-- The next level of a Merkle tree; an odd last hash is paired with itself. -/
def merkleLevel (E : Env) : List ℕ → List ℕ
  | [] => []
  | [a] => [E.hash (leBytes 32 a ++ leBytes 32 a)]
  | a :: b :: l => E.hash (leBytes 32 a ++ leBytes 32 b) :: merkleLevel E l

/-- The loop of `BuildMerkleTree`: levels until one hash is left. -/
def merkleRoot (E : Env) : ℕ → List ℕ → ℕ
  | _, [] => 0
  | _, [a] => a
  | 0, _ => 0
  | fuel + 1, l => merkleRoot E fuel (merkleLevel E l)

namespace CBlock

def BLOCK_GENESIS : ℕ := 0xffff
def BLOCK_ORIGIN : ℕ := 0xff00
def BLOCK_PRIMARY : ℕ := 0x0001
def BLOCK_EXTENDED : ℕ := 0x0004
def BLOCK_VACANT : ℕ := 0x0008

def isGenesis (b : CBlock) : Bool := b.nType == BLOCK_GENESIS
def isOrigin (b : CBlock) : Bool := b.nType / 2 ^ 15 != 0
def isPrimary (b : CBlock) : Bool := b.nType % 2 == 1
def isExtended (b : CBlock) : Bool := b.nType == BLOCK_EXTENDED
def isProofOfWork (b : CBlock) : Bool := b.txMint.nType == CTransaction.TX_WORK

def getBlockHeight (b : CBlock) : ℕ :=
  if b.isGenesis then 0
  else if b.isExtended then getBlockHeightByHash b.hashPrev
  else getBlockHeightByHash b.hashPrev + 1

def getHash (E : Env) (b : CBlock) : ℕ :=
  b.getBlockHeight * 2 ^ 224
    + E.hash (leBytes 2 b.nVersion ++ leBytes 2 b.nType ++ leBytes 4 b.nTimeStamp ++ leBytes 32 b.hashPrev
        ++ leBytes 32 b.hashMerkle ++ leBytes 4 b.nBits ++ streamBytes b.vchProof) % 2 ^ 224

/-- `GetTxSerializedOffset`: where the mint transaction begins. -/
def getTxSerializedOffset (b : CBlock) : ℕ := 2 + 2 + 4 + 32 + 32 + 4 + streamBytesSize b.vchProof

def getSerializeSize (b : CBlock) : ℕ :=
  b.getTxSerializedOffset + b.txMint.getSerializeSize + varIntSize b.vtx.length
    + (b.vtx.map CTransaction.getSerializeSize).sum

def headBytes (b : CBlock) : List UInt8 :=
  leBytes 2 b.nVersion ++ leBytes 2 b.nType ++ leBytes 4 b.nTimeStamp ++ leBytes 32 b.hashPrev
    ++ leBytes 32 b.hashMerkle ++ leBytes 4 b.nBits ++ streamBytes b.vchProof

def toBytes (b : CBlock) : List UInt8 :=
  b.headBytes ++ b.txMint.toBytes ++ varInt b.vtx.length ++ (b.vtx.map CTransaction.toBytes).flatten

theorem length_headBytes (b : CBlock) : b.headBytes.length = b.getTxSerializedOffset := by
  simp only [headBytes, getTxSerializedOffset, List.length_append, length_leBytes, length_streamBytes]

/-- The pledge reward that the mint transaction declares; `none` when its data cannot be read. -/
def declaredPledgeReward (b : CBlock) : Option ℤ :=
  if b.isGenesis || b.txMint.vchData.isEmpty then some 0
  else
    match (Codec.int 8).dec b.txMint.vchData with
    | .error _ => none
    | .ok (nPledgeReward, _) => some nPledgeReward

def getBlockMint (b : CBlock) : ℤ :=
  match b.declaredPledgeReward with
  | none => -1
  | some nPledgeReward =>
    wrap64 (wrap64 (b.txMint.nAmount + nPledgeReward) - CTransaction.totalFee b.vtx)

def txids (E : Env) (b : CBlock) : List ℕ := b.txMint.getHash E :: b.vtx.map (CTransaction.getHash E)

/-- `BuildMerkleTree`: the root. -/
def buildMerkleTree (E : Env) (b : CBlock) : ℕ := merkleRoot E (b.txids E).length (b.txids E)

end CBlock

theorem getBlockHeightByHash_mk (h x : ℕ) : getBlockHeightByHash (h * 2 ^ 224 + x % 2 ^ 224) = h := by
  unfold getBlockHeightByHash
  have := Nat.mod_lt x (show 0 < 2 ^ 224 by positivity)
  rw [Nat.add_comm, Nat.add_mul_div_right _ _ (by positivity), Nat.div_eq_of_lt this, Nat.zero_add]

theorem CBlock.height_getHash (E : Env) (b : CBlock) :
    getBlockHeightByHash (b.getHash E) = b.getBlockHeight := getBlockHeightByHash_mk _ _

theorem CBlock.isGenesis_of_not_isOrigin {b : CBlock} (h : b.isOrigin = false) : b.isGenesis = false := by
  unfold isOrigin at h
  unfold isGenesis BLOCK_GENESIS
  simp only [bne_eq_false_iff_eq, beq_eq_false_iff_ne] at h ⊢
  omega

theorem CBlock.height_of_primary {b : CBlock} (ho : b.isOrigin = false) (hp : b.isPrimary = true) :
    b.getBlockHeight = getBlockHeightByHash b.hashPrev + 1 := by
  have hx : b.isExtended = false := by
    unfold isPrimary at hp
    unfold isExtended BLOCK_EXTENDED
    simp only [beq_iff_eq, beq_eq_false_iff_ne] at hp ⊢
    omega
  unfold getBlockHeight
  rw [isGenesis_of_not_isOrigin ho, hx]
  rfl

structure CBlockEx where
  block : CBlock
  vTxContxt : List CTxContxt := []
deriving DecidableEq, Repr

def CTxContxt.getSerializeSize (c : CTxContxt) : ℕ := 33 + varIntSize c.vin.length + 16 * c.vin.length

def CBlockEx.getSerializeSize (b : CBlockEx) : ℕ :=
  b.block.getSerializeSize + varIntSize b.vTxContxt.length
    + (b.vTxContxt.map CTxContxt.getSerializeSize).sum

/-! ## The block index -/

/-- `CBlockIndex`, less its pointers. -/
structure CBlockIndex where
  /-- `*phashBlock` -/
  hashBlock : ℕ
  /-- `pOrigin->GetBlockHash()` -/
  hashOrigin : ℕ
  txidMint : ℕ
  nMintType : ℕ
  destMint : CDestination
  nVersion : ℕ
  nType : ℕ
  nTimeStamp : ℕ
  nHeight : ℕ
  nChainTrust : ℕ
  nMoneySupply : ℤ
  nProofBits : ℕ
  nFile : ℕ
  nOffset : ℕ
deriving DecidableEq, Repr

def CBlockIndex.isPrimary (p : CBlockIndex) : Bool := p.nType % 2 == 1

/-- A pointer to an index entry: the entry, the one at its `pPrev`, and so on to the first. -/
abbrev CBlockIndexPtr := List CBlockIndex

/-- Pointers are the same when they point to the same entry, told by its hash. -/
def samePtr (p q : CBlockIndexPtr) : Bool := (p.head?.map CBlockIndex.hashBlock) == (q.head?.map CBlockIndex.hashBlock)

def isEquivalent (pIndexCompare : CBlockIndexPtr) : CBlockIndexPtr → Bool
  | [] => false
  | p :: pPrev =>
    match pIndexCompare with
    | [] => false
    | q :: _ =>
      if p.hashBlock = q.hashBlock then true
      else if p.nType ≠ CBlock.BLOCK_VACANT || p.nHeight ≤ q.nHeight then false
      else isEquivalent pIndexCompare pPrev

/-! ## Proof of work -/

def readVarInt : List UInt8 → Option (ℕ × List UInt8)
  | [] => none
  | b :: bs =>
    if b.toNat < 0xFD then some (b.toNat, bs)
    else
      let n := 2 <<< (b.toNat - 0xFD)
      if n ≤ bs.length then some (ofLeBytes (bs.take n), bs.drop n) else none

def readStreamBytes (bs : List UInt8) : Option (List UInt8 × List UInt8) :=
  match readVarInt bs with
  | none => none
  | some (n, bs') => if n ≤ bs'.length then some (bs'.take n, bs'.drop n) else none

def readHashes : ℕ → List UInt8 → Option (List ℕ × List UInt8)
  | 0, bs => some ([], bs)
  | n + 1, bs =>
    if 32 ≤ bs.length then
      (readHashes n (bs.drop 32)).map fun r => (ofLeBytes (bs.take 32) :: r.1, r.2)
    else none

def readHashVector (bs : List UInt8) : Option (List ℕ × List UInt8) :=
  match readVarInt bs with
  | none => none
  | some (n, bs') => readHashes n bs'

structure CProofOfHashWorkCompact where
  btcVersion : ℕ
  btcHashPrevBlock : ℕ
  btcHashMerkleRoot : ℕ
  btcTime : ℕ
  btcBits : ℕ
  btcNonce : ℕ
  auxOffset : ℕ
  coinbase : List UInt8
  auxMerkleBranch : List ℕ
  trMerkleBranch : List ℕ
deriving DecidableEq, Repr

namespace CProofOfHashWorkCompact

/-- The bytes of the Bitcoin header and of `auxOffset`; below that length `Load` leaves numbers
uninitialised. -/
def FIXED_SIZE : ℕ := 4 + 32 + 32 + 4 + 4 + 4 + 2

/-- `Load` stops at the first part it cannot read; a vector that was not read is empty. -/
def loadVectors (bs : List UInt8) : List UInt8 × List ℕ × List ℕ :=
  match readStreamBytes bs with
  | none => ([], [], [])
  | some (coinbase, bs) =>
    match readHashVector bs with
    | none => (coinbase, [], [])
    | some (aux, bs) =>
      match readHashVector bs with
      | none => (coinbase, aux, [])
      | some (tr, _) => (coinbase, aux, tr)

def load (vchProof : List UInt8) : CProofOfHashWorkCompact :=
  let word (i n : ℕ) := ofLeBytes ((vchProof.drop i).take n)
  let v := loadVectors (vchProof.drop FIXED_SIZE)
  ⟨word 0 4, word 4 32, word 36 32, word 68 4, word 72 4, word 76 4, word 80 2, v.1, v.2.1, v.2.2⟩

def headerBytes (p : CProofOfHashWorkCompact) : List UInt8 :=
  leBytes 4 p.btcVersion ++ leBytes 32 p.btcHashPrevBlock ++ leBytes 32 p.btcHashMerkleRoot
    ++ leBytes 4 p.btcTime ++ leBytes 4 p.btcBits ++ leBytes 4 p.btcNonce

def verificationMerkleTree (E : Env) (root hash : ℕ) (branch : List ℕ) : Bool :=
  branch.foldl (fun res obj => E.sha256D (leBytes 32 res ++ leBytes 32 obj)) hash == root

end CProofOfHashWorkCompact

end Minemon
