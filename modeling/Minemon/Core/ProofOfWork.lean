import Minemon.Common.Block
import Minemon.Lib.WordArith

/-!
# Genesis and proof of work

From `minemon/core.cpp`: the genesis blocks, the target of the next block, the check of the
merged-mining proof and the trust a block adds to its chain.
-/

namespace Minemon

/-! ## The genesis block -/

def asciiBytes (s : String) : List UInt8 := s.toList.map fun c => UInt8.ofNat c.toNat

/-- `CCompactTagValue::Encode` of one number. -/
def pushNumber (nTag nSize : ℕ) (value : ℤ) : List UInt8 :=
  leBytes 1 (nTag + (if nSize = 1 then 2 else if nSize = 2 then 3 else if nSize = 4 then 4 else 5) * 2 ^ 5)
    ++ (Codec.int nSize).enc value

/-- `CCompactTagValue::Encode` of one byte string. -/
def pushBinary (nTag : ℕ) (vch : List UInt8) : List UInt8 :=
  leBytes 1 (nTag + 7 * 2 ^ 5) ++ leBytes 1 vch.length ++ vch

/-- `CProfile::Save` for the profile of a genesis block: version 1, isolated, no halving. -/
def profileSave (strName strSymbol : String) (destOwner : CDestination) : List UInt8 :=
  pushNumber 0 4 1 ++ pushBinary 1 (asciiBytes strName) ++ pushBinary 2 (asciiBytes strSymbol)
    ++ pushNumber 3 1 1 ++ pushNumber 4 8 BPX_INIT_REWARD_TOKEN ++ pushNumber 5 8 BPX_INIT_REWARD_TOKEN
    ++ pushNumber 6 8 MIN_TX_FEE ++ pushNumber 7 4 0 ++ pushBinary 8 destOwner.toBytes

section Genesis

variable (E : Env)

def genesisOwner : CDestination :=
  ⟨CDestination.PREFIX_PUBKEY,
    E.getParam 0xc3ceea60ce2ca480fcc0fe1d304e48cf6726f1e802477a7129c42cc701e44692
      0xd85c335e3ccd86021a5242a2d55321601a104732ee68acf039b171a3b554e684⟩

def GENESIS_TIME : ℕ := 1625303402

def genesisText : String :=
  "Today of 6 years ago, R decided to change something else. At the same time something important for R was born. " ++
    "Under the guidance of the golden ratio, we mine the founding block at UTC+0 09:10:02."

def getGenesisBlock : CBlock where
  nType := CBlock.BLOCK_GENESIS
  nTimeStamp := GENESIS_TIME
  txMint :=
    { nType := CTransaction.TX_GENESIS
      nTimeStamp := GENESIS_TIME
      sendTo := genesisOwner E
      nAmount := BPX_INIT_REWARD_TOKEN
      vchData := E.getParam (asciiBytes genesisText) [] }
  vchProof :=
    E.getParam (profileSave "Minemon" "MAM" (genesisOwner E)) (profileSave "Minemon Test" "MAMT" (genesisOwner E))

def hashGenesisBlock : ℕ := (getGenesisBlock E).getHash E

@[simp] theorem getGenesisBlock_height : (getGenesisBlock E).getBlockHeight = 0 := by
  simp [CBlock.getBlockHeight, CBlock.isGenesis, getGenesisBlock]

theorem height_hashGenesisBlock : getBlockHeightByHash (hashGenesisBlock E) = 0 := by
  rw [hashGenesisBlock, CBlock.height_getHash, getGenesisBlock_height]

end Genesis

/-! ## Compact targets -/

/-- `SetCompact`: the mantissa, moved into place when the exponent is small. -/
def compactWord (nCompact : ℕ) : ℕ :=
  if nCompact / 2 ^ 24 ≤ 3 then nCompact % 2 ^ 23 / 2 ^ (8 * (3 - nCompact / 2 ^ 24))
  else nCompact % 2 ^ 23

def setCompact (nCompact : ℕ) : ℕ :=
  if nCompact / 2 ^ 24 ≤ 3 then compactWord nCompact
  else compactWord nCompact * 2 ^ (8 * (nCompact / 2 ^ 24 - 3)) % 2 ^ 256

def compactNegative (nCompact : ℕ) : Bool := compactWord nCompact != 0 && nCompact.testBit 23

def compactOverflow (nCompact : ℕ) : Bool :=
  let nSize := nCompact / 2 ^ 24
  let nWord := compactWord nCompact
  nWord != 0 && (nSize > 34 || (nWord > 0xff && nSize > 33) || (nWord > 0xffff && nSize > 32))

def getCompact (x : ℕ) : ℕ :=
  let nSize := (WordArith.bits x + 7) / 8
  let nCompact := if nSize ≤ 3 then x * 2 ^ (8 * (3 - nSize)) else x / 2 ^ (8 * (nSize - 3))
  if nCompact.testBit 23 then nCompact / 2 ^ 8 + (nSize + 1) * 2 ^ 24 else nCompact + nSize * 2 ^ 24

section

variable (E : Env)

/-! ## The target of the next block -/

def nProofOfWorkLowerLimit : ℕ :=
  setCompact (getCompact ((2 ^ 256 - 1) / 2 ^ PROOF_OF_WORK_BITS_LOWER_LIMIT E))

def nProofOfWorkUpperLimit : ℕ := setCompact (getCompact ((2 ^ 256 - 1) / 2 ^ PROOF_OF_WORK_BITS_UPPER_LIMIT))

def nProofOfWorkInit : ℕ := (2 ^ 256 - 1) / 2 ^ PROOF_OF_WORK_BITS_INIT E

/-- The target after one interval that took `nActualTimespan`. -/
def adjustTarget (nBits nActualTimespan : ℕ) : ℕ :=
  let nTargetTimespan := PROOF_OF_WORK_DIFFICULTY_INTERVAL E * BLOCK_TARGET_SPACING
  let nActualTimespan := max nActualTimespan (nTargetTimespan / 4)
  let nActualTimespan := min nActualTimespan (nTargetTimespan * 4)
  let newBits := setCompact nBits
  let newBits :=
    if newBits ≥ nTargetTimespan then newBits / nTargetTimespan * nActualTimespan % 2 ^ 256
    else newBits * nActualTimespan % 2 ^ 256 / nTargetTimespan
  min (max newBits nProofOfWorkUpperLimit) (nProofOfWorkLowerLimit E)

/-- `GetProofOfWorkTarget` on the entry `p` and those before it. -/
def getProofOfWorkTarget (p : CBlockIndex) (pPrev : CBlockIndexPtr) : Option ℕ :=
  let nInterval := PROOF_OF_WORK_DIFFICULTY_INTERVAL E
  if p.nHeight = 0 then some (getCompact (nProofOfWorkInit E))
  else if (p.nHeight + 1) % nInterval ≠ 0 then some p.nProofBits
  else
    match (p :: pPrev).drop (nInterval - 1) with
    | [] => none
    | first :: _ =>
      if (first.nHeight : ℤ) ≠ (p.nHeight : ℤ) - (nInterval - 1) then none
      else if p.hashBlock = first.hashBlock then none
      else if p.nTimeStamp < first.nTimeStamp then none
      else some (getCompact (adjustTarget E p.nProofBits (p.nTimeStamp - first.nTimeStamp)))

/-! ## The proof -/

/-- `VerifyProofOfWork`; `none` where it reads a number that `Load` did not set, or past the coinbase. -/
def verifyProofOfWork (block : CBlock) (p : CBlockIndex) (pPrev : CBlockIndexPtr) : Option Errno :=
  if block.nTimeStamp < p.nTimeStamp then some .ERR_BLOCK_TIMESTAMP_OUT_OF_RANGE
  else
    match getProofOfWorkTarget E p pPrev with
    | none => some .ERR_BLOCK_PROOF_OF_WORK_INVALID
    | some nBits =>
      let hashTarget := setCompact nBits
      if nBits ≠ block.nBits then some .ERR_BLOCK_PROOF_OF_WORK_INVALID
      else if compactNegative nBits || hashTarget == 0 || compactOverflow nBits
          || hashTarget < nProofOfWorkUpperLimit || hashTarget > nProofOfWorkLowerLimit E then
        some .ERR_BLOCK_PROOF_OF_WORK_INVALID
      else if block.vchProof.length > PROOFHASHWORK_SIZE then some .ERR_BLOCK_PROOF_OF_WORK_INVALID
      else
        let proof := CProofOfHashWorkCompact.load block.vchProof
        if block.vchProof.length < 4 + 32 + 32 + 4 then none
        else if block.nTimeStamp ≠ proof.btcTime then some .ERR_BLOCK_PROOF_OF_WORK_INVALID
        else if block.vchProof.length < CProofOfHashWorkCompact.FIXED_SIZE
            || proof.coinbase.length < proof.auxOffset + 32 then none
        else
          let powHash := E.sha256 (leBytes 2 block.nVersion ++ leBytes 2 block.nType
            ++ leBytes 32 block.hashPrev ++ leBytes 32 block.hashMerkle ++ leBytes 4 nBits)
          let merkleRoot := ofLeBytes ((proof.coinbase.drop proof.auxOffset).take 32).reverse
          if !CProofOfHashWorkCompact.verificationMerkleTree E merkleRoot powHash proof.auxMerkleBranch then
            some .ERR_BLOCK_PROOF_OF_WORK_INVALID
          else if !CProofOfHashWorkCompact.verificationMerkleTree E proof.btcHashMerkleRoot
              (E.sha256D proof.coinbase) proof.trMerkleBranch then
            some .ERR_BLOCK_PROOF_OF_WORK_INVALID
          else if E.sha256D proof.headerBytes ≥ hashTarget then some .ERR_BLOCK_PROOF_OF_WORK_INVALID
          else some .OK

end

def getBlockTrust (block : CBlock) : Option ℕ :=
  if !block.isPrimary then none
  else if !block.isProofOfWork then none
  else
    let nTarget := setCompact block.nBits
    some (((2 ^ 256 - 1 - nTarget) / ((nTarget + 1) % 2 ^ 256) + 1) % 2 ^ 256)

end Minemon
