import Minemon.Mining.Difficulty
import Minemon.Service.Work

/-!
# The block that a Bitcoin header works for

A proof links a Bitcoin header to a block by 32 bytes of the coinbase. Where they stand is said by the proof,
so one coinbase can hold the links to several blocks. One link leads to one block: the block is the left end of
every branch, and what is hashed for it has another length than what is hashed for a node.

* `mergedWork_unique_iff`: when the same header and coinbase prove one block.
-/

namespace Minemon

open CProofOfHashWorkCompact

def powBytes (block : CBlock) : List UInt8 :=
  leBytes 2 block.nVersion ++ leBytes 2 block.nType ++ leBytes 32 block.hashPrev ++ leBytes 32 block.hashMerkle
    ++ leBytes 4 block.nBits

structure CBlock.PowSized (block : CBlock) : Prop where
  nVersion : block.nVersion < 2 ^ 16
  nType : block.nType < 2 ^ 16
  hashPrev : block.hashPrev < 2 ^ 256
  hashMerkle : block.hashMerkle < 2 ^ 256
  nBits : block.nBits < 2 ^ 32

/-- Two blocks agree in what `powBytes` holds. -/
structure SameContent (b1 b2 : CBlock) : Prop where
  nVersion : b1.nVersion = b2.nVersion
  nType : b1.nType = b2.nType
  hashPrev : b1.hashPrev = b2.hashPrev
  hashMerkle : b1.hashMerkle = b2.hashMerkle
  nBits : b1.nBits = b2.nBits

structure SameWork (proof1 proof2 : CProofOfHashWorkCompact) : Prop where
  btcVersion : proof1.btcVersion = proof2.btcVersion
  btcHashPrevBlock : proof1.btcHashPrevBlock = proof2.btcHashPrevBlock
  btcHashMerkleRoot : proof1.btcHashMerkleRoot = proof2.btcHashMerkleRoot
  btcTime : proof1.btcTime = proof2.btcTime
  btcBits : proof1.btcBits = proof2.btcBits
  btcNonce : proof1.btcNonce = proof2.btcNonce
  coinbase : proof1.coinbase = proof2.coinbase

/-- The 32 bytes of the coinbase that a proof points to, as a hash. -/
def commitment (proof : CProofOfHashWorkCompact) : ℕ :=
  ofLeBytes ((proof.coinbase.drop proof.auxOffset).take 32).reverse

section

variable (E : Env)

def walkBranch (hash : ℕ) (branch : List ℕ) : ℕ :=
  branch.foldl (fun res obj => E.sha256D (leBytes 32 res ++ leBytes 32 obj)) hash

/-- What is hashed along a branch; each node is hashed twice. -/
def walkHashed : ℕ → List ℕ → List (List UInt8)
  | _, [] => []
  | res, obj :: branch =>
    let buf := leBytes 32 res ++ leBytes 32 obj
    buf :: leBytes 32 (E.sha256 buf) :: walkHashed (E.sha256D buf) branch

/-- What is hashed from the block to the end of a branch. -/
def workHashed (block : CBlock) (branch : List ℕ) : List (List UInt8) :=
  powBytes block :: walkHashed E (powHash E block) branch

def NoShaCollision (S : List (List UInt8)) : Prop := ∀ x ∈ S, ∀ y ∈ S, E.sha256 x = E.sha256 y → x = y

end

section

variable {E : Env} {b1 b2 : CBlock}

theorem NoShaCollision.mono {S S' : List (List UInt8)} (h : NoShaCollision E S) (hsub : ∀ x ∈ S', x ∈ S) :
    NoShaCollision E S' := fun x hx y hy => h x (hsub x hx) y (hsub y hy)

theorem sha256_lt (bs : List UInt8) : E.sha256 bs < 256 ^ 32 := (E.cryptoSHA256 bs).isLt.trans_eq (by norm_num)

theorem powHash_eq (block : CBlock) : powHash E block = E.sha256 (powBytes block) := rfl

theorem length_powBytes (block : CBlock) : (powBytes block).length = 72 := by simp [powBytes]

theorem walkBranch_concat (hash obj : ℕ) (branch : List ℕ) :
    walkBranch E hash (branch ++ [obj]) = E.sha256D (leBytes 32 (walkBranch E hash branch) ++ leBytes 32 obj) := by
  simp [walkBranch]

theorem walkHashed_concat (hash obj : ℕ) (branch : List ℕ) :
    walkHashed E hash (branch ++ [obj]) = walkHashed E hash branch ++
      [leBytes 32 (walkBranch E hash branch) ++ leBytes 32 obj,
        leBytes 32 (E.sha256 (leBytes 32 (walkBranch E hash branch) ++ leBytes 32 obj))] := by
  induction branch generalizing hash with
  | nil => rfl
  | cons x branch ih =>
    rw [List.cons_append, walkHashed, ih, walkHashed]
    rfl

theorem walkBranch_lt (block : CBlock) (branch : List ℕ) : walkBranch E (powHash E block) branch < 256 ^ 32 := by
  rcases List.eq_nil_or_concat branch with rfl | ⟨front, obj, rfl⟩
  · exact sha256_lt _
  · rw [List.concat_eq_append, walkBranch_concat]
    exact sha256_lt _

theorem powHash_ne_walkBranch {obj : ℕ} {branch : List ℕ}
    (h : NoShaCollision E (workHashed E b1 [] ++ workHashed E b2 (branch ++ [obj]))) :
    powHash E b1 ≠ walkBranch E (powHash E b2) (branch ++ [obj]) := by
  intro heq
  rw [walkBranch_concat, powHash_eq] at heq
  have hbytes := h _ (by simp [workHashed]) _ (by simp [workHashed, walkHashed_concat]) heq
  have hlen := congrArg List.length hbytes
  simp [length_powBytes] at hlen

/-- **Two branches to the same hash begin at the same block.** -/
theorem branch_start_unique (branch1 branch2 : List ℕ)
    (h : NoShaCollision E (workHashed E b1 branch1 ++ workHashed E b2 branch2))
    (heq : walkBranch E (powHash E b1) branch1 = walkBranch E (powHash E b2) branch2) : powBytes b1 = powBytes b2 := by
  induction branch1 using List.reverseRecOn generalizing branch2 with
  | nil =>
    rcases List.eq_nil_or_concat branch2 with rfl | ⟨front2, obj2, rfl⟩
    · exact h _ (by simp [workHashed]) _ (by simp [workHashed]) heq
    · rw [List.concat_eq_append] at h heq
      exact absurd heq (powHash_ne_walkBranch h)
  | append_singleton front1 obj1 ih =>
    rcases List.eq_nil_or_concat branch2 with rfl | ⟨front2, obj2, rfl⟩
    · exact absurd heq.symm (powHash_ne_walkBranch (h.mono fun x hx => by simpa [or_comm] using hx))
    · rw [List.concat_eq_append] at h heq
      rw [walkBranch_concat, walkBranch_concat] at heq
      -- the outer hashes agree, then the inner ones, then the nodes
      have houter := h _ (by simp [workHashed, walkHashed_concat]) _ (by simp [workHashed, walkHashed_concat]) heq
      have hinner := leBytes_inj (sha256_lt _) (sha256_lt _) houter
      have hnode := h _ (by simp [workHashed, walkHashed_concat]) _ (by simp [workHashed, walkHashed_concat]) hinner
      have hres := (List.append_inj hnode (by simp)).1
      refine ih front2 (h.mono fun x hx => ?_) (leBytes_inj (walkBranch_lt b1 _) (walkBranch_lt b2 _) hres)
      simp only [workHashed, walkHashed_concat, List.mem_append, List.mem_cons] at hx ⊢
      tauto

theorem sameContent_iff (h1 : b1.PowSized) (h2 : b2.PowSized) : powBytes b1 = powBytes b2 ↔ SameContent b1 b2 := by
  constructor
  · intro h
    unfold powBytes at h
    obtain ⟨h, hBits⟩ := List.append_inj h (by simp)
    obtain ⟨h, hMerkle⟩ := List.append_inj h (by simp)
    obtain ⟨h, hPrev⟩ := List.append_inj h (by simp)
    obtain ⟨hVersion, hType⟩ := List.append_inj h (by simp)
    exact ⟨leBytes_inj h1.nVersion h2.nVersion hVersion, leBytes_inj h1.nType h2.nType hType,
      leBytes_inj (by simpa using h1.hashPrev) (by simpa using h2.hashPrev) hPrev,
      leBytes_inj (by simpa using h1.hashMerkle) (by simpa using h2.hashMerkle) hMerkle,
      leBytes_inj h1.nBits h2.nBits hBits⟩
  · intro h
    unfold powBytes
    rw [h.nVersion, h.nType, h.hashPrev, h.hashMerkle, h.nBits]

theorem PowAccepted.walkBranch_eq {block : CBlock} {q : CBlockIndex} {l : CBlockIndexPtr}
    (h : PowAccepted E block q l) :
    walkBranch E (powHash E block) (load block.vchProof).auxMerkleBranch = commitment (load block.vchProof) := by
  have haux := h.aux
  unfold verificationMerkleTree at haux
  exact beq_iff_eq.1 haux

/-- **One work and the blocks it proves.** Two accepted blocks with the same Bitcoin header and coinbase
have the same content exactly when the second one, too, is linked to the bytes of the coinbase that link the
first. With the same offset they are. -/
theorem mergedWork_unique_iff (q1 q2 : CBlockIndex) (l1 l2 : CBlockIndexPtr)
    (hsize1 : b1.PowSized) (hsize2 : b2.PowSized)
    (h1 : verifyProofOfWork E b1 q1 l1 = some .OK) (h2 : verifyProofOfWork E b2 q2 l2 = some .OK)
    (hsame : SameWork (load b1.vchProof) (load b2.vchProof))
    (hsha : NoShaCollision E (workHashed E b1 (load b1.vchProof).auxMerkleBranch ++
      workHashed E b2 (load b2.vchProof).auxMerkleBranch)) :
    (SameContent b1 b2 ↔ ∃ branch,
        NoShaCollision E (workHashed E b1 (load b1.vchProof).auxMerkleBranch ++ workHashed E b2 branch) ∧
        verificationMerkleTree E (commitment (load b1.vchProof)) (powHash E b2) branch = true) ∧
      ((load b1.vchProof).auxOffset = (load b2.vchProof).auxOffset → SameContent b1 b2) := by
  have hlink1 := (verifyProofOfWork_ok h1).walkBranch_eq
  have hlink2 := (verifyProofOfWork_ok h2).walkBranch_eq
  refine ⟨⟨fun hcontent => ?_, ?_⟩, fun hoffset => ?_⟩
  · have hbytes := (sameContent_iff hsize1 hsize2).2 hcontent
    have hhash : powHash E b2 = powHash E b1 := by rw [powHash_eq, powHash_eq, hbytes]
    refine ⟨(load b1.vchProof).auxMerkleBranch, hsha.mono fun x hx => ?_, ?_⟩
    · have hworked : workHashed E b2 (load b1.vchProof).auxMerkleBranch =
          workHashed E b1 (load b1.vchProof).auxMerkleBranch := by rw [workHashed, workHashed, hbytes, hhash]
      rw [hworked, List.mem_append, or_self] at hx
      exact List.mem_append_left _ hx
    · rw [hhash]
      exact beq_iff_eq.2 hlink1
  · rintro ⟨branch, hbranch, hverify⟩
    have hend : walkBranch E (powHash E b2) branch = commitment (load b1.vchProof) := beq_iff_eq.1 hverify
    exact (sameContent_iff hsize1 hsize2).1 (branch_start_unique _ _ hbranch (hlink1.trans hend.symm))
  · have hcommit : commitment (load b1.vchProof) = commitment (load b2.vchProof) := by
      unfold commitment
      rw [hsame.coinbase, hoffset]
    refine (sameContent_iff hsize1 hsize2).1 (branch_start_unique _ _ hsha ?_)
    rw [hlink1, hlink2, hcommit]

end

/-! ## One coinbase for two blocks -/

/-- The toy network with a hash that does not leave a hash as it is. -/
def saltEnv : Env :=
  { toyEnv with
    cryptoSHA256 := fun bs => ⟨(5 * ofLeBytes bs + bs.length) % (2 ^ 224 - 63),
      lt_of_lt_of_le (Nat.mod_lt _ (by norm_num)) (by norm_num)⟩ }

/-- A block on the genesis block of the test network, without its proof. -/
def toyWorkBlock (hashMerkle : ℕ) : CBlock where
  nType := CBlock.BLOCK_PRIMARY
  nTimeStamp := GENESIS_TIME + 60
  hashPrev := hashGenesisBlock saltEnv
  hashMerkle := hashMerkle
  nBits := getCompact (nProofOfWorkInit saltEnv)

/-- The commitments to two blocks, one after the other. -/
def toyCoinbase : List UInt8 :=
  (leBytes 32 (powHash saltEnv (toyWorkBlock 1))).reverse ++ (leBytes 32 (powHash saltEnv (toyWorkBlock 2))).reverse

/-- A block with a proof on the common coinbase. -/
def toyWorked (hashMerkle auxOffset : ℕ) : CBlock :=
  { toyWorkBlock hashMerkle with
    vchProof := (⟨1, 0, saltEnv.sha256D toyCoinbase, GENESIS_TIME + 60, 0, 0, auxOffset, toyCoinbase, [], []⟩ :
      CProofOfHashWorkCompact).save }

theorem noShaCollision_of_all {E : Env} {S : List (List UInt8)}
    (h : S.all (fun x => S.all fun y => E.sha256 x != E.sha256 y || x == y) = true) : NoShaCollision E S := by
  intro x hx y hy heq
  have := List.all_eq_true.1 (List.all_eq_true.1 h x hx) y hy
  simpa [heq] using this

theorem toyWorked_sized : (toyWorked 1 0).PowSized ∧ (toyWorked 2 32).PowSized := by
  constructor <;> constructor <;> decide +kernel

theorem toyWorked_accepted : verifyProofOfWork saltEnv (toyWorked 1 0) (genesisEntry saltEnv) [] = some .OK ∧
    verifyProofOfWork saltEnv (toyWorked 2 32) (genesisEntry saltEnv) [] = some .OK ∧
    SameWork (load (toyWorked 1 0).vchProof) (load (toyWorked 2 32).vchProof) := by
  refine ⟨by decide +kernel, by decide +kernel, ?_⟩
  constructor <;> decide +kernel

/-- The second block is not linked to the bytes that link the first. -/
theorem mergedWork_unique_toy :
    ¬∃ branch,
      NoShaCollision saltEnv (workHashed saltEnv (toyWorked 1 0) (load (toyWorked 1 0).vchProof).auxMerkleBranch ++
        workHashed saltEnv (toyWorked 2 32) branch) ∧
      verificationMerkleTree saltEnv (commitment (load (toyWorked 1 0).vchProof)) (powHash saltEnv (toyWorked 2 32))
        branch = true := by
  obtain ⟨h1, h2, hsame⟩ := toyWorked_accepted
  intro hbranch
  have hcontent := (mergedWork_unique_iff (genesisEntry saltEnv) (genesisEntry saltEnv) [] [] toyWorked_sized.1
    toyWorked_sized.2 h1 h2 hsame (noShaCollision_of_all (by decide +kernel))).1.2 hbranch
  exact absurd hcontent.hashMerkle (by decide)

/-- One header and one coinbase that prove two blocks with different transactions. -/
theorem mergedWork_two_blocks :
    verifyProofOfWork saltEnv (toyWorked 1 0) (genesisEntry saltEnv) [] = some .OK ∧
      verifyProofOfWork saltEnv (toyWorked 2 32) (genesisEntry saltEnv) [] = some .OK ∧
      SameWork (load (toyWorked 1 0).vchProof) (load (toyWorked 2 32).vchProof) ∧
      NoShaCollision saltEnv (workHashed saltEnv (toyWorked 1 0) (load (toyWorked 1 0).vchProof).auxMerkleBranch ++
        workHashed saltEnv (toyWorked 2 32) (load (toyWorked 2 32).vchProof).auxMerkleBranch ++
        [toyCoinbase, leBytes 32 (saltEnv.sha256 toyCoinbase), (load (toyWorked 1 0).vchProof).headerBytes,
          leBytes 32 (saltEnv.sha256 (load (toyWorked 1 0).vchProof).headerBytes)]) ∧
      ¬SameContent (toyWorked 1 0) (toyWorked 2 32) := by
  obtain ⟨h1, h2, hsame⟩ := toyWorked_accepted
  exact ⟨h1, h2, hsame, noShaCollision_of_all (by decide +kernel), fun h => absurd h.hashMerkle (by decide)⟩

end Minemon
