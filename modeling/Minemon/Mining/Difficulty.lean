import Minemon.Crypto.BaseUint
import Minemon.Crypto.Compact
import Minemon.Run.Store

/-!
# The target of the next block

The limits of the targets lose nothing in their compact form, so that a target clamped to them stays within them,
and the next block can always be mined.

* `PowChain`: chains of blocks, each accepted by `verifyProofOfWork` on the one before.
* `target_in_range`: the target after every chain.
-/

namespace Minemon

open CBlockBase CProofOfHashWorkCompact

/-! ## The limits -/

theorem nProofOfWorkUpperLimit_eq : nProofOfWorkUpperLimit = (2 ^ 16 - 1) * 2 ^ 40 := by decide

theorem nProofOfWorkLowerLimit_lt (E : Env) : nProofOfWorkLowerLimit E < 2 ^ 250 := by
  unfold nProofOfWorkLowerLimit PROOF_OF_WORK_BITS_LOWER_LIMIT Env.getParam
  split <;> decide

theorem upperLimit_le_lowerLimit (E : Env) : nProofOfWorkUpperLimit ≤ nProofOfWorkLowerLimit E := by
  unfold nProofOfWorkLowerLimit PROOF_OF_WORK_BITS_LOWER_LIMIT Env.getParam
  split <;> decide

theorem upperLimit_le_compact {x : ℕ} (h : nProofOfWorkUpperLimit ≤ x) (hx : x < 2 ^ 256) :
    nProofOfWorkUpperLimit ≤ setCompact (getCompact x) := by
  have hup : roundCompact nProofOfWorkUpperLimit = nProofOfWorkUpperLimit := by decide
  rw [(setCompact_getCompact hx).1, ← hup]
  exact roundCompact_mono h

structure TargetOK (E : Env) (nBits : ℕ) : Prop where
  negative : compactNegative nBits = false
  overflow : compactOverflow nBits = false
  upper : nProofOfWorkUpperLimit ≤ setCompact nBits
  lower : setCompact nBits ≤ nProofOfWorkLowerLimit E

theorem targetOK_compact {E : Env} {x : ℕ} (h : nProofOfWorkUpperLimit ≤ x) (h' : x ≤ nProofOfWorkLowerLimit E) :
    TargetOK E (getCompact x) := by
  have hlow := nProofOfWorkLowerLimit_lt E
  have hx : x < 2 ^ 256 := by omega
  obtain ⟨hround, hneg, hover⟩ := setCompact_getCompact hx
  exact ⟨hneg, hover, upperLimit_le_compact h hx, (hround.trans_le (roundCompact_le x)).trans h'⟩

theorem targetOK_init (E : Env) : TargetOK E (getCompact (nProofOfWorkInit E)) := by
  refine targetOK_compact ?_ ?_ <;>
  · unfold nProofOfWorkInit PROOF_OF_WORK_BITS_INIT
    try unfold nProofOfWorkLowerLimit PROOF_OF_WORK_BITS_LOWER_LIMIT
    unfold Env.getParam
    split <;> decide

/-! ## The retarget -/

def clampTimespan (E : Env) (nActualTimespan : ℕ) : ℕ :=
  min (max nActualTimespan (PROOF_OF_WORK_DIFFICULTY_INTERVAL E * BLOCK_TARGET_SPACING / 4))
    (PROOF_OF_WORK_DIFFICULTY_INTERVAL E * BLOCK_TARGET_SPACING * 4)

def adjustProduct (E : Env) (nBits nActualTimespan : ℕ) : ℕ :=
  (if setCompact nBits ≥ PROOF_OF_WORK_DIFFICULTY_INTERVAL E * BLOCK_TARGET_SPACING then
    setCompact nBits / (PROOF_OF_WORK_DIFFICULTY_INTERVAL E * BLOCK_TARGET_SPACING)
  else setCompact nBits) * clampTimespan E nActualTimespan

theorem timespan_eq (E : Env) : PROOF_OF_WORK_DIFFICULTY_INTERVAL E * BLOCK_TARGET_SPACING = 172800 := by
  unfold PROOF_OF_WORK_DIFFICULTY_INTERVAL BLOCK_TARGET_SPACING Env.getParam
  split <;> rfl

theorem clampTimespan_le (E : Env) (n : ℕ) : clampTimespan E n ≤ 172800 * 4 := by
  unfold clampTimespan
  rw [timespan_eq]
  exact min_le_right _ _

/-- `operator*=` of `uint256` by a word. -/
def mulAssign (x b32 : ℕ) : ℕ := ((BaseUint.ofNumber 8 x).mulAssign32 (UInt32.ofNat b32)).value

theorem mulAssign_eq {x b32 : ℕ} (hb : b32 < 2 ^ 32) : mulAssign x b32 = x * b32 % 2 ^ 256 := by
  rw [mulAssign, BaseUint.value_mulAssign32, BaseUint.value_ofNumber, UInt32.toNat_ofNat_of_lt' hb, ← pow_mul,
    Nat.mod_mul_mod]

/-- **The retarget on words**: it is computed by the word-wise product and by shifting and subtracting. -/
theorem adjustTarget_words (E : Env) (nBits n : ℕ) :
    adjustTarget E nBits n = min (max
      (if setCompact nBits ≥ PROOF_OF_WORK_DIFFICULTY_INTERVAL E * BLOCK_TARGET_SPACING then
        mulAssign (WordArith.shiftDiv (setCompact nBits) (PROOF_OF_WORK_DIFFICULTY_INTERVAL E * BLOCK_TARGET_SPACING))
          (clampTimespan E n)
      else WordArith.shiftDiv (mulAssign (setCompact nBits) (clampTimespan E n))
        (PROOF_OF_WORK_DIFFICULTY_INTERVAL E * BLOCK_TARGET_SPACING))
      nProofOfWorkUpperLimit) (nProofOfWorkLowerLimit E) := by
  have hword : clampTimespan E n < 2 ^ 32 := (clampTimespan_le E n).trans_lt (by decide)
  rw [WordArith.shiftDiv_eq, WordArith.shiftDiv_eq, mulAssign_eq hword, mulAssign_eq hword]
  simp only [adjustTarget, clampTimespan]

/-- **One retarget**: no overflow, and at most four times the target before. -/
theorem adjustTarget_spec {E : Env} {nBits : ℕ} (h : TargetOK E nBits) (n : ℕ) :
    adjustProduct E nBits n < 2 ^ 256 ∧ nProofOfWorkUpperLimit ≤ adjustTarget E nBits n ∧
      adjustTarget E nBits n ≤ nProofOfWorkLowerLimit E ∧ adjustTarget E nBits n ≤ 4 * setCompact nBits := by
  have hup := nProofOfWorkUpperLimit_eq
  have hlow := nProofOfWorkLowerLimit_lt E
  have hlimits := upperLimit_le_lowerLimit E
  have hclamp := clampTimespan_le E n
  have hupper := h.upper
  have hlower := h.lower
  have hlarge : setCompact nBits ≥ PROOF_OF_WORK_DIFFICULTY_INTERVAL E * BLOCK_TARGET_SPACING := by
    rw [timespan_eq]
    omega
  have hprod : adjustProduct E nBits n ≤ 4 * setCompact nBits := by
    unfold adjustProduct
    rw [if_pos hlarge, timespan_eq]
    calc setCompact nBits / 172800 * clampTimespan E n
        ≤ setCompact nBits / 172800 * (172800 * 4) := Nat.mul_le_mul_left _ hclamp
      _ = setCompact nBits / 172800 * 172800 * 4 := (Nat.mul_assoc _ _ _).symm
      _ ≤ setCompact nBits * 4 := Nat.mul_le_mul_right _ (Nat.div_mul_le_self _ _)
      _ = 4 * setCompact nBits := Nat.mul_comm _ _
  have hwrap : adjustProduct E nBits n < 2 ^ 256 := by omega
  have heq : adjustTarget E nBits n =
      min (max (adjustProduct E nBits n) nProofOfWorkUpperLimit) (nProofOfWorkLowerLimit E) := by
    rw [← Nat.mod_eq_of_lt hwrap]
    simp only [adjustTarget, adjustProduct, clampTimespan, if_pos hlarge]
  rw [heq]
  refine ⟨hwrap, ?_, min_le_right _ _, ?_⟩ <;> omega

/-! ## Chains -/

def targetRefused (E : Env) (nBits : ℕ) : Bool :=
  compactNegative nBits || setCompact nBits == 0 || compactOverflow nBits
    || setCompact nBits < nProofOfWorkUpperLimit || setCompact nBits > nProofOfWorkLowerLimit E

theorem targetRefused_eq_false {E : Env} {nBits : ℕ} : targetRefused E nBits = false ↔ TargetOK E nBits := by
  have hup := nProofOfWorkUpperLimit_eq
  simp only [targetRefused, Bool.or_eq_false_iff, decide_eq_false_iff_not, not_lt, gt_iff_lt, beq_eq_false_iff_ne]
  constructor
  · rintro ⟨⟨⟨⟨hneg, -⟩, hover⟩, hupper⟩, hlower⟩
    exact ⟨hneg, hover, hupper, hlower⟩
  · rintro ⟨hneg, hover, hupper, hlower⟩
    exact ⟨⟨⟨⟨hneg, by omega⟩, hover⟩, hupper⟩, hlower⟩

structure PowAccepted (E : Env) (block : CBlock) (q : CBlockIndex) (l : CBlockIndexPtr) : Prop where
  time : q.nTimeStamp ≤ block.nTimeStamp
  target : getProofOfWorkTarget E q l = some block.nBits
  range : TargetOK E block.nBits
  btcTime : block.nTimeStamp = (load block.vchProof).btcTime
  aux : verificationMerkleTree E
    (ofLeBytes (((load block.vchProof).coinbase.drop (load block.vchProof).auxOffset).take 32).reverse)
    (E.sha256 (leBytes 2 block.nVersion ++ leBytes 2 block.nType ++ leBytes 32 block.hashPrev
      ++ leBytes 32 block.hashMerkle ++ leBytes 4 block.nBits)) (load block.vchProof).auxMerkleBranch = true
  tr : verificationMerkleTree E (load block.vchProof).btcHashMerkleRoot (E.sha256D (load block.vchProof).coinbase)
    (load block.vchProof).trMerkleBranch = true
  work : E.sha256D (load block.vchProof).headerBytes < setCompact block.nBits

theorem verifyProofOfWork_ok {E : Env} {block : CBlock} {q : CBlockIndex} {l : CBlockIndexPtr}
    (h : verifyProofOfWork E block q l = some .OK) : PowAccepted E block q l := by
  unfold verifyProofOfWork at h
  by_cases htime : block.nTimeStamp < q.nTimeStamp
  · simp [htime] at h
  rw [if_neg htime] at h
  cases htarget : getProofOfWorkTarget E q l with
  | none => simp [htarget] at h
  | some nBits =>
    simp only [htarget] at h
    by_cases hbits : nBits ≠ block.nBits
    · simp [hbits] at h
    rw [if_neg hbits] at h
    rw [not_not] at hbits
    subst hbits
    by_cases hrange : targetRefused E block.nBits = true
    · rw [targetRefused] at hrange
      simp [hrange] at h
    have hok := targetRefused_eq_false.1 (by simpa using hrange)
    rw [targetRefused] at hrange
    rw [if_neg hrange] at h
    split_ifs at h with hsize hhead hbtc hfixed haux htr hwork
    all_goals try simp at h
    exact ⟨not_lt.1 htime, htarget, hok, not_not.1 hbtc, by simpa using haux, by simpa using htr, not_le.1 hwork⟩

/-- A chain of blocks of a kind, each accepted by `verifyProofOfWork` on top of the one before. -/
inductive PowChain (E : Env) (P : CBlock → Prop) : CBlockIndexPtr → Prop
  | genesis : PowChain E P [genesisEntry E]
  | step {q : CBlockIndex} {l : CBlockIndexPtr} {block : CBlock} (nFile nOffset nChainTrust : ℕ) (nMint : ℤ)
      (h : PowChain E P (q :: l)) (hP : P block) (hprev : block.hashPrev = q.hashBlock)
      (hpow : verifyProofOfWork E block q l = some .OK) :
      PowChain E P (newIndex E (block.getHash E) block nFile nOffset nChainTrust nMint (q :: l) :: q :: l)

section

variable {E : Env} {P : CBlock → Prop} {p : CBlockIndex} {l ptr : CBlockIndexPtr}

theorem PowChain.height_hash (h : PowChain E P ptr) :
    ∀ p l, ptr = p :: l → getBlockHeightByHash p.hashBlock = p.nHeight := by
  cases h with
  | genesis =>
    intro p l heq
    obtain ⟨rfl, -⟩ := List.cons.inj heq
    exact CBlock.height_getHash E (getGenesisBlock E)
  | step nFile nOffset nChainTrust nMint h hP hprev hpow =>
    intro p l heq
    obtain ⟨rfl, -⟩ := List.cons.inj heq
    exact CBlock.height_getHash E _

theorem getBlockHeight_of_ne_zero {block : CBlock} (hext : block.isExtended = false) (hpos : block.getBlockHeight ≠ 0) :
    block.getBlockHeight = getBlockHeightByHash block.hashPrev + 1 := by
  have hgenesis : block.isGenesis = false := by
    by_contra hgenesis
    simp [CBlock.getBlockHeight, hgenesis] at hpos
  simp [CBlock.getBlockHeight, hgenesis, hext]

theorem PowChain.drop (h : PowChain E (fun block => block.isExtended = false) ptr) :
    ∀ p l, ptr = p :: l → ∀ k ≤ p.nHeight, ∃ first rest, ptr.drop k = first :: rest ∧
      first.nHeight + k = p.nHeight ∧ first.nTimeStamp ≤ p.nTimeStamp ∧
      getBlockHeightByHash first.hashBlock = first.nHeight := by
  induction h with
  | genesis =>
    intro p l heq k hk
    obtain ⟨rfl, -⟩ := List.cons.inj heq
    rw [genesisEntry_nHeight] at hk
    obtain rfl := Nat.le_zero.1 hk
    exact ⟨_, _, rfl, rfl, le_rfl, PowChain.height_hash (P := fun _ => True) .genesis _ _ rfl⟩
  | @step q l block nFile nOffset nChainTrust nMint h hP hprev hpow ih =>
    intro p l' heq k hk
    obtain ⟨rfl, -⟩ := List.cons.inj heq
    cases k with
    | zero => exact ⟨_, _, rfl, rfl, le_rfl, CBlock.height_getHash E _⟩
    | succ k =>
      -- the block is not of height 0, so it stands one above the block before
      have hheight : block.getBlockHeight = q.nHeight + 1 := by
        rw [← h.height_hash q l rfl, ← hprev]
        exact getBlockHeight_of_ne_zero hP ((Nat.succ_pos k).trans_le hk).ne'
      change k + 1 ≤ block.getBlockHeight at hk
      obtain ⟨first, rest, hdrop, hfirst, htime, hhash⟩ := ih q l rfl k (by omega)
      refine ⟨first, rest, hdrop, ?_, htime.trans (verifyProofOfWork_ok hpow).time, hhash⟩
      change first.nHeight + (k + 1) = block.getBlockHeight
      omega

theorem PowChain.targetOK (h : PowChain E P (p :: l)) (hp : p.nHeight ≠ 0) : TargetOK E p.nProofBits := by
  cases h with
  | genesis => exact absurd (genesisEntry_nHeight E) hp
  | step nFile nOffset nChainTrust nMint h hP hprev hpow => exact (verifyProofOfWork_ok hpow).range

/-- **The next target.** After every chain of blocks that are not extended ones, each accepted by
`VerifyProofOfWork` on the one before, there is a target for the next block; it is within the limits, and a
retarget does not overflow and gives at most four times the target before. -/
theorem target_in_range (h : PowChain E (fun block => block.isExtended = false) (p :: l)) :
    ∃ nBits, getProofOfWorkTarget E p l = some nBits ∧ compactNegative nBits = false ∧
      compactOverflow nBits = false ∧ nProofOfWorkUpperLimit ≤ setCompact nBits ∧
      setCompact nBits ≤ nProofOfWorkLowerLimit E ∧ targetRefused E nBits = false ∧
      (p.nHeight ≠ 0 → (p.nHeight + 1) % PROOF_OF_WORK_DIFFICULTY_INTERVAL E = 0 →
        setCompact nBits ≤ 4 * setCompact p.nProofBits ∧ ∀ n, adjustProduct E p.nProofBits n < 2 ^ 256) := by
  suffices hsuff : ∃ nBits, getProofOfWorkTarget E p l = some nBits ∧ TargetOK E nBits ∧
      (p.nHeight ≠ 0 → (p.nHeight + 1) % PROOF_OF_WORK_DIFFICULTY_INTERVAL E = 0 →
        setCompact nBits ≤ 4 * setCompact p.nProofBits ∧ ∀ n, adjustProduct E p.nProofBits n < 2 ^ 256) by
    obtain ⟨nBits, htarget, hok, hretarget⟩ := hsuff
    exact ⟨nBits, htarget, hok.negative, hok.overflow, hok.upper, hok.lower, targetRefused_eq_false.2 hok, hretarget⟩
  have hinterval : PROOF_OF_WORK_DIFFICULTY_INTERVAL E = 2880 := by
    unfold PROOF_OF_WORK_DIFFICULTY_INTERVAL Env.getParam
    split <;> rfl
  unfold getProofOfWorkTarget
  by_cases hzero : p.nHeight = 0
  · simp only [hzero, if_true]
    exact ⟨_, rfl, targetOK_init E, fun h => absurd rfl h⟩
  have hbits := h.targetOK hzero
  by_cases hsame : (p.nHeight + 1) % 2880 ≠ 0
  · simp only [if_neg hzero, hinterval, if_pos hsame]
    exact ⟨_, rfl, hbits, fun _ h => absurd h hsame⟩
  obtain ⟨first, rest, hdrop, hfirst, htime, hhash⟩ := h.drop p l rfl 2879 (by omega)
  have hptr : p.hashBlock ≠ first.hashBlock := by
    intro heq
    have hheight := h.height_hash p l rfl
    rw [heq, hhash] at hheight
    omega
  have hspec := fun n => adjustTarget_spec hbits n
  simp only [if_neg hzero, hinterval, if_neg hsame, hdrop]
  rw [if_neg (by push_cast; omega), if_neg hptr, if_neg (by omega)]
  obtain ⟨-, hupper, hlower, hfour⟩ := hspec (p.nTimeStamp - first.nTimeStamp)
  have hle := upperLimit_le_lowerLimit E
  have hup := nProofOfWorkUpperLimit_eq
  have hlt := nProofOfWorkLowerLimit_lt E
  refine ⟨_, rfl, targetOK_compact hupper hlower, fun _ _ => ⟨?_, fun n => (hspec n).1⟩⟩
  exact ((setCompact_getCompact (by omega)).1.trans_le (roundCompact_le _)).trans hfour

end

/-! ## Chains with one time -/

def freeEnv : Env := ⟨true, fun _ => 0, fun _ => 0, fun _ _ _ => true⟩

def freeBlock (nType hashPrev : ℕ) : CBlock where
  nType := nType
  nTimeStamp := GENESIS_TIME
  hashPrev := hashPrev
  nBits := getCompact (nProofOfWorkInit freeEnv)
  vchProof := leBytes 68 0 ++ leBytes 4 GENESIS_TIME ++ leBytes 10 0 ++ streamBytes (List.replicate 32 0) ++ [0, 0]

/-- The entries of blocks of these types, the last one first. -/
def freeChain : List ℕ → CBlockIndexPtr
  | [] => [genesisEntry freeEnv]
  | nType :: types =>
    let ptr := freeChain types
    let block := freeBlock nType ((ptr.head?.map CBlockIndex.hashBlock).getD 0)
    newIndex freeEnv (block.getHash freeEnv) block 0 0 0 0 ptr :: ptr

theorem freeBlock_accepted {q : CBlockIndex} {l : CBlockIndexPtr} (nType hashPrev : ℕ)
    (htime : q.nTimeStamp = GENESIS_TIME)
    (htarget : getProofOfWorkTarget freeEnv q l = some (getCompact (nProofOfWorkInit freeEnv))) :
    verifyProofOfWork freeEnv (freeBlock nType hashPrev) q l = some .OK := by
  have hload : load (freeBlock nType hashPrev).vchProof =
      ⟨0, 0, 0, GENESIS_TIME, 0, 0, 0, List.replicate 32 0, [], []⟩ := by
    change load (freeBlock 0 0).vchProof = _
    decide
  have hlength : (freeBlock nType hashPrev).vchProof.length = 117 := by
    change (freeBlock 0 0).vchProof.length = 117
    decide
  have hrange : targetRefused freeEnv (getCompact (nProofOfWorkInit freeEnv)) = false := by decide
  have hwork : ¬0 ≥ setCompact (getCompact (nProofOfWorkInit freeEnv)) := by decide
  have hhash : ∀ bs, freeEnv.sha256 bs = 0 := fun _ => rfl
  have hhashD : ∀ bs, freeEnv.sha256D bs = 0 := fun _ => rfl
  unfold targetRefused at hrange
  unfold verifyProofOfWork
  rw [if_neg (by rw [htime]; exact lt_irrefl _)]
  simp only [htarget, hload, hlength]
  rw [if_neg (by simp [freeBlock]), hrange]
  simp [PROOFHASHWORK_SIZE, CProofOfHashWorkCompact.FIXED_SIZE, freeBlock,
    CProofOfHashWorkCompact.verificationMerkleTree]
  rw [if_pos ((hhash _).trans (by decide)), if_pos (hhashD _), hhashD, if_neg hwork]

theorem freeChain_time (types : List ℕ) : ∀ q ∈ freeChain types, q.nTimeStamp = GENESIS_TIME := by
  induction types with
  | nil =>
    intro q hq
    rw [List.mem_singleton.1 hq]
    rfl
  | cons nType types ih =>
    intro q hq
    rcases List.mem_cons.1 hq with rfl | hq
    · rfl
    · exact ih q hq

theorem PowChain.free {types : List ℕ} {q : CBlockIndex} {l : CBlockIndexPtr} {P : CBlock → Prop} (nType : ℕ)
    (h : PowChain freeEnv P (freeChain types)) (hP : ∀ hashPrev, P (freeBlock nType hashPrev))
    (hq : freeChain types = q :: l)
    (htarget : getProofOfWorkTarget freeEnv q l = some (getCompact (nProofOfWorkInit freeEnv))) :
    PowChain freeEnv P (freeChain (nType :: types)) := by
  have htime := freeChain_time types q (by simp [hq])
  rw [freeChain]
  rw [hq] at h ⊢
  exact .step 0 0 0 0 h (hP _) rfl (freeBlock_accepted nType _ htime htarget)

/-- A chain of one time that has grown to the block before the retarget. -/
theorem freeChain_grown {P : CBlock → Prop} {types : List ℕ} {q₀ : CBlockIndex} {l : CBlockIndexPtr}
    (hP : ∀ hashPrev, P (freeBlock 1 hashPrev)) (hbase : PowChain freeEnv P (freeChain types))
    (hq₀ : freeChain types = q₀ :: l) (hone : q₀.nHeight = 1 ∧ getBlockHeightByHash q₀.hashBlock = 1 ∧
      q₀.nProofBits = getCompact (nProofOfWorkInit freeEnv)) (n : ℕ) (hn : n ≤ 2878) :
    PowChain freeEnv P (freeChain (List.replicate n 1 ++ types)) ∧
      ∃ q tops, freeChain (List.replicate n 1 ++ types) = q :: tops ++ l ∧ tops.length = n ∧ q.nHeight = n + 1 ∧
        getBlockHeightByHash q.hashBlock = n + 1 ∧ q.nProofBits = getCompact (nProofOfWorkInit freeEnv) := by
  induction n with
  | zero => exact ⟨hbase, q₀, [], hq₀, rfl, hone⟩
  | succ n ih =>
    obtain ⟨hchain, q, tops, hq, hlen, hheight, hhash, hbits⟩ := ih (by omega)
    have htarget : getProofOfWorkTarget freeEnv q (tops ++ l) = some (getCompact (nProofOfWorkInit freeEnv)) := by
      have hinterval : PROOF_OF_WORK_DIFFICULTY_INTERVAL freeEnv = 2880 := rfl
      simp only [getProofOfWorkTarget, hinterval, hheight, if_neg (show n + 1 ≠ 0 by omega)]
      rw [if_pos (by omega), hbits]
    refine ⟨hchain.free 1 hP hq htarget, ?_⟩
    rw [List.replicate_succ, List.cons_append, freeChain, hq]
    refine ⟨_, q :: tops, rfl, by simp [hlen], ?_, ?_, rfl⟩
    · change getBlockHeightByHash q.hashBlock + 1 = _
      rw [hhash]
    · refine (CBlock.height_getHash freeEnv _).trans ?_
      change getBlockHeightByHash q.hashBlock + 1 = _
      rw [hhash]

/-- An extended block has the height of the block before it. With one in the chain, the first block of an
interval is not where it is looked for, and there is no target. -/
theorem no_target_after_extended :
    ∃ p l, PowChain freeEnv (fun _ => True) (p :: l) ∧ getProofOfWorkTarget freeEnv p l = none := by
  have h1 : PowChain freeEnv (fun _ => True) (freeChain [1]) := .free 1 .genesis (fun _ => trivial) rfl rfl
  have h4 : PowChain freeEnv (fun _ => True) (freeChain [4, 1]) := .free 4 h1 (fun _ => trivial) rfl (by decide)
  obtain ⟨hchain, q, tops, hq, hlen, hheight, -, -⟩ :=
    freeChain_grown (fun _ => trivial) h4 rfl (by decide) 2878 le_rfl
  rw [hq] at hchain
  refine ⟨q, tops ++ freeChain [1], hchain, ?_⟩
  have hinterval : PROOF_OF_WORK_DIFFICULTY_INTERVAL freeEnv = 2880 := rfl
  have hdrop : (q :: (tops ++ freeChain [1])).drop 2879 = freeChain [1] := by
    rw [← List.cons_append, List.drop_left' (by simp [hlen])]
  obtain ⟨first, hfirst, hone⟩ : ∃ first, freeChain [1] = [first, genesisEntry freeEnv] ∧ first.nHeight = 1 :=
    ⟨_, rfl, by decide⟩
  simp only [getProofOfWorkTarget, hinterval, hheight, hdrop]
  rw [if_neg (by decide), if_neg (by decide), hfirst]
  simp only [hone]
  rw [if_pos (by decide)]

/-- The retarget at height 2880. -/
theorem target_in_range_free :
    ∃ p l nBits, freeChain (List.replicate 2878 1 ++ [1]) = p :: l ∧ p.nHeight = 2879 ∧
      getProofOfWorkTarget freeEnv p l = some nBits ∧ targetRefused freeEnv nBits = false ∧
      setCompact nBits ≤ 4 * setCompact p.nProofBits := by
  have h1 : PowChain freeEnv (fun block => block.isExtended = false) (freeChain [1]) :=
    .free 1 .genesis (fun _ => rfl) rfl rfl
  obtain ⟨hchain, q, tops, hq, -, hheight, -, -⟩ := freeChain_grown (fun _ => rfl) h1 rfl (by decide) 2878 le_rfl
  rw [hq] at hchain
  obtain ⟨nBits, htarget, -, -, -, -, hrange, hfour⟩ := target_in_range hchain
  have hinterval : (q.nHeight + 1) % PROOF_OF_WORK_DIFFICULTY_INTERVAL freeEnv = 0 := by rw [hheight]; decide
  exact ⟨q, _, nBits, hq, hheight, htarget, hrange, (hfour (by rw [hheight]; decide) hinterval).1⟩

end Minemon
