import Minemon.Mining.Difficulty
import Minemon.Service.Work

/-!
# Proofs that do not decode

`Load` reads the ten parts of a proof one after another and stops at the first that is not there, without telling.
`VerifyProofOfWork` goes on with what there is: numbers that were never set, an empty coinbase, empty branches.

* `PowSafe`: the answer is an error, or all parts were read and the commitment lies in the coinbase.
* `verifyProofOfWork_safe_iff`: for which proofs this is so.
-/

namespace Minemon

open CProofOfHashWorkCompact

def loaded (vchProof : List UInt8) : Bool :=
  FIXED_SIZE ≤ vchProof.length &&
    ((readStreamBytes (vchProof.drop FIXED_SIZE)).bind fun r =>
      (readHashVector r.2).bind fun r => readHashVector r.2).isSome

def CommitmentInside (vchProof : List UInt8) : Prop :=
  (load vchProof).auxOffset + 32 ≤ (load vchProof).coinbase.length

section

variable (E : Env) (block : CBlock) (q : CBlockIndex) (l : CBlockIndexPtr)

/-- `VerifyProofOfWork` answers with an error, or the proof was read and its commitment is there. -/
def PowSafe : Prop :=
  ∃ e, verifyProofOfWork E block q l = some e ∧
    (e = .OK → loaded block.vchProof = true ∧ CommitmentInside block.vchProof)

/-- The block is refused for its time, its bits or the size of its proof. -/
def RefusedEarly : Prop :=
  block.nTimeStamp < q.nTimeStamp ∨ getProofOfWorkTarget E q l ≠ some block.nBits ∨
    targetRefused E block.nBits = true ∨ PROOFHASHWORK_SIZE < block.vchProof.length

/-- The coinbase commits to the block, the header to the coinbase, and the header has the work. -/
def commits : Bool :=
  verificationMerkleTree E
      (ofLeBytes (((load block.vchProof).coinbase.drop (load block.vchProof).auxOffset).take 32).reverse)
      (E.sha256 (leBytes 2 block.nVersion ++ leBytes 2 block.nType ++ leBytes 32 block.hashPrev
        ++ leBytes 32 block.hashMerkle ++ leBytes 4 block.nBits)) (load block.vchProof).auxMerkleBranch
    && verificationMerkleTree E (load block.vchProof).btcHashMerkleRoot (E.sha256D (load block.vchProof).coinbase)
      (load block.vchProof).trMerkleBranch
    && E.sha256D (load block.vchProof).headerBytes < setCompact block.nBits

variable {E block q l}

theorem verifyProofOfWork_early (h : RefusedEarly E block q l) :
    ∃ e, verifyProofOfWork E block q l = some e ∧ e ≠ .OK := by
  unfold verifyProofOfWork
  by_cases htime : block.nTimeStamp < q.nTimeStamp
  · exact ⟨_, if_pos htime, by decide⟩
  rw [if_neg htime]
  cases htarget : getProofOfWorkTarget E q l with
  | none => exact ⟨_, rfl, by decide⟩
  | some nBits =>
    simp only
    by_cases hbits : nBits ≠ block.nBits
    · exact ⟨_, if_pos hbits, by decide⟩
    rw [if_neg hbits]
    rw [not_not] at hbits
    subst hbits
    by_cases hrange : targetRefused E block.nBits = true
    · exact ⟨_, if_pos hrange, by decide⟩
    rw [targetRefused] at hrange
    rw [if_neg hrange]
    rcases h with h | h | h | h
    · exact absurd h htime
    · exact absurd htarget h
    · exact absurd h hrange
    · exact ⟨_, if_pos h, by decide⟩

theorem verifyProofOfWork_late (h : ¬ RefusedEarly E block q l) :
    verifyProofOfWork E block q l =
      if block.vchProof.length < 4 + 32 + 32 + 4 then none
      else if block.nTimeStamp ≠ (load block.vchProof).btcTime then some .ERR_BLOCK_PROOF_OF_WORK_INVALID
      else if block.vchProof.length < FIXED_SIZE
          || (load block.vchProof).coinbase.length < (load block.vchProof).auxOffset + 32 then none
      else if commits E block then some .OK else some .ERR_BLOCK_PROOF_OF_WORK_INVALID := by
  simp only [RefusedEarly, not_or, not_lt, not_not] at h
  obtain ⟨htime, htarget, hrange, hsize⟩ := h
  rw [targetRefused] at hrange
  unfold verifyProofOfWork
  rw [if_neg (not_lt.2 htime), htarget]
  simp only [ne_eq, not_true_eq_false, if_false, hrange, gt_iff_lt, not_lt.2 hsize, Bool.false_eq_true]
  unfold commits
  split_ifs <;> (simp_all; try omega)

/-- **When `VerifyProofOfWork` is safe**: the block is refused before its proof is read, or its time is read and is
not that of the block, or the coinbase is read with room for the commitment, and either both branches are read as
well or the empty branches in their place prove nothing. -/
theorem verifyProofOfWork_safe_iff :
    PowSafe E block q l ↔ RefusedEarly E block q l ∨
      (4 + 32 + 32 + 4 ≤ block.vchProof.length ∧ block.nTimeStamp ≠ (load block.vchProof).btcTime) ∨
      (FIXED_SIZE ≤ block.vchProof.length ∧ CommitmentInside block.vchProof ∧
        (loaded block.vchProof = true ∨ commits E block = false)) := by
  by_cases hearly : RefusedEarly E block q l
  · obtain ⟨e, he, hne⟩ := verifyProofOfWork_early hearly
    exact ⟨fun _ => Or.inl hearly, fun _ => ⟨e, he, fun hok => absurd hok hne⟩⟩
  rw [PowSafe, verifyProofOfWork_late hearly]
  have hfixed : FIXED_SIZE = 82 := rfl
  by_cases hhead : block.vchProof.length < 4 + 32 + 32 + 4
  · rw [if_pos hhead]
    constructor
    · rintro ⟨e, he, -⟩
      cases he
    · rintro (h | ⟨h, -⟩ | ⟨h, -⟩)
      · exact absurd h hearly
      · omega
      · omega
  rw [if_neg hhead]
  by_cases hbtc : block.nTimeStamp ≠ (load block.vchProof).btcTime
  · rw [if_pos hbtc]
    exact ⟨fun _ => Or.inr (Or.inl ⟨not_lt.1 hhead, hbtc⟩), fun _ => ⟨_, rfl, fun h => by cases h⟩⟩
  rw [if_neg hbtc]
  by_cases hroom : FIXED_SIZE ≤ block.vchProof.length ∧ CommitmentInside block.vchProof
  · have hroom' : (decide (block.vchProof.length < FIXED_SIZE)
        || decide ((load block.vchProof).coinbase.length < (load block.vchProof).auxOffset + 32)) = false := by
      simp only [Bool.or_eq_false_iff, decide_eq_false_iff_not, not_lt]
      exact hroom
    rw [hroom', if_neg (by simp)]
    cases hcommits : commits E block with
    | false =>
      rw [if_neg (by simp)]
      exact ⟨fun _ => Or.inr (Or.inr ⟨hroom.1, hroom.2, Or.inr rfl⟩), fun _ => ⟨_, rfl, fun h => by cases h⟩⟩
    | true =>
      rw [if_pos rfl]
      constructor
      · rintro ⟨e, he, hsafe⟩
        exact Or.inr (Or.inr ⟨hroom.1, hroom.2, Or.inl (hsafe (Option.some.inj he).symm).1⟩)
      · rintro (h | ⟨-, h⟩ | ⟨-, -, h | h⟩)
        · exact absurd h hearly
        · exact absurd h hbtc
        · exact ⟨_, rfl, fun _ => ⟨h, hroom.2⟩⟩
        · cases h
  · have hroom' : (decide (block.vchProof.length < FIXED_SIZE)
        || decide ((load block.vchProof).coinbase.length < (load block.vchProof).auxOffset + 32)) = true := by
      rw [Bool.or_eq_true, decide_eq_true_eq, decide_eq_true_eq]
      by_contra hno
      rw [not_or, not_lt, not_lt] at hno
      exact hroom hno
    rw [hroom', if_pos rfl]
    constructor
    · rintro ⟨e, he, -⟩
      cases he
    · rintro (h | ⟨-, h⟩ | ⟨h1, h2, -⟩)
      · exact absurd h hearly
      · exact absurd h hbtc
      · exact absurd ⟨h1, h2⟩ hroom

end

def toyProofBlock (f : List UInt8 → List UInt8) : CBlock :=
  let block := toyBlock toyMiner (genesisChain toyEnv) 0 []
  { block with vchProof := f block.vchProof }

/-- A block without a proof has no answer: the time that is compared was never read. A block whose proof ends
behind the coinbase is accepted. -/
theorem verifyProofOfWork_unsafe :
    verifyProofOfWork toyEnv (toyProofBlock fun _ => []) (genesisEntry toyEnv) [] = none ∧
      loaded (toyProofBlock fun vch => vch.take (vch.length - 2)).vchProof = false ∧
      verifyProofOfWork toyEnv (toyProofBlock fun vch => vch.take (vch.length - 2)) (genesisEntry toyEnv) []
        = some .OK := by
  decide +kernel

end Minemon
