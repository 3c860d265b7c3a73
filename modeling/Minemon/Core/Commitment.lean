import Minemon.Lib.Merkle
import Minemon.Service.Work

/-!
# What the block hash commits to

The hash of a block covers its Merkle root, and the root is that of one list of transactions as long as
no transaction is repeated. `ValidateBlock` looks for repetitions among the first `vtx.size()` leaves of
the tree; the last transaction is not among them.

* `validateBlock_commits_iff`: when a valid block has no repetition, and what its hash then commits to.
-/

namespace Minemon

def nodeHash (E : Env) (a b : ℕ) : ℕ := E.hash (leBytes 32 a ++ leBytes 32 b)

/-- What `BuildMerkleTree` appends to `vMerkleTree` after the leaves. -/
def merkleInner (E : Env) : ℕ → List ℕ → List ℕ
  | _, [] => []
  | _, [_] => []
  | 0, _ => []
  | fuel + 1, l => merkleLevel E l ++ merkleInner E fuel (merkleLevel E l)

def CBlock.innerNodes (E : Env) (b : CBlock) : List ℕ := merkleInner E (b.txids E).length (b.txids E)

/-- The identifier of the last transaction is none of those before. -/
def CBlock.LastDistinct (E : Env) (b : CBlock) : Prop :=
  ∀ tx, b.vtx.getLast? = some tx → tx.getHash E ∉ (b.txids E).dropLast

section

variable {E : Env}

theorem merkleLevel_eq (l : List ℕ) : merkleLevel E l = Merkle.level (nodeHash E) l := by
  induction l using Merkle.level.induct with
  | case1 => rfl
  | case2 a => rfl
  | case3 a b l ih => rw [merkleLevel, Merkle.level, ih, nodeHash]

theorem length_merkleLevel (l : List ℕ) : (merkleLevel E l).length = (l.length + 1) / 2 := by
  induction l using Merkle.level.induct with
  | case1 => rfl
  | case2 a => simp [merkleLevel]
  | case3 a b l ih =>
    rw [merkleLevel, List.length_cons, ih, List.length_cons, List.length_cons]
    omega

/-- **The root is the last level**, and the levels above the leaves are the inner nodes. -/
theorem merkleRoot_level (fuel : ℕ) {l : List ℕ} (hne : l ≠ []) (hlen : l.length ≤ fuel + 1) :
    ∃ d, (Merkle.level (nodeHash E))^[d] l = [merkleRoot E fuel l] ∧
      ∀ i, 1 ≤ i → i ≤ d → ∀ x ∈ (Merkle.level (nodeHash E))^[i] l, x ∈ merkleInner E fuel l := by
  induction fuel generalizing l with
  | zero =>
    obtain ⟨a, rfl⟩ := List.length_eq_one_iff.1 (show l.length = 1 by
      have := List.length_pos_iff.2 hne
      omega)
    exact ⟨0, rfl, fun i h1 h2 => absurd h1 (by omega)⟩
  | succ fuel ih =>
    match l, hne, hlen with
    | [a], _, _ => exact ⟨0, rfl, fun i h1 h2 => absurd h1 (by omega)⟩
    | a :: b :: l, _, hlen =>
      have hlevel : (merkleLevel E (a :: b :: l)).length ≤ fuel + 1 := by
        rw [length_merkleLevel]
        simp only [List.length_cons] at hlen ⊢
        omega
      obtain ⟨d, hroot, hinner⟩ := ih (l := merkleLevel E (a :: b :: l)) (by simp [merkleLevel]) hlevel
      refine ⟨d + 1, ?_, fun i h1 h2 x hx => ?_⟩
      · rw [Function.iterate_succ_apply, ← merkleLevel_eq]
        exact hroot
      · obtain ⟨i, rfl⟩ := Nat.exists_eq_add_of_le' h1
        rw [Function.iterate_succ_apply, ← merkleLevel_eq] at hx
        show x ∈ merkleLevel E (a :: b :: l) ++ merkleInner E fuel (merkleLevel E (a :: b :: l))
        rcases Nat.eq_zero_or_pos i with rfl | hpos
        · exact List.mem_append_left _ hx
        · exact List.mem_append_right _ (hinner i hpos (by omega) x hx)

/-! ## The duplicate check -/

variable {nNetTime : ℤ} {b : CBlock}

theorem txids_take (b : CBlock) : (b.txids E).take b.vtx.length = (b.txids E).dropLast := by
  rw [List.dropLast_eq_take]
  simp [CBlock.txids]

/-- **The check leaves out the last transaction.** -/
theorem ValidBlock.txids_nodup_iff (h : ValidBlock E nNetTime b) : (b.txids E).Nodup ↔ b.LastDistinct E := by
  have hnd := h.nodup
  rw [txids_take] at hnd
  rcases List.eq_nil_or_concat b.vtx with hvtx | ⟨front, tx, hvtx⟩
  · simp [CBlock.txids, CBlock.LastDistinct, hvtx]
  · have hconcat : b.txids E = (b.txMint.getHash E :: front.map (CTransaction.getHash E)) ++ [tx.getHash E] := by
      simp [CBlock.txids, hvtx]
    have hids : b.txids E = (b.txids E).dropLast ++ [tx.getHash E] := by
      rw [hconcat, List.dropLast_concat]
    have hlast : b.LastDistinct E ↔ tx.getHash E ∉ (b.txids E).dropLast := by
      simp [CBlock.LastDistinct, hvtx]
    rw [hlast, hids, List.dropLast_concat, List.nodup_append]
    constructor
    · exact fun hall hmem => hall.2.2 _ hmem _ List.mem_cons_self rfl
    · refine fun hnot => ⟨hnd, List.nodup_singleton _, fun a ha c hc hac => hnot ?_⟩
      rw [← List.mem_singleton.1 hc, ← hac]
      exact ha

/-! ## The header -/

variable {b1 b2 : CBlock}

theorem hashMerkle_of_headBytes (h1 : b1.hashMerkle < 2 ^ 256) (h2 : b2.hashMerkle < 2 ^ 256)
    (h : b1.headBytes = b2.headBytes) : b1.hashMerkle = b2.hashMerkle := by
  unfold CBlock.headBytes at h
  simp only [List.append_assoc] at h
  have hfront := (List.append_inj h (by simp)).2
  have hfront := (List.append_inj hfront (by simp)).2
  have hfront := (List.append_inj hfront (by simp)).2
  have hfront := (List.append_inj hfront (by simp)).2
  exact leBytes_inj (by simpa using h1) (by simpa using h2) (List.append_inj hfront (by simp)).1

theorem hash_headBytes_of_getHash (h : b1.getHash E = b2.getHash E) :
    E.hash b1.headBytes % 2 ^ 224 = E.hash b2.headBytes % 2 ^ 224 := by
  have := congrArg (· % 2 ^ 224) h
  simpa [CBlock.getHash, CBlock.headBytes, Nat.add_mod] using this

/-! ## The commitment -/

/-- No collision among the headers of two blocks, of which 224 bits are used, and the nodes of their trees. -/
structure NoCollision (E : Env) (b1 b2 : CBlock) : Prop where
  head : E.hash b1.headBytes % 2 ^ 224 = E.hash b2.headBytes % 2 ^ 224 → b1.headBytes = b2.headBytes
  node : Merkle.Injective (nodeHash E)
    {x | x ∈ b1.txids E ++ b1.innerNodes E ∨ x ∈ b2.txids E ++ b2.innerNodes E}

theorem NoCollision.symm (h : NoCollision E b1 b2) : NoCollision E b2 b1 := by
  refine ⟨fun heq => (h.head heq.symm).symm, ?_⟩
  have hset : {x | x ∈ b2.txids E ++ b2.innerNodes E ∨ x ∈ b1.txids E ++ b1.innerNodes E} =
      {x | x ∈ b1.txids E ++ b1.innerNodes E ∨ x ∈ b2.txids E ++ b2.innerNodes E} := by
    ext x
    exact or_comm
  rw [hset]
  exact h.node

theorem txids_eq_of_depth {d1 d2 : ℕ} (hle : d1 ≤ d2)
    (hS1 : ∀ i, 1 ≤ i → i ≤ d1 → ∀ x ∈ (Merkle.level (nodeHash E))^[i] (b1.txids E), x ∈ b1.innerNodes E)
    (hS2 : ∀ i, 1 ≤ i → i ≤ d2 → ∀ x ∈ (Merkle.level (nodeHash E))^[i] (b2.txids E), x ∈ b2.innerNodes E)
    (heq : (Merkle.level (nodeHash E))^[d1] (b1.txids E) = (Merkle.level (nodeHash E))^[d2] (b2.txids E))
    (hcol : NoCollision E b1 b2) (hsep : ∀ x ∈ b1.txids E, x ∉ b2.innerNodes E)
    (hnd1 : (b1.txids E).Nodup) (hnd2 : (b2.txids E).Nodup) : b1.txids E = b2.txids E := by
  obtain ⟨k, rfl⟩ := Nat.exists_eq_add_of_le' hle
  have hlevels : ∀ {b : CBlock} {d : ℕ}, (∀ i, 1 ≤ i → i ≤ d → ∀ x ∈ (Merkle.level (nodeHash E))^[i] (b.txids E),
      x ∈ b.innerNodes E) → ∀ i ≤ d, ∀ x ∈ (Merkle.level (nodeHash E))^[i] (b.txids E),
        x ∈ b.txids E ++ b.innerNodes E := by
    intro b d hS i hi x hx
    rcases Nat.eq_zero_or_pos i with rfl | hpos
    · exact List.mem_append_left _ hx
    · exact List.mem_append_right _ (hS i hpos hi x hx)
  have hupper : b1.txids E = (Merkle.level (nodeHash E))^[k] (b2.txids E) :=
    Merkle.iterate_eq hcol.node (fun i hi x hx => Or.inl (hlevels hS1 i hi x hx))
      (fun i hi x hx => Or.inr (hlevels hS2 i hi x hx)) hnd1 hnd2 heq
  rcases Nat.eq_zero_or_pos k with rfl | hpos
  · exact hupper
  · -- a leaf of the first tree would be an inner node of the second
    have hmint : b1.txMint.getHash E ∈ b1.txids E := List.mem_cons_self
    have hinner := hmint
    rw [hupper] at hinner
    exact absurd (hS2 k hpos (by omega) _ hinner) (hsep _ hmint)

theorem ValidBlock.txids_eq {nNetTime1 nNetTime2 : ℤ} (h1 : ValidBlock E nNetTime1 b1)
    (h2 : ValidBlock E nNetTime2 b2) (hroot : b1.hashMerkle = b2.hashMerkle) (hcol : NoCollision E b1 b2)
    (hsep : ∀ x ∈ b1.txids E ++ b2.txids E, x ∉ b1.innerNodes E ++ b2.innerNodes E)
    (hnd1 : (b1.txids E).Nodup) (hnd2 : (b2.txids E).Nodup) : b1.txids E = b2.txids E := by
  have hne : ∀ b : CBlock, b.txids E ≠ [] := fun b => by simp [CBlock.txids]
  obtain ⟨d1, hr1, hS1⟩ := merkleRoot_level (E := E) (b1.txids E).length (hne b1) (Nat.le_succ _)
  obtain ⟨d2, hr2, hS2⟩ := merkleRoot_level (E := E) (b2.txids E).length (hne b2) (Nat.le_succ _)
  have heq : (Merkle.level (nodeHash E))^[d1] (b1.txids E) = (Merkle.level (nodeHash E))^[d2] (b2.txids E) := by
    rw [hr1, hr2]
    show [b1.buildMerkleTree E] = [b2.buildMerkleTree E]
    rw [← h1.merkle, ← h2.merkle, hroot]
  rcases Nat.le_total d1 d2 with hle | hle
  · exact txids_eq_of_depth hle hS1 hS2 heq hcol
      (fun x hx hin => hsep x (List.mem_append_left _ hx) (List.mem_append_right _ hin)) hnd1 hnd2
  · exact (txids_eq_of_depth hle hS2 hS1 heq.symm hcol.symm
      (fun x hx hin => hsep x (List.mem_append_right _ hx) (List.mem_append_left _ hin)) hnd2 hnd1).symm

/-- **A block that passes `ValidateBlock` has no repeated transaction exactly when the last one repeats
none of the others**, and among such blocks the hash commits to the identifiers of the mint transaction
and of all others, in order. -/
theorem validateBlock_commits_iff {nNetTime1 nNetTime2 : ℤ} {b1 b2 : CBlock}
    (h1 : validateBlock E nNetTime1 b1 = .OK) (h2 : validateBlock E nNetTime2 b2 = .OK) :
    ((b1.txids E).Nodup ↔ b1.LastDistinct E) ∧
      (b1.LastDistinct E → b2.LastDistinct E → b1.hashMerkle < 2 ^ 256 → b2.hashMerkle < 2 ^ 256 →
        NoCollision E b1 b2 → (∀ x ∈ b1.txids E ++ b2.txids E, x ∉ b1.innerNodes E ++ b2.innerNodes E) →
        b1.getHash E = b2.getHash E →
          b1.txMint.getHash E = b2.txMint.getHash E ∧
            b1.vtx.map (CTransaction.getHash E) = b2.vtx.map (CTransaction.getHash E)) := by
  have hv1 := validateBlock_ok E h1
  have hv2 := validateBlock_ok E h2
  refine ⟨hv1.txids_nodup_iff, fun hd1 hd2 hm1 hm2 hcol hsep hhash => ?_⟩
  have hroot := hashMerkle_of_headBytes hm1 hm2 (hcol.head (hash_headBytes_of_getHash hhash))
  have hids := hv1.txids_eq hv2 hroot hcol hsep (hv1.txids_nodup_iff.2 hd1) (hv2.txids_nodup_iff.2 hd2)
  exact List.cons.inj hids

end

/-! ## On the toy network -/

theorem NoCollision.of_nodes {E : Env} {b1 b2 : CBlock} (hhead : b1.headBytes = b2.headBytes) {l : List ℕ}
    (hl : ∀ x ∈ (b1.txids E ++ b1.innerNodes E) ++ (b2.txids E ++ b2.innerNodes E), x ∈ l)
    (hnode : ∀ a ∈ l, ∀ b ∈ l, ∀ c ∈ l, ∀ d ∈ l, nodeHash E a b = nodeHash E c d → a = c ∧ b = d) :
    NoCollision E b1 b2 := by
  refine ⟨fun _ => hhead, ?_⟩
  have hmem : ∀ x ∈ {x | x ∈ b1.txids E ++ b1.innerNodes E ∨ x ∈ b2.txids E ++ b2.innerNodes E}, x ∈ l :=
    fun x hx => hl x (List.mem_append.2 hx)
  exact fun a ha b hb c hc d hd => hnode a (hmem a ha) b (hmem b hb) c (hmem c hc) d (hmem d hd)

def toyPair : CBlock :=
  workBlock toyEnv toyMiner (hashGenesisBlock toyEnv) GENESIS_TIME (GENESIS_TIME + 60)
    (getCompact (nProofOfWorkInit toyEnv)) 0
    [toyPledgeTx [⟨1, 0⟩] (GENESIS_TIME + 10) 100, toyPledgeTx [⟨2, 0⟩] (GENESIS_TIME + 20) 100]

/-- The same block, with its last transaction twice. -/
def toyPairTwice : CBlock := { toyPair with vtx := toyPair.vtx ++ toyPair.vtx.getLast?.toList }

/-- The block with another signature of its first transaction. -/
def toySigned (vchSig : List UInt8) : CBlock :=
  workBlock toyEnv toyMiner (hashGenesisBlock toyEnv) GENESIS_TIME (GENESIS_TIME + 60)
    (getCompact (nProofOfWorkInit toyEnv)) 0 (toyPair.vtx.modifyHead fun tx => { tx with vchSig := vchSig })

/-- Two signatures that the hash of the toy network does not tell apart: two blocks with one hash, and with the same
identifiers. -/
theorem validateBlock_commits_toy :
    let b1 := toySigned (63 :: List.replicate 28 0)
    let b2 := toySigned (List.replicate 28 0 ++ [1])
    validateBlock toyEnv GENESIS_TIME b1 = .OK ∧ validateBlock toyEnv GENESIS_TIME b2 = .OK ∧ b1 ≠ b2 ∧
      (b1.txids toyEnv).Nodup ∧
        b1.vtx.map (CTransaction.getHash toyEnv) = b2.vtx.map (CTransaction.getHash toyEnv) := by
  intro b1 b2
  have hvalid1 : validateBlock toyEnv GENESIS_TIME b1 = .OK := by decide +kernel
  have hvalid2 : validateBlock toyEnv GENESIS_TIME b2 = .OK := by decide +kernel
  have hlast1 : b1.LastDistinct toyEnv := by
    unfold CBlock.LastDistinct
    decide +kernel
  have hlast2 : b2.LastDistinct toyEnv := by
    unfold CBlock.LastDistinct
    decide +kernel
  have hcol : NoCollision toyEnv b1 b2 := by
    refine .of_nodes (by decide +kernel) (l := b1.txids toyEnv ++ b1.innerNodes toyEnv) ?_ ?_ <;> decide +kernel
  obtain ⟨hnodup, hcommit⟩ := validateBlock_commits_iff hvalid1 hvalid2
  refine ⟨hvalid1, hvalid2, by decide +kernel, hnodup.2 hlast1, ?_⟩
  exact (hcommit hlast1 hlast2 (by decide +kernel) (by decide +kernel) hcol (by decide +kernel) (by decide +kernel)).2

/-- A block and the same block with its last transaction twice: both pass, and they have one hash. -/
theorem validateBlock_commits_twice :
    validateBlock toyEnv GENESIS_TIME toyPair = .OK ∧ validateBlock toyEnv GENESIS_TIME toyPairTwice = .OK ∧
      NoCollision toyEnv toyPair toyPairTwice ∧
      (∀ x ∈ toyPair.txids toyEnv ++ toyPairTwice.txids toyEnv,
        x ∉ toyPair.innerNodes toyEnv ++ toyPairTwice.innerNodes toyEnv) ∧
      toyPair.getHash toyEnv = toyPairTwice.getHash toyEnv ∧ ¬(toyPairTwice.txids toyEnv).Nodup ∧
      toyPair.vtx.map (CTransaction.getHash toyEnv) ≠ toyPairTwice.vtx.map (CTransaction.getHash toyEnv) := by
  refine ⟨by decide +kernel, by decide +kernel, ?_, by decide +kernel, by decide +kernel, by decide +kernel,
    by decide +kernel⟩
  refine .of_nodes rfl (l := toyPair.txids toyEnv ++ toyPair.innerNodes toyEnv) ?_ ?_ <;> decide +kernel

end Minemon
