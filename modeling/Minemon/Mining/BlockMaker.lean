import Minemon.Mining.MergedWork

/-!
# The built-in miner

`CBlockMaker::CreateProofOfWork` builds a coinbase with the commitment to the work it was given, searches for a
time and a nonce, and submits the proof. What it builds is what `VerifyProofOfWork` reads back. Two things are
not: the search also stops at a hash equal to the target, and the time of the block is read through a reference
into the buffer that `Save` has just replaced.

* `createProofOfWork_valid_iff`: when the block has a valid proof.
-/

namespace Minemon

open CProofOfHashWorkCompact

/-! ## Reading a proof back -/

theorem ofLeBytes_word {n x : ℕ} (hx : x < 256 ^ n) (bs : List UInt8) : ofLeBytes ((leBytes n x ++ bs).take n) = x := by
  rw [List.take_left' (length_leBytes n x), ofLeBytes_leBytes, Nat.mod_eq_of_lt hx]

theorem readVarInt_varInt {n : ℕ} (hn : n < 2 ^ 64) (bs : List UInt8) : readVarInt (varInt n ++ bs) = some (n, bs) := by
  have hword : ∀ {k}, n < 256 ^ k → ofLeBytes (leBytes k n) = n := fun hk => by
    rw [ofLeBytes_leBytes, Nat.mod_eq_of_lt hk]
  unfold varInt
  split_ifs with h1 h2 h3
  · have hb : (UInt8.ofNat n).toNat = n := by
      rw [UInt8.toNat_ofNat']
      exact Nat.mod_eq_of_lt (by omega)
    simp [leBytes, readVarInt, hb, h1]
  · simp [readVarInt, hword (k := 2) (by omega)]
  · simp [readVarInt, hword (k := 4) (by omega)]
  · simp [readVarInt, hword (k := 8) hn]

theorem readStreamBytes_streamBytes {vch : List UInt8} (h : vch.length < 2 ^ 64) (bs : List UInt8) :
    readStreamBytes (streamBytes vch ++ bs) = some (vch, bs) := by
  rw [readStreamBytes, streamBytes, List.append_assoc, readVarInt_varInt h]
  simp

theorem readHashes_flatten {l : List ℕ} (h : ∀ x ∈ l, x < 2 ^ 256) (bs : List UInt8) :
    readHashes l.length ((l.map (leBytes 32)).flatten ++ bs) = some (l, bs) := by
  induction l with
  | nil => rfl
  | cons x l ih =>
    rw [List.map_cons, List.flatten_cons, List.append_assoc, List.length_cons, readHashes, if_pos (by simp),
      List.drop_left' (length_leBytes 32 x), ih fun y hy => h y (List.mem_cons_of_mem _ hy),
      ofLeBytes_word (by simpa using h x List.mem_cons_self)]
    rfl

theorem readHashVector_vector {l : List ℕ} (h : ∀ x ∈ l, x < 2 ^ 256) (hlen : l.length < 2 ^ 64) (bs : List UInt8) :
    readHashVector (varInt l.length ++ (l.map (leBytes 32)).flatten ++ bs) = some (l, bs) := by
  rw [readHashVector, List.append_assoc, readVarInt_varInt hlen]
  exact readHashes_flatten h bs

/-- The fields of a proof, within the widths of their types. -/
structure CProofOfHashWorkCompact.Sized (p : CProofOfHashWorkCompact) : Prop where
  btcVersion : p.btcVersion < 256 ^ 4
  btcHashPrevBlock : p.btcHashPrevBlock < 256 ^ 32
  btcHashMerkleRoot : p.btcHashMerkleRoot < 256 ^ 32
  btcTime : p.btcTime < 256 ^ 4
  btcBits : p.btcBits < 256 ^ 4
  btcNonce : p.btcNonce < 256 ^ 4
  auxOffset : p.auxOffset < 256 ^ 2
  coinbase : p.coinbase.length < 2 ^ 64
  aux : p.auxMerkleBranch.length < 2 ^ 64 ∧ ∀ x ∈ p.auxMerkleBranch, x < 2 ^ 256
  tr : p.trMerkleBranch.length < 2 ^ 64 ∧ ∀ x ∈ p.trMerkleBranch, x < 2 ^ 256

theorem length_headerBytes (p : CProofOfHashWorkCompact) : p.headerBytes.length = 80 := by simp [headerBytes]

theorem length_save (p : CProofOfHashWorkCompact) :
    p.save.length = 82 + streamBytesSize p.coinbase
      + (varIntSize p.auxMerkleBranch.length + 32 * p.auxMerkleBranch.length)
      + (varIntSize p.trMerkleBranch.length + 32 * p.trMerkleBranch.length) := by
  have hflat : ∀ l : List ℕ, ((l.map (leBytes 32)).flatten).length = 32 * l.length := fun l => by
    induction l with
    | nil => rfl
    | cons x l ih =>
      rw [List.map_cons, List.flatten_cons, List.length_append, length_leBytes, ih, List.length_cons]
      omega
  simp only [save, List.length_append, length_headerBytes, length_leBytes, length_streamBytes, length_varInt, hflat]

/-- **A proof is read as it was written.** -/
theorem load_save {p : CProofOfHashWorkCompact} (h : p.Sized) : load p.save = p := by
  have hword : ∀ {i n x : ℕ} {a b : List UInt8}, p.save = a ++ (leBytes n x ++ b) → a.length = i → x < 256 ^ n →
      ofLeBytes ((p.save.drop i).take n) = x := by
    intro i n x a b hsave hlen hx
    rw [hsave, List.drop_left' hlen, ofLeBytes_word hx]
  have hvectors : loadVectors (p.save.drop FIXED_SIZE) = (p.coinbase, p.auxMerkleBranch, p.trMerkleBranch) := by
    have hdrop : p.save.drop FIXED_SIZE = streamBytes p.coinbase
        ++ ((varInt p.auxMerkleBranch.length ++ (p.auxMerkleBranch.map (leBytes 32)).flatten)
          ++ ((varInt p.trMerkleBranch.length ++ (p.trMerkleBranch.map (leBytes 32)).flatten) ++ [])) := by
      have hsave : p.save = (p.headerBytes ++ leBytes 2 p.auxOffset) ++ (streamBytes p.coinbase
        ++ ((varInt p.auxMerkleBranch.length ++ (p.auxMerkleBranch.map (leBytes 32)).flatten)
          ++ ((varInt p.trMerkleBranch.length ++ (p.trMerkleBranch.map (leBytes 32)).flatten) ++ []))) := by
        simp only [save, List.append_assoc, List.append_nil]
      rw [hsave, List.drop_left' (by rw [List.length_append, length_headerBytes, length_leBytes]; rfl)]
    rw [hdrop, loadVectors, readStreamBytes_streamBytes h.coinbase]
    dsimp only
    rw [readHashVector_vector h.aux.2 h.aux.1]
    dsimp only
    rw [readHashVector_vector h.tr.2 h.tr.1]
  have hall : ∃ b, p.save = leBytes 4 p.btcVersion ++ (leBytes 32 p.btcHashPrevBlock ++ (leBytes 32 p.btcHashMerkleRoot
      ++ (leBytes 4 p.btcTime ++ (leBytes 4 p.btcBits ++ (leBytes 4 p.btcNonce ++ (leBytes 2 p.auxOffset ++ b)))))) :=
    ⟨_, by simp only [save, headerBytes, List.append_assoc]; rfl⟩
  obtain ⟨b, hall⟩ := hall
  have h0 := hword (i := 0) (a := []) hall rfl h.btcVersion
  have h4 := hword (i := 4) (a := leBytes 4 p.btcVersion) hall (length_leBytes 4 _) h.btcHashPrevBlock
  have h36 := hword (i := 36) (a := leBytes 4 p.btcVersion ++ leBytes 32 p.btcHashPrevBlock)
    (by rw [hall, List.append_assoc]) (by simp) h.btcHashMerkleRoot
  have h68 := hword (i := 68) (a := leBytes 4 p.btcVersion ++ leBytes 32 p.btcHashPrevBlock
    ++ leBytes 32 p.btcHashMerkleRoot) (by rw [hall, List.append_assoc, List.append_assoc]) (by simp) h.btcTime
  have h72 := hword (i := 72) (a := leBytes 4 p.btcVersion ++ leBytes 32 p.btcHashPrevBlock
    ++ leBytes 32 p.btcHashMerkleRoot ++ leBytes 4 p.btcTime)
    (by rw [hall, List.append_assoc, List.append_assoc, List.append_assoc]) (by simp) h.btcBits
  have h76 := hword (i := 76) (a := leBytes 4 p.btcVersion ++ leBytes 32 p.btcHashPrevBlock
    ++ leBytes 32 p.btcHashMerkleRoot ++ leBytes 4 p.btcTime ++ leBytes 4 p.btcBits)
    (by rw [hall, List.append_assoc, List.append_assoc, List.append_assoc, List.append_assoc]) (by simp) h.btcNonce
  have h80 := hword (i := 80) (a := p.headerBytes) (by rw [hall, headerBytes, List.append_assoc, List.append_assoc,
    List.append_assoc, List.append_assoc, List.append_assoc]) (length_headerBytes p) h.auxOffset
  unfold load
  simp only [hvectors, h0, h4, h36, h68, h72, h76, h80]

/-! ## The miner -/

namespace CBlockMaker

def data1 : List UInt8 := asciiBytes "minemon solo"

def data2 : List UInt8 := asciiBytes "good luck"

section

variable (E : Env)

/-- `BuildCoinBase`: `mam_pow` is walked up the branch, and goes between the two texts. -/
def buildCoinBase (vchData1 vchData2 : List UInt8) (mamPow : ℕ) (auxMerkleBranch : List ℕ) : List UInt8 :=
  vchData1 ++ leBytes 32 (walkBranch E mamPow auxMerkleBranch) ++ vchData2

/-- `SetBtcPow` of the fields, with the time that is there. -/
def setBtcPow (auxOffset : ℕ) (coinbase : List UInt8) (auxMerkleBranch trMerkleBranch : List ℕ)
    (btcVersion btcHashPrevBlock btcTime btcBits : ℕ) : CProofOfHashWorkCompact where
  btcVersion := btcVersion
  btcHashPrevBlock := btcHashPrevBlock
  btcHashMerkleRoot := walkBranch E (E.sha256D coinbase) trMerkleBranch
  btcTime := btcTime
  btcBits := btcBits
  btcNonce := 0
  auxOffset := auxOffset
  coinbase := coinbase
  auxMerkleBranch := auxMerkleBranch
  trMerkleBranch := trMerkleBranch

/-- The proof that the search begins with, for the work data of `block`. -/
def workObj (block : CBlock) (nTime : ℕ) : CProofOfHashWorkCompact :=
  let mamPow := ofLeBytes (leBytes 32 (E.sha256 (powBytes block))).reverse
  let coinbase := buildCoinBase E data1 data2 mamPow []
  setBtcPow E data1.length coinbase [] [] 536870912 0 nTime 0x1d00ffff

def workHeader (block : CBlock) (nTime nNonce : ℕ) : CProofOfHashWorkCompact :=
  { workObj E block nTime with btcNonce := nNonce }

/-- `for (int i = 0; i < nHashRate; i++)`: whether it stops at a nonce, and at which. -/
def hashLoop (block : CBlock) (nTime : ℕ) : ℕ → ℕ → Bool × ℕ
  | 0, nNonce => (false, nNonce)
  | i + 1, nNonce =>
    if E.sha256D (workHeader E block nTime nNonce).headerBytes ≤ setCompact block.nBits then (true, nNonce)
    else hashLoop block nTime i ((nNonce + 1) % 2 ^ 32)

/-- The search, with the net time after each turn; it is interrupted after the last. -/
def searchLoop (block : CBlock) : List ℤ → ℤ → ℕ → ℕ → Option (ℕ × ℕ)
  | [], _, _, _ => none
  | nNetTime :: l, nHashRate, nTime, nNonce =>
    let nHashRate := if nHashRate = 0 then 1 else nHashRate
    match hashLoop E block nTime nHashRate.toNat nNonce with
    | (true, nNonce) => some (nTime, nNonce)
    | (false, nNonce) =>
      if ((nTime + 1) % 2 ^ 32 : ℕ) < nNetTime then
        searchLoop block l (nHashRate.tdiv (nNetTime - nTime)) (nNetTime % 2 ^ 32).toNat nNonce
      else if (nTime : ℤ) = nNetTime then searchLoop block l (wrap64 (nHashRate * 2)) nTime nNonce
      else searchLoop block l nHashRate nTime nNonce

def startTime (nPrevTime : ℕ) (nNetTime : ℤ) : ℕ := max ((nPrevTime + 1) % 2 ^ 32) (nNetTime % 2 ^ 32).toNat

/-- `CreateProofOfWork` on the work data of `block`; `none` when the search is interrupted. `nTime` is a reference into
the buffer that `Save` replaces: what is read there is `nTimeRead`. -/
def createProofOfWork (block : CBlock) (nPrevTime : ℕ) (nHashRate : ℤ) (vNetTime : List ℤ) (nNetTime : ℤ)
    (nTimeRead : ℕ) : Option CBlock :=
  (searchLoop E block vNetTime nHashRate (startTime nPrevTime nNetTime) 0).map fun found =>
    { block with nTimeStamp := nTimeRead, vchProof := (workHeader E block found.1 found.2).save }

end

/-! ## The search -/

variable {E : Env} {block : CBlock}

theorem hashLoop_found {nTime i nNonce nNonce' : ℕ} {found : Bool}
    (h : hashLoop E block nTime i nNonce = (found, nNonce')) (hNonce : nNonce < 2 ^ 32) :
    nNonce' < 2 ^ 32 ∧ (found = true →
      E.sha256D (workHeader E block nTime nNonce').headerBytes ≤ setCompact block.nBits) := by
  induction i generalizing nNonce with
  | zero =>
    obtain ⟨rfl, rfl⟩ := Prod.mk.inj h
    exact ⟨hNonce, fun hfound => absurd hfound (by decide)⟩
  | succ i ih =>
    rw [hashLoop] at h
    split_ifs at h with hhash
    · obtain ⟨rfl, rfl⟩ := Prod.mk.inj h
      exact ⟨hNonce, fun _ => hhash⟩
    · exact ih h (Nat.mod_lt _ (by norm_num))

theorem searchLoop_found {vNetTime : List ℤ} {nHashRate : ℤ} {nTime nNonce nTime' nNonce' : ℕ}
    (h : searchLoop E block vNetTime nHashRate nTime nNonce = some (nTime', nNonce')) (hTime : nTime < 2 ^ 32)
    (hNonce : nNonce < 2 ^ 32) :
    nTime' < 2 ^ 32 ∧ nNonce' < 2 ^ 32 ∧
      E.sha256D (workHeader E block nTime' nNonce').headerBytes ≤ setCompact block.nBits := by
  induction vNetTime generalizing nHashRate nTime nNonce with
  | nil => simp [searchLoop] at h
  | cons nNetTime l ih =>
    rw [searchLoop] at h
    generalize (if nHashRate = 0 then 1 else nHashRate) = r at h
    split at h
    · rename_i hloop
      obtain ⟨rfl, rfl⟩ := Prod.mk.inj (Option.some.inj h)
      obtain ⟨hn, hfound⟩ := hashLoop_found hloop hNonce
      exact ⟨hTime, hn, hfound rfl⟩
    · rename_i hloop
      have hn := (hashLoop_found hloop hNonce).1
      split_ifs at h
      · exact ih h (by omega) hn
      · exact ih h hTime hn
      · exact ih h hTime hn

/-! ## The proof -/

theorem length_data1 : data1.length = 12 := by decide

theorem length_data2 : data2.length = 9 := by decide

theorem coinbase_eq (nTime nNonce : ℕ) : (workHeader E block nTime nNonce).coinbase =
    data1 ++ ((leBytes 32 (powHash E block)).reverse ++ data2) := by
  have hbytes : leBytes 32 (ofLeBytes (leBytes 32 (E.sha256 (powBytes block))).reverse) =
      (leBytes 32 (E.sha256 (powBytes block))).reverse := by
    have h := leBytes_ofLeBytes (leBytes 32 (E.sha256 (powBytes block))).reverse
    rwa [List.length_reverse, length_leBytes] at h
  show data1 ++ leBytes 32 (ofLeBytes (leBytes 32 (E.sha256 (powBytes block))).reverse) ++ data2 = _
  rw [hbytes, powHash_eq, List.append_assoc]

theorem workHeader_sized {nTime nNonce : ℕ} (hTime : nTime < 2 ^ 32) (hNonce : nNonce < 2 ^ 32) :
    (workHeader E block nTime nNonce).Sized where
  btcVersion := by show 536870912 < 256 ^ 4; decide
  btcHashPrevBlock := by show 0 < 256 ^ 32; norm_num
  btcHashMerkleRoot := sha256_lt _
  btcTime := by show nTime < 256 ^ 4; omega
  btcBits := by show 0x1d00ffff < 256 ^ 4; decide
  btcNonce := by show nNonce < 256 ^ 4; omega
  auxOffset := by show data1.length < 256 ^ 2; decide
  coinbase := by
    rw [coinbase_eq, List.length_append, List.length_append, List.length_reverse, length_leBytes, length_data1,
      length_data2]
    norm_num
  aux := ⟨by show 0 < 2 ^ 64; norm_num, by simp [workHeader, workObj, setBtcPow]⟩
  tr := ⟨by show 0 < 2 ^ 64; norm_num, by simp [workHeader, workObj, setBtcPow]⟩

theorem length_workHeader_save (nTime nNonce : ℕ) : (workHeader E block nTime nNonce).save.length = 138 := by
  rw [length_save, streamBytesSize, coinbase_eq, List.length_append, List.length_append, List.length_reverse,
    length_leBytes, length_data1, length_data2]
  rfl

theorem workHeader_commitment (nTime nNonce : ℕ) : commitment (workHeader E block nTime nNonce) = powHash E block := by
  show ofLeBytes (((workHeader E block nTime nNonce).coinbase.drop data1.length).take 32).reverse = _
  rw [coinbase_eq, List.drop_left, List.take_left' (by rw [List.length_reverse, length_leBytes]), List.reverse_reverse,
    ofLeBytes_leBytes, powHash_eq, Nat.mod_eq_of_lt (sha256_lt _)]

end CBlockMaker

theorem verifyProofOfWork_iff {E : Env} {block : CBlock} {q : CBlockIndex} {l : CBlockIndexPtr}
    (hsize : block.vchProof.length ≤ PROOFHASHWORK_SIZE) (hfixed : FIXED_SIZE ≤ block.vchProof.length)
    (hcoinbase : (load block.vchProof).auxOffset + 32 ≤ (load block.vchProof).coinbase.length) :
    verifyProofOfWork E block q l = some .OK ↔ PowAccepted E block q l := by
  refine ⟨verifyProofOfWork_ok, fun h => ?_⟩
  have hrange := targetRefused_eq_false.2 h.range
  rw [targetRefused] at hrange
  have hhead : ¬block.vchProof.length < 4 + 32 + 32 + 4 := by
    unfold FIXED_SIZE at hfixed
    omega
  unfold verifyProofOfWork
  rw [if_neg (not_lt.2 h.time), h.target]
  simp only [ne_eq, not_true_eq_false, if_false, hrange, Bool.false_eq_true, not_lt.2 hsize, hhead, h.btcTime,
    h.aux, h.tr, not_le.2 h.work, gt_iff_lt, Bool.not_true, not_lt.2 hfixed, not_lt.2 hcoinbase,
    decide_false, Bool.or_false]

/-- **A solution of the built-in miner is valid work** on the block that it was made for, at whatever time and
nonce the search stops, exactly when the hash is not equal to the target and the time of the block is still that
of the header. -/
theorem createProofOfWork_valid_iff {E : Env} {block : CBlock} {q : CBlockIndex} {l : CBlockIndexPtr}
    {nPrevTime nTime nNonce nTimeRead : ℕ} {nHashRate nNetTime : ℤ} {vNetTime : List ℤ}
    (htarget : getProofOfWorkTarget E q l = some block.nBits) (hrange : TargetOK E block.nBits)
    (htime : q.nTimeStamp ≤ nTimeRead)
    (hfound : CBlockMaker.searchLoop E block vNetTime nHashRate (CBlockMaker.startTime nPrevTime nNetTime) 0 =
      some (nTime, nNonce)) :
    ∃ mined, CBlockMaker.createProofOfWork E block nPrevTime nHashRate vNetTime nNetTime nTimeRead = some mined ∧
      (verifyProofOfWork E mined q l = some .OK ↔
        E.sha256D (CBlockMaker.workHeader E block nTime nNonce).headerBytes ≠ setCompact block.nBits ∧
          nTimeRead = nTime) := by
  have hstart : CBlockMaker.startTime nPrevTime nNetTime < 2 ^ 32 := by
    unfold CBlockMaker.startTime
    omega
  obtain ⟨hT, hN, hhash⟩ := CBlockMaker.searchLoop_found hfound hstart (by norm_num)
  have hload : load (CBlockMaker.workHeader E block nTime nNonce).save = CBlockMaker.workHeader E block nTime nNonce :=
    load_save (CBlockMaker.workHeader_sized hT hN)
  refine ⟨_, by rw [CBlockMaker.createProofOfWork, hfound]; rfl, ?_⟩
  rw [verifyProofOfWork_iff]
  · constructor
    · intro h
      have hwork := h.work
      have hbtc := h.btcTime
      dsimp only at hwork hbtc
      rw [hload] at hwork hbtc
      exact ⟨hwork.ne, hbtc⟩
    · rintro ⟨hne, rfl⟩
      refine ⟨htime, htarget, hrange, ?_, ?_, ?_, ?_⟩
      · dsimp only
        rw [hload]
        rfl
      · dsimp only
        rw [hload]
        exact beq_iff_eq.2 (CBlockMaker.workHeader_commitment nTimeRead nNonce).symm
      · dsimp only
        rw [hload]
        exact beq_iff_eq.2 rfl
      · dsimp only
        rw [hload]
        exact lt_of_le_of_ne hhash hne
  · show (CBlockMaker.workHeader E block nTime nNonce).save.length ≤ PROOFHASHWORK_SIZE
    rw [CBlockMaker.length_workHeader_save]
    decide
  · show FIXED_SIZE ≤ (CBlockMaker.workHeader E block nTime nNonce).save.length
    rw [CBlockMaker.length_workHeader_save]
    decide
  · dsimp only
    rw [hload, CBlockMaker.coinbase_eq, List.length_append, List.length_append, List.length_reverse, length_leBytes,
      CBlockMaker.length_data1, CBlockMaker.length_data2]
    show CBlockMaker.data1.length + 32 ≤ _
    rw [CBlockMaker.length_data1]
    norm_num

/-! ## Toy searches -/

/-- The work of a block on the genesis block. -/
def toyWorkData (E : Env) : CBlock :=
  { nType := CBlock.BLOCK_PRIMARY, hashPrev := hashGenesisBlock E, hashMerkle := 1,
    nBits := getCompact (nProofOfWorkInit E) }

theorem createProofOfWork_valid_toy :
    ∃ mined, CBlockMaker.createProofOfWork toyEnv (toyWorkData toyEnv) GENESIS_TIME 1 [GENESIS_TIME + 60]
        (GENESIS_TIME + 60) (GENESIS_TIME + 60) = some mined ∧
      verifyProofOfWork toyEnv mined (genesisEntry toyEnv) [] = some .OK := by
  have hfound : CBlockMaker.searchLoop toyEnv (toyWorkData toyEnv) [GENESIS_TIME + 60] 1
      (CBlockMaker.startTime GENESIS_TIME (GENESIS_TIME + 60)) 0 = some (GENESIS_TIME + 60, 0) := by decide +kernel
  obtain ⟨mined, hmined, hiff⟩ := createProofOfWork_valid_iff (q := genesisEntry toyEnv) (l := [])
    (by decide) (targetOK_init toyEnv)
    (by decide : (genesisEntry toyEnv).nTimeStamp ≤ GENESIS_TIME + 60) hfound
  exact ⟨mined, hmined, hiff.2 ⟨by decide +kernel, rfl⟩⟩

/-- A hash function that gives the first target for everything. -/
def targetEnv : Env :=
  { toyEnv with cryptoSHA256 := fun _ => Fin.ofNat (2 ^ 256) (setCompact (getCompact (nProofOfWorkInit toyEnv))) }

/-- **A hash equal to the target**: the miner stops there, and its block is refused. -/
theorem createProofOfWork_at_target :
    ∃ mined, CBlockMaker.createProofOfWork targetEnv (toyWorkData targetEnv) GENESIS_TIME 1 [GENESIS_TIME + 60]
        (GENESIS_TIME + 60) (GENESIS_TIME + 60) = some mined ∧
      getProofOfWorkTarget targetEnv (genesisEntry targetEnv) [] = some mined.nBits ∧
      targetRefused targetEnv mined.nBits = false ∧ (genesisEntry targetEnv).nTimeStamp ≤ mined.nTimeStamp ∧
      verifyProofOfWork targetEnv mined (genesisEntry targetEnv) [] = some .ERR_BLOCK_PROOF_OF_WORK_INVALID :=
  exists_some_of_any (by decide +kernel)

end Minemon
