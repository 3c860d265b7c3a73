import Minemon.Core.Authorization

/-!
# Multiple signatures

A multi-signature is an index of one bit for each key of a set, and behind it the signatures of the keys
whose bit is set, in the order of the keys. `CryptoMultiSign` adds one signature to it.

* `IsMultiSig`: the multi-signature of a set of signers; there is only one (`IsMultiSig.unique`).
* `multiSignAll_eq`: the result of signing depends on the set of the signers alone.
-/

namespace Minemon

/-- Signing with the private key of a public key. Signatures are deterministic and 64 bytes long. -/
structure Signer where
  cryptoSign : ℕ → List UInt8 → List UInt8
  length_cryptoSign : ∀ pubkey md, (cryptoSign pubkey md).length = 64

/-- The law of signatures, at one key and one message: what is signed verifies. A public key that belongs to no
private key does not have it. -/
def Signer.Verifies (S : Signer) (E : Env) (pubkey : ℕ) (md : List UInt8) : Prop :=
  E.cryptoVerify pubkey md (S.cryptoSign pubkey md) = true

instance (S : Signer) (E : Env) (pubkey : ℕ) (md : List UInt8) : Decidable (S.Verifies E pubkey md) :=
  inferInstanceAs (Decidable (_ = true))

/-! ## Signing -/

def setSigned (pIndex : List UInt8) (nLen nIndex : ℕ) : Option (List UInt8) :=
  if nLen * 8 ≤ nIndex then none
  else some (pIndex.modify (nLen - 1 - nIndex / 8) fun b => b ||| UInt8.ofNat (1 <<< (nIndex % 8)))

/-- The second half of `CryptoMultiSign`: a signature for the key at `nIndex`, in its place. -/
def multiSignAt (sign : List UInt8) (nIndexLen nIndex : ℕ) (vchSig : List UInt8) : Bool × List UInt8 :=
  if isSigned vchSig nIndexLen nIndex then (true, vchSig)
  else
    let nPosRS := (List.range nIndex).foldl
      (fun nPosRS i => if isSigned vchSig nIndexLen i then nPosRS + 64 else nPosRS) nIndexLen
    if nPosRS > vchSig.length then (false, vchSig)
    else
      match setSigned vchSig nIndexLen nIndex with
      | none => (false, vchSig)
      | some vchSig => (true, vchSig.take nPosRS ++ sign ++ vchSig.drop nPosRS)

/-- `CryptoMultiSign` with the private key of `privkey`: the returned flag and `vchSig`. -/
def cryptoMultiSign (S : Signer) (setPubKey : List ℕ) (privkey : ℕ) (pM vchSig : List UInt8) :
    Bool × List UInt8 :=
  if setPubKey.isEmpty then (false, vchSig)
  else if privkey ∉ setPubKey then (false, vchSig)
  else
    let nIndex := setPubKey.idxOf privkey
    let nIndexLen := (setPubKey.length - 1) / 8 + 1
    if vchSig.isEmpty then
      multiSignAt (S.cryptoSign privkey pM) nIndexLen nIndex (List.replicate nIndexLen 0)
    else if vchSig.length < nIndexLen + 64 then (false, vchSig)
    else multiSignAt (S.cryptoSign privkey pM) nIndexLen nIndex vchSig

/-- One `CryptoMultiSign` after another. -/
def multiSignAll (S : Signer) (setPubKey : List ℕ) (pM : List UInt8) (privkeys : List ℕ) (vchSig : List UInt8) :
    List UInt8 :=
  privkeys.foldl (fun vchSig privkey => (cryptoMultiSign S setPubKey privkey pM vchSig).2) vchSig

/-! ## The index -/

section

variable {nLen nIndex : ℕ} {bits bits' rest : List UInt8}

theorem isSigned_append (hlen : bits.length = nLen) (i : ℕ) :
    isSigned (bits ++ rest) nLen i = isSigned bits nLen i := by
  unfold isSigned
  by_cases hi : i < nLen * 8
  · have hpos : nLen - 1 - i / 8 < bits.length := by omega
    rw [List.getD_eq_getElem?_getD, List.getD_eq_getElem?_getD, List.getElem?_append_left hpos]
  · simp [hi]

theorem isSigned_ext (hlen : bits.length = nLen) (hlen' : bits'.length = nLen)
    (h : ∀ i < nLen * 8, isSigned bits nLen i = isSigned bits' nLen i) : bits = bits' := by
  apply List.ext_getElem (hlen.trans hlen'.symm)
  intro j hj hj'
  apply UInt8.toNat_inj.1
  apply Nat.eq_of_testBit_eq
  intro k
  by_cases hk : k < 8
  · -- bit `k` of byte `j` is the one of number `(nLen - 1 - j) * 8 + k`
    have hi : (nLen - 1 - j) * 8 + k < nLen * 8 := by omega
    have hbyte : nLen - 1 - ((nLen - 1 - j) * 8 + k) / 8 = j := by omega
    have hbit : ((nLen - 1 - j) * 8 + k) % 8 = k := by omega
    have := h _ hi
    simp only [isSigned, hi, hbyte, hbit, decide_true, Bool.true_and] at this
    rwa [List.getD_eq_getElem _ _ hj, List.getD_eq_getElem _ _ hj'] at this
  · have hpow : 2 ^ 8 ≤ 2 ^ k := Nat.pow_le_pow_right (by decide) (by omega)
    rw [Nat.testBit_lt_two_pow (lt_of_lt_of_le bits[j].toNat_lt hpow),
      Nat.testBit_lt_two_pow (lt_of_lt_of_le bits'[j].toNat_lt hpow)]

theorem toNat_or_bit (b : UInt8) {k : ℕ} (hk : k < 8) (i : ℕ) :
    (b ||| UInt8.ofNat (1 <<< k)).toNat.testBit i = (b.toNat.testBit i || decide (k = i)) := by
  have hlt : 2 ^ k < 256 := Nat.pow_lt_pow_right (by decide) hk
  rw [UInt8.toNat_or, Nat.testBit_or, UInt8.toNat_ofNat', Nat.one_shiftLeft, Nat.mod_eq_of_lt hlt,
    Nat.testBit_two_pow]

theorem isSigned_setSigned (hlen : bits.length = nLen)
    (h : setSigned bits nLen nIndex = some bits') (i : ℕ) :
    isSigned bits' nLen i = (decide (nIndex = i) || isSigned bits nLen i) := by
  unfold setSigned at h
  split_ifs at h with hroom
  rw [← Option.some.inj h]
  unfold isSigned
  by_cases hi : i < nLen * 8
  · have hpos : nLen - 1 - i / 8 < bits.length := by omega
    simp only [hi, decide_true, Bool.true_and]
    rw [List.getD_eq_getElem _ _ (by rwa [List.length_modify]), List.getD_eq_getElem _ _ hpos,
      List.getElem_modify]
    split_ifs with heq
    · rw [toNat_or_bit _ (Nat.mod_lt _ (by decide)), Bool.or_comm]
      congr 1
      apply decide_eq_decide.2
      omega
    · have hne : nIndex ≠ i := fun he => heq (by rw [he])
      simp [hne]
  · have hne : nIndex ≠ i := by omega
    simp [hi, hne]

theorem length_setSigned (h : setSigned bits nLen nIndex = some bits') : bits'.length = bits.length := by
  unfold setSigned at h
  split_ifs at h
  rw [← Option.some.inj h, List.length_modify]

theorem setSigned_append (hlen : bits.length = nLen) (hroom : nIndex < nLen * 8) :
    ∃ bits', setSigned bits nLen nIndex = some bits' ∧
      ∀ rest, setSigned (bits ++ rest) nLen nIndex = some (bits' ++ rest) := by
  have hpos : nLen - 1 - nIndex / 8 < bits.length := by omega
  unfold setSigned
  refine ⟨_, if_neg (by omega), fun rest => ?_⟩
  rw [if_neg (by omega), List.modify_eq_set, List.modify_eq_set, List.getElem?_append_left hpos,
    List.set_append_left _ _ hpos]

end

/-! ## The multi-signature of a set of signers -/

section

variable {k : ℕ} {sig : ℕ → List UInt8} {keys : List ℕ} {signers : Finset ℕ} {vchSig : List UInt8}

/-- The index has the bits of the signers, and their signatures follow. -/
def IsMultiSig (sig : ℕ → List UInt8) (keys : List ℕ) (signers : Finset ℕ) (vchSig : List UInt8) : Prop :=
  ∃ bits, bits.length = (keys.length - 1) / 8 + 1 ∧
    (∀ i, isSigned bits ((keys.length - 1) / 8 + 1) i = keys[i]?.any (· ∈ signers)) ∧
    vchSig = bits ++ (keys.filter (· ∈ signers)).flatMap sig

theorem IsMultiSig.unique {vchSig' : List UInt8} (h : IsMultiSig sig keys signers vchSig)
    (h' : IsMultiSig sig keys signers vchSig') : vchSig = vchSig' := by
  obtain ⟨bits, hlen, hbits, rfl⟩ := h
  obtain ⟨bits', hlen', hbits', rfl⟩ := h'
  rw [isSigned_ext hlen hlen' fun i _ => (hbits i).trans (hbits' i).symm]

theorem IsMultiSig.signed_eq (h : IsMultiSig sig keys signers vchSig) (i : ℕ) :
    isSigned vchSig ((keys.length - 1) / 8 + 1) i = keys[i]?.any (· ∈ signers) := by
  obtain ⟨bits, hlen, hbits, rfl⟩ := h
  rw [isSigned_append hlen, hbits]

theorem length_flatMap_sig (hsig : ∀ k, (sig k).length = 64) (l : List ℕ) : (l.flatMap sig).length = 64 * l.length := by
  rw [List.length_flatMap, List.map_congr_left fun k _ => hsig k, List.map_const', List.sum_replicate,
    smul_eq_mul, mul_comm]

theorem isMultiSig_empty : IsMultiSig sig keys ∅ (List.replicate ((keys.length - 1) / 8 + 1) 0) := by
  refine ⟨List.replicate _ 0, List.length_replicate, fun i => ?_, ?_⟩
  · simp [isSigned]
  · simp

theorem foldl_position (h : IsMultiSig sig keys signers vchSig) {nIndex : ℕ} (hle : nIndex ≤ keys.length) :
    (List.range nIndex).foldl (fun nPosRS i =>
        if isSigned vchSig ((keys.length - 1) / 8 + 1) i then nPosRS + 64 else nPosRS)
      ((keys.length - 1) / 8 + 1)
      = (keys.length - 1) / 8 + 1 + 64 * ((keys.take nIndex).filter (· ∈ signers)).length := by
  induction nIndex with
  | zero => simp
  | succ n ih =>
    have hn : n < keys.length := hle
    rw [List.range_succ, List.foldl_append, ih (by omega), List.foldl_cons, List.foldl_nil, h.signed_eq,
      List.getElem?_eq_getElem hn, List.take_succ_eq_append_getElem hn, List.filter_append]
    by_cases hmem : keys[n] ∈ signers
    · simp [hmem]
      omega
    · simp [hmem]

theorem filter_insert_of_mem {pre post : List ℕ} (hnd : (pre ++ k :: post).Nodup) :
    (pre ++ k :: post).filter (· ∈ insert k signers) = pre.filter (· ∈ signers) ++ k :: post.filter (· ∈ signers) := by
  have hpre : k ∉ pre := fun hk => List.disjoint_of_nodup_append hnd hk List.mem_cons_self
  have hpost : k ∉ post := (List.nodup_cons.1 hnd.of_append_right).1
  have hother : ∀ l : List ℕ, k ∉ l → l.filter (· ∈ insert k signers) = l.filter (· ∈ signers) := by
    intro l hl
    apply List.filter_congr
    intro x hx
    have hne : x ≠ k := fun he => hl (he ▸ hx)
    simp [hne]
  rw [List.filter_append, List.filter_cons_of_pos (by simp), hother _ hpre, hother _ hpost]

theorem any_mem_insert (hnd : keys.Nodup) (hk : k ∈ keys) (i : ℕ) :
    keys[i]?.any (· ∈ insert k signers) = (decide (keys.idxOf k = i) || keys[i]?.any (· ∈ signers)) := by
  by_cases hi : i < keys.length
  · have hiff : keys[i] = k ↔ keys.idxOf k = i := by
      constructor
      · intro he
        rw [← he, hnd.idxOf_getElem i hi]
      · intro he
        subst he
        exact List.getElem_idxOf hi
    rw [List.getElem?_eq_getElem hi]
    simp [hiff]
  · have hne : keys.idxOf k ≠ i := by
      have := List.idxOf_lt_length_of_mem hk
      omega
    rw [List.getElem?_eq_none (by omega)]
    simp [hne]

/-- **One more signature**: the multi-signature of the signers becomes that of one signer more. -/
theorem multiSignAt_isMultiSig (hsig : ∀ k, (sig k).length = 64) (hnd : keys.Nodup) (hk : k ∈ keys)
    (h : IsMultiSig sig keys signers vchSig) :
    ∃ vchSig', multiSignAt (sig k) ((keys.length - 1) / 8 + 1) (keys.idxOf k) vchSig = (true, vchSig') ∧
      IsMultiSig sig keys (insert k signers) vchSig' := by
  have hidx := List.idxOf_lt_length_of_mem hk
  have hold : isSigned vchSig ((keys.length - 1) / 8 + 1) (keys.idxOf k) = decide (k ∈ signers) := by
    rw [h.signed_eq, List.getElem?_idxOf hk, Option.any_some]
  by_cases hmem : k ∈ signers
  · rw [Finset.insert_eq_of_mem hmem]
    refine ⟨vchSig, ?_, h⟩
    rw [multiSignAt, hold, if_pos (decide_eq_true hmem)]
  have hpos := foldl_position h hidx.le
  obtain ⟨bits, hlen, hbits, rfl⟩ := h
  have hroom : keys.idxOf k < ((keys.length - 1) / 8 + 1) * 8 := by omega
  obtain ⟨bits', hset, hset'⟩ := setSigned_append hlen hroom
  have hlen' := (length_setSigned hset).trans hlen
  -- the keys before `k`, whose signatures stand before the new one, and the keys after it
  obtain ⟨pre, post, hkeys, hpre⟩ := List.eq_append_cons_of_mem hk
  have hidxPre : keys.idxOf k = pre.length := by
    rw [hkeys, List.idxOf_append_of_notMem hpre, List.idxOf_cons_self, add_zero]
  have hfilter : keys.filter (· ∈ signers) = pre.filter (· ∈ signers) ++ post.filter (· ∈ signers) := by
    rw [hkeys, List.filter_append, List.filter_cons_of_neg (by simpa using hmem)]
  have htake : keys.take (keys.idxOf k) = pre := by rw [hidxPre, hkeys, List.take_left]
  have hlenPre : (bits' ++ (pre.filter (· ∈ signers)).flatMap sig).length
      = (keys.length - 1) / 8 + 1 + 64 * (pre.filter (· ∈ signers)).length := by
    rw [List.length_append, length_flatMap_sig hsig, hlen']
  refine ⟨bits' ++ (keys.filter (· ∈ insert k signers)).flatMap sig, ?_, bits', hlen', fun i => ?_, rfl⟩
  · rw [multiSignAt, hold, if_neg (by simpa using hmem)]
    simp only [hpos, htake]
    rw [if_neg, hset']
    · simp only [hfilter, List.flatMap_append, ← List.append_assoc]
      rw [List.take_left' hlenPre, List.drop_left' hlenPre, hkeys, filter_insert_of_mem (hkeys ▸ hnd)]
      simp only [List.flatMap_append, List.flatMap_cons, List.append_assoc]
    · rw [hfilter, List.flatMap_append, List.length_append, List.length_append, length_flatMap_sig hsig, hlen]
      omega
  · rw [isSigned_setSigned hlen hset, hbits, any_mem_insert hnd hk]

/-! ## Verifying -/

/-- The verifier's cursor passes the signatures of the signers among the keys that are left. -/
theorem multiVerifyLoop_eq {E : Env} {pM : List UInt8} {nIndexLen : ℕ} (hsig : ∀ k, (sig k).length = 64)
    (hverify : ∀ k ∈ signers, E.cryptoVerify k pM (sig k) = true) (keys : List ℕ) (i nPosRS : ℕ) (setPartKey : List ℕ)
    (hle : nPosRS ≤ vchSig.length)
    (hsigned : ∀ j (hj : j < keys.length), isSigned vchSig nIndexLen (i + j) = decide (keys[j] ∈ signers))
    (hrest : vchSig.drop nPosRS = (keys.filter (· ∈ signers)).flatMap sig) :
    multiVerifyLoop E pM vchSig nIndexLen keys i nPosRS setPartKey
      = some (vchSig.length, setPartKey ++ keys.filter (· ∈ signers)) := by
  induction keys generalizing i nPosRS setPartKey with
  | nil =>
    have : vchSig.length ≤ nPosRS := List.drop_eq_nil_iff.1 hrest
    rw [multiVerifyLoop, List.filter_nil, List.append_nil, le_antisymm hle this]
  | cons pk keys ih =>
    have htail : ∀ j (hj : j < keys.length), isSigned vchSig nIndexLen (i + 1 + j) = decide (keys[j] ∈ signers) := by
      intro j hj
      have := hsigned (j + 1) (Nat.succ_lt_succ hj)
      rwa [show i + (j + 1) = i + 1 + j by omega, List.getElem_cons_succ] at this
    rw [multiVerifyLoop, show isSigned vchSig nIndexLen i = decide (pk ∈ signers) from hsigned 0 (Nat.succ_pos _)]
    by_cases hmem : pk ∈ signers
    · rw [List.filter_cons_of_pos (by simpa using hmem)] at hrest ⊢
      rw [List.flatMap_cons] at hrest
      have hroom : nPosRS + 64 ≤ vchSig.length := by
        have := congrArg List.length hrest
        rw [List.length_drop, List.length_append, hsig] at this
        omega
      have hnext : vchSig.drop (nPosRS + 64) = (keys.filter (· ∈ signers)).flatMap sig := by
        rw [← List.drop_drop, hrest, List.drop_left' (hsig pk)]
      rw [if_pos (decide_eq_true hmem), if_neg (by omega), hrest, List.take_left' (hsig pk), hverify pk hmem,
        if_neg (by simp), ih _ _ _ hroom htail hnext, List.append_assoc, List.singleton_append]
    · rw [List.filter_cons_of_neg (by simpa using hmem)] at hrest ⊢
      rw [if_neg (by simpa using hmem), ih _ _ _ hle htail hrest]

theorem IsMultiSig.length_eq (hsig : ∀ k, (sig k).length = 64) (h : IsMultiSig sig keys signers vchSig) :
    vchSig.length = (keys.length - 1) / 8 + 1 + 64 * (keys.filter (· ∈ signers)).length := by
  obtain ⟨bits, hlen, -, rfl⟩ := h
  rw [List.length_append, hlen, length_flatMap_sig hsig]

theorem filter_length_pos (hk : k ∈ keys) (hmem : k ∈ signers) : 0 < (keys.filter (· ∈ signers)).length :=
  List.length_pos_of_mem (List.mem_filter.2 ⟨hk, decide_eq_true hmem⟩)

theorem IsMultiSig.verify {E : Env} {pM : List UInt8} (hverify : ∀ k ∈ signers, E.cryptoVerify k pM (sig k) = true)
    (hsig : ∀ k, (sig k).length = 64) (hk : k ∈ keys) (hmem : k ∈ signers)
    (h : IsMultiSig sig keys signers vchSig) :
    cryptoMultiVerify E keys pM vchSig = some (keys.filter (· ∈ signers)) := by
  have hlen := h.length_eq hsig
  have hpos := filter_length_pos hk hmem
  have hsigned : ∀ j (hj : j < keys.length),
      isSigned vchSig ((keys.length - 1) / 8 + 1) (0 + j) = decide (keys[j] ∈ signers) := by
    intro j hj
    rw [zero_add, h.signed_eq, List.getElem?_eq_getElem hj, Option.any_some]
  have hrest : vchSig.drop ((keys.length - 1) / 8 + 1) = (keys.filter (· ∈ signers)).flatMap sig := by
    obtain ⟨bits, hbits, -, rfl⟩ := h
    exact List.drop_left' hbits
  have hne : keys.isEmpty = false := List.isEmpty_eq_false_iff_exists_mem.2 ⟨k, hk⟩
  rw [cryptoMultiVerify, hne]
  simp only [Bool.false_eq_true, if_false]
  rw [if_neg (by omega), multiVerifyLoop_eq hsig hverify keys 0 _ [] (by omega) hsigned hrest]
  simp

end

/-! ## The order of signing -/

section

variable (S : Signer) {keys : List ℕ} {pM : List UInt8} {signers : Finset ℕ} {vchSig : List UInt8}

/-- What stands in `vchSig` after the keys in `signers` have signed: nothing at first. -/
def SignedBy (S : Signer) (keys : List ℕ) (pM : List UInt8) (signers : Finset ℕ) (vchSig : List UInt8) : Prop :=
  if signers = ∅ then vchSig = [] else IsMultiSig (fun k => S.cryptoSign k pM) keys signers vchSig

/-- **Step**: one key signs. -/
theorem cryptoMultiSign_signedBy (hnd : keys.Nodup) (hsub : ∀ k ∈ signers, k ∈ keys) {k : ℕ} (hk : k ∈ keys)
    (h : SignedBy S keys pM signers vchSig) :
    ∃ vchSig', cryptoMultiSign S keys k pM vchSig = (true, vchSig') ∧
      SignedBy S keys pM (insert k signers) vchSig' := by
  have hsig : ∀ k, (S.cryptoSign k pM).length = 64 := fun k => S.length_cryptoSign k pM
  have hne : keys.isEmpty = false := List.isEmpty_eq_false_iff_exists_mem.2 ⟨k, hk⟩
  have hinsert : insert k signers ≠ ∅ := Finset.insert_ne_empty k signers
  simp only [SignedBy, if_neg hinsert]
  simp only [cryptoMultiSign, hne, Bool.false_eq_true, if_false, hk, not_true_eq_false]
  unfold SignedBy at h
  split_ifs at h with hempty
  · rw [h, hempty]
    exact multiSignAt_isMultiSig hsig hnd hk isMultiSig_empty
  · obtain ⟨j, hj⟩ := Finset.nonempty_iff_ne_empty.2 hempty
    have hlen := h.length_eq hsig
    have hpos := filter_length_pos (hsub j hj) hj
    have hnonempty : vchSig.isEmpty = false := by
      rw [List.isEmpty_eq_false_iff, ← List.length_pos_iff]
      omega
    rw [hnonempty, if_neg (by simp), if_neg (by omega)]
    exact multiSignAt_isMultiSig hsig hnd hk h

/-- **Run**: the keys of a list sign one after another. -/
theorem multiSignAll_signedBy (hnd : keys.Nodup) (privkeys : List ℕ) (hprivkeys : ∀ k ∈ privkeys, k ∈ keys)
    (hsub : ∀ k ∈ signers, k ∈ keys) (h : SignedBy S keys pM signers vchSig) :
    SignedBy S keys pM (signers ∪ privkeys.toFinset) (multiSignAll S keys pM privkeys vchSig) := by
  induction privkeys generalizing signers vchSig with
  | nil => simpa [multiSignAll] using h
  | cons k privkeys ih =>
    have hk := hprivkeys k List.mem_cons_self
    obtain ⟨vchSig', heq, hnext⟩ := cryptoMultiSign_signedBy S hnd hsub hk h
    have hsub' : ∀ j ∈ insert k signers, j ∈ keys := by
      intro j hj
      rcases Finset.mem_insert.1 hj with rfl | hj
      · exact hk
      · exact hsub j hj
    have hrun := ih (fun j hj => hprivkeys j (List.mem_cons_of_mem _ hj)) hsub' hnext
    rw [show multiSignAll S keys pM (k :: privkeys) vchSig = multiSignAll S keys pM privkeys vchSig' by
        rw [multiSignAll, List.foldl_cons, heq]
        rfl]
    rwa [List.toFinset_cons, Finset.union_insert, ← Finset.insert_union]

/-- **The order of signing does not matter.** From an empty signature, two lists of keys with the same members
give the same bytes, whoever signed already changes nothing by signing again, and the result verifies with
exactly the keys that signed, if the signature of each of them does. -/
theorem multiSignAll_eq (E : Env) (setPubKey : Finset ℕ) (pM : List UInt8) (privkeys privkeys' : List ℕ)
    (hne : privkeys ≠ []) (hmem : ∀ k ∈ privkeys, k ∈ setPubKey)
    (hsame : privkeys.toFinset = privkeys'.toFinset) :
    multiSignAll S setPubKey.sort pM privkeys [] = multiSignAll S setPubKey.sort pM privkeys' [] ∧
      (∀ k ∈ privkeys, cryptoMultiSign S setPubKey.sort k pM (multiSignAll S setPubKey.sort pM privkeys [])
        = (true, multiSignAll S setPubKey.sort pM privkeys [])) ∧
      ((∀ k ∈ privkeys, S.Verifies E k pM) →
        ∃ setPartKey, cryptoMultiVerify E setPubKey.sort pM (multiSignAll S setPubKey.sort pM privkeys [])
          = some setPartKey ∧ setPartKey.toFinset = privkeys.toFinset) := by
  have hnd : setPubKey.sort.Nodup := Finset.sort_nodup _ _
  have hkeys : ∀ k ∈ privkeys, k ∈ setPubKey.sort := fun k hk => (Finset.mem_sort _).2 (hmem k hk)
  have hkeys' : ∀ k ∈ privkeys', k ∈ setPubKey.sort := by
    intro k hk
    apply hkeys
    rwa [← List.mem_toFinset, hsame, List.mem_toFinset]
  have hfin : ∅ ∪ privkeys.toFinset ≠ ∅ := by
    rw [Finset.empty_union]
    exact fun h => hne (List.toFinset_eq_empty_iff _ |>.1 h)
  have hstart : SignedBy S setPubKey.sort pM ∅ [] := by rw [SignedBy, if_pos rfl]
  have hno : ∀ k ∈ (∅ : Finset ℕ), k ∈ setPubKey.sort := fun k hk => absurd hk (Finset.notMem_empty k)
  have hrun := multiSignAll_signedBy S hnd privkeys hkeys hno hstart
  have hrun' := multiSignAll_signedBy S hnd privkeys' hkeys' hno hstart
  have hsigned := hrun
  rw [SignedBy, if_neg hfin, Finset.empty_union] at hsigned
  rw [← hsame, SignedBy, if_neg hfin, Finset.empty_union] at hrun'
  refine ⟨hsigned.unique hrun', fun k hk => ?_, fun hlaw => ?_⟩
  · rw [Finset.empty_union] at hrun
    have hsub : ∀ j ∈ privkeys.toFinset, j ∈ setPubKey.sort := fun j hj => hkeys j (List.mem_toFinset.1 hj)
    obtain ⟨vchSig', heq, hagain⟩ := cryptoMultiSign_signedBy S hnd hsub (hkeys k hk) hrun
    rw [Finset.insert_eq_of_mem (List.mem_toFinset.2 hk), SignedBy,
      if_neg (by rwa [Finset.empty_union] at hfin)] at hagain
    rw [heq, hagain.unique hsigned]
  · obtain ⟨k, hk⟩ := List.exists_mem_of_ne_nil _ hne
    refine ⟨_, hsigned.verify (fun j hj => hlaw j (List.mem_toFinset.1 hj)) (fun k => S.length_cryptoSign k pM)
      (hkeys k hk) (List.mem_toFinset.2 hk), ?_⟩
    ext j
    simp only [List.mem_toFinset, List.mem_filter, decide_eq_true_eq]
    exact ⟨fun h => h.2, fun h => ⟨hkeys j h, h⟩⟩

end

/-- The key, 64 times. -/
def toySigner : Signer where
  cryptoSign pubkey _ := List.replicate 64 (UInt8.ofNat pubkey)
  length_cryptoSign _ _ := List.length_replicate

/-- Only the signatures of `toySigner` verify, and none under the key 0. -/
def toySignEnv : Env :=
  { toyEnv with ed25519Verify := fun pk _ sig => pk ≠ 0 && sig == List.replicate 64 (UInt8.ofNat pk) }

theorem multiSignAll_toy :
    multiSignAll toySigner ({3, 5, 9} : Finset ℕ).sort [1] [9, 3] []
        = multiSignAll toySigner ({3, 5, 9} : Finset ℕ).sort [1] [3, 9, 3] [] ∧
      ∃ setPartKey, cryptoMultiVerify toySignEnv ({3, 5, 9} : Finset ℕ).sort [1]
          (multiSignAll toySigner ({3, 5, 9} : Finset ℕ).sort [1] [9, 3] []) = some setPartKey ∧
        setPartKey.toFinset = {9, 3} :=
  have h := multiSignAll_eq toySigner toySignEnv {3, 5, 9} [1] [9, 3] [3, 9, 3] (by decide) (by decide) (by decide)
  ⟨h.1, h.2.2 (by decide)⟩

end Minemon
