import Minemon.Signing.MultiSign
import Minemon.Signing.TemplateBytes

/-!
# What a multi-signature leaves open

The signature of a transaction is no part of what the keys sign, but it is a part of the transaction's
identifier. For the templates with many keys, two signatures may hold the same signatures of the same keys and
still be different bytes.

* `shownTemplate`, `paddingBits`: the bytes that nothing but the parser looks at.
* `multiSig_eq_iff`: two accepted signatures with the same pairs differ in these bytes or not at all.
-/

namespace Minemon

/-! ## Signers and their signatures -/

/-- The keys whose bit is set, each with the 64 bytes that `CryptoMultiVerify` checks for it. -/
def signedPairs (vchSig : List UInt8) (nIndexLen : ℕ) : List ℕ → ℕ → ℕ → List (ℕ × List UInt8)
  | [], _, _ => []
  | pk :: keys, i, nPosRS =>
    if isSigned vchSig nIndexLen i then
      (pk, (vchSig.drop nPosRS).take 64) :: signedPairs vchSig nIndexLen keys (i + 1) (nPosRS + 64)
    else signedPairs vchSig nIndexLen keys (i + 1) nPosRS

/-- The pairs of signer and signature that a signature for a template with many keys carries. -/
def carriedPairs (vchSig : List UInt8) : List (ℕ × List UInt8) :=
  match CTemplateWeighted.dec vchSig with
  | .error _ => []
  | .ok t =>
    let nIndexLen := (t.mapPubKeyWeight.keys.length - 1) / 8 + 1
    signedPairs (vchSig.drop t.enc.length) nIndexLen t.mapPubKeyWeight.keys 0 nIndexLen

/-- The number of keys that stands behind the first byte. -/
def shownKeys (vchSig : List UInt8) : ℕ := ofLeBytes ((vchSig.drop 1).take 8)

/-- The bytes of the template, of 33 for each key. -/
def shownTemplate (vchSig : List UInt8) : List UInt8 := vchSig.take (9 + 33 * shownKeys vchSig)

def paddingBits (vchSig : List UInt8) : List Bool :=
  let nIndexLen := (shownKeys vchSig - 1) / 8 + 1
  (List.range (nIndexLen * 8 - shownKeys vchSig)).map fun j =>
    isSigned (vchSig.drop (9 + 33 * shownKeys vchSig)) nIndexLen (shownKeys vchSig + j)

section

variable {E : Env} {pM vchSig vchSig' : List UInt8} {nIndexLen : ℕ}

theorem fst_mem_of_mem_signedPairs (keys : List ℕ) (i nPosRS : ℕ) {p : ℕ × List UInt8}
    (h : p ∈ signedPairs vchSig nIndexLen keys i nPosRS) : p.1 ∈ keys := by
  induction keys generalizing i nPosRS with
  | nil => cases h
  | cons pk keys ih =>
    rw [signedPairs] at h
    split_ifs at h
    · rcases List.mem_cons.1 h with rfl | h
      · exact List.mem_cons_self
      · exact List.mem_cons_of_mem _ (ih _ _ h)
    · exact List.mem_cons_of_mem _ (ih _ _ h)

theorem multiVerifyLoop_drop (keys : List ℕ) (i nPosRS : ℕ) (setPartKey part : List ℕ)
    (hle : nPosRS ≤ vchSig.length)
    (h : multiVerifyLoop E pM vchSig nIndexLen keys i nPosRS setPartKey = some (vchSig.length, part)) :
    vchSig.drop nPosRS = (signedPairs vchSig nIndexLen keys i nPosRS).flatMap Prod.snd := by
  induction keys generalizing i nPosRS setPartKey with
  | nil =>
    rw [multiVerifyLoop, Option.some.injEq, Prod.mk.injEq] at h
    rw [signedPairs, h.1]
    exact List.drop_length
  | cons pk keys ih =>
    rw [multiVerifyLoop] at h
    rw [signedPairs]
    split_ifs at h ⊢ with hsigned hroom hverify
    · rw [List.flatMap_cons, ← ih _ _ _ (by omega) h, ← List.drop_drop]
      exact (List.take_append_drop 64 _).symm
    · exact ih _ _ _ hle h

theorem signedPairs_eq_of_same (keys : List ℕ) (hnd : keys.Nodup) (i nPosRS nPosRS' : ℕ)
    (h : ∀ p, p ∈ signedPairs vchSig nIndexLen keys i nPosRS ↔ p ∈ signedPairs vchSig' nIndexLen keys i nPosRS') :
    (∀ j < keys.length, isSigned vchSig nIndexLen (i + j) = isSigned vchSig' nIndexLen (i + j)) ∧
      signedPairs vchSig nIndexLen keys i nPosRS = signedPairs vchSig' nIndexLen keys i nPosRS' := by
  induction keys generalizing i nPosRS nPosRS' with
  | nil => exact ⟨fun j hj => absurd hj (Nat.not_lt_zero j), rfl⟩
  | cons pk keys ih =>
    obtain ⟨hpk, hnd⟩ := List.nodup_cons.1 hnd
    -- the pairs behind the first key are those of other keys
    have hother : ∀ {v : List UInt8} {n : ℕ} {p : ℕ × List UInt8},
        p ∈ signedPairs v nIndexLen keys (i + 1) n → p.1 ≠ pk := by
      intro v n p hp he
      exact hpk (he ▸ fst_mem_of_mem_signedPairs keys _ _ hp)
    have hbits : ∀ {b : Bool}, isSigned vchSig nIndexLen i = b → isSigned vchSig' nIndexLen i = b →
        (∀ j < keys.length, isSigned vchSig nIndexLen (i + 1 + j) = isSigned vchSig' nIndexLen (i + 1 + j)) →
        ∀ j < (pk :: keys).length, isSigned vchSig nIndexLen (i + j) = isSigned vchSig' nIndexLen (i + j) := by
      intro b h1 h2 htail j hj
      cases j with
      | zero => exact h1.trans h2.symm
      | succ j =>
        have := htail j (Nat.lt_of_succ_lt_succ hj)
        rwa [show i + 1 + j = i + (j + 1) by omega] at this
    simp only [signedPairs] at h ⊢
    split_ifs at h ⊢ with h1 h2 h2
    · have hhead : (vchSig.drop nPosRS).take 64 = (vchSig'.drop nPosRS').take 64 := by
        rcases List.mem_cons.1 ((h _).1 List.mem_cons_self) with he | he
        · exact (Prod.mk.inj he).2
        · exact absurd rfl (hother he)
      have htail := ih hnd (i + 1) (nPosRS + 64) (nPosRS' + 64) fun p => by
        constructor
        · intro hp
          exact (List.mem_cons.1 ((h p).1 (List.mem_cons_of_mem _ hp))).resolve_left
            fun he => hother hp (congrArg Prod.fst he)
        · intro hp
          exact (List.mem_cons.1 ((h p).2 (List.mem_cons_of_mem _ hp))).resolve_left
            fun he => hother hp (congrArg Prod.fst he)
      exact ⟨hbits h1 h2 htail.1, by rw [hhead, htail.2]⟩
    · exact absurd rfl (hother ((h _).1 List.mem_cons_self))
    · exact absurd rfl (hother ((h _).2 List.mem_cons_self))
    · have htail := ih hnd (i + 1) nPosRS nPosRS' h
      exact ⟨hbits (Bool.eq_false_of_not_eq_true h1) (Bool.eq_false_of_not_eq_true h2) htail.1, htail.2⟩

theorem cryptoMultiVerify_drop {keys part : List ℕ} (hlen : (keys.length - 1) / 8 + 1 = nIndexLen)
    (h : cryptoMultiVerify E keys pM vchSig = some part) :
    nIndexLen ≤ vchSig.length ∧
      vchSig.drop nIndexLen = (signedPairs vchSig nIndexLen keys 0 nIndexLen).flatMap Prod.snd := by
  unfold cryptoMultiVerify at h
  simp only [hlen] at h
  split_ifs at h with hempty hshort
  cases hloop : multiVerifyLoop E pM vchSig nIndexLen keys 0 nIndexLen [] with
  | none => simp [hloop] at h
  | some r =>
    obtain ⟨nPosRS, setPartKey⟩ := r
    simp only [hloop] at h
    split_ifs at h with hpos
    rw [not_not] at hpos
    subst hpos
    exact ⟨by omega, multiVerifyLoop_drop keys _ _ _ _ (by omega) hloop⟩

theorem isSigned_take (h : nIndexLen ≤ vchSig.length) (i : ℕ) :
    isSigned (vchSig.take nIndexLen) nIndexLen i = isSigned vchSig nIndexLen i := by
  conv_rhs => rw [← List.take_append_drop nIndexLen vchSig]
  rw [isSigned_append (List.length_take_of_le h)]

theorem cryptoMultiVerify_eq {keys part part' : List ℕ} (hnd : keys.Nodup)
    (hlen : (keys.length - 1) / 8 + 1 = nIndexLen)
    (h : cryptoMultiVerify E keys pM vchSig = some part) (h' : cryptoMultiVerify E keys pM vchSig' = some part')
    (hpairs : ∀ p, p ∈ signedPairs vchSig nIndexLen keys 0 nIndexLen ↔
      p ∈ signedPairs vchSig' nIndexLen keys 0 nIndexLen)
    (hpad : ∀ j < nIndexLen * 8 - keys.length,
      isSigned vchSig nIndexLen (keys.length + j) = isSigned vchSig' nIndexLen (keys.length + j)) :
    vchSig = vchSig' := by
  obtain ⟨hle, hdrop⟩ := cryptoMultiVerify_drop hlen h
  obtain ⟨hle', hdrop'⟩ := cryptoMultiVerify_drop hlen h'
  obtain ⟨hbits, hsame⟩ := signedPairs_eq_of_same keys hnd _ _ _ hpairs
  have hindex : vchSig.take nIndexLen = vchSig'.take nIndexLen := by
    apply isSigned_ext (List.length_take_of_le hle) (List.length_take_of_le hle')
    intro i hi
    rw [isSigned_take hle, isSigned_take hle']
    by_cases hkey : i < keys.length
    · simpa using hbits i hkey
    · have := hpad (i - keys.length) (by omega)
      rwa [show keys.length + (i - keys.length) = i by omega] at this
  rw [← List.take_append_drop nIndexLen vchSig, ← List.take_append_drop nIndexLen vchSig', hindex, hdrop,
    hdrop', hsame]

end

/-! ## Signatures of a transaction -/

section

variable {E : Env} {hash : ℕ} {destTo : CDestination} {nForkHeight depth : ℕ} {dest : CDestination}
  {vchSig vchSig' : List UInt8} {fCompleted r r' : Bool}

def isMultiKey (dest : CDestination) : Bool :=
  isTemplateOf dest TEMPLATE_WEIGHTED || isTemplateOf dest TEMPLATE_MULTISIG

theorem verifyTxSignatureAt_multiKey (hdest : isMultiKey dest = true)
    (h : verifyTxSignatureAt E hash destTo nForkHeight (depth + 1) dest vchSig fCompleted = some (true, r)) :
    ∃ t part, CTemplateWeighted.dec vchSig = .ok t ∧
      cryptoMultiVerify E t.mapPubKeyWeight.keys (leBytes 32 hash) (vchSig.drop t.enc.length) = some part := by
  have hverify : ∀ {w : CTemplateWeighted} {sub : List UInt8},
      w.verifyTxSignature E hash sub fCompleted = (true, r) →
        ∃ part, cryptoMultiVerify E w.mapPubKeyWeight.keys (leBytes 32 hash) sub = some part := by
    intro w sub hw
    unfold CTemplateWeighted.verifyTxSignature at hw
    cases hpart : cryptoMultiVerify E w.mapPubKeyWeight.keys (leBytes 32 hash) sub with
    | none => simp [hpart] at hw
    | some part => exact ⟨part, rfl⟩
  have htype : dest.isTemplate = true ∧
      (dest.templateType = TEMPLATE_WEIGHTED ∨ dest.templateType = TEMPLATE_MULTISIG) := by
    simp only [isMultiKey, isTemplateOf, Bool.or_eq_true, Bool.and_eq_true, beq_iff_eq] at hdest
    rcases hdest with hd | hd
    · exact ⟨hd.1, Or.inl hd.2⟩
    · exact ⟨hd.1, Or.inr hd.2⟩
  obtain ⟨t, hread, -, h⟩ := (verifyTxSignatureAt_true_iff htype.1).1 h
  obtain ⟨hnType, hdec⟩ := CTemplate.setTemplateData_ok (createTemplatePtr_eq_some.1 hread).1
  cases t with
  | weighted w =>
    obtain ⟨part, hpart⟩ := hverify (Option.some.inj h)
    exact ⟨w, part, hdec, hpart⟩
  | multisig w =>
    obtain ⟨part, hpart⟩ := hverify (Option.some.inj h)
    exact ⟨w, part, hdec, hpart⟩
  | _ =>
    rw [← hnType] at htype
    simp only [CTemplate.nType] at htype
    exact absurd htype.2 (by decide)

/-- **Two accepted multi-signatures with the same signers and signatures** are the same bytes exactly if they
write the template in the same way and agree in the bits of the index behind that of the last key. -/
theorem multiSig_eq_iff (hdest : isMultiKey dest = true)
    (h : verifyTxSignatureAt E hash destTo nForkHeight (depth + 1) dest vchSig fCompleted = some (true, r))
    (h' : verifyTxSignatureAt E hash destTo nForkHeight (depth + 1) dest vchSig' fCompleted = some (true, r'))
    (hpairs : ∀ p, p ∈ carriedPairs vchSig ↔ p ∈ carriedPairs vchSig') :
    vchSig = vchSig' ↔
      shownTemplate vchSig = shownTemplate vchSig' ∧ paddingBits vchSig = paddingBits vchSig' := by
  constructor
  · intro heq
    rw [heq]
    exact ⟨rfl, rfl⟩
  rintro ⟨htemplate, hpadding⟩
  obtain ⟨t, part, hdec, hverify⟩ := verifyTxSignatureAt_multiKey hdest h
  obtain ⟨t', part', hdec', hverify'⟩ := verifyTxSignatureAt_multiKey hdest h'
  obtain ⟨-, hsize, hle, hsame⟩ := CTemplateWeighted.dec_spec hdec
  obtain ⟨-, hsize', hle', -⟩ := CTemplateWeighted.dec_spec hdec'
  have henc : t.enc.length = 9 + 33 * shownKeys vchSig := by rw [CTemplateWeighted.length_enc, ← hsize]; rfl
  have henc' : t'.enc.length = 9 + 33 * shownKeys vchSig' := by rw [CTemplateWeighted.length_enc, ← hsize']; rfl
  -- the template is read from the bytes that agree
  have hlen : t.enc.length = t'.enc.length := by
    have := congrArg List.length htemplate
    rw [shownTemplate, shownTemplate, ← henc, ← henc', List.length_take_of_le hle,
      List.length_take_of_le hle'] at this
    exact this
  rw [shownTemplate, shownTemplate, ← henc, ← henc', ← hlen] at htemplate
  have ht : t = t' := Except.ok.inj ((hsame _ htemplate.symm).symm.trans hdec')
  subst ht
  have hkeys : shownKeys vchSig = t.mapPubKeyWeight.keys.length :=
    hsize.trans (List.length_map _).symm
  have hkeys' : shownKeys vchSig' = t.mapPubKeyWeight.keys.length :=
    hsize'.trans (List.length_map _).symm
  have hsub : vchSig.drop t.enc.length = vchSig'.drop t.enc.length := by
    refine cryptoMultiVerify_eq t.mapPubKeyWeight.keys_nodup rfl hverify hverify' ?_ fun j hj => ?_
    · simpa only [carriedPairs, hdec, hdec'] using hpairs
    · rw [paddingBits, paddingBits, ← henc, ← henc'] at hpadding
      simp only [hkeys, hkeys'] at hpadding
      exact List.map_eq_map_iff.1 hpadding j (List.mem_range.2 hj)
  rw [← List.take_append_drop t.enc.length vchSig, ← List.take_append_drop t.enc.length vchSig', htemplate, hsub]

end

/-! ## A signature in three forms -/

def toyWeightedDest : CDestination :=
  ⟨CDestination.PREFIX_TEMPLATE, (CTemplate.weighted toyWeighted).getTemplateId toyEnv⟩

/-- The signature of the first key behind the template, with an index of one byte. -/
def toyFirstSigned (entries : List (ℕ × ℕ)) (index : UInt8) : List UInt8 :=
  leBytes 1 1 ++ leBytes 8 2 ++ (entries.map weightEntry).flatten ++ index :: List.replicate 64 3

theorem toyFirstSigned_accepted :
    isMultiKey toyWeightedDest = true ∧
      (∀ s ∈ [toyFirstSigned [(3, 1), (5, 1)] 1, toyFirstSigned [(3, 1), (5, 1)] 5, toyFirstSigned [(5, 1), (3, 1)] 1],
        verifyTxSignatureAt toyEnv 0 default 0 2 toyWeightedDest s false = some (true, true) ∧
          carriedPairs s = [(3, List.replicate 64 3)]) := by
  decide +kernel

/-- One signature by one key, in three forms that are all accepted. -/
theorem multiSig_malleable :
    (∀ s ∈ [toyFirstSigned [(3, 1), (5, 1)] 1, toyFirstSigned [(3, 1), (5, 1)] 5, toyFirstSigned [(5, 1), (3, 1)] 1],
        verifyTxSignatureAt toyEnv 0 default 0 2 toyWeightedDest s false = some (true, true) ∧
          carriedPairs s = [(3, List.replicate 64 3)]) ∧
      toyFirstSigned [(3, 1), (5, 1)] 1 ≠ toyFirstSigned [(3, 1), (5, 1)] 5 ∧
      toyFirstSigned [(3, 1), (5, 1)] 1 ≠ toyFirstSigned [(5, 1), (3, 1)] 1 :=
  ⟨toyFirstSigned_accepted.2, by decide, by decide⟩

theorem multiSig_eq_iff_toy :
    toyFirstSigned [(3, 1), (5, 1)] 1 = toyFirstSigned [(3, 1), (5, 1)] 5 ↔
      shownTemplate (toyFirstSigned [(3, 1), (5, 1)] 1) = shownTemplate (toyFirstSigned [(3, 1), (5, 1)] 5) ∧
        paddingBits (toyFirstSigned [(3, 1), (5, 1)] 1) = paddingBits (toyFirstSigned [(3, 1), (5, 1)] 5) :=
  have h1 := toyFirstSigned_accepted.2 _ (List.mem_cons_self ..)
  have h2 := toyFirstSigned_accepted.2 _ (List.mem_cons_of_mem _ (List.mem_cons_self ..))
  multiSig_eq_iff toyFirstSigned_accepted.1 h1.1 h2.1 fun p => by rw [h1.2, h2.2]

end Minemon
