import Minemon.Pool.Agreement
import Minemon.Signing.DataStream
import Minemon.Signing.WalletSign

/-!
# Signatures that can be read

`CDestination::VerifyTxSignature` reads the template of an address from the front of a signature. A template
without byte strings is always read to an answer; the others need what their lengths say.

* `verifyTxSignatureAt_ne_none_iff`, `verifyTxSignature_ne_none_iff`: the rule of a template and its owner.
* `verifyTxSignature_exchange_ne_none_iff`: an exchange, whose constructor throws.
-/

namespace Minemon

/-! ## Templates without byte strings -/

theorem lengthsFit_of_no_bytes {fs : List Field} (h : Field.bytes ∉ fs) (s : CIDataStream) : LengthsFit fs s := by
  induction fs generalizing s with
  | nil => trivial
  | cons f fs ih =>
    refine ⟨?_, fun s' _ => ih (fun hmem => h (List.mem_cons_of_mem _ hmem)) s'⟩
    cases f with
    | bytes => exact absurd List.mem_cons_self h
    | number w => trivial
    | map => trivial

section

variable {vch : List UInt8} {nType : ℕ} {t : CTemplate}

theorem no_bytes_templateFields (horder : nType ≠ TEMPLATE_DEXORDER) (hmatch : nType ≠ TEMPLATE_DEXMATCH) :
    Field.bytes ∉ templateFields nType := by
  unfold templateFields
  split_ifs <;> first | exact absurd ‹_› horder | exact absurd ‹_› hmatch | decide

theorem createTemplatePtr_ne_none (hlen : vch.length < 2 ^ 63) (horder : nType ≠ TEMPLATE_DEXORDER)
    (hmatch : nType ≠ TEMPLATE_DEXMATCH) : createTemplatePtr nType vch ≠ none :=
  (createTemplatePtr_ne_none_iff hlen nType).2
    (lengthsFit_of_no_bytes (no_bytes_templateFields horder hmatch) _)

theorem createMintPledgePtr_ne_none (hlen : vch.length < 2 ^ 63) : createMintPledgePtr vch ≠ none := by
  have hne : createTemplatePtr TEMPLATE_MINTPLEDGE vch ≠ none :=
    createTemplatePtr_ne_none hlen (by decide) (by decide)
  unfold createMintPledgePtr
  rcases hptr : createTemplatePtr TEMPLATE_MINTPLEDGE vch with _ | _ | t
  · exact absurd hptr hne
  · simp
  · obtain ⟨p, rfl, -⟩ := createTemplatePtr_mintpledge hptr
    simp

theorem createTemplatePtr_dexorder (h : createTemplatePtr TEMPLATE_DEXORDER vch = some (some t)) :
    ∃ o, t = .dexorder o := by
  obtain ⟨o, -, rfl, -⟩ := readTemplate_ok (Option.some.inj (createTemplatePtr_eq_some.1 h).1)
  exact ⟨o, rfl⟩

theorem createTemplatePtr_dexmatch (h : createTemplatePtr TEMPLATE_DEXMATCH vch = some (some t)) :
    ∃ m, t = .dexmatch m := by
  obtain ⟨m, -, rfl, -⟩ := readTemplate_ok (Option.some.inj (createTemplatePtr_eq_some.1 h).1)
  exact ⟨m, rfl⟩

theorem createTemplatePtr_mintredeem (h : createTemplatePtr TEMPLATE_MINTREDEEM vch = some (some t)) :
    ∃ r, t = .mintredeem r := by
  obtain ⟨r, -, rfl, -⟩ := readTemplate_ok (Option.some.inj (createTemplatePtr_eq_some.1 h).1)
  exact ⟨r, rfl⟩

end

/-! ## Fields of fixed size -/

section

variable {vch : List UInt8} {pos : ℕ}

theorem extractAll_numbers (ws : List Scalar) (hs : (CIDataStream.mk vch pos).OK) :
    extractAll (ws.map .number) ⟨vch, pos⟩ =
      if pos + (ws.map Scalar.size).sum ≤ vch.length then .ok ⟨vch, pos + (ws.map Scalar.size).sum⟩
      else .error .exception := by
  induction ws generalizing pos with
  | nil => exact (if_pos hs.le).symm
  | cons w ws ih =>
    rw [List.map_cons, extractAll, Field.extract, List.map_cons, List.sum_cons, ← Nat.add_assoc]
    by_cases h : pos + w.size ≤ vch.length
    · rw [CIDataStream.pop_of_le hs h]
      exact ih ⟨h, hs.length_lt⟩
    · rw [CIDataStream.pop_of_lt hs w.size_lt (not_le.1 h), if_neg (by omega)]
      rfl

theorem exchange_dec_ok_iff (hlen : vch.length < 2 ^ 63) :
    (∃ p, CTemplateExchange.codec.dec vch = .ok p) ↔ EXCHANGE_DATA_LEN ≤ vch.length := by
  have hs : (CIDataStream.mk vch 0).OK := ⟨Nat.zero_le _, hlen⟩
  have hrun := extractAll_numbers [.uint8, .uint256, .uint8, .uint256, .int32, .int32, .uint256, .uint256] hs
  have hread := readBy_exchange vch 0 hs
  rw [List.drop_zero, show templateFields TEMPLATE_EXCHANGE = List.map Field.number
    [.uint8, .uint256, .uint8, .uint256, .int32, .int32, .uint256, .uint256] from rfl, hrun,
    show 0 + (List.map Scalar.size [.uint8, .uint256, .uint8, .uint256, .int32, .int32, .uint256, .uint256]).sum
      = EXCHANGE_DATA_LEN from rfl] at hread
  split_ifs at hread with h
  · rcases hread with ⟨e, -, hq⟩ | ⟨x, pos, -, hr, -⟩
    · cases hq
    · exact ⟨fun _ => h, fun _ => ⟨_, hr⟩⟩
  · rcases hread with ⟨e, hr, -⟩ | ⟨x, pos, -, -, hq⟩
    · rw [hr]
      exact ⟨fun hp => absurd hp (by simp), fun hle => absurd hle h⟩
    · cases hq

theorem length_threeBytes {p : (List UInt8 × List UInt8 × List UInt8) × List UInt8}
    (h : threeBytes.dec vch = .ok p) : p.1.2.2.length ≤ vch.length := by
  have hlen := congrArg List.length (threeBytes.enc_dec _ _ _ h).2
  simp only [threeBytes, Codec.pair, Format.pair, Codec.bytes, List.length_append] at hlen
  omega

end

/-! ## Destinations -/

section

variable {E : Env} {hash n : ℕ} {destTo dest : CDestination} {vch : List UInt8}

/-- The owner of a template signs with a key, or with one template more that has no byte strings. -/
theorem verifyTxSignatureAt_spendable (hd : isTxSpendable dest = true) (hlen : vch.length < 2 ^ 63) (depth : ℕ)
    (fCompleted : Bool) : verifyTxSignatureAt E hash destTo n (depth + 1) dest vch fCompleted ≠ none := by
  rw [verifyTxSignatureAt]
  by_cases hkey : dest.isPubKey = true
  · rw [if_pos hkey]
    simp
  have htype : dest.isTemplate = true ∧
      (dest.templateType = TEMPLATE_WEIGHTED ∨ dest.templateType = TEMPLATE_MULTISIG) := by
    simpa [isTxSpendable, hkey] using hd
  have horder : dest.templateType ≠ TEMPLATE_DEXORDER := by
    rcases htype.2 with h | h <;> rw [h] <;> decide
  have hmatch : dest.templateType ≠ TEMPLATE_DEXMATCH := by
    rcases htype.2 with h | h <;> rw [h] <;> decide
  rw [if_neg hkey, if_pos htype.1]
  rcases hptr : createTemplatePtr dest.templateType vch with _ | _ | t
  · exact absurd hptr (createTemplatePtr_ne_none hlen horder hmatch)
  · simp
  have hn := createTemplatePtr_nType hptr
  dsimp only
  by_cases hid : t.getTemplateId E ≠ dest.getTemplateId
  · rw [if_pos hid]
    simp
  · rw [if_neg hid]
    cases t with
    | weighted w => simp
    | multisig w => simp
    | _ => exfalso; rcases htype.2 with h | h <;> rw [h] at hn <;> cases hn

/-- The three byte strings behind a match are read for its signature. -/
def SignatureRead (E : Env) (dest : CDestination) (vch : List UInt8) (m : CTemplateDexMatch) : Prop :=
  (CTemplate.dexmatch m).getTemplateId E = dest.getTemplateId ∧
    64 < (vch.drop (CTemplate.dexmatch m).buildTemplateData.length).length

/-- **The rule of a template** has an answer exactly if the byte strings that it reads are there. -/
theorem verifyTxSignatureAt_ne_none_iff (hlen : vch.length < 2 ^ 63) (depth : ℕ) (fCompleted : Bool) :
    verifyTxSignatureAt E hash destTo n (depth + 2) dest vch fCompleted ≠ none ↔
      (dest.isPubKey = false → dest.isTemplate = true →
        LengthsFit (templateFields dest.templateType) ⟨vch, 0⟩ ∧
        ∀ m, createTemplatePtr dest.templateType vch = some (some (.dexmatch m)) → SignatureRead E dest vch m →
          LengthsFit [.bytes, .bytes, .bytes] ⟨vch.drop (CTemplate.dexmatch m).buildTemplateData.length, 0⟩) := by
  rw [verifyTxSignatureAt]
  by_cases hkey : dest.isPubKey = true
  · simp [hkey]
  have hkey' : dest.isPubKey = false := by simpa using hkey
  rw [if_neg hkey]
  by_cases htempl : dest.isTemplate = true
  swap
  · simp [htempl]
  rw [if_pos htempl]
  simp only [hkey', htempl, forall_const]
  rw [← createTemplatePtr_ne_none_iff hlen]
  rcases hptr : createTemplatePtr dest.templateType vch with _ | _ | t
  · simp
  · simp
  have howner : ∀ d sub, t.signDest destTo n = some d → sub.length ≤ vch.length →
      verifyTxSignatureAt E hash destTo n (depth + 1) d sub fCompleted ≠ none := fun d sub hd hle =>
    verifyTxSignatureAt_spendable (signDest_spendable (createTemplatePtr_eq_some.1 hptr).2 hd)
      (hle.trans_lt hlen) depth fCompleted
  simp only [ne_eq, reduceCtorEq, not_false_eq_true, true_and, Option.some.injEq]
  by_cases hid : ¬ t.getTemplateId E = dest.getTemplateId
  · rw [if_pos hid]
    simp only [reduceCtorEq, not_false_eq_true, true_iff]
    rintro m rfl hread
    exact absurd hread.1 hid
  rw [if_neg hid]
  have hdrop : (vch.drop t.buildTemplateData.length).length ≤ vch.length := by simp
  have hnot : ∀ {p : Prop}, p → (∀ m, t ≠ .dexmatch m) → (p ↔ ∀ m, t = .dexmatch m →
      SignatureRead E dest vch m → LengthsFit [.bytes, .bytes, .bytes]
        ⟨vch.drop (CTemplate.dexmatch m).buildTemplateData.length, 0⟩) :=
    fun hp hne => ⟨fun _ m hm => absurd hm (hne m), fun _ => hp⟩
  cases t with
  | weighted w => exact hnot (by simp) (by simp)
  | multisig w => exact hnot (by simp) (by simp)
  | exchange x => exact hnot (by simp) (by simp)
  | dexmatch m =>
    dsimp only
    simp only [CTemplate.dexmatch.injEq, forall_eq']
    by_cases h64 : (vch.drop (CTemplate.dexmatch m).buildTemplateData.length).length ≤ 64
    · rw [if_pos h64]
      exact ⟨fun _ hread => absurd hread.2 (not_lt.2 h64), fun _ => howner _ _ rfl hdrop⟩
    · rw [if_neg h64, forall_prop_of_true ⟨not_not.1 hid, not_le.1 h64⟩, ← threeBytes_drop_ne_undefined_iff hlen]
      cases hdec : threeBytes.dec (vch.drop (CTemplate.dexmatch m).buildTemplateData.length) with
      | error e => cases e <;> simp
      | ok p => simpa using howner _ _ rfl ((length_threeBytes hdec).trans hdrop)
  | _ => exact hnot (howner _ _ rfl hdrop) (by simp)

/-- The bytes of an exchange that its rule reads are there. -/
def ExchangeFits (vch : List UInt8) : Prop :=
  EXCHANGE_DATA_LEN ≤ vch.length ∧
    (vch.length = 354 → LengthsFit [.bytes, .bytes, .bytes] ⟨vch.drop EXCHANGE_DATA_LEN, 0⟩)

theorem verifyTxSignature_exchange_ne_none_iff (hlen : vch.length < 2 ^ 63) {fork : ℕ}
    (hex : isTemplateOf dest TEMPLATE_EXCHANGE = true) :
    dest.verifyTxSignature E hash destTo vch n fork ≠ none ↔ ExchangeFits vch := by
  rw [CDestination.verifyTxSignature, if_pos hex, ExchangeFits, ← exchange_dec_ok_iff hlen,
    ← threeBytes_drop_ne_undefined_iff hlen]
  cases hdec : CTemplateExchange.codec.dec vch with
  | error e => simp
  | ok p =>
    simp only [CTemplateExchange.verifySignature]
    by_cases h354 : vch.length ≠ 354
    · simp [h354]
    · rw [if_neg h354]
      have h354' : vch.length = 354 := not_not.1 h354
      cases hthree : threeBytes.dec (vch.drop EXCHANGE_DATA_LEN) with
      | error e => cases e <;> simp [h354']
      | ok q =>
        simp only [h354', forall_const, ne_eq, reduceCtorEq, not_false_eq_true]
        split_ifs <;> simp

/-- Any other destination: the byte strings of an order, of a match and behind a match. -/
theorem verifyTxSignature_ne_none_iff (hlen : vch.length < 2 ^ 63) {fork : ℕ}
    (hex : isTemplateOf dest TEMPLATE_EXCHANGE = false) :
    dest.verifyTxSignature E hash destTo vch n fork ≠ none ↔
      (isTemplateOf dest TEMPLATE_DEXORDER = true → LengthsFit (templateFields TEMPLATE_DEXORDER) ⟨vch, 0⟩) ∧
      (isTemplateOf dest TEMPLATE_DEXMATCH = true → LengthsFit (templateFields TEMPLATE_DEXMATCH) ⟨vch, 0⟩ ∧
        ∀ m, createTemplatePtr TEMPLATE_DEXMATCH vch = some (some (.dexmatch m)) → SignatureRead E dest vch m →
          LengthsFit [.bytes, .bytes, .bytes] ⟨vch.drop (CTemplate.dexmatch m).buildTemplateData.length, 0⟩) := by
  have hcall : dest.verifyTxSignature E hash destTo vch n fork ≠ none ↔
      verifyTxSignatureAt E hash destTo n 2 dest vch false ≠ none := by
    rw [CDestination.verifyTxSignature, if_neg (by simp [hex])]
    cases verifyTxSignatureAt E hash destTo n 2 dest vch false <;> simp
  rw [hcall, verifyTxSignatureAt_ne_none_iff hlen]
  refine ⟨fun h => ⟨fun horder => ?_, fun hmatch => ?_⟩, fun h hkey htempl => ?_⟩
  · obtain ⟨htempl, htype⟩ := isTemplateOf_type horder
    exact htype ▸ (h (isPubKey_of_isTemplate htempl) htempl).1
  · obtain ⟨htempl, htype⟩ := isTemplateOf_type hmatch
    exact htype ▸ h (isPubKey_of_isTemplate htempl) htempl
  · by_cases horder : dest.templateType = TEMPLATE_DEXORDER
    · rw [horder]
      refine ⟨h.1 (by simp [isTemplateOf, htempl, horder]), fun m hptr => ?_⟩
      obtain ⟨o, ho⟩ := createTemplatePtr_dexorder hptr
      cases ho
    · by_cases hmatch : dest.templateType = TEMPLATE_DEXMATCH
      · rw [hmatch]
        exact h.2 (by simp [isTemplateOf, htempl, hmatch])
      · refine ⟨lengthsFit_of_no_bytes (no_bytes_templateFields horder hmatch) _, fun m hptr => ?_⟩
        exact absurd (createTemplatePtr_nType hptr).symm hmatch

end

end Minemon
