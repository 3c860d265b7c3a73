import Minemon.Run.Step

/-!
# Recorded templates

`UpdateTxTemplateData` writes the data of the templates that a block shows, each at the address it
hashes to. Nothing is ever erased, and what is written can be read again.

* `TemplateOK`: the data at every address of a miner or a pledge can be read.
* `updateTxTemplateData_writes`: which templates are recorded, and that of every address when the whole block passed.
-/

namespace Minemon

open CBlockBase

abbrev TemplateDB := CDestination → Option (List UInt8)

/-- The second database is the first one with templates recorded at their addresses. -/
inductive Records (E : Env) (db : TemplateDB) : TemplateDB → Prop
  | refl : Records E db db
  | write {db' : TemplateDB} {dest : CDestination} {vch : List UInt8} {t : CTemplate} (h : Records E db db')
      (read : createTemplatePtr dest.templateType vch = some (some t))
      (id : t.getTemplateId E = dest.getTemplateId) :
      Records E db (Function.update db' dest (some t.buildTemplateData))

/-- The data at an address is that of a template with its identifier, readable for miners and pledges. -/
structure TemplateOK (E : Env) (dest : CDestination) (vchData : List UInt8) : Prop where
  id : ∃ nType, mkTemplateId nType (E.hash vchData) = dest.getTemplateId
  proof : dest.templateType = TEMPLATE_PROOF → ∃ p, createProofPtr vchData = some (some p)
  pledge : dest.templateType = TEMPLATE_MINTPLEDGE → ∃ p, createMintPledgePtr vchData = some (some p)

section

variable {E : Env} {db db' db'' : TemplateDB}

theorem Records.trans (h : Records E db db') (h' : Records E db' db'') : Records E db db'' := by
  induction h' with
  | refl => exact h
  | write _ read id ih => exact ih.write read id

theorem Records.ne_none (h : Records E db db') {dest : CDestination} (hd : db dest ≠ none) : db' dest ≠ none := by
  induction h with
  | refl => exact hd
  | @write _ dest' _ _ _ _ _ ih =>
    by_cases he : dest = dest'
    · rw [he, Function.update_self]
      simp
    · rw [Function.update_of_ne he]
      exact ih

theorem templateOK_of_read {dest : CDestination} {vch : List UInt8} {t : CTemplate}
    (read : createTemplatePtr dest.templateType vch = some (some t))
    (id : t.getTemplateId E = dest.getTemplateId) : TemplateOK E dest t.buildTemplateData := by
  refine ⟨⟨t.nType, id⟩, fun htype => ?_, fun htype => ?_⟩
  · rw [htype] at read
    obtain ⟨p, rfl, hread⟩ := createTemplatePtr_proof read
    exact ⟨p, by unfold createProofPtr; rw [hread]⟩
  · rw [htype] at read
    obtain ⟨p, rfl, hread⟩ := createTemplatePtr_mintpledge read
    exact ⟨p, by unfold createMintPledgePtr; rw [hread]⟩

theorem Records.templateOK (h : Records E db db') (hdb : ∀ d v, db d = some v → TemplateOK E d v) :
    ∀ d v, db' d = some v → TemplateOK E d v := by
  induction h with
  | refl => exact hdb
  | @write _ dest' _ _ _ read id ih =>
    intro d v hd
    by_cases he : d = dest'
    · rw [he, Function.update_self] at hd
      rw [he, ← Option.some.inj hd]
      exact templateOK_of_read read id
    · rw [Function.update_of_ne he] at hd
      exact ih d v hd

theorem Records.getTemplateId_lt (h : Records E db db') (hdb : ∀ d, db d ≠ none → d.getTemplateId < 2 ^ 256) :
    ∀ d, db' d ≠ none → d.getTemplateId < 2 ^ 256 := by
  induction h with
  | refl => exact hdb
  | @write _ dest' _ t _ _ id ih =>
    intro d hd
    by_cases he : d = dest'
    · rw [he, ← id]
      exact t.getTemplateId_lt E
    · rw [Function.update_of_ne he] at hd
      exact ih d hd

/-! ## What a block records -/

theorem isTemplate_of_isDestInRecorded {dest : CDestination} (h : isDestInRecorded dest = true) :
    dest.isTemplate = true := by
  unfold isDestInRecorded at h
  exact (Bool.and_eq_true_iff.1 h).1

variable {dest : CDestination} {vch : List UInt8} {t : CTemplate} {tx : CTransaction} {txContxt : CTxContxt}

theorem getSignDestination_suffix {sendTo : CDestination} {hashFork nHeight : ℕ} {vchSig : List UInt8}
    {r : List CDestination × List UInt8} (h : getSignDestination t sendTo hashFork nHeight vchSig = some r) :
    r.2 <:+ vchSig := by
  have hsub : ∀ {s : List UInt8}, subSig t vchSig = some s → s <:+ vchSig := by
    intro s hs
    unfold subSig at hs
    split_ifs at hs
    · rw [← Option.some.inj hs]
      exact List.nil_suffix
    · rw [← Option.some.inj hs]
      exact List.drop_suffix _ _
  cases t with
  | exchange x =>
    simp only [getSignDestination] at h
    split_ifs at h <;> (rw [← Option.some.inj h]; exact List.nil_suffix)
  | _ =>
    simp only [getSignDestination, Option.map_eq_some_iff] at h
    obtain ⟨s, hs, rfl⟩ := h
    exact hsub hs

theorem recordTemplate_read
    (h : recordTemplate E db dest vch = some (some (t, db'))) :
    createTemplatePtr dest.templateType vch = some (some t) ∧ t.getTemplateId E = dest.getTemplateId ∧
      db' = Function.update db dest (some t.buildTemplateData) := by
  unfold recordTemplate at h
  split at h
  · simp at h
  · simp at h
  · rename_i t' hread
    split_ifs at h with hid
    · simp at h
    · simp only [Option.some.injEq, Prod.mk.injEq] at h
      obtain ⟨rfl, rfl⟩ := h
      exact ⟨hread, not_not.1 hid, rfl⟩

/-- The data that `UpdatePledge` reads the template of `destIn` from. -/
def DestInData (tx : CTransaction) (vDestInData : List UInt8) : Prop :=
  if tx.sendTo.isTemplate && isDestInRecorded tx.sendTo then
    ∃ t r, createTemplatePtr tx.sendTo.templateType tx.vchSig = some (some t) ∧
      getSignDestination t tx.sendTo 0 0 tx.vchSig = some r ∧ vDestInData = r.2
  else vDestInData = tx.vchSig

theorem DestInData.unique {v v' : List UInt8} (h : DestInData tx v) (h' : DestInData tx v') : v = v' := by
  unfold DestInData at h h'
  split_ifs at h h'
  · obtain ⟨t, r, hread, hsign, rfl⟩ := h
    obtain ⟨t', r', hread', hsign', rfl⟩ := h'
    obtain rfl : t = t' := Option.some.inj (Option.some.inj (hread.symm.trans hread'))
    rw [Option.some.inj (hsign.symm.trans hsign')]
  · rw [h, h']

theorem DestInData.suffix {v : List UInt8} (h : DestInData tx v) : v <:+ tx.vchSig := by
  unfold DestInData at h
  split_ifs at h
  · obtain ⟨t, r, -, hsign, rfl⟩ := h
    exact getSignDestination_suffix hsign
  · rw [h]

/-- The templates of the addresses are read from the bytes and recorded, one after another. -/
inductive Writes (E : Env) : List (CDestination × List UInt8) → TemplateDB → TemplateDB → Prop
  | nil (db : TemplateDB) : Writes E [] db db
  | cons {dest : CDestination} {vch : List UInt8} {t : CTemplate} {l : List (CDestination × List UInt8)}
      {db db' db'' : TemplateDB} (h : recordTemplate E db dest vch = some (some (t, db')))
      (hl : Writes E l db' db'') : Writes E ((dest, vch) :: l) db db''

/-- The templates of both addresses of a signed transaction are among those. -/
structure TxWrites (t : CTransaction × CTxContxt) (ws : List (CDestination × List UInt8)) : Prop where
  sendTo : t.1.vchSig ≠ [] → isDestInRecorded t.1.sendTo = true → (t.1.sendTo, t.1.vchSig) ∈ ws
  destIn : t.1.vchSig ≠ [] → t.2.destIn.isTemplate = true → ∃ v, DestInData t.1 v ∧ (t.2.destIn, v) ∈ ws

variable {l ws ws' : List (CDestination × List UInt8)}

theorem Writes.append (h : Writes E ws db db') (h' : Writes E ws' db' db'') : Writes E (ws ++ ws') db db'' := by
  induction h with
  | nil => exact h'
  | cons hone _ ih => exact .cons hone (ih h')

theorem TxWrites.mono {t : CTransaction × CTxContxt} (h : TxWrites t ws) (hsub : ws ⊆ ws') : TxWrites t ws' :=
  ⟨fun hsig hto => hsub (h.sendTo hsig hto), fun hsig hin => (h.destIn hsig hin).imp fun _ hv => ⟨hv.1, hsub hv.2⟩⟩

theorem Writes.records (h : Writes E ws db db') : Records E db db' ∧ ∀ w ∈ ws, db' w.1 ≠ none := by
  induction h with
  | nil => exact ⟨.refl, by simp⟩
  | cons hone _ ih =>
    obtain ⟨hread, hid, rfl⟩ := recordTemplate_read hone
    refine ⟨(Records.refl.write hread hid).trans ih.1, fun w hw => ?_⟩
    rcases List.mem_cons.1 hw with rfl | hw
    · exact ih.1.ne_none (by simp)
    · exact ih.2 w hw

/-- The record of the template of `destIn`, the second part of `UpdateTxTemplateData` for a transaction. -/
def recordDestIn (E : Env) (db : TemplateDB) (destIn : CDestination) (vchSig : List UInt8) :
    Option (Bool × TemplateDB) :=
  if destIn.isTemplate then
    match recordTemplate E db destIn vchSig with
    | none => none
    | some none => some (false, db)
    | some (some (_, db')) => some (true, db')
  else some (true, db)

theorem recordDestIn_writes {destIn : CDestination} {fOk : Bool}
    (h : recordDestIn E db destIn vch = some (fOk, db')) :
    ∃ ws, Writes E ws db db' ∧ (∀ w ∈ ws, w.2 = vch) ∧
      (fOk = true → destIn.isTemplate = true → (destIn, vch) ∈ ws) := by
  unfold recordDestIn at h
  split_ifs at h with ht
  · split at h
    · cases h
    · cases h
      exact ⟨[], .nil _, by simp, by simp⟩
    · rename_i hrec
      cases h
      exact ⟨[(destIn, vch)], .cons hrec (.nil _), by simp, by simp⟩
  · cases h
    exact ⟨[], .nil _, by simp, fun _ hd => absurd hd ht⟩

/-- **What one transaction records.** -/
theorem updateTemplateTx_writes {fOk : Bool} (h : updateTemplateTx E db tx txContxt = some (fOk, db')) :
    ∃ ws, Writes E ws db db' ∧ (∀ w ∈ ws, w.2 <:+ tx.vchSig) ∧ (fOk = true → TxWrites (tx, txContxt) ws) := by
  unfold updateTemplateTx at h
  simp only at h
  by_cases hsig : tx.vchSig = []
  · rw [if_pos (by simpa using hsig)] at h
    cases h
    exact ⟨[], .nil _, by simp, fun _ => ⟨absurd hsig, absurd hsig⟩⟩
  rw [if_neg (by simpa using hsig)] at h
  by_cases hsend : (tx.sendTo.isTemplate && isDestInRecorded tx.sendTo) = true
  · rw [if_pos hsend] at h
    split at h
    · cases h
    · cases h
      exact ⟨[], .nil _, by simp, by simp⟩
    · rename_i t db1 hrec
      split at h
      · cases h
        exact ⟨[(tx.sendTo, tx.vchSig)], .cons hrec (.nil _), by simp, by simp⟩
      · rename_i dests v hsign
        have hv : DestInData tx v := by
          rw [DestInData, if_pos hsend]
          exact ⟨t, (dests, v), (recordTemplate_read hrec).1, hsign, rfl⟩
        obtain ⟨ws, hws, hbytes, hin⟩ := recordDestIn_writes h
        refine ⟨_, .cons hrec hws, List.forall_mem_cons.2 ⟨List.suffix_rfl, fun w hw => ?_⟩, fun hf =>
          ⟨fun _ _ => List.mem_cons_self, fun _ htempl => ⟨v, hv, List.mem_cons_of_mem _ (hin hf htempl)⟩⟩⟩
        rw [hbytes w hw]
        exact hv.suffix
  · rw [if_neg hsend] at h
    obtain ⟨ws, hws, hbytes, hin⟩ := recordDestIn_writes h
    refine ⟨ws, hws, fun w hw => ?_, fun hf => ⟨fun _ hrec => absurd ?_ hsend, fun _ htempl => ?_⟩⟩
    · rw [hbytes w hw]
    · rw [isTemplate_of_isDestInRecorded hrec, show isDestInRecorded tx.sendTo = true from hrec]
      rfl
    · exact ⟨tx.vchSig, by rw [DestInData, if_neg hsend], hin hf htempl⟩

theorem updateTemplateTxs_writes (l : List (CTransaction × CTxContxt)) {fOk : Bool}
    (h : updateTemplateTxs E l db = some (fOk, db')) :
    ∃ ws, Writes E ws db db' ∧ (∀ w ∈ ws, ∃ t ∈ l, w.2 <:+ t.1.vchSig) ∧ (fOk = true → ∀ t ∈ l, TxWrites t ws) := by
  fun_induction updateTemplateTxs E l db with
  | case1 =>
    cases h
    exact ⟨[], .nil _, by simp, by simp⟩
  | case2 => cases h
  | case3 db tx txContxt l db1 hone =>
    cases h
    obtain ⟨ws, hws, hbytes, -⟩ := updateTemplateTx_writes hone
    exact ⟨ws, hws, fun w hw => ⟨_, List.mem_cons_self, hbytes w hw⟩, by simp⟩
  | case4 db tx txContxt l db1 hone ih =>
    obtain ⟨ws, hws, hbytes, hin⟩ := updateTemplateTx_writes hone
    obtain ⟨ws', hws', hbytes', hin'⟩ := ih h
    refine ⟨ws ++ ws', hws.append hws', fun w hw => ?_, fun hf => List.forall_mem_cons.2 ⟨?_, fun t ht => ?_⟩⟩
    · rcases List.mem_append.1 hw with hw | hw
      · exact ⟨_, List.mem_cons_self, hbytes w hw⟩
      · exact (hbytes' w hw).imp fun t ht => ⟨List.mem_cons_of_mem _ ht.1, ht.2⟩
    · exact (hin rfl).mono (List.subset_append_left _ _)
    · exact (hin' hf t ht).mono (List.subset_append_right _ _)

/-- **What a block records**, with the address of its miner. -/
theorem updateTxTemplateData_writes {b : CBlockEx} {fOk : Bool}
    (h : updateTxTemplateData E db b = some (fOk, db')) :
    ∃ ws, Writes E ws db db' ∧ (∀ w ∈ ws, ∃ tx ∈ b.block.txMint :: b.block.vtx, w.2 <:+ tx.vchSig) ∧
      (fOk = true → (∀ t ∈ b.block.vtx.zip b.vTxContxt, TxWrites t ws) ∧
        (isDestInRecorded b.block.txMint.sendTo = true → (b.block.txMint.sendTo, b.block.txMint.vchSig) ∈ ws)) := by
  have hvtx : ∀ {w : CDestination × List UInt8}, (∃ t ∈ b.block.vtx.zip b.vTxContxt, w.2 <:+ t.1.vchSig) →
      ∃ tx ∈ b.block.txMint :: b.block.vtx, w.2 <:+ tx.vchSig := fun ⟨t, ht, hw⟩ =>
    ⟨t.1, List.mem_cons_of_mem _ (List.of_mem_zip ht).1, hw⟩
  unfold updateTxTemplateData at h
  simp only at h
  by_cases hmint : (b.block.txMint.sendTo.isTemplate && isDestInRecorded b.block.txMint.sendTo) = true
  · rw [if_pos hmint] at h
    split at h
    · cases h
    · cases h
      exact ⟨[], .nil _, by simp, by simp⟩
    · rename_i t db1 hrec
      obtain ⟨ws, hws, hbytes, hin⟩ := updateTemplateTxs_writes _ h
      refine ⟨_, .cons hrec hws, List.forall_mem_cons.2 ⟨⟨_, List.mem_cons_self, List.suffix_rfl⟩, fun w hw =>
        hvtx (hbytes w hw)⟩, fun hf => ⟨fun t ht => ?_, fun _ => List.mem_cons_self⟩⟩
      exact (hin hf t ht).mono (List.subset_cons_self _ _)
  · rw [if_neg hmint] at h
    obtain ⟨ws, hws, hbytes, hin⟩ := updateTemplateTxs_writes _ h
    refine ⟨ws, hws, fun w hw => hvtx (hbytes w hw), fun hf => ⟨hin hf, fun hrec => absurd ?_ hmint⟩⟩
    rw [isTemplate_of_isDestInRecorded hrec, hrec]
    rfl

/-- The addresses of one transaction are in the database. -/
def Recorded (db : TemplateDB) (t : CTransaction × CTxContxt) : Prop :=
  t.1.vchSig ≠ [] →
    (isDestInRecorded t.1.sendTo = true → db t.1.sendTo ≠ none) ∧
      (t.2.destIn.isTemplate = true → db t.2.destIn ≠ none)

theorem updateTxTemplateData_recorded {b : CBlockEx} {fOk : Bool}
    (h : updateTxTemplateData E db b = some (fOk, db')) :
    Records E db db' ∧ (fOk = true → (∀ t ∈ b.block.vtx.zip b.vTxContxt, Recorded db' t) ∧
      (isDestInRecorded b.block.txMint.sendTo = true → db' b.block.txMint.sendTo ≠ none)) := by
  obtain ⟨ws, hws, -, hall⟩ := updateTxTemplateData_writes h
  obtain ⟨hrec, hne⟩ := hws.records
  refine ⟨hrec, fun hf => ⟨fun t ht hsig => ⟨fun hto => ?_, fun hin => ?_⟩, fun hmint => hne _ ((hall hf).2 hmint)⟩⟩
  · exact hne _ (((hall hf).1 t ht).sendTo hsig hto)
  · obtain ⟨v, -, hmem⟩ := ((hall hf).1 t ht).destIn hsig hin
    exact hne _ hmem

end

end Minemon
