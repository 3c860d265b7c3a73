import Minemon.Run.Store

/-!
# Pledges along a run

Every block of the index has its pledges in the database. An incremental context refers to another
block of the index, and everyone who pledges is a pledge address whose template is recorded.

* `PledgeKeys`: a property of all the addresses that pledge; the operations of the database keep it.
* `PledgeOK`, `Run.pledgeOK`: the invariant.
-/

namespace Minemon

open CBlockBase

/-! ## Addresses that pledge -/

def PowKeys (P : CDestination → Prop) (m : PowPledges) : Prop := ∀ d v, m.find? d = some v → P d

def PledgeKeys (P : CDestination → Prop) (m : PledgeMap) : Prop :=
  ∀ dest pow, m.find? dest = some pow → PowKeys P pow

section

variable {P Q : CDestination → Prop}

theorem powKeys_empty : PowKeys P OrdMap.empty := fun d v hd => by simp at hd

theorem pledgeKeys_empty : PledgeKeys P OrdMap.empty := fun d v hd => by simp at hd

section

variable {m inc : PowPledges} (h : PowKeys P m)

include h

theorem PowKeys.imp (hPQ : ∀ d, P d → Q d) : PowKeys Q m := fun d v hd => hPQ d (h d v hd)

theorem PowKeys.upsert {d : CDestination} (hd : P d) (f : Option (ℤ × ℕ) → ℤ × ℕ) : PowKeys P (m.upsert d f) := by
  intro k v hk
  rw [OrdMap.find?_upsert] at hk
  split_ifs at hk with heq
  · rw [heq]
    exact hd
  · exact h k v hk

theorem PowKeys.mem {vd : CDestination × (ℤ × ℕ)} (hvd : vd ∈ m.toList) : P vd.1 :=
  h vd.1 vd.2 (OrdMap.find?_eq_some.2 hvd)

theorem PowKeys.addPowPledges (hinc : PowKeys P inc) : PowKeys P (addPowPledges m inc) := by
  unfold Minemon.addPowPledges
  exact List.foldlRecOn _ _ h fun m' hm' vd hvd => hm'.upsert (hinc.mem hvd) _

end

section

variable {m inc : PledgeMap} (h : PledgeKeys P m)

include h

theorem PledgeKeys.imp (hPQ : ∀ d, P d → Q d) : PledgeKeys Q m := fun dest pow hd => (h dest pow hd).imp hPQ

theorem PledgeKeys.getD (dest : CDestination) : PowKeys P ((m.find? dest).getD OrdMap.empty) := by
  cases hf : m.find? dest with
  | none => exact powKeys_empty
  | some pow => exact h dest pow hf

theorem PledgeKeys.upsert (dest : CDestination)
    {f : Option PowPledges → PowPledges} (hf : PowKeys P (f (m.find? dest))) : PledgeKeys P (m.upsert dest f) := by
  intro k pow hk
  rw [OrdMap.find?_upsert] at hk
  split_ifs at hk with heq
  · rw [← Option.some.inj hk]
    exact hf
  · exact h k pow hk

theorem PledgeKeys.mem {kv : CDestination × PowPledges} (hkv : kv ∈ m.toList) : PowKeys P kv.2 :=
  h kv.1 kv.2 (OrdMap.find?_eq_some.2 hkv)

theorem PledgeKeys.addIncPledge (hinc : PledgeKeys P inc) : PledgeKeys P (addIncPledge m inc) := by
  unfold Minemon.addIncPledge
  refine List.foldlRecOn _ _ h fun m' hm' kv hkv => ?_
  split_ifs
  · exact hm'
  · exact hm'.upsert kv.1 ((hm'.getD kv.1).addPowPledges (hinc.mem hkv))

theorem PledgeKeys.clearEmpty : PledgeKeys P (clearEmpty m) := by
  unfold Minemon.clearEmpty
  refine List.foldlRecOn _ _ pledgeKeys_empty fun m' hm' kv hkv => ?_
  simp only
  split_ifs
  · exact hm'
  · refine hm'.upsert kv.1 fun d v hd => ?_
    rw [OrdMap.find?_filter, Option.filter_eq_some_iff] at hd
    exact h.mem hkv d v hd.1

theorem PledgeKeys.changePledge (destPowMint : CDestination)
    {dest : CDestination} (hd : P dest) (f : ℤ × ℕ → ℤ × ℕ) : PledgeKeys P (changePledge m destPowMint dest f) :=
  h.upsert destPowMint ((h.getD destPowMint).upsert hd _)

end

end

/-! ## The pledges of a block -/

def PledgeAddress (db : TemplateDB) (dest : CDestination) : Prop :=
  isTemplateOf dest TEMPLATE_MINTPLEDGE = true ∧ db dest ≠ none

section

variable {db : TemplateDB} {dest : CDestination}

theorem pledgeTemplate_nil {pledge : CTemplateMintPledge}
    (h : pledgeTemplate db dest [] = some (some pledge)) : db dest ≠ none := by
  intro hnone
  simp [pledgeTemplate, hnone] at h

theorem isTemplateOf_type {nType : ℕ} (h : isTemplateOf dest nType = true) :
    dest.isTemplate = true ∧ dest.templateType = nType := by
  simpa [isTemplateOf] using h

variable {m m' : PledgeMap} {nHeight : ℕ} {tx : CTransaction} {txContxt : CTxContxt}

/-- The change that `UpdatePledge` makes on the spending side, for the template it found. -/
def changeDestIn (m : PledgeMap) (tx : CTransaction) (txContxt : CTxContxt) :
    Option (Option CTemplateMintPledge) → Option (Option PledgeMap)
  | none => none
  | some none => some none
  | some (some pledge) =>
    some (some (changePledge m pledge.destPowMint txContxt.destIn fun md =>
      (wrap64 (md.1 - wrap64 (tx.nAmount + tx.nTxFee)), md.2)))

theorem pledgeSendTo_cases (h : pledgeSendTo db nHeight m tx txContxt = some (some m')) :
    isTemplateOf tx.sendTo TEMPLATE_MINTPLEDGE = false ∧ m' = m ∨
      isTemplateOf tx.sendTo TEMPLATE_MINTPLEDGE = true ∧
        ∃ pledge, pledgeTemplate db tx.sendTo tx.vchSig = some (some pledge) ∧
          m' = changePledge m pledge.destPowMint tx.sendTo fun md => (wrap64 (md.1 + tx.nAmount),
            if tx.nType ≠ CTransaction.TX_STAKE && !txContxt.destIn.isNull then nHeight else md.2) := by
  unfold pledgeSendTo at h
  by_cases htype : isTemplateOf tx.sendTo TEMPLATE_MINTPLEDGE = true
  · rw [if_pos htype] at h
    right
    split at h
    · simp at h
    · simp at h
    · rename_i pledge hp
      exact ⟨htype, pledge, hp, (Option.some.inj (Option.some.inj h)).symm⟩
  · rw [if_neg htype] at h
    exact Or.inl ⟨by simpa using htype, (Option.some.inj (Option.some.inj h)).symm⟩

theorem pledgeDestIn_cases (h : pledgeDestIn db m tx txContxt = some (some m')) :
    isTemplateOf txContxt.destIn TEMPLATE_MINTPLEDGE = false ∧ m' = m ∨
      isTemplateOf txContxt.destIn TEMPLATE_MINTPLEDGE = true ∧
        ∃ v pledge, DestInData tx v ∧ pledgeTemplate db txContxt.destIn v = some (some pledge) ∧
          m' = changePledge m pledge.destPowMint txContxt.destIn fun md =>
            (wrap64 (md.1 - wrap64 (tx.nAmount + tx.nTxFee)), md.2) := by
  unfold pledgeDestIn at h
  simp only at h
  by_cases htype : isTemplateOf txContxt.destIn TEMPLATE_MINTPLEDGE = true
  · right
    rw [if_pos htype] at h
    suffices hchange : ∃ v, DestInData tx v ∧
        changeDestIn m tx txContxt (pledgeTemplate db txContxt.destIn v) = some (some m') by
      obtain ⟨v, hv, hm'⟩ := hchange
      rcases hp : pledgeTemplate db txContxt.destIn v with _ | _ | pledge
      · simp [hp, changeDestIn] at hm'
      · simp [hp, changeDestIn] at hm'
      · rw [hp] at hm'
        exact ⟨htype, v, pledge, hv, hp, (Option.some.inj (Option.some.inj hm')).symm⟩
    by_cases hsend : (tx.sendTo.isTemplate && isDestInRecorded tx.sendTo) = true
    · rw [if_pos hsend] at h
      split at h
      · simp at h
      · simp at h
      · rename_i t hread
        split at h
        · simp at h
        · rename_i dests v hsign
          refine ⟨v, ?_, h⟩
          unfold DestInData
          rw [if_pos hsend]
          exact ⟨t, (dests, v), hread, hsign, rfl⟩
    · rw [if_neg hsend] at h
      refine ⟨_, ?_, h⟩
      unfold DestInData
      rw [if_neg hsend]
  · rw [if_neg htype] at h
    exact Or.inl ⟨by simpa using htype, (Option.some.inj (Option.some.inj h)).symm⟩

theorem pledgeSendTo_keys (h : pledgeSendTo db nHeight m tx txContxt = some (some m'))
    (hrec : Recorded db (tx, txContxt)) (hm : PledgeKeys (PledgeAddress db) m) : PledgeKeys (PledgeAddress db) m' := by
  rcases pledgeSendTo_cases h with ⟨-, rfl⟩ | ⟨htype, pledge, hpledge, rfl⟩
  · exact hm
  · refine hm.changePledge _ ⟨htype, ?_⟩ _
    by_cases hsig : tx.vchSig = []
    · rw [hsig] at hpledge
      exact pledgeTemplate_nil hpledge
    · exact (hrec hsig).1 (isDestInRecorded_of_type htype (Or.inr rfl))

theorem pledgeDestIn_keys (h : pledgeDestIn db m tx txContxt = some (some m')) (hrec : Recorded db (tx, txContxt))
    (hm : PledgeKeys (PledgeAddress db) m) : PledgeKeys (PledgeAddress db) m' := by
  rcases pledgeDestIn_cases h with ⟨-, rfl⟩ | ⟨htype, v, pledge, hv, hpledge, rfl⟩
  · exact hm
  · refine hm.changePledge _ ⟨htype, ?_⟩ _
    by_cases hsig : tx.vchSig = []
    · have hsuffix := hv.suffix
      rw [hsig] at hsuffix
      rw [List.suffix_nil.1 hsuffix] at hpledge
      exact pledgeTemplate_nil hpledge
    · exact (hrec hsig).2 (isTemplateOf_type htype).1

/-- **Everyone who pledges in a block is a recorded pledge address.** -/
theorem blockPledges_keys (l : List (CTransaction × CTxContxt))
    (h : blockPledges db nHeight l m = some (some m')) (hrec : ∀ t ∈ l, Recorded db t)
    (hm : PledgeKeys (PledgeAddress db) m) : PledgeKeys (PledgeAddress db) m' := by
  fun_induction blockPledges db nHeight l m with
  | case1 =>
    cases h
    exact hm
  | case2 | case3 | case4 | case5 => cases h
  | case6 _ _ _ _ _ h1 _ h2 ih =>
    have ht := hrec _ List.mem_cons_self
    exact ih h (fun t' ht' => hrec t' (List.mem_cons_of_mem _ ht'))
      (pledgeDestIn_keys h2 ht (pledgeSendTo_keys h1 ht hm))

end

/-! ## The database -/

/-- A context that refers to a block of the index, or to none. -/
structure ContextOK (s : CBlockBase) (ctxt : CPledgeContext) : Prop where
  ref : ctxt.hashRef = 0 ∨ s.mapIndex ctxt.hashRef ≠ []
  keys : PledgeKeys (PledgeAddress s.dbTemplateData) ctxt.mapPledge

def PledgeOK (s : CBlockBase) : Prop :=
  ∀ h, s.mapIndex h ≠ [] → ∃ ctxt, s.dbPledge h = some ctxt ∧ ContextOK s ctxt

section

variable {E : Env} {s s' : CBlockBase}

theorem PledgeAddress.mono {db db' : TemplateDB} (h : Records E db db') (d : CDestination)
    (hd : PledgeAddress db d) : PledgeAddress db' d := ⟨hd.1, h.ne_none hd.2⟩

theorem Extends.contextOK (h : Extends E s s') {ctxt : CPledgeContext} (hc : ContextOK s ctxt) : ContextOK s' ctxt :=
  ⟨hc.ref.imp_right fun hne => by rw [h.index _ hne]; exact hne, hc.keys.imp (PledgeAddress.mono h.templ)⟩

theorem contextOK_default : ContextOK s {} := ⟨Or.inl rfl, pledgeKeys_empty⟩

section

variable {h : ℕ} (hs : PledgeOK s)

include hs

theorem PledgeOK.getPledge (hh : h = 0 ∨ s.mapIndex h ≠ []) :
    ∃ ctxt, getPledge s.dbPledge h = some ctxt ∧ ContextOK s ctxt := by
  unfold Minemon.getPledge
  by_cases h0 : h = 0
  · rw [if_pos h0]
    exact ⟨{}, rfl, contextOK_default⟩
  · rw [if_neg h0]
    exact hs h (hh.resolve_left h0)

theorem PledgeOK.getFullPledge (hh : s.mapIndex h ≠ []) :
    ∃ ctxt, getFullPledge s.dbPledge h = some ctxt ∧ ctxt.hashRef = 0 ∧ ContextOK s ctxt := by
  obtain ⟨ctxt, hctxt, hok⟩ := hs.getPledge (Or.inr hh)
  unfold Minemon.getFullPledge
  rw [hctxt]
  simp only
  by_cases h0 : ctxt.hashRef = 0
  · rw [if_pos h0]
    exact ⟨ctxt, rfl, h0, hok⟩
  · obtain ⟨ref, href, hrok⟩ := hs.getPledge (Or.inr (hok.ref.resolve_left h0))
    rw [if_neg h0, href]
    exact ⟨_, rfl, rfl, Or.inl rfl, hrok.keys.addIncPledge hok.keys⟩

theorem PledgeOK.addBlockPledge {hash hashPrev : ℕ} {m : PledgeMap} {ctxt : CPledgeContext}
    (hprev : s.mapIndex hashPrev ≠ []) (h : addBlockPledge E s.dbPledge hash hashPrev m = some ctxt)
    (hext : Extends E s s') (hm : PledgeKeys (PledgeAddress s'.dbTemplateData) m) : ContextOK s' ctxt := by
  have hindexed : s'.mapIndex hashPrev ≠ [] := by rw [hext.index _ hprev]; exact hprev
  unfold Minemon.addBlockPledge at h
  split_ifs at h
  · obtain ⟨full, hfull, h0, hok⟩ := hs.getFullPledge hprev
    unfold getFullBlockPledge at h
    rw [hfull] at h
    obtain rfl := Option.some.inj h
    exact ⟨Or.inl h0, ((hext.contextOK hok).keys.addIncPledge hm).clearEmpty⟩
  · obtain ⟨prev, hctxt, hok⟩ := hs.getPledge (Or.inr hprev)
    unfold getIncrementBlockPledge at h
    rw [hctxt] at h
    simp only at h
    split_ifs at h with h0
    · obtain rfl := Option.some.inj h
      exact ⟨Or.inr hindexed, pledgeKeys_empty.addIncPledge hm⟩
    · obtain rfl := Option.some.inj h
      exact ⟨(hext.contextOK hok).ref, (hext.contextOK hok).keys.addIncPledge hm⟩

theorem PledgeOK.getPowPledgeList (hh : s.mapIndex h ≠ []) (dest : CDestination) :
    ∃ l, getPowPledgeList E s.dbPledge h dest = some l ∧ PowKeys (PledgeAddress s.dbTemplateData) l := by
  obtain ⟨ctxt, hctxt, hok⟩ := hs h hh
  unfold Minemon.getPowPledgeList
  rw [hctxt]
  by_cases h0 : h = 0
  · rw [if_pos h0]
    exact ⟨_, rfl, powKeys_empty⟩
  rw [if_neg h0]
  by_cases hfull : isFullPledge E h = true
  · simp only [hfull, if_true]
    exact ⟨_, rfl, hok.keys.getD dest⟩
  by_cases href : ctxt.hashRef = 0
  · simp only [hfull, href, if_true]
    exact ⟨_, rfl, powKeys_empty.addPowPledges (hok.keys.getD dest)⟩
  · obtain ⟨ref, hr, hrok⟩ := hs _ (hok.ref.resolve_left href)
    simp only [hfull, href, hr]
    exact ⟨_, rfl, (hrok.keys.getD dest).addPowPledges (hok.keys.getD dest)⟩

theorem PledgeOK.of_extends (hext : Extends E s s') (hh : s.mapIndex h ≠ []) :
    ∃ ctxt, s'.dbPledge h = some ctxt ∧ ContextOK s' ctxt := by
  obtain ⟨ctxt, hctxt, hok⟩ := hs h hh
  exact ⟨ctxt, by rw [hext.pledge h hh]; exact hctxt, hext.contextOK hok⟩

end

/-! ## Along a run -/

theorem genesis_pledgeOK (E : Env) : PledgeOK (genesisChain E).cntrBlock := by
  intro h hh
  have hdb : (genesisChain E).cntrBlock.dbPledge =
      Function.update (fun _ => none) (hashGenesisBlock E) (some {}) := rfl
  by_cases he : h = hashGenesisBlock E
  · exact ⟨{}, by rw [hdb, he, Function.update_self], contextOK_default⟩
  · rw [genesis_mapIndex, Function.update_of_ne he] at hh
    exact absurd rfl hh

variable {c c' : CBlockChain}

theorem PledgeOK.rejected (hs : PledgeOK c.cntrBlock) {block : CBlock} (r : Rejected E c block c')
    (hok : StoreOK E c.cntrBlock) : PledgeOK c'.cntrBlock := by
  intro h hh
  rw [r.index] at hh
  exact hs.of_extends (r.extends hok) hh

theorem PledgeOK.accepted (hs : PledgeOK c.cntrBlock) {nNetTime : ℤ} {block : CBlock}
    (a : Accepted E nNetTime c block c') (hok : StoreOK E c.cntrBlock) : PledgeOK c'.cntrBlock := by
  have hext := a.extends hok
  have hprev : c.cntrBlock.mapIndex block.hashPrev ≠ [] := by rw [a.prev]; simp
  have hdb := a.databases hok
  intro h hh
  by_cases he : h = block.getHash E
  · refine ⟨a.added.ctxtPledge, ?_, ?_⟩
    · rw [hdb.1, a.added.dbPledge, he, Function.update_self]
    · refine hs.addBlockPledge hprev a.added.pledge hext ?_
      have hrec := (updateTxTemplateData_recorded a.added.templ).2 rfl
      have hkeys := blockPledges_keys _ a.added.pledges hrec.1 pledgeKeys_empty
      rw [hdb.2.2, a.added.dbTemplateData]
      exact hkeys
  · rw [a.mapIndex hok, Function.update_of_ne he] at hh
    exact hs.of_extends hext hh

/-- **The pledges are in order along every run.** -/
theorem Run.pledgeOK {P : CBlockChain → CBlock → Prop} (h : Run E P c) : PledgeOK c.cntrBlock :=
  h.invariant (I := fun c => PledgeOK c.cntrBlock) (genesis_pledgeOK E)
    (fun _ _ _ _ hrun a _ ih => ih.accepted a hrun.storeOK)
    (fun _ _ _ hrun r ih => ih.rejected r hrun.storeOK)

end

/-! ## What does not change -/

section

variable {E : Env} {s s' : CBlockBase} {h : ℕ} (hext : Extends E s s') (hh : s.mapIndex h ≠ [])

include hext hh

theorem Extends.getPowPledgeList (hs : PledgeOK s) (dest : CDestination) :
    getPowPledgeList E s'.dbPledge h dest = getPowPledgeList E s.dbPledge h dest := by
  obtain ⟨ctxt, hctxt, hok⟩ := hs h hh
  unfold Minemon.getPowPledgeList
  rw [hext.pledge h hh, hctxt]
  by_cases h0 : ctxt.hashRef = 0
  · simp only [h0, if_true]
  · simp only [if_neg h0, hext.pledge _ (hok.ref.resolve_left h0)]

theorem Extends.getBlockMoneySupply : getBlockMoneySupply s' h = getBlockMoneySupply s h := by
  unfold Minemon.getBlockMoneySupply
  rw [hext.index h hh]

theorem Extends.getPledgeMinMaxValue : getPledgeMinMaxValue E s' h = getPledgeMinMaxValue E s h := by
  unfold Minemon.getPledgeMinMaxValue
  rw [hext.getBlockMoneySupply hh]

theorem Extends.calcPledgeRewardValue (t m n : ℤ) :
    calcPledgeRewardValue s' h t m n = calcPledgeRewardValue s h t m n := by
  unfold Minemon.calcPledgeRewardValue surplusReward
  rw [hext.getBlockMoneySupply hh]

theorem Extends.getMintPledgeData (hs : PledgeOK s) (dest : CDestination) (m n : ℤ) :
    getMintPledgeData E s' h dest m n = getMintPledgeData E s h dest m n := by
  unfold Minemon.getMintPledgeData
  rw [hext.getPowPledgeList hh hs]

/-- **What the pledges at a block earn does not change.** -/
theorem Extends.getMintPledgeReward (hs : PledgeOK s) (dest : CDestination) :
    getMintPledgeReward E s' h dest = getMintPledgeReward E s h dest := by
  unfold Minemon.getMintPledgeReward
  simp only [hext.getPledgeMinMaxValue hh, hext.getMintPledgeData hh hs, hext.calcPledgeRewardValue hh]

end

end Minemon
