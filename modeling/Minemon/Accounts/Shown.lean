import Minemon.Run.Pledges
import Minemon.Service.Work

/-!
# Templates that blocks show

The data of a template stands in the signature of a transaction before the node records it. Every template
that the node reads for a pledge address was shown by a block that was delivered to it, with the identifier
of the address.

* `ShownAt`, `RunOver.shown`: where recorded data comes from.
-/

namespace Minemon

open CBlockBase

/-- The template can be read from the signature of a transaction of the block, or from an end of it. -/
def Shows (block : CBlock) (t : CTemplate) : Prop :=
  ∃ tx ∈ block.txMint :: block.vtx, ∃ vch, vch <:+ tx.vchSig ∧ createTemplatePtr t.nType vch = some (some t)

/-- A template with the identifier and the type of the address, shown by one of the blocks in `S`. -/
structure ShownAt (E : Env) (S : CBlock → Prop) (dest : CDestination) (t : CTemplate) : Prop where
  shown : ∃ block, S block ∧ Shows block t
  id : t.getTemplateId E = dest.getTemplateId
  read : ∃ vch, createTemplatePtr dest.templateType vch = some (some t)

/-- All recorded data is that of a shown template. -/
def DbShown (E : Env) (S : CBlock → Prop) (db : TemplateDB) : Prop :=
  ∀ dest data, db dest = some data → ∃ t, ShownAt E S dest t ∧ data = t.buildTemplateData

section

variable {E : Env} {S : CBlock → Prop} {db db' : TemplateDB} {block : CBlock}

variable {vch : List UInt8} {t : CTemplate} {dest : CDestination} {tx : CTransaction} {pledge : CTemplateMintPledge}

theorem createTemplatePtr_nType {nType : ℕ} (h : createTemplatePtr nType vch = some (some t)) : t.nType = nType :=
  CTemplate.setTemplateData_nType (createTemplatePtr_eq_some.1 h).1

/-! ## What a transaction records -/

structure SigShown (E : Env) (S : CBlock → Prop) (t : CTransaction × CTxContxt) : Prop where
  sendTo : t.1.vchSig ≠ [] → isDestInRecorded t.1.sendTo = true →
    ∀ u, createTemplatePtr t.1.sendTo.templateType t.1.vchSig = some (some u) → ShownAt E S t.1.sendTo u
  destIn : t.1.vchSig ≠ [] → t.2.destIn.isTemplate = true → ∀ v, DestInData t.1 v →
    ∀ u, createTemplatePtr t.2.destIn.templateType v = some (some u) → ShownAt E S t.2.destIn u

/-- **What a block records is shown.** -/
theorem DbShown.writes {ws : List (CDestination × List UInt8)} (h : DbShown E S db) (hw : Writes E ws db db')
    (hS : ∀ w ∈ ws, ∃ block, S block ∧ ∃ tx ∈ block.txMint :: block.vtx, w.2 <:+ tx.vchSig) :
    DbShown E S db' ∧ ∀ w ∈ ws, ∀ u, createTemplatePtr w.1.templateType w.2 = some (some u) → ShownAt E S w.1 u := by
  induction hw with
  | nil => exact ⟨h, by simp⟩
  | @cons dest vch t l db db1 db' hone hl ih =>
    obtain ⟨block, hblock, tx, htx, hvch⟩ := hS _ List.mem_cons_self
    obtain ⟨hread, hid, rfl⟩ := recordTemplate_read hone
    have ht : ShownAt E S dest t :=
      ⟨⟨block, hblock, tx, htx, vch, hvch, by rwa [createTemplatePtr_nType hread]⟩, hid, vch, hread⟩
    have hdb : DbShown E S (Function.update db dest (some t.buildTemplateData)) := by
      intro d data hd
      by_cases he : d = dest
      · rw [he, Function.update_self] at hd
        rw [he]
        exact ⟨t, ht, (Option.some.inj hd).symm⟩
      · rw [Function.update_of_ne he] at hd
        exact h d data hd
    obtain ⟨hdb', hshown⟩ := ih hdb fun w hw => hS w (List.mem_cons_of_mem _ hw)
    refine ⟨hdb', fun w hw u hu => ?_⟩
    rcases List.mem_cons.1 hw with rfl | hw
    · rw [hread] at hu
      rw [← Option.some.inj (Option.some.inj hu)]
      exact ht
    · exact hshown w hw u hu

theorem updateTxTemplateData_shown (hS : S block) {vTxContxt : List CTxContxt} {fOk : Bool} (h : DbShown E S db)
    (hup : updateTxTemplateData E db ⟨block, vTxContxt⟩ = some (fOk, db')) :
    DbShown E S db' ∧ (fOk = true → ∀ t ∈ block.vtx.zip vTxContxt, SigShown E S t) := by
  obtain ⟨ws, hws, hbytes, hall⟩ := updateTxTemplateData_writes hup
  obtain ⟨hdb, hshown⟩ := h.writes hws fun w hw => ⟨block, hS, hbytes w hw⟩
  refine ⟨hdb, fun hf t ht => ⟨fun hsig hto => hshown _ (((hall hf).1 t ht).sendTo hsig hto), ?_⟩⟩
  intro hsig hin v hv
  obtain ⟨v', hv', hmem⟩ := ((hall hf).1 t ht).destIn hsig hin
  rw [hv.unique hv']
  exact hshown _ hmem

/-! ## The templates of pledges -/

theorem DbShown.read (h : DbShown E S db) (htype : dest.templateType = TEMPLATE_MINTPLEDGE)
    {data : List UInt8} (hdata : db dest = some data)
    (hread : createMintPledgePtr data = some (some pledge)) : ShownAt E S dest (.mintpledge pledge) := by
  obtain ⟨t, ht, rfl⟩ := h dest data hdata
  obtain ⟨vch, hvch⟩ := ht.read
  rw [htype] at hvch
  obtain ⟨p, rfl, hagain⟩ := createTemplatePtr_mintpledge hvch
  rw [createMintPledgePtr_some hread] at hagain
  rw [Option.some.inj (Option.some.inj hagain)]
  exact ht

theorem pledgeTemplate_shown (h : DbShown E S db)
    (htype : dest.templateType = TEMPLATE_MINTPLEDGE)
    (hvch : vch ≠ [] → ∀ u, createTemplatePtr dest.templateType vch = some (some u) → ShownAt E S dest u)
    (hp : pledgeTemplate db dest vch = some (some pledge)) : ShownAt E S dest (.mintpledge pledge) := by
  unfold pledgeTemplate at hp
  cases hdata : db dest with
  | none =>
    simp only [hdata] at hp
    split_ifs at hp with hempty
    · simp at hp
    · split at hp
      · simp at hp
      · refine hvch (by simpa using hempty) _ ?_
        rw [htype]
        exact createMintPledgePtr_some hp
  | some data =>
    simp only [hdata] at hp
    split_ifs at hp with hempty
    · exact h.read htype hdata hp
    · split at hp
      · exact h.read htype hdata hp
      · refine hvch (by simpa using hempty) _ ?_
        rw [htype]
        exact createMintPledgePtr_some hp

end

/-! ## Along a run -/

/-- A run of `AddNewBlock` over blocks in `S`, accepted or not; the accepted ones meet `P`. -/
inductive RunOver (E : Env) (S : CBlock → Prop) (P : CBlockChain → CBlock → Prop) : CBlockChain → Prop
  | genesis : RunOver E S P (genesisChain E)
  | call {c c' : CBlockChain} (nNetTime : ℤ) (block : CBlock) (err : Errno) (h : RunOver E S P c) (hS : S block)
      (hadd : addNewBlock E nNetTime c block = some (err, c')) (hP : err = .OK → P c block) : RunOver E S P c'

section

variable {E : Env} {S : CBlock → Prop} {P : CBlockChain → CBlock → Prop} {c : CBlockChain}

theorem RunOver.run (h : RunOver E S P c) : Run E P c := by
  induction h with
  | genesis => exact .genesis
  | call nNetTime block err _ _ hadd hP ih => exact .call nNetTime block err ih hadd hP

theorem RunOver.invariant {I : CBlockChain → Prop} (h0 : I (genesisChain E))
    (hacc : ∀ (c c' : CBlockChain) (nNetTime : ℤ) (block : CBlock), RunOver E S P c →
      Accepted E nNetTime c block c' → S block → P c block → I c → I c')
    (hrej : ∀ (c c' : CBlockChain) (block : CBlock), RunOver E S P c → Rejected E c block c' → S block → I c → I c')
    (h : RunOver E S P c) : I c := by
  induction h with
  | genesis => exact h0
  | call nNetTime block err hrun hS hadd hP ih =>
    rcases addNewBlock_cases_ok hrun.run.storeOK hadd with ⟨herr, ⟨a⟩⟩ | ⟨-, r⟩
    · exact hacc _ _ nNetTime block hrun a hS (hP herr) ih
    · exact hrej _ _ block hrun r hS ih

/-- **All recorded data is that of a template that a delivered block shows.** -/
theorem RunOver.shown (h : RunOver E S P c) : DbShown E S c.cntrBlock.dbTemplateData := by
  refine h.invariant (I := fun c => DbShown E S c.cntrBlock.dbTemplateData) ?_ ?_ ?_
  · intro dest data hd
    simp [genesisChain, initiate] at hd
  · intro c c' nNetTime block hrun a hS _ ih
    rw [(a.databases hrun.run.storeOK).2.2, a.added.dbTemplateData]
    exact (updateTxTemplateData_shown hS ih a.added.templ).1
  · intro c c' block hrun r hS ih
    rcases r.store with heq | ⟨-, vTxContxt, ht⟩
    · rw [heq]
      exact ih
    · obtain ⟨fOk, hup⟩ := ht.templ
      exact (updateTxTemplateData_shown hS ih hup).1

theorem RunOver.toyRun {Q : CBlockChain → CBlock → Bool} (hQ : ∀ c block, Q c block = true → P c block)
    {c c' : CBlockChain} (l : List ToyPlan) {blocks : List CBlock} (h : RunOver toyEnv S P c)
    (hrun : Minemon.toyRun Q l c = some (c', blocks)) (hS : ∀ block ∈ blocks, S block) : RunOver toyEnv S P c' := by
  fun_induction Minemon.toyRun Q l c generalizing blocks with
  | case1 =>
    cases hrun
    exact h
  | case2 _ _ _ hx _ hadd ih =>
    obtain ⟨⟨c2, blocks'⟩, hrest, heq⟩ := Option.map_eq_some_iff.1 hrun
    obtain ⟨rfl, rfl⟩ := Prod.mk.inj heq
    exact ih (.call _ _ .OK h (hS _ List.mem_cons_self) hadd fun _ => hQ _ _ hx) hrest
      fun b hb => hS b (List.mem_cons_of_mem _ hb)
  | case3 | case4 => cases hrun

/-- A run on planned blocks to a chain with a property that can be evaluated. -/
theorem RunOver.exists_toyRun {Q : CBlockChain → CBlock → Bool} (hQ : ∀ c block, Q c block = true → P c block)
    (l : List ToyPlan) {f : CBlockChain × List CBlock → Bool}
    (h : (Minemon.toyRun Q l (genesisChain toyEnv)).any f = true) :
    ∃ (c : CBlockChain) (blocks : List CBlock), RunOver toyEnv (· ∈ blocks) P c ∧ f (c, blocks) = true ∧
      ∃ p l, c.cntrBlock.pIndexLast = p :: l ∧ c.cntrBlock.mapIndex (toyTipHash c) = p :: l := by
  obtain ⟨⟨c, blocks⟩, hrun, hf⟩ := (Option.any_eq_true _ _).1 h
  have hover : RunOver toyEnv (· ∈ blocks) P c := RunOver.genesis.toyRun hQ l hrun fun _ hb => hb
  obtain ⟨p, l, hlast, hp⟩ := hover.run.storeOK.last
  exact ⟨c, blocks, hover, hf, p, l, hlast, by rw [toyTipHash, hlast]; exact hp⟩

end

end Minemon
