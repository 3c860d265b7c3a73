import Minemon.Run.Templates

/-!
# The store along a run

* `StoredChain`: the entries from a block back to the genesis block, each with its stored block.
* `StoreOK`: the invariant, with the file cursor beyond everything written.
* `StoreOK.touched`, `StoreOK.stored`, `StoreOK.commit`: the steps keep it.
* `Run`: sequences of calls of `AddNewBlock`, with a condition on the blocks they accept;
  `Run.invariant`: what accepted and rejected blocks keep holds along a run.
-/

namespace Minemon

open CBlockBase

structure Extends (E : Env) (s s' : CBlockBase) : Prop where
  index : ∀ h, s.mapIndex h ≠ [] → s'.mapIndex h = s.mapIndex h
  file : ∀ f o b, s.tsBlock f o = some b → s'.tsBlock f o = some b
  pledge : ∀ h, s.mapIndex h ≠ [] → s'.dbPledge h = s.dbPledge h
  redeem : ∀ h, s.mapIndex h ≠ [] → s'.dbRedeem h = s.dbRedeem h
  templ : Records E s.dbTemplateData s'.dbTemplateData

def genesisEntry (E : Env) : CBlockIndex :=
  newIndex E (hashGenesisBlock E) (getGenesisBlock E) 1 8 0 (getGenesisBlock E).getBlockMint []

/-- `b` is the stored block of the entry `p`, and it was accepted on top of `q :: l`. -/
structure StoredBlock (E : Env) (s : CBlockBase) (p q : CBlockIndex) (l : CBlockIndexPtr) (b : CBlockEx) :
    Prop where
  prev : b.block.hashPrev = q.hashBlock
  origin : b.block.isOrigin = false
  primary : b.block.isPrimary = true
  time : q.nTimeStamp ≤ b.block.nTimeStamp
  mint : PowRewardTx b.block q.nTimeStamp
  mint_nonneg : 0 ≤ b.block.getBlockMint
  entry : ∃ nChainTrust, p = newIndex E (b.block.getHash E) b.block p.nFile p.nOffset nChainTrust
    b.block.getBlockMint (q :: l)
  read : s.read p = some b
  templ : s.dbTemplateData b.block.txMint.sendTo ≠ none

/-- The entries of a chain, down to the genesis block. -/
inductive StoredChain (E : Env) (s : CBlockBase) : CBlockIndexPtr → Prop
  | genesis (index : s.mapIndex (hashGenesisBlock E) = [genesisEntry E])
      (read : s.read (genesisEntry E) = some { block := getGenesisBlock E }) :
      StoredChain E s [genesisEntry E]
  | step {p q : CBlockIndex} {l : CBlockIndexPtr} {b : CBlockEx} (hq : StoredChain E s (q :: l))
      (hb : StoredBlock E s p q l b) (index : s.mapIndex p.hashBlock = p :: q :: l) :
      StoredChain E s (p :: q :: l)

/-- Every written position is before the cursor. -/
def CursorOK (s : CBlockBase) : Prop :=
  ∀ f o b, s.tsBlock f o = some b → f < s.nLastFile ∨ f = s.nLastFile ∧ o < s.nLastFileSize

structure StoreOK (E : Env) (s : CBlockBase) : Prop where
  cursor : CursorOK s
  templ : ∀ d v, s.dbTemplateData d = some v → TemplateOK E d v
  fork : s.hashFork = hashGenesisBlock E
  genesis : s.mapIndex (hashGenesisBlock E) = [genesisEntry E]
  chain : ∀ h p l, s.mapIndex h = p :: l → p.hashBlock = h ∧ StoredChain E s (p :: l)
  last : ∃ p l, s.pIndexLast = p :: l ∧ s.mapIndex p.hashBlock = p :: l

theorem StoreOK.lastChain {E : Env} {s : CBlockBase} (hs : StoreOK E s) : StoredChain E s s.pIndexLast := by
  obtain ⟨q, l, hlast, hq⟩ := hs.last
  rw [hlast]
  exact (hs.chain _ _ _ hq).2

section

variable {E : Env} {s s' s'' : CBlockBase}

theorem Extends.refl (E : Env) (s : CBlockBase) : Extends E s s :=
  ⟨fun _ _ => rfl, fun _ _ _ h => h, fun _ _ => rfl, fun _ _ => rfl, .refl⟩

theorem Extends.trans (h : Extends E s s') (h' : Extends E s' s'') : Extends E s s'' := by
  have hindexed : ∀ x, s.mapIndex x ≠ [] → s'.mapIndex x ≠ [] := fun x hx => by rw [h.index x hx]; exact hx
  exact ⟨fun x hx => (h'.index x (hindexed x hx)).trans (h.index x hx), fun f o b hb => h'.file f o b (h.file f o b hb),
    fun x hx => (h'.pledge x (hindexed x hx)).trans (h.pledge x hx),
    fun x hx => (h'.redeem x (hindexed x hx)).trans (h.redeem x hx), h.templ.trans h'.templ⟩

variable {p q : CBlockIndex} {l ptr : CBlockIndexPtr} {b : CBlockEx}

theorem Extends.storedBlock (h : Extends E s s') (hb : StoredBlock E s p q l b) : StoredBlock E s' p q l b :=
  { hb with read := h.file _ _ _ hb.read, templ := h.templ.ne_none hb.templ }

theorem Extends.storedChain (h : Extends E s s') (hc : StoredChain E s ptr) : StoredChain E s' ptr := by
  induction hc with
  | genesis index read =>
    exact .genesis (by rw [h.index _ (by rw [index]; simp)]; exact index) (h.file _ _ _ read)
  | step hq hb index ih =>
    exact .step ih (h.storedBlock hb) (by rw [h.index _ (by rw [index]; simp)]; exact index)

/-! ## Entries -/

section

variable (h : StoredBlock E s p q l b)

include h

theorem StoredBlock.hashBlock : p.hashBlock = b.block.getHash E := by
  obtain ⟨_, hp⟩ := h.entry
  rw [hp]
  rfl

theorem StoredBlock.destMint : p.destMint = b.block.txMint.sendTo := by
  obtain ⟨_, hp⟩ := h.entry
  rw [hp]
  rfl

theorem StoredBlock.nTimeStamp : p.nTimeStamp = b.block.nTimeStamp := by
  obtain ⟨_, hp⟩ := h.entry
  rw [hp]
  rfl

theorem StoredBlock.blockHeight : b.block.getBlockHeight = getBlockHeightByHash q.hashBlock + 1 := by
  rw [CBlock.height_of_primary h.origin h.primary, h.prev]

theorem StoredBlock.nHeight : p.nHeight = b.block.getBlockHeight := by
  obtain ⟨_, hp⟩ := h.entry
  rw [hp]
  rfl

theorem StoredBlock.height : getBlockHeightByHash p.hashBlock = p.nHeight := by
  rw [h.hashBlock, h.nHeight, CBlock.height_getHash]

theorem StoredBlock.hashOrigin : p.hashOrigin = q.hashOrigin := by
  obtain ⟨_, hp⟩ := h.entry
  rw [hp]
  show (if b.block.isOrigin then _ else _) = _
  rw [h.origin]
  rfl

end

theorem genesisEntry_height (E : Env) : getBlockHeightByHash (genesisEntry E).hashBlock = (genesisEntry E).nHeight :=
  CBlock.height_getHash E _

theorem genesisEntry_nHeight (E : Env) : (genesisEntry E).nHeight = 0 := getGenesisBlock_height E

theorem Extends.read (h : Extends E s s') (hb : s.read p = some b) : s'.read p = some b := h.file _ _ _ hb

theorem Extends.read_eq (h : Extends E s s') (hp : (s.read p).isSome) : s'.read p = s.read p := by
  obtain ⟨b, hb⟩ := Option.isSome_iff_exists.1 hp
  rw [hb, h.read hb]

theorem Extends.chain {hash : ℕ} (hext : Extends E s s') (hp : s.mapIndex hash = p :: l) :
    s'.mapIndex hash = p :: l := by
  rw [hext.index _ (by rw [hp]; simp)]
  exact hp

theorem StoredChain.index (h : StoredChain E s (p :: l)) : s.mapIndex p.hashBlock = p :: l := by
  cases h with
  | genesis index _ => exact index
  | step _ _ index => exact index

theorem StoredChain.tail (h : StoredChain E s (p :: q :: l)) : StoredChain E s (q :: l) := by
  cases h with
  | step hq _ _ => exact hq

theorem StoredChain.height (h : StoredChain E s (p :: l)) : getBlockHeightByHash p.hashBlock = p.nHeight := by
  cases h with
  | genesis _ _ => exact genesisEntry_height E
  | step _ hb _ => exact hb.height

theorem StoredChain.nHeight_eq (h : StoredChain E s ptr) : ∀ p l, ptr = p :: l → p.nHeight = l.length := by
  induction h with
  | genesis _ _ =>
    rintro p l heq
    obtain ⟨rfl, rfl⟩ := List.cons.inj heq
    exact genesisEntry_nHeight E
  | @step p q l b hq hb _ ih =>
    rintro p' l' heq
    obtain ⟨rfl, rfl⟩ := List.cons.inj heq
    rw [hb.nHeight, hb.blockHeight, hq.height, ih q l rfl, List.length_cons]

theorem StoredChain.hashOrigin (h : StoredChain E s ptr) : ∀ p ∈ ptr, p.hashOrigin = hashGenesisBlock E := by
  induction h with
  | genesis _ _ =>
    intro p hp
    rw [List.mem_singleton.1 hp]
    rfl
  | step _ hb _ ih =>
    intro p hp
    rcases List.mem_cons.1 hp with rfl | hp
    · rw [hb.hashOrigin]
      exact ih _ List.mem_cons_self
    · exact ih p hp

theorem StoredChain.read (h : StoredChain E s ptr) : ∀ p ∈ ptr, (s.read p).isSome := by
  induction h with
  | genesis _ read =>
    intro p hp
    rw [List.mem_singleton.1 hp, read]
    rfl
  | step _ hb _ ih =>
    intro p hp
    rcases List.mem_cons.1 hp with rfl | hp
    · rw [hb.read]
      rfl
    · exact ih p hp

theorem StoredChain.suffix {ptr' : CBlockIndexPtr} (h : StoredChain E s ptr) (hsuf : ptr' <:+ ptr)
    (hne : ptr' ≠ []) : StoredChain E s ptr' := by
  induction h with
  | genesis index read =>
    rcases List.suffix_cons_iff.1 hsuf with rfl | hsuf
    · exact .genesis index read
    · exact absurd (List.suffix_nil.1 hsuf) hne
  | step hq hb index ih =>
    rcases List.suffix_cons_iff.1 hsuf with rfl | hsuf
    · exact .step hq hb index
    · exact ih hsuf

theorem StoredChain.read_genesis (h : StoredChain E s [p]) : s.read p = some { block := getGenesisBlock E } := by
  cases h with
  | genesis _ read => exact read

theorem StoredChain.genesis_mem (h : StoredChain E s ptr) : genesisEntry E ∈ ptr := by
  induction h with
  | genesis _ _ => exact List.mem_singleton_self _
  | step _ _ _ ih => exact List.mem_cons_of_mem _ ih

/-! ## Steps -/

section

variable {hash : ℕ}

theorem getSerializeSize_pos (b : CBlockEx) : 0 < b.getSerializeSize := by
  unfold CBlockEx.getSerializeSize CBlock.getSerializeSize CBlock.getTxSerializedOffset
  omega

theorem write_tsBlock (s : CBlockBase) (b : CBlockEx) (f o : ℕ) :
    (s.write b).2.tsBlock f o =
      if f = (s.write b).1.1 ∧ o = (s.write b).1.2 then some b else s.tsBlock f o := rfl

theorem write_pos (s : CBlockBase) (b : CBlockEx) :
    s.nLastFile < (s.write b).1.1 ∨ (s.write b).1.1 = s.nLastFile ∧ s.nLastFileSize < (s.write b).1.2 := by
  unfold write
  simp only
  split_ifs <;> omega

theorem write_cursor (s : CBlockBase) (b : CBlockEx) :
    (s.write b).2.nLastFile = (s.write b).1.1 ∧
      (s.write b).2.nLastFileSize = (s.write b).1.2 + b.getSerializeSize := ⟨rfl, rfl⟩

theorem CursorOK.write_free (h : CursorOK s) (b : CBlockEx) : s.tsBlock (s.write b).1.1 (s.write b).1.2 = none := by
  rw [Option.eq_none_iff_forall_ne_some]
  intro b' hb'
  have h1 := h _ _ _ hb'
  have h2 := write_pos s b
  omega

theorem CursorOK.write (h : CursorOK s) (b : CBlockEx) : CursorOK (s.write b).2 := by
  have hpos := getSerializeSize_pos b
  have h2 := write_pos s b
  intro f o b' hb'
  rw [write_tsBlock] at hb'
  rw [(write_cursor s b).1, (write_cursor s b).2]
  split_ifs at hb' with hfo
  · omega
  · have h1 := h f o b' hb'
    omega

theorem Touched.cursor (t : Touched E s hash b s') (h : CursorOK s) : CursorOK s' := by
  intro f o b' hb'
  rw [t.tsBlock] at hb'
  rw [t.nLastFile, t.nLastFileSize]
  exact h.write b f o b' hb'

theorem Touched.extends (t : Touched E s hash b s') (h : CursorOK s) (fresh : s.mapIndex hash = []) :
    Extends E s s' := by
  have hne : ∀ x, s.mapIndex x ≠ [] → x ≠ hash := by
    rintro x hx rfl
    exact hx fresh
  refine ⟨fun x hx => t.index x (hne x hx), fun f o b' hb' => ?_, fun x hx => t.pledge x (hne x hx),
    fun x hx => t.redeem x (hne x hx), ?_⟩
  · rw [t.tsBlock, write_tsBlock, if_neg ?_]
    · exact hb'
    · rintro ⟨rfl, rfl⟩
      rw [h.write_free b] at hb'
      simp at hb'
  · obtain ⟨fOk, ht⟩ := t.templ
    exact (updateTxTemplateData_recorded ht).1

theorem StoreOK.touched (hs : StoreOK E s) (t : Touched E s hash b s') (fresh : s.mapIndex hash = [])
    (hindex : s'.mapIndex = s.mapIndex) : StoreOK E s' := by
  have hext := t.extends hs.cursor fresh
  refine ⟨t.cursor hs.cursor, hext.templ.templateOK hs.templ, t.hashFork.trans hs.fork,
    by rw [hindex]; exact hs.genesis, fun h p l hp => ?_, ?_⟩
  · rw [hindex] at hp
    obtain ⟨h1, h2⟩ := hs.chain h p l hp
    exact ⟨h1, hext.storedChain h2⟩
  · obtain ⟨p, l, hl, hp⟩ := hs.last
    exact ⟨p, l, t.pIndexLast.trans hl, by rw [hindex]; exact hp⟩

end

theorem verifyBlock_ok {block : CBlock} {pPrev : CBlockIndexPtr}
    (h : verifyBlock E block p pPrev = some .OK) :
    block.isOrigin = false ∧ block.isPrimary = true ∧ p.nTimeStamp ≤ block.nTimeStamp := by
  unfold verifyBlock verifyProofOfWork at h
  by_cases h1 : block.isOrigin = true
  · rw [if_pos h1] at h
    exact absurd h (by decide)
  by_cases h2 : block.isPrimary = true
  swap
  · rw [if_neg h1, if_pos (by simpa using h2)] at h
    exact absurd h (by decide)
  by_cases h3 : p.isPrimary = true
  swap
  · rw [if_neg h1, if_neg (by simpa using h2), if_pos (by simpa using h3)] at h
    exact absurd h (by decide)
  by_cases h4 : block.nTimeStamp < p.nTimeStamp
  · rw [if_neg h1, if_neg (by simpa using h2), if_neg (by simpa using h3), if_pos h4] at h
    exact absurd h (by decide)
  · exact ⟨by simpa using h1, h2, not_lt.1 h4⟩

section

variable {nNetTime : ℤ} {c : CBlockChain} {block : CBlock} (a : Stored E nNetTime c block)

def Stored.entry : CBlockIndex :=
  newIndex E (block.getHash E) block (c.cntrBlock.write a.b).1.1 (c.cntrBlock.write a.b).1.2 a.nChainTrust
    block.getBlockMint (a.p :: a.pPrev)

theorem Stored.pIndexNew_eq : a.pIndexNew = a.entry :: a.p :: a.pPrev := by
  rw [a.added.entry]
  show newIndex E _ block _ _ _ _ (c.cntrBlock.mapIndex block.hashPrev) :: c.cntrBlock.mapIndex block.hashPrev = _
  rw [a.prev]
  rfl

theorem Stored.index : a.s1.mapIndex (block.getHash E) = a.pIndexNew := by
  rw [a.added.state]
  exact Function.update_self _ _ _

theorem Stored.read : a.s1.read a.entry = some a.b := by
  rw [a.added.state]
  exact (write_tsBlock _ _ _ _).trans (if_pos ⟨rfl, rfl⟩)

theorem isDestInRecorded_of_type {dest : CDestination} {nType : ℕ} (h : isTemplateOf dest nType = true)
    (hn : nType = TEMPLATE_PROOF ∨ nType = TEMPLATE_MINTPLEDGE) : isDestInRecorded dest = true := by
  simp only [isTemplateOf, Bool.and_eq_true, beq_iff_eq] at h
  rcases hn with rfl | rfl <;> simp [isDestInRecorded, h.1, h.2]

variable (hs : StoreOK E c.cntrBlock)

include hs

theorem Stored.extends : Extends E c.cntrBlock a.s1 := a.added.touched.extends hs.cursor a.added.fresh

theorem Stored.storedBlock : StoredBlock E a.s1 a.entry a.p a.pPrev a.b := by
  obtain ⟨h1, h2, h3⟩ := verifyBlock_ok a.verify
  have hprev := (hs.chain _ _ _ a.prev).1
  refine ⟨hprev.symm, h1, h2, h3, a.mint, a.added.mint, ⟨a.nChainTrust, rfl⟩, a.read, ?_⟩
  have hrec := (updateTxTemplateData_recorded a.added.templ).2 rfl
  rw [a.added.state]
  exact hrec.2 (isDestInRecorded_of_type a.mint.sendTo (Or.inl rfl))

theorem Stored.storedChain : StoredChain E a.s1 a.pIndexNew := by
  obtain ⟨-, hchain⟩ := hs.chain _ _ _ a.prev
  rw [a.pIndexNew_eq]
  refine .step ((a.extends hs).storedChain hchain) (a.storedBlock hs) ?_
  exact a.index.trans a.pIndexNew_eq

theorem StoreOK.stored : StoreOK E a.s1 := by
  have hext := a.extends hs
  have ht := a.added.touched
  have hgen : a.s1.mapIndex (hashGenesisBlock E) = [genesisEntry E] := by
    rw [hext.index _ (by rw [hs.genesis]; simp)]
    exact hs.genesis
  refine ⟨ht.cursor hs.cursor, hext.templ.templateOK hs.templ, ht.hashFork.trans hs.fork, hgen,
    fun h p l hp => ?_, ?_⟩
  · by_cases hh : h = block.getHash E
    · rw [hh, a.index] at hp
      have hchain := a.storedChain hs
      rw [hp] at hchain
      rw [a.pIndexNew_eq] at hp
      obtain ⟨rfl, rfl⟩ := List.cons.inj hp
      exact ⟨hh.symm, hchain⟩
    · rw [ht.index h hh] at hp
      obtain ⟨h1, h2⟩ := hs.chain h p l hp
      exact ⟨h1, hext.storedChain h2⟩
  · obtain ⟨p, l, hl, hp⟩ := hs.last
    exact ⟨p, l, ht.pIndexLast.trans hl, by rw [hext.index _ (by rw [hp]; simp)]; exact hp⟩

end

end

/-! ## Commit -/

section

variable {E : Env} {s s' : CBlockBase}

/-- **The answer of `GetBranch`**: a pointer that is on both chains, and the path above it. -/
theorem getBranchLoop_spec {fuel : ℕ} {pIndexRef pIndex : CBlockIndexPtr} {vPath : List CBlockIndexPtr}
    {r : CBlockIndexPtr × List CBlockIndexPtr} (h : getBranchLoop fuel pIndexRef pIndex vPath = some r) :
    (∃ x, x <:+ pIndexRef ∧ samePtr r.1 x = true) ∧
      (∃ up, pIndex = up ++ r.1 ∧ r.2.filterMap List.head? = vPath.filterMap List.head? ++ up) ∧
      (r.1 = [] → pIndexRef = [] ∧ pIndex = [] ∨
        ∃ q p, [q] <:+ pIndexRef ∧ [p] <:+ pIndex ∧ samePtr [p] [q] = false) := by
  fun_induction getBranchLoop fuel pIndexRef pIndex vPath with
  | case1 | case6 => cases h
  | case2 _ pIndexRef _ _ hsame =>
    cases h
    refine ⟨⟨pIndexRef, List.suffix_rfl, hsame⟩, ⟨[], rfl, by simp⟩, ?_⟩
    rintro rfl
    cases pIndexRef with
    | nil => exact Or.inl ⟨rfl, rfl⟩
    | cons q l => simp [samePtr] at hsame
  | case3 _ _ q l' p l _ _ ih =>
    obtain ⟨⟨x, hx, hsame⟩, hup, hnil⟩ := ih h
    refine ⟨⟨x, hx.trans (List.suffix_cons q l'), hsame⟩, hup, fun h0 => Or.inr ?_⟩
    obtain ⟨a, b, ha, hb, hne⟩ := (hnil h0).resolve_left (by simp)
    exact ⟨a, b, ha.trans (List.suffix_cons q l'), hb, hne⟩
  | case4 _ _ q l' p l _ _ _ ih =>
    obtain ⟨hx, ⟨up, hup, hpath⟩, hnil⟩ := ih h
    refine ⟨hx, ⟨p :: up, by rw [hup]; rfl, by rw [hpath, List.filterMap_append, List.append_assoc]; rfl⟩,
      fun h0 => Or.inr ?_⟩
    obtain ⟨a, b, ha, hb, hne⟩ := (hnil h0).resolve_left (by simp)
    exact ⟨a, b, ha, hb.trans (List.suffix_cons p l), hne⟩
  | case5 _ _ q l' p l _ _ hsame ih =>
    obtain ⟨⟨x, hx, hsame'⟩, ⟨up, hup, hpath⟩, hnil⟩ := ih h
    refine ⟨⟨x, hx.trans (List.suffix_cons q l'), hsame'⟩,
      ⟨p :: up, by rw [hup]; rfl, by rw [hpath, List.filterMap_append, List.append_assoc]; rfl⟩, fun h0 => Or.inr ?_⟩
    obtain ⟨rfl, rfl⟩ | ⟨a, b, ha, hb, hne⟩ := hnil h0
    · exact ⟨q, p, List.suffix_rfl, List.suffix_rfl, by simpa using hsame⟩
    · exact ⟨a, b, ha.trans (List.suffix_cons q l'), hb.trans (List.suffix_cons p l), hne⟩

theorem pathTxIndex_some {l : List CBlockIndex} (h : ∀ p ∈ l, (s.read p).isSome) : ∃ v, pathTxIndex E s l = some v := by
  induction l with
  | nil => exact ⟨[], rfl⟩
  | cons p l ih =>
    obtain ⟨b, hb⟩ := Option.isSome_iff_exists.1 (h p List.mem_cons_self)
    obtain ⟨v, hv⟩ := ih fun q hq => h q (List.mem_cons_of_mem _ hq)
    exact ⟨_, by rw [pathTxIndex, hb, hv]; rfl⟩

theorem commitBlockView_cases {view : CBlockView} {ptr : CBlockIndexPtr} {fOk : Bool}
    (hread : ∀ p ∈ ptr, (s.read p).isSome) (h : s.commitBlockView E view ptr = some (fOk, s')) :
    fOk = true ∧ ∃ vTxNew, getTxNewIndex E s ptr = some (some vTxNew) ∧
      s' = { s with
        dbTxIndex := updateTxIndex s.dbTxIndex vTxNew view.getTxRemoved
        dbUnspent := updateUnspent s.dbUnspent view.getUnspentChanges.1 view.getUnspentChanges.2
        pIndexLast := ptr } := by
  unfold commitBlockView at h
  cases hnew : getTxNewIndex E s ptr with
  | none => simp [hnew] at h
  | some o =>
    cases o with
    | none =>
      -- the path is part of the chain, and the chain is stored
      exfalso
      unfold getTxNewIndex at hnew
      split at hnew
      · simp at hnew
      · rename_i pBranch vPath hbranch
        have hpath : ∀ p ∈ (vPath.filterMap List.head?).reverse, (s.read p).isSome := by
          intro p hp
          obtain ⟨-, ⟨up, hup, hpath⟩, -⟩ := getBranchLoop_spec hbranch
          rw [List.mem_reverse, hpath] at hp
          exact hread p (by rw [hup]; exact List.mem_append_left _ hp)
        obtain ⟨v, hv⟩ := pathTxIndex_some (E := E) hpath
        rw [hv] at hnew
        simp at hnew
    | some vTxNew =>
      simp only [hnew, Option.some.injEq, Prod.mk.injEq] at h
      exact ⟨h.1.symm, vTxNew, rfl, h.2.symm⟩

theorem StoreOK.commit (hs : StoreOK E s) {p : CBlockIndex} {l : CBlockIndexPtr}
    (hp : s.mapIndex p.hashBlock = p :: l) {dbTxIndex : ℕ → Option CTxIndex}
    {dbUnspent : CTxOutPoint → Option CTxOut} :
    StoreOK E { s with dbTxIndex := dbTxIndex, dbUnspent := dbUnspent, pIndexLast := p :: l } := by
  have hext : Extends E s
      { s with dbTxIndex := dbTxIndex, dbUnspent := dbUnspent, pIndexLast := p :: l } :=
    ⟨fun _ _ => rfl, fun _ _ _ h => h, fun _ _ => rfl, fun _ _ => rfl, .refl⟩
  refine ⟨hs.cursor, hs.templ, hs.fork, hs.genesis, fun h q l' hq => ?_, ⟨p, l, rfl, hp⟩⟩
  obtain ⟨h1, h2⟩ := hs.chain h q l' hq
  exact ⟨h1, hext.storedChain h2⟩

end

/-! ## Runs -/

/-- The states that calls of `AddNewBlock` lead to. Every accepted block meets `P` in the state before the call. -/
inductive Run (E : Env) (P : CBlockChain → CBlock → Prop) : CBlockChain → Prop
  | genesis : Run E P (genesisChain E)
  | call {c c' : CBlockChain} (nNetTime : ℤ) (block : CBlock) (err : Errno) (h : Run E P c)
      (hadd : addNewBlock E nNetTime c block = some (err, c')) (hP : err = .OK → P c block) : Run E P c'

section

variable {E : Env} {P : CBlockChain → CBlock → Prop} {c c' : CBlockChain}

theorem genesis_mapIndex (E : Env) : (genesisChain E).cntrBlock.mapIndex =
    Function.update (fun _ => []) (hashGenesisBlock E) [genesisEntry E] := rfl

theorem genesis_storeOK (E : Env) : StoreOK E (genesisChain E).cntrBlock := by
  have hindex : (genesisChain E).cntrBlock.mapIndex (hashGenesisBlock E) = [genesisEntry E] := by
    rw [genesis_mapIndex, Function.update_self]
  have hread : (genesisChain E).cntrBlock.read (genesisEntry E) = some { block := getGenesisBlock E } := rfl
  refine ⟨fun f o b hb => ?_, fun d v hd => by simp [genesisChain, initiate] at hd, rfl, hindex,
    fun h p l hp => ?_, ⟨_, _, rfl, hindex⟩⟩
  · have hpos := getSerializeSize_pos { block := getGenesisBlock E }
    have hb' : (if f = 1 ∧ o = 8 then some ({ block := getGenesisBlock E } : CBlockEx) else none) = some b := hb
    split_ifs at hb' with hfo
    obtain ⟨rfl, rfl⟩ := hfo
    exact Or.inr ⟨rfl, Nat.lt_add_of_pos_right hpos⟩
  · by_cases hh : h = hashGenesisBlock E
    · subst hh
      rw [hindex] at hp
      obtain ⟨rfl, rfl⟩ := List.cons.inj hp
      exact ⟨rfl, .genesis hindex hread⟩
    · rw [genesis_mapIndex, Function.update_of_ne hh] at hp
      simp at hp

variable {block : CBlock} {nNetTime : ℤ}

theorem StoreOK.rejected (r : Rejected E c block c') (hs : StoreOK E c.cntrBlock) : StoreOK E c'.cntrBlock := by
  rcases r.store with heq | ⟨fresh, b, ht⟩
  · rw [heq]
    exact hs
  · exact hs.touched ht fresh r.index

theorem Rejected.extends (r : Rejected E c block c') (hs : StoreOK E c.cntrBlock) :
    Extends E c.cntrBlock c'.cntrBlock := by
  rcases r.store with heq | ⟨fresh, b, ht⟩
  · rw [heq]
    exact Extends.refl E _
  · exact ht.extends hs.cursor fresh

section

variable (a : Accepted E nNetTime c block c') (hs : StoreOK E c.cntrBlock)

include a hs

/-- An accepted block is stored; the commit changes the databases of the view and the last block. -/
theorem Accepted.state : ∃ dbTxIndex dbUnspent pIndexLast,
    c'.cntrBlock = { a.s1 with dbTxIndex := dbTxIndex, dbUnspent := dbUnspent, pIndexLast := pIndexLast } ∧
      (pIndexLast = a.s1.pIndexLast ∨ pIndexLast = a.pIndexNew) := by
  rcases a.final with ⟨-, heq⟩ | ⟨-, hcommit⟩
  · exact ⟨_, _, _, heq, Or.inl rfl⟩
  · obtain ⟨-, vTxNew, -, heq⟩ := commitBlockView_cases (a.toStored.storedChain hs).read hcommit
    exact ⟨_, _, _, heq, Or.inr rfl⟩

theorem StoreOK.accepted : StoreOK E c'.cntrBlock := by
  obtain ⟨_, _, pIndexLast, heq, hcases⟩ := a.state hs
  have h1 := hs.stored a.toStored
  have hlast : ∃ p l, pIndexLast = p :: l ∧ a.s1.mapIndex p.hashBlock = p :: l := by
    rcases hcases with rfl | rfl
    · exact h1.last
    · have hchain := a.toStored.storedChain hs
      rw [a.toStored.pIndexNew_eq] at hchain ⊢
      exact ⟨_, _, rfl, hchain.index⟩
  obtain ⟨p, l, rfl, hp⟩ := hlast
  rw [heq]
  exact h1.commit hp

theorem Accepted.extends_new : Extends E a.s1 c'.cntrBlock := by
  obtain ⟨_, _, _, heq, -⟩ := a.state hs
  rw [heq]
  exact ⟨fun _ _ => rfl, fun _ _ _ h => h, fun _ _ => rfl, fun _ _ => rfl, .refl⟩

theorem Accepted.extends : Extends E c.cntrBlock c'.cntrBlock := (a.toStored.extends hs).trans (a.extends_new hs)

theorem Accepted.mapIndex : c'.cntrBlock.mapIndex =
    Function.update c.cntrBlock.mapIndex (block.getHash E) (a.toStored.entry :: a.p :: a.pPrev) := by
  obtain ⟨_, _, _, heq, -⟩ := a.state hs
  rw [← a.toStored.pIndexNew_eq, heq]
  show a.s1.mapIndex = _
  rw [a.added.state]

theorem Accepted.databases : c'.cntrBlock.dbPledge = a.s1.dbPledge ∧ c'.cntrBlock.dbRedeem = a.s1.dbRedeem ∧
    c'.cntrBlock.dbTemplateData = a.s1.dbTemplateData := by
  obtain ⟨_, _, _, heq, -⟩ := a.state hs
  rw [heq]
  exact ⟨rfl, rfl, rfl⟩

theorem Accepted.chain_cases {hash : ℕ} {p : CBlockIndex} {l : CBlockIndexPtr}
    (hp : c'.cntrBlock.mapIndex hash = p :: l) : p :: l = a.pIndexNew ∨ c.cntrBlock.mapIndex hash = p :: l := by
  rw [a.mapIndex hs] at hp
  by_cases hh : hash = block.getHash E
  · rw [hh, Function.update_self] at hp
    exact Or.inl (by rw [← hp, a.toStored.pIndexNew_eq])
  · rw [Function.update_of_ne hh] at hp
    exact Or.inr hp

end

theorem addNewBlock_cases_ok {err : Errno} (hs : StoreOK E c.cntrBlock)
    (h : addNewBlock E nNetTime c block = some (err, c')) :
    (err = .OK ∧ Nonempty (Accepted E nNetTime c block c')) ∨ err ≠ .OK ∧ Rejected E c block c' := by
  rcases addNewBlock_cases h with hacc | ⟨hne, hrej | ⟨a, hcommit⟩⟩
  · exact Or.inl hacc
  · exact Or.inr ⟨hne, hrej⟩
  · exact absurd (commitBlockView_cases (a.storedChain hs).read hcommit).1 (by simp)

/-- **The store is in order along every run.** -/
theorem Run.storeOK (h : Run E P c) : StoreOK E c.cntrBlock := by
  induction h with
  | genesis => exact genesis_storeOK E
  | call nNetTime block err _ hadd _ ih =>
    rcases addNewBlock_cases_ok ih hadd with ⟨-, ⟨a⟩⟩ | ⟨-, r⟩
    · exact ih.accepted a
    · exact ih.rejected r

theorem Run.invariant {I : CBlockChain → Prop} (h0 : I (genesisChain E))
    (hacc : ∀ (c c' : CBlockChain) (nNetTime : ℤ) (block : CBlock), Run E P c →
      Accepted E nNetTime c block c' → P c block → I c → I c')
    (hrej : ∀ (c c' : CBlockChain) (block : CBlock), Run E P c → Rejected E c block c' → I c → I c')
    (h : Run E P c) : I c := by
  induction h with
  | genesis => exact h0
  | call nNetTime block err hrun hadd hP ih =>
    rcases addNewBlock_cases_ok hrun.storeOK hadd with ⟨hok, ⟨a⟩⟩ | ⟨-, r⟩
    · exact hacc _ _ nNetTime block hrun a (hP hok) ih
    · exact hrej _ _ block hrun r ih

/-- **Where a block comes from**: every block of the index but the first was accepted in an earlier state
of the run. -/
theorem Run.origin (h : Run E P c) {hash : ℕ} {p q : CBlockIndex} {l : CBlockIndexPtr}
    (hp : c.cntrBlock.mapIndex hash = p :: q :: l) :
    ∃ c0 c1 nNetTime block, ∃ a : Accepted E nNetTime c0 block c1, Run E P c0 ∧ P c0 block ∧
      a.pIndexNew = p :: q :: l ∧ Extends E a.s1 c.cntrBlock := by
  refine h.invariant (I := fun c => ∀ hash p q l, c.cntrBlock.mapIndex hash = p :: q :: l →
    ∃ c0 c1 nNetTime block, ∃ a : Accepted E nNetTime c0 block c1, Run E P c0 ∧ P c0 block ∧
      a.pIndexNew = p :: q :: l ∧ Extends E a.s1 c.cntrBlock) ?_ ?_ ?_ hash p q l hp
  · intro hash p q l hp
    rw [genesis_mapIndex] at hp
    by_cases hh : hash = hashGenesisBlock E
    · rw [hh, Function.update_self] at hp
      simp at hp
    · rw [Function.update_of_ne hh] at hp
      simp at hp
  · intro c c' nNetTime block hrun a hP ih hash p q l hp
    rcases a.chain_cases hrun.storeOK hp with heq | hold
    · exact ⟨c, c', nNetTime, block, a, hrun, hP, heq.symm, a.extends_new hrun.storeOK⟩
    · obtain ⟨c0, c1, t, b, a0, h1, h2, h3, h4⟩ := ih hash p q l hold
      exact ⟨c0, c1, t, b, a0, h1, h2, h3, h4.trans (a.extends hrun.storeOK)⟩
  · intro c c' block hrun r ih hash p q l hp
    rw [r.index] at hp
    obtain ⟨c0, c1, t, b, a0, h1, h2, h3, h4⟩ := ih hash p q l hp
    exact ⟨c0, c1, t, b, a0, h1, h2, h3, h4.trans (r.extends hrun.storeOK)⟩

theorem Run.everyBlock {Q : CBlockEx → Prop} (hgen : Q { block := getGenesisBlock E })
    (hstep : ∀ c nNetTime block (a : Stored E nNetTime c block), Run E P c → P c block → Q a.b)
    (h : Run E P c) {hash : ℕ} {ptr : CBlockIndexPtr} (hp : c.cntrBlock.mapIndex hash = ptr) :
    ∀ q ∈ ptr, ∀ b, c.cntrBlock.read q = some b → Q b := by
  intro q hq b hb
  obtain ⟨r, l, rfl⟩ := List.exists_cons_of_ne_nil (List.ne_nil_of_mem hq)
  have hchain := (h.storeOK.chain _ _ _ hp).2
  obtain ⟨above, l', heq⟩ := List.append_of_mem hq
  have hsuf : StoredChain E c.cntrBlock (q :: l') := hchain.suffix ⟨above, heq.symm⟩ (by simp)
  cases l' with
  | nil =>
    rw [hsuf.read_genesis] at hb
    obtain rfl := Option.some.inj hb
    exact hgen
  | cons q' l' =>
    obtain ⟨c0, c1, nNetTime, block, a, hrun, hP, hnew, hext⟩ := h.origin hsuf.index
    rw [a.toStored.pIndexNew_eq] at hnew
    obtain ⟨rfl, -⟩ := List.cons.inj hnew
    rw [hext.read a.toStored.read] at hb
    obtain rfl := Option.some.inj hb
    exact hstep c0 nNetTime block a.toStored hrun hP

end

end Minemon
