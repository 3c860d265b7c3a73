import Minemon.Mining.Difficulty
import Minemon.Utxo.Reorganise

/-!
# The heaviest chain

A block has its own trust and that of the block before it, and `AddNewBlock` moves the fork to a block unless the fork
has more of it.

* `Run.chainTrust`: the index records this work, and nothing is lost in 256 bits.
* `run_heaviest`: **no block of the index has more trust than the last block of the fork**.
* `runs_agree`: **nodes that store the same blocks agree on it**, whatever the order in which these came.
-/

namespace Minemon

open CBlockBase

/-! ## Work -/

/-- The hashes that a target asks for on average. -/
def targetWork (nBits : ℕ) : ℕ := 2 ^ 256 / (setCompact nBits + 1)

/-- The work of a chain, to which the genesis block adds nothing. -/
def chainWork : CBlockIndexPtr → ℕ
  | p :: q :: l => targetWork p.nProofBits + chainWork (q :: l)
  | _ => 0

section

variable {E : Env} {P P' : CBlockChain → CBlock → Prop} {c c' : CBlockChain} {hash : ℕ} {p q : CBlockIndex}
  {l ptr : CBlockIndexPtr}

theorem getBlockTrust_eq {block : CBlock} {nChainTrust : ℕ} (h : getBlockTrust block = some nChainTrust)
    (hok : TargetOK E block.nBits) : nChainTrust = targetWork block.nBits ∧ targetWork block.nBits < 2 ^ 201 := by
  have hup := nProofOfWorkUpperLimit_eq
  have hlow := nProofOfWorkLowerLimit_lt E
  have hupper := hok.upper
  have hlower := hok.lower
  unfold getBlockTrust at h
  split_ifs at h
  obtain rfl := Option.some.inj h
  unfold targetWork
  generalize setCompact block.nBits = T at *
  have hdiv : (2 ^ 256 - 1 - T) / (T + 1) + 1 = 2 ^ 256 / (T + 1) := by
    rw [← Nat.add_div_right _ T.succ_pos]
    congr 1
    omega
  have hlt : 2 ^ 256 / (T + 1) < 2 ^ 201 := by
    rw [Nat.div_lt_iff_lt_mul T.succ_pos]
    omega
  rw [Nat.mod_eq_of_lt (by omega : T + 1 < 2 ^ 256), hdiv]
  exact ⟨Nat.mod_eq_of_lt (by omega), hlt⟩

theorem Run.trust_step (h : Run E P c) (hp : c.cntrBlock.mapIndex hash = p :: q :: l) :
    p.nChainTrust = (targetWork p.nProofBits + q.nChainTrust) % 2 ^ 256 ∧ targetWork p.nProofBits < 2 ^ 201 := by
  obtain ⟨c0, c1, nNetTime, block, a, -, -, hnew, -⟩ := h.origin hp
  rw [a.toStored.pIndexNew_eq] at hnew
  obtain ⟨rfl, hprev⟩ := List.cons.inj hnew
  obtain ⟨rfl, rfl⟩ := List.cons.inj hprev
  have hpow : verifyProofOfWork E block a.p a.pPrev = some .OK := by
    have hverify := a.verify
    unfold verifyBlock at hverify
    split_ifs at hverify <;> simp_all
  obtain ⟨htrust, hlt⟩ := getBlockTrust_eq a.trust (verifyProofOfWork_ok hpow).range
  refine ⟨?_, hlt⟩
  change (a.nChainTrust + a.p.nChainTrust) % 2 ^ 256 = _
  rw [htrust]
  rfl

/-- **The trust of a chain is its work**, as long as heights are numbers of 32 bits. -/
theorem Run.chainTrust (h : Run E P c) (hchain : StoredChain E c.cntrBlock ptr) :
    ∀ p l, ptr = p :: l → p.nHeight < 2 ^ 32 → p.nChainTrust = chainWork ptr ∧ chainWork ptr ≤ p.nHeight * 2 ^ 201 := by
  induction hchain with
  | genesis =>
    rintro p l heq -
    obtain ⟨rfl, -⟩ := List.cons.inj heq
    exact ⟨rfl, Nat.zero_le _⟩
  | @step p q l b hq hb index ih =>
    rintro p' l' heq hlt
    obtain ⟨rfl, -⟩ := List.cons.inj heq
    have hheight : p.nHeight = q.nHeight + 1 := by
      rw [(StoredChain.step hq hb index).nHeight_eq p _ rfl, hq.nHeight_eq q l rfl, List.length_cons]
    obtain ⟨htrust, hle⟩ := ih q l rfl (by omega)
    obtain ⟨hstep, hwork⟩ := h.trust_step index
    rw [chainWork, hstep, htrust]
    have hsum : targetWork p.nProofBits + chainWork (q :: l) ≤ p.nHeight * 2 ^ 201 := by omega
    exact ⟨Nat.mod_eq_of_lt (by omega), hsum⟩

/-! ## The last block of the fork -/

section

variable {nNetTime : ℤ} {block : CBlock} {last : CBlockIndex} {lastPrev : CBlockIndexPtr}

/-- **The fork moves to an accepted block exactly if it has more trust** than the last block. -/
theorem Accepted.pIndexLast (a : Accepted E nNetTime c block c') (hs : StoreOK E c.cntrBlock)
    (hlast : c.cntrBlock.pIndexLast = last :: lastPrev) : c'.cntrBlock.pIndexLast =
      if last.nChainTrust < a.toStored.entry.nChainTrust then a.pIndexNew else last :: lastPrev := by
  have hlast' : a.s1.pIndexLast = last :: lastPrev := a.added.touched.pIndexLast.trans hlast
  -- the block is new and not a vacant one, so that it is equivalent to no other
  have hhash : block.getHash E ≠ last.hashBlock := by
    intro heq
    obtain ⟨p, l, hp, hindex⟩ := hs.last
    obtain ⟨rfl, -⟩ := List.cons.inj (hlast.symm.trans hp)
    rw [← heq, a.added.fresh] at hindex
    simp at hindex
  have hvacant : block.nType ≠ CBlock.BLOCK_VACANT := by
    have hprimary := (verifyBlock_ok a.verify).2.1
    simp only [CBlock.isPrimary, beq_iff_eq] at hprimary
    unfold CBlock.BLOCK_VACANT
    omega
  have hequiv : isEquivalent (last :: lastPrev) a.pIndexNew = false := by
    rw [a.toStored.pIndexNew_eq, isEquivalent]
    simp only [Stored.entry, newIndex, if_neg hhash, hvacant, ne_eq, not_false_eq_true, decide_true, Bool.true_or,
      if_true]
  have hshort : isShortChain a.s1.pIndexLast a.pIndexNew =
      decide (a.toStored.entry.nChainTrust ≤ last.nChainTrust) := by
    rw [hlast']
    rw [a.toStored.pIndexNew_eq] at hequiv ⊢
    rw [isShortChain, hequiv]
    grind
  rcases a.final with ⟨htrue, heq⟩ | ⟨hfalse, hcommit⟩
  · rw [hshort, decide_eq_true_eq] at htrue
    rw [heq, hlast', if_neg (not_lt.2 htrue)]
  · rw [hshort, decide_eq_false_iff_not, not_le] at hfalse
    obtain ⟨-, _, -, heq⟩ := commitBlockView_cases (a.toStored.storedChain hs).read hcommit
    rw [heq, if_pos hfalse]

end

theorem Run.le_last (h : Run E P c) : ∀ hash p l, c.cntrBlock.mapIndex hash = p :: l →
    ∀ last lastPrev, c.cntrBlock.pIndexLast = last :: lastPrev → p.nChainTrust ≤ last.nChainTrust := by
  refine Run.invariant (I := fun c => ∀ hash p l, c.cntrBlock.mapIndex hash = p :: l →
    ∀ last lastPrev, c.cntrBlock.pIndexLast = last :: lastPrev → p.nChainTrust ≤ last.nChainTrust) ?_ ?_ ?_ h
  · intro hash p l hp last lastPrev hlast
    obtain ⟨rfl, -⟩ := List.cons.inj (show [genesisEntry E] = _ from hlast)
    rw [genesis_mapIndex, Function.update_apply] at hp
    split_ifs at hp
    obtain ⟨rfl, -⟩ := List.cons.inj hp
    exact le_rfl
  · intro c c' nNetTime block hrun a _ ih hash p l hp last lastPrev hlast
    have hs := hrun.storeOK
    obtain ⟨fork, forkPrev, hfork, -⟩ := hs.last
    have hp' : p = a.toStored.entry ∨ p.nChainTrust ≤ fork.nChainTrust := by
      rcases a.chain_cases hs hp with hp | hp
      · rw [a.toStored.pIndexNew_eq] at hp
        exact .inl (List.cons.inj hp).1
      · exact .inr (ih hash p l hp _ _ hfork)
    rw [a.pIndexLast hs hfork, a.toStored.pIndexNew_eq] at hlast
    split_ifs at hlast with hmore <;> obtain ⟨rfl, -⟩ := List.cons.inj hlast <;> rcases hp' with rfl | hle <;> omega
  · intro c c' block _ r ih
    have hlast : c'.cntrBlock.pIndexLast = c.cntrBlock.pIndexLast := by
      rcases r.store with heq | ⟨-, _, ht⟩
      · rw [heq]
      · exact ht.pIndexLast
    rw [r.index, hlast]
    exact ih

/-- **The fork follows the most work**: no block has more trust than its last block, and trust is the work of a chain.
-/
theorem run_heaviest (h : Run E P c) :
    ∃ last lastPrev, c.cntrBlock.pIndexLast = last :: lastPrev ∧
      c.cntrBlock.mapIndex last.hashBlock = last :: lastPrev ∧
      ∀ hash p l, c.cntrBlock.mapIndex hash = p :: l → p.nChainTrust ≤ last.nChainTrust ∧
        (p.nHeight < 2 ^ 32 → p.nChainTrust = chainWork (p :: l)) := by
  obtain ⟨last, lastPrev, hlast, hindex⟩ := h.storeOK.last
  refine ⟨last, lastPrev, hlast, hindex, fun hash p l hp => ⟨h.le_last hash p l hp _ _ hlast, fun hheight => ?_⟩⟩
  exact (h.chainTrust (h.storeOK.chain hash p l hp).2 p l rfl hheight).1

/-- The chain after blocks that are all accepted. -/
def toyDeliver : List CBlock → CBlockChain → Option CBlockChain
  | [], c => some c
  | block :: l, c =>
    match addNewBlock toyEnv block.nTimeStamp c block with
    | some (.OK, c') => toyDeliver l c'
    | _ => none

theorem RunOver.toyDeliver {l : List CBlock} {c c' : CBlockChain} {S : CBlock → Prop}
    (h : RunOver toyEnv S (fun _ _ => True) c) (hS : ∀ block ∈ l, S block) (hrun : Minemon.toyDeliver l c = some c') :
    RunOver toyEnv S (fun _ _ => True) c' := by
  fun_induction Minemon.toyDeliver l c with
  | case1 =>
    cases hrun
    exact h
  | case2 _ _ _ _ hadd ih =>
    exact ih (.call _ _ .OK h (hS _ List.mem_cons_self) hadd fun _ => trivial)
      (fun b hb => hS b (List.mem_cons_of_mem _ hb)) hrun
  | case3 => cases hrun

/-- A block on the genesis block that is a minute later than `toyFirstBlock`. -/
def toyRival : CBlock :=
  workBlock toyEnv toyMiner (hashGenesisBlock toyEnv) GENESIS_TIME (GENESIS_TIME + 120)
    (getCompact (nProofOfWorkInit toyEnv)) 0 []

def toyRivalNext : CBlock :=
  workBlock toyEnv toyMiner (toyRival.getHash toyEnv) toyRival.nTimeStamp (toyRival.nTimeStamp + 60)
    (getCompact (nProofOfWorkInit toyEnv)) 0 []

/-- The fork leaves its first block for two others. -/
theorem run_heaviest_toy :
    ∃ c last lastPrev, Run toyEnv (fun _ _ => True) c ∧ c.cntrBlock.pIndexLast = last :: lastPrev ∧
      last.hashBlock = toyRivalNext.getHash toyEnv ∧
      ∀ p l, c.cntrBlock.mapIndex (toyFirstBlock.getHash toyEnv) = p :: l → p.nChainTrust ≤ last.nChainTrust := by
  obtain ⟨c, hc, htip⟩ := exists_some_of_any
    (o := toyDeliver [toyFirstBlock, toyRival, toyRivalNext] (genesisChain toyEnv))
    (P := fun c => toyTipHash c = toyRivalNext.getHash toyEnv) (by decide +kernel)
  have hrun := (RunOver.genesis.toyDeliver (fun _ _ => trivial) hc : RunOver toyEnv (fun _ => True) _ c).run
  obtain ⟨last, lastPrev, hlast, -, hmost⟩ := run_heaviest hrun
  rw [toyTipHash, hlast] at htip
  exact ⟨c, last, lastPrev, hrun, hlast, htip, fun p l hp => (hmost _ p l hp).1⟩

/-! ## Two nodes -/

/-- `GetBlock`: the stored block of an index entry. -/
def CBlockChain.getBlock (c : CBlockChain) (hash : ℕ) : Option CBlock :=
  (c.cntrBlock.mapIndex hash).head?.bind fun p => (c.cntrBlock.read p).map CBlockEx.block

section

variable (h : Run E P c) (h' : Run E P' c') (hsame : ∀ hash, c.getBlock hash = c'.getBlock hash)

include h h' hsame

theorem Run.same_trust (hchain : StoredChain E c.cntrBlock ptr) :
    ∀ p l p' l', ptr = p :: l → c'.cntrBlock.mapIndex p.hashBlock = p' :: l' → p.nChainTrust = p'.nChainTrust := by
  induction hchain with
  | genesis =>
    intro p l p' l' heq hp'
    obtain ⟨rfl, -⟩ := List.cons.inj heq
    rw [show (genesisEntry E).hashBlock = hashGenesisBlock E from rfl, h'.storeOK.genesis] at hp'
    rw [(List.cons.inj hp').1]
  | @step p q l b hq hb index ih =>
    intro p0 l0 p' l' heq hp'
    obtain ⟨rfl, -⟩ := List.cons.inj heq
    obtain ⟨-, hchain'⟩ := h'.storeOK.chain _ _ _ hp'
    cases hchain' with
    | genesis =>
      rw [show p.hashBlock = hashGenesisBlock E from (h'.storeOK.chain _ _ _ hp').1.symm, h.storeOK.genesis] at index
      simp at index
    | @step _ q' l' b' hq' hb' _ =>
      have hblock := hsame p.hashBlock
      simp only [CBlockChain.getBlock, index, hp', List.head?_cons, Option.bind_some, hb.read, hb'.read,
        Option.map_some, Option.some.injEq] at hblock
      have hprev : q.hashBlock = q'.hashBlock := by rw [← hb.prev, ← hb'.prev, hblock]
      have hbits : p.nProofBits = p'.nProofBits := by
        obtain ⟨_, hentry⟩ := hb.entry
        obtain ⟨_, hentry'⟩ := hb'.entry
        rw [hentry, hentry', newIndex, newIndex, hblock]
      have htrust := ih q l q' l' rfl (by rw [hprev]; exact hq'.index)
      rw [(h.trust_step index).1, (h'.trust_step hp').1, hbits, htrust]

theorem Run.same_block (hp : c.cntrBlock.mapIndex hash = p :: l) : ∃ p' l', c'.cntrBlock.mapIndex hash = p' :: l' ∧
    p'.hashBlock = p.hashBlock ∧ p'.nChainTrust = p.nChainTrust := by
  obtain ⟨hhash, hchain⟩ := h.storeOK.chain _ _ _ hp
  obtain ⟨b, hb⟩ := Option.isSome_iff_exists.1 (hchain.read p List.mem_cons_self)
  cases hp' : c'.cntrBlock.mapIndex hash with
  | nil =>
    have hblock := hsame hash
    simp [CBlockChain.getBlock, hp, hp', hb] at hblock
  | cons p' l' =>
    refine ⟨p', l', rfl, (h'.storeOK.chain _ _ _ hp').1.trans hhash.symm, ?_⟩
    exact (h.same_trust h' hsame hchain p l p' l' rfl (by rw [hhash]; exact hp')).symm

/-- **Nodes that store the same blocks agree** on the trust of the last block, and on the block if no other has as
much. -/
theorem runs_agree :
    ∃ last l last' l', c.cntrBlock.pIndexLast = last :: l ∧ c'.cntrBlock.pIndexLast = last' :: l' ∧
      last.nChainTrust = last'.nChainTrust ∧
      ((∀ hash p l, c.cntrBlock.mapIndex hash = p :: l → p.nChainTrust = last.nChainTrust →
        p.hashBlock = last.hashBlock) → last.hashBlock = last'.hashBlock) := by
  obtain ⟨last, l, hlast, hindex⟩ := h.storeOK.last
  obtain ⟨last', l', hlast', hindex'⟩ := h'.storeOK.last
  obtain ⟨p', _, hp', -, hle⟩ := h.same_block h' hsame hindex
  obtain ⟨p, _, hp, hhash, hge⟩ := h'.same_block h (fun hash => (hsame hash).symm) hindex'
  have hmost := h.le_last _ _ _ hp _ _ hlast
  have hmost' := h'.le_last _ _ _ hp' _ _ hlast'
  refine ⟨last, l, last', l', hlast, hlast', by omega, fun halone => ?_⟩
  rw [← hhash, halone _ p _ hp (by omega)]

end

/-- The same three blocks in two orders: one node leaves the first block, the other never has it on its chain. -/
theorem runs_agree_toy :
    ∃ c c' last l last' l', toyDeliver [toyFirstBlock, toyRival, toyRivalNext] (genesisChain toyEnv) = some c ∧
      toyDeliver [toyRival, toyRivalNext, toyFirstBlock] (genesisChain toyEnv) = some c' ∧
      c.cntrBlock.pIndexLast = last :: l ∧ c'.cntrBlock.pIndexLast = last' :: l' ∧
      last.nChainTrust = last'.nChainTrust ∧ last.hashBlock = last'.hashBlock := by
  let blocks := [toyFirstBlock, toyRival, toyRivalNext]
  let hashes := hashGenesisBlock toyEnv :: blocks.map (CBlock.getHash toyEnv)
  obtain ⟨⟨c, c'⟩, hcc, hblocks, halone⟩ := exists_some_of_any
    (o := (toyDeliver [toyFirstBlock, toyRival, toyRivalNext] (genesisChain toyEnv)).bind fun c =>
      (toyDeliver [toyRival, toyRivalNext, toyFirstBlock] (genesisChain toyEnv)).map fun c' => (c, c'))
    (P := fun x => (∀ h ∈ hashes, x.1.getBlock h = x.2.getBlock h) ∧
      ∀ h ∈ hashes, ∀ p ∈ x.1.cntrBlock.mapIndex h, ∀ last ∈ x.1.cntrBlock.pIndexLast.head?,
        p.nChainTrust = last.nChainTrust → p.hashBlock = last.hashBlock) (by decide +kernel)
  obtain ⟨c, hc, hcc⟩ := Option.bind_eq_some_iff.1 hcc
  obtain ⟨c', hc', heq⟩ := Option.map_eq_some_iff.1 hcc
  obtain ⟨rfl, rfl⟩ := Prod.mk.inj heq
  have hover : RunOver toyEnv (· ∈ blocks) (fun _ _ => True) c := RunOver.genesis.toyDeliver (fun _ hb => hb) hc
  have hover' : RunOver toyEnv (· ∈ blocks) (fun _ _ => True) c' :=
    RunOver.genesis.toyDeliver
      (fun _ hb => (@List.perm_append_comm _ [toyRival, toyRivalNext] [toyFirstBlock]).subset hb) hc'
  have hsame : ∀ hash, c.getBlock hash = c'.getBlock hash := by
    intro hash
    by_cases hmem : hash ∈ hashes
    · exact hblocks hash hmem
    · have hnone : c.cntrBlock.mapIndex hash = [] := by_contra fun hne => hmem (hover.hashes hash hne)
      have hnone' : c'.cntrBlock.mapIndex hash = [] := by_contra fun hne => hmem (hover'.hashes hash hne)
      simp [CBlockChain.getBlock, hnone, hnone']
  obtain ⟨last, l, last', l', hlast, hlast', htrust, htip⟩ := runs_agree hover.run hover'.run hsame
  refine ⟨c, c', last, l, last', l', hc, hc', hlast, hlast', htrust, htip fun hash p l hp heq => ?_⟩
  have hmem : hash ∈ hashes := hover.hashes hash (by rw [hp]; simp)
  exact halone hash hmem p (by rw [hp]; simp) last (by rw [hlast]; rfl) heq

end

end Minemon
