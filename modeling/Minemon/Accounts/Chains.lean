import Minemon.Accounts.Deltas
import Minemon.Redeem.Entries

/-!
# The databases of pledges and redeems along a run

Along every run both databases hold the fold of what the blocks of each chain change, and so the readers give,
for every block of the index, a recursion over the chain of the block that knows nothing of contexts.

* `LedgersOK`, `RunOver.ledgersOK`: the two databases in every state of a run.
* `chainPledge`, `chainRedeem`: what the chain of a block makes of an address.
-/

namespace Minemon

open CBlockBase

/-! ## The index as a tree -/

/-- The tree of a database over the index: each block with its parent, and with data that fits it. -/
structure IndexTree {D : Type} (s : CBlockBase) (fits : CBlockEx → D → Prop) (T : Snapshot.Tree ℕ D) : Prop where
  dom : ∀ h, T h ≠ none ↔ s.mapIndex h ≠ []
  root : ∀ h p, s.mapIndex h = [p] → ∃ d b, T h = some (0, d) ∧ s.read p = some b ∧ fits b d
  node : ∀ h p q l, s.mapIndex h = p :: q :: l →
    ∃ d b, T h = some (q.hashBlock, d) ∧ s.read p = some b ∧ fits b d

section

variable {E : Env} {D : Type} {fits : CBlockEx → D → Prop} {T : Snapshot.Tree ℕ D} {c c' : CBlockChain}
  {nNetTime : ℤ} {block : CBlock} {d : D}

theorem IndexTree.genesis (hd : fits { block := getGenesisBlock E } d) :
    IndexTree (genesisChain E).cntrBlock fits (Function.update (fun _ => none) (hashGenesisBlock E) (some (0, d))) := by
  have hindex : ∀ {h p l}, (genesisChain E).cntrBlock.mapIndex h = p :: l →
      h = hashGenesisBlock E ∧ p :: l = [genesisEntry E] := by
    intro h p l hp
    rw [genesis_mapIndex, Function.update_apply] at hp
    split_ifs at hp with hh
    exact ⟨hh, hp.symm⟩
  refine ⟨fun h => ?_, fun h p hp => ?_, fun h p q l hp => ?_⟩
  · rw [genesis_mapIndex, Function.update_apply, Function.update_apply]
    split_ifs <;> simp
  · obtain ⟨rfl, heq⟩ := hindex hp
    obtain rfl := List.singleton_inj.1 heq
    exact ⟨d, _, Function.update_self _ _ _, rfl, hd⟩
  · exact absurd (hindex hp).2 (by simp)

theorem IndexTree.mono {s s' : CBlockBase} (h : IndexTree s fits T) (hext : Extends E s s')
    (hindex : s'.mapIndex = s.mapIndex) : IndexTree s' fits T := by
  refine ⟨fun x => by rw [hindex]; exact h.dom x, fun x p hp => ?_, fun x p q l hp => ?_⟩
  · rw [hindex] at hp
    obtain ⟨d, b, h1, h2, h3⟩ := h.root x p hp
    exact ⟨d, b, h1, hext.read h2, h3⟩
  · rw [hindex] at hp
    obtain ⟨d, b, h1, h2, h3⟩ := h.node x p q l hp
    exact ⟨d, b, h1, hext.read h2, h3⟩

theorem IndexTree.accepted (h : IndexTree c.cntrBlock fits T) (hs : StoreOK E c.cntrBlock)
    (a : Accepted E nNetTime c block c') (hd : fits a.b d) :
    IndexTree c'.cntrBlock fits (Function.update T (block.getHash E) (some (block.hashPrev, d))) := by
  have hext := a.extends hs
  refine ⟨fun x => ?_, fun x p hp => ?_, fun x p q l hp => ?_⟩
  · rw [a.mapIndex hs, Function.update_apply, Function.update_apply]
    split_ifs
    · simp
    · exact h.dom x
  · rw [a.mapIndex hs, Function.update_apply] at hp
    split_ifs at hp with hx
    · simp at hp
    · obtain ⟨d', b, h1, h2, h3⟩ := h.root x p hp
      exact ⟨d', b, (Function.update_of_ne hx _ _).trans h1, hext.read h2, h3⟩
  · rw [a.mapIndex hs, Function.update_apply] at hp
    split_ifs at hp with hx
    · obtain ⟨rfl, rfl, -⟩ : a.toStored.entry = p ∧ a.p = q ∧ a.pPrev = l := by simpa using hp
      refine ⟨d, a.b, ?_, (a.extends_new hs).read a.toStored.read, hd⟩
      rw [hx, Function.update_self, (hs.chain _ _ _ a.prev).1]
    · obtain ⟨d', b, h1, h2, h3⟩ := h.node x p q l hp
      exact ⟨d', b, (Function.update_of_ne hx _ _).trans h1, hext.read h2, h3⟩

/-- **A fold along the paths is a recursion over the chains.** -/
theorem IndexTree.holds {C M O : Type} {S : Snapshot.Scheme ℕ C M D O} {s : CBlockBase} {db : ℕ → Option C}
    (h : IndexTree s fits T) (hs : StoreOK E s) (hexact : Snapshot.Exact S T db) (hS : S.null = 0)
    {R : CBlockIndexPtr → O → Prop} (h0 : R [] S.init)
    (hstep : ∀ p l b d o, s.mapIndex p.hashBlock = p :: l → s.read p = some b → fits b d → R l o →
      R (p :: l) (S.step (S.isFull p.hashBlock) o (p.hashBlock, d))) {p : CBlockIndex} {l : CBlockIndexPtr} {hash : ℕ}
    (hp : s.mapIndex hash = p :: l) : ∃ o, hash ≠ 0 ∧ Snapshot.Holds S T db hash o ∧ R (p :: l) o := by
  suffices hfold : ∃ L, Snapshot.Path T 0 hash L ∧ R (p :: l) (S.fold L) by
    obtain ⟨L, hL, hR⟩ := hfold
    refine ⟨_, ?_, hexact.holds hash L (hS ▸ hL), hR⟩
    rintro rfl
    exact hL.mem (hS ▸ hexact.null)
  induction l generalizing p hash with
  | nil =>
    obtain ⟨d, b, hT, hread, hd⟩ := h.root hash p hp
    obtain ⟨rfl, -⟩ := hs.chain _ _ _ hp
    exact ⟨_, .root hT, hstep p [] b d _ hp hread hd h0⟩
  | cons q l ih =>
    obtain ⟨d, b, hT, hread, hd⟩ := h.node hash p q l hp
    obtain ⟨rfl, hchain⟩ := hs.chain _ _ _ hp
    obtain ⟨L, hL, hR⟩ := ih hchain.tail.index
    refine ⟨_, .step hT hL, ?_⟩
    rw [S.fold_concat]
    exact hstep p (q :: l) b d _ hp hread hd hR

end

/-! ## The databases -/

/-- The pledges that `UpdatePledge` sums up for the block, for every address with a known mining address. -/
def PledgesOf (E : Env) (S : CBlock → Prop) (b : CBlockEx) (mapBlockPledge : PledgeMap) : Prop :=
  ∀ dest destPowMint, MintOf E S dest destPowMint → pledgeEntry mapBlockPledge destPowMint dest = blockPledge b dest

def RedeemsOf (b : CBlockEx) (vTxRedeem : List (CDestination × ℤ)) : Prop :=
  vTxRedeem = blockRedeems (b.block.vtx.zip b.vTxContxt)

structure LedgersOK (E : Env) (S : CBlock → Prop) (s : CBlockBase) : Prop where
  pledge : ∃ T, IndexTree s (PledgesOf E S) T ∧ Snapshot.Exact (pledgeScheme E) T s.dbPledge
  redeem : ∃ T, IndexTree s RedeemsOf T ∧ Snapshot.Exact (redeemScheme E) T s.dbRedeem

section

variable {E : Env} {S : CBlock → Prop} {P : CBlockChain → CBlock → Prop} {c c' : CBlockChain} {nNetTime : ℤ}
  {block : CBlock}

theorem getHash_ne_zero {p : CBlockIndex} {pPrev : CBlockIndexPtr} (h : verifyBlock E block p pPrev = some .OK) :
    block.getHash E ≠ 0 := by
  obtain ⟨h1, h2, -⟩ := verifyBlock_ok h
  intro h0
  have hheight := CBlock.height_getHash E block
  rw [h0, CBlock.height_of_primary h1 h2] at hheight
  simp [getBlockHeightByHash] at hheight

theorem genesis_ledgersOK (hgen : hashGenesisBlock E ≠ 0) : LedgersOK E S (genesisChain E).cntrBlock := by
  have hheight : getBlockHeightByHash (hashGenesisBlock E) = 0 :=
    (genesisEntry_height E).trans (genesisEntry_nHeight E)
  have hempty : ∀ {C M D O : Type} (X : Snapshot.Scheme ℕ C M D O), Snapshot.Exact X (fun _ => none) fun _ => none :=
    fun X => ⟨fun h hh => absurd rfl hh, rfl, fun h l hl => absurd rfl hl.mem⟩
  constructor
  · refine ⟨_, .genesis (d := OrdMap.empty) fun dest m _ => rfl, ?_⟩
    obtain ⟨ctxt, hctxt, hexact⟩ := exact_addBlockPledge (hempty (pledgeScheme E)) rfl hgen (Or.inl ⟨rfl, hheight⟩)
      OrdMap.empty
    have : ctxt = {} := by
      unfold addBlockPledge at hctxt
      rw [if_pos (by simp [isFullPledge, hheight])] at hctxt
      exact (Option.some.inj hctxt).symm
    rwa [this] at hexact
  · refine ⟨_, .genesis (d := []) rfl, ?_⟩
    obtain ⟨ctxt, hctxt, hexact⟩ := exact_addBlockRedeem (hempty (redeemScheme E)) rfl hgen (Or.inl ⟨rfl, hheight⟩) []
    have : ctxt = {} := by
      unfold addBlockRedeem at hctxt
      rw [if_pos (by simp [isFullRedeem, hheight])] at hctxt
      exact (Option.some.inj hctxt).symm
    rwa [this] at hexact

theorem LedgersOK.accepted (h : LedgersOK E S c.cntrBlock) (hs : StoreOK E c.cntrBlock)
    (hdb : DbShown E S c.cntrBlock.dbTemplateData) (hS : S block) (a : Accepted E nNetTime c block c') :
    LedgersOK E S c'.cntrBlock := by
  have hne := getHash_ne_zero a.verify
  have hfresh : ¬c.cntrBlock.mapIndex (block.getHash E) ≠ [] := not_not.2 a.added.fresh
  have hprev : c.cntrBlock.mapIndex block.hashPrev ≠ [] := by
    rw [a.prev]
    simp
  obtain ⟨hdbs, hdbr, -⟩ := a.databases hs
  constructor
  · obtain ⟨T, htree, hexact⟩ := h.pledge
    have hfits : PledgesOf E S a.b a.added.mapBlockPledge := by
      intro dest m hm
      obtain ⟨hdb', hsig⟩ := updateTxTemplateData_shown hS hdb a.added.templ
      have hentry := blockPledges_entry hm hdb' _ (hsig rfl) a.added.pledges
      exact hentry
    obtain ⟨ctxt, hctxt, hnew⟩ := exact_addBlockPledge hexact (not_not.1 fun ht => hfresh ((htree.dom _).1 ht)) hne
      (Or.inr ((htree.dom _).2 hprev)) a.added.mapBlockPledge
    rw [show addBlockPledge E c.cntrBlock.dbPledge (block.getHash E) block.hashPrev a.added.mapBlockPledge = _ from
      a.added.pledge] at hctxt
    refine ⟨_, htree.accepted hs a hfits, ?_⟩
    rw [hdbs, a.added.dbPledge, Option.some.inj hctxt]
    exact hnew
  · obtain ⟨T, htree, hexact⟩ := h.redeem
    obtain ⟨ctxtRedeem, hadd, hdb1⟩ := a.added.dbRedeem_eq
    obtain ⟨ctxt, hctxt, hnew⟩ := exact_addBlockRedeem hexact (not_not.1 fun ht => hfresh ((htree.dom _).1 ht)) hne
      (Or.inr ((htree.dom _).2 hprev)) (blockRedeems (block.vtx.zip a.vTxContxt))
    rw [show addBlockRedeem E c.cntrBlock.dbRedeem (block.getHash E) block.hashPrev
      (blockRedeems (block.vtx.zip a.vTxContxt)) = _ from hadd] at hctxt
    refine ⟨_, htree.accepted hs a rfl, ?_⟩
    rw [hdbr, hdb1, Option.some.inj hctxt]
    exact hnew

theorem LedgersOK.rejected (h : LedgersOK E S c.cntrBlock) (hs : StoreOK E c.cntrBlock) (r : Rejected E c block c') :
    LedgersOK E S c'.cntrBlock := by
  have hext := r.extends hs
  constructor
  · obtain ⟨T, htree, hexact⟩ := h.pledge
    exact ⟨T, htree.mono hext r.index, hexact.congr fun x hx => hext.pledge x ((htree.dom x).1 hx)⟩
  · obtain ⟨T, htree, hexact⟩ := h.redeem
    exact ⟨T, htree.mono hext r.index, hexact.congr fun x hx => hext.redeem x ((htree.dom x).1 hx)⟩

/-- **Both databases hold the folds of the chains along every run.** -/
theorem RunOver.ledgersOK (h : RunOver E S P c) (hgen : hashGenesisBlock E ≠ 0) : LedgersOK E S c.cntrBlock := by
  refine h.invariant (I := fun c => LedgersOK E S c.cntrBlock) (genesis_ledgersOK hgen) ?_ ?_
  · intro c c' nNetTime block hrun a hS _ ih
    exact ih.accepted hrun.run.storeOK hrun.shown hS a
  · intro c c' block hrun r _ ih
    exact ih.rejected hrun.run.storeOK r

end

/-! ## The readers -/

def dropEmpty (fFull : Bool) (y : ℤ × ℕ) : ℤ × ℕ := if fFull && y.1 = 0 then (0, 0) else y

/-- Amount and height after a block that changes them by `v`. -/
def pledgeAfter (fFull : Bool) (x v : ℤ × ℕ) : ℤ × ℕ :=
  dropEmpty fFull (wrap64 (x.1 + v.1), if 0 < v.2 then v.2 else x.2)

def storedPledge (s : CBlockBase) (dest : CDestination) (p : CBlockIndex) : ℤ × ℕ :=
  (s.read p).elim (0, 0) fun b => (blockPledge b dest).getD (0, 0)

def chainPledge (E : Env) (s : CBlockBase) (dest : CDestination) : CBlockIndexPtr → ℤ × ℕ
  | [] => (0, 0)
  | p :: l => pledgeAfter (isFullPledge E p.hashBlock) (chainPledge E s dest l) (storedPledge s dest p)

def chainBalance (s : CBlockBase) (dest : CDestination) : CBlockIndexPtr → ℤ
  | [] => 0
  | p :: l =>
    chainBalance s dest l + (s.read p).elim 0 fun b => ((b.block.vtx.zip b.vTxContxt).map (txDelta dest)).sum

def redeemAfter (fFull : Bool) (nHeight : ℕ) (r : CDestRedeem) (deltas : List ℤ) : CDestRedeem :=
  let r' := deltas.foldl (fun r v => if v = 0 then r else addRedeemValue nHeight r v) r
  if fFull && r'.nBalance ≤ 0 then {} else r'

def storedRedeem (s : CBlockBase) (dest : CDestination) (p : CBlockIndex) : List ℤ :=
  (s.read p).elim [] fun b => redeemDeltas b dest

def chainRedeem (E : Env) (s : CBlockBase) (dest : CDestination) : CBlockIndexPtr → CDestRedeem
  | [] => {}
  | p :: l => redeemAfter (isFullRedeem E p.hashBlock) p.nHeight (chainRedeem E s dest l) (storedRedeem s dest p)

section

variable {E : Env} {S : CBlock → Prop} {s : CBlockBase} {hash : ℕ} {p : CBlockIndex} {l : CBlockIndexPtr}

theorem StoredChain.read_height (h : StoredChain E s (p :: l)) {b : CBlockEx} (hb : s.read p = some b) :
    b.block.getBlockHeight = p.nHeight := by
  cases h with
  | genesis _ read =>
    rw [read] at hb
    rw [← Option.some.inj hb]
    rfl
  | step _ hblock _ =>
    rw [hblock.read] at hb
    rw [← Option.some.inj hb]
    exact hblock.nHeight.symm

theorem dropEmpty_fst (fFull : Bool) (y : ℤ × ℕ) : (dropEmpty fFull y).1 = y.1 := by
  unfold dropEmpty
  split_ifs with h
  · simp only [Bool.and_eq_true, decide_eq_true_eq] at h
    exact h.2.symm
  · rfl

theorem pledgeAfter_fst (fFull : Bool) (x v : ℤ × ℕ) : (pledgeAfter fFull x v).1 = wrap64 (x.1 + v.1) :=
  dropEmpty_fst fFull _

/-- **The amount of a pledge** is what the transactions of the chain make of it. -/
theorem chainPledge_amount (E : Env) (s : CBlockBase) (dest : CDestination) (l : CBlockIndexPtr) :
    (chainPledge E s dest l).1 = wrap64 (chainBalance s dest l) := by
  induction l with
  | nil => rfl
  | cons p l ih =>
    rw [chainPledge, pledgeAfter_fst, ih, wrap64_add_left, chainBalance, storedPledge]
    cases s.read p with
    | none => rfl
    | some b =>
      show wrap64 (_ + ((blockPledge b dest).getD (0, 0)).1) = _
      rw [blockPledge_amount, wrap64_add_right]
      rfl

theorem chainPledge_fits (E : Env) (s : CBlockBase) (dest : CDestination) (l : CBlockIndexPtr) :
    Fits64 (chainPledge E s dest l).1 := by
  rw [chainPledge_amount]
  exact wrap64_fits _

theorem pledgeStep_getD {fFull : Bool} {o : PledgeEntries} {d : PledgeMap} {destPowMint dest : CDestination}
    (hfits : Fits64 ((o destPowMint dest).getD (0, 0)).1) :
    (pledgeStep fFull o d destPowMint dest).getD (0, 0) =
      pledgeAfter fFull ((o destPowMint dest).getD (0, 0)) ((pledgeEntry d destPowMint dest).getD (0, 0)) := by
  have hadd : (entryAdd (o destPowMint dest) (pledgeEntry d destPowMint dest)).getD (0, 0) =
      (wrap64 (((o destPowMint dest).getD (0, 0)).1 + ((pledgeEntry d destPowMint dest).getD (0, 0)).1),
        if 0 < ((pledgeEntry d destPowMint dest).getD (0, 0)).2 then ((pledgeEntry d destPowMint dest).getD (0, 0)).2
        else ((o destPowMint dest).getD (0, 0)).2) := by
    cases pledgeEntry d destPowMint dest with
    | none =>
      rw [entryAdd_none, Option.getD_none, add_zero, wrap64_eq hfits]
      rfl
    | some v => rfl
  unfold pledgeStep pledgeAfter
  rw [← hadd]
  cases fFull with
  | false => rfl
  | true =>
    cases entryAdd (o destPowMint dest) (pledgeEntry d destPowMint dest) with
    | none => rfl
    | some v => by_cases hv : v.1 = 0 <;> simp [dropEmpty, hv, Option.filter]

/-- **`RetrieveAddressPledgeData`** of a block follows its chain. -/
theorem LedgersOK.pledgeData (h : LedgersOK E S s) (hs : StoreOK E s) (hp : s.mapIndex hash = p :: l)
    {dest destPowMint : CDestination} (hm : MintOf E S dest destPowMint) :
    getAddressPledgeData E s.dbPledge hash destPowMint dest = some (chainPledge E s dest (p :: l)) := by
  obtain ⟨T, htree, hexact⟩ := h.pledge
  have hstep : ∀ p l b d o, s.mapIndex p.hashBlock = p :: l → s.read p = some b → PledgesOf E S b d →
      (o destPowMint dest).getD (0, 0) = chainPledge E s dest l →
      (pledgeStep (isFullPledge E p.hashBlock) o d destPowMint dest).getD (0, 0) = chainPledge E s dest (p :: l) := by
    intro p l b d o _ hread hd ho
    rw [pledgeStep_getD (by rw [ho]; exact chainPledge_fits E s dest l), ho, hd dest destPowMint hm, chainPledge,
      storedPledge, hread]
    rfl
  obtain ⟨o, hne, hholds, ho⟩ := htree.holds hs hexact rfl
    (R := fun ptr o => (o destPowMint dest).getD (0, 0) = chainPledge E s dest ptr) rfl hstep hp
  rw [getAddressPledgeData_of_holds hne hholds, ho]

theorem redeemStep_getD (fFull : Bool) (nHeight : ℕ) (o : RedeemEntries) (vTxRedeem : List (CDestination × ℤ))
    (dest : CDestination) :
    (redeemStep fFull nHeight o vTxRedeem dest).getD {} =
      redeemAfter fFull nHeight ((o dest).getD {}) ((vTxRedeem.filter fun kv => kv.1 = dest).map Prod.snd) := by
  have hevents : ∀ (l : List ℤ) (x : Option CDestRedeem),
      (l.foldl (fun o v => if v = 0 then o else some (addRedeemValue nHeight (o.getD {}) v)) x).getD {} =
        l.foldl (fun r v => if v = 0 then r else addRedeemValue nHeight r v) (x.getD {}) := by
    intro l
    induction l with
    | nil => exact fun x => rfl
    | cons v l ih =>
      intro x
      rw [List.foldl_cons, List.foldl_cons, ih]
      split_ifs <;> rfl
  unfold redeemStep redeemAfter
  rw [redeemEvents_apply]
  simp only
  rw [← hevents]
  cases fFull with
  | false => rfl
  | true =>
    generalize ((vTxRedeem.filter fun kv => kv.1 = dest).map Prod.snd).foldl _ (o dest) = x
    cases x with
    | none => rfl
    | some r => by_cases hr : 0 < r.nBalance <;> simp [hr, Option.filter]

/-- **`RetrieveAddressRedeem`** of a block follows its chain. -/
theorem LedgersOK.redeem_eq (h : LedgersOK E S s) (hs : StoreOK E s) (hp : s.mapIndex hash = p :: l)
    (dest : CDestination) : getAddressRedeem E s.dbRedeem hash dest = some (chainRedeem E s dest (p :: l)) := by
  obtain ⟨T, htree, hexact⟩ := h.redeem
  have hstep : ∀ p l b d o, s.mapIndex p.hashBlock = p :: l → s.read p = some b → RedeemsOf b d →
      (o dest).getD {} = chainRedeem E s dest l →
      (redeemStep (isFullRedeem E p.hashBlock) (getBlockHeightByHash p.hashBlock) o d dest).getD {} =
        chainRedeem E s dest (p :: l) := by
    intro p l b d o hindex hread hd ho
    rw [redeemStep_getD, ho, hd, (hs.chain _ _ _ hindex).2.height, chainRedeem, storedRedeem, hread]
    rfl
  obtain ⟨o, hne, hholds, ho⟩ := htree.holds hs hexact rfl
    (R := fun ptr o => (o dest).getD {} = chainRedeem E s dest ptr) rfl hstep hp
  rw [getAddressRedeem_of_holds hne hholds, ho]

end

end Minemon
