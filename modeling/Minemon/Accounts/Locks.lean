import Minemon.Accounts.Balances

/-!
# Redeem locks

What comes in at a redeem address is locked, and a part of it is set free every day. `VerifyBlockMintRedeem`
checks this for what a block spends, on the record of the previous block and on what the block has spent so far.

* `addBlockRedeem_of_none`: no block is stored on a record that cannot be read.
* `redeemLocks_hold`: the locks, for every block of a run.
-/

namespace Minemon

open CBlockBase

/-- What the record says is still locked after `nCount` blocks, as the source computes it. -/
def lockAfter (E : Env) (redeem : CDestRedeem) (nCount : ℤ) : ℤ :=
  redeem.nLockAmount - redeem.nLockAmount.tdiv (BPX_REDEEM_DAY_COUNT E) * nCount.tdiv (BPX_REDEEM_DAY_HEIGHT E)

def spentFrom (dest : CDestination) (l : List (CTransaction × CTxContxt)) : ℤ :=
  (l.map fun t => if t.2.destIn = dest then t.1.nAmount + t.1.nTxFee else 0).sum

section

variable {E : Env} {s : CBlockBase} {hashPrev nHeight : ℕ} {t : CTransaction × CTxContxt}
  {A l : List (CTransaction × CTxContxt)} {setBlockRedeem : List CDestination} {mapRedeemValue : CDestination → ℤ}
  {dest : CDestination} {redeem : CDestRedeem}

/-! ## The check of a block -/

/-- The check that a transaction passes when it spends from a redeem address with a lock. -/
def LockChecked (E : Env) (nHeight : ℕ) (redeem : CDestRedeem) (nBalance : ℤ) : Prop :=
  0 < redeem.nLockBeginHeight → redeem.nLockBeginHeight < nHeight ∧
    ((nHeight : ℤ) - redeem.nLockBeginHeight < BPX_REDEEM_DAY_COUNT E * BPX_REDEEM_DAY_HEIGHT E →
      wrap64 (lockAfter E redeem (nHeight - redeem.nLockBeginHeight)) ≤ wrap64 nBalance)

/-- **One turn of the loop**, when the addresses can be read. -/
theorem mintRedeemLoop_turn (hr : ∀ d, getAddressRedeem E s.dbRedeem hashPrev d ≠ none)
    (h : mintRedeemLoop E s hashPrev nHeight (t :: l) setBlockRedeem mapRedeemValue = true) :
    ∃ set' map', mintRedeemLoop E s hashPrev nHeight l set' map' = true ∧ (∀ d ∈ setBlockRedeem, d ∈ set') ∧
      (isTemplateOf t.1.sendTo TEMPLATE_MINTREDEEM = true → t.1.sendTo ∈ set') ∧
      (isTemplateOf t.2.destIn TEMPLATE_MINTREDEEM = true → t.2.destIn ∉ set') ∧
      ∀ d redeem, isTemplateOf d TEMPLATE_MINTREDEEM = true →
        getAddressRedeem E s.dbRedeem hashPrev d = some redeem → 0 < redeem.nLockBeginHeight →
        map' d = (if t.2.destIn = d then wrap64 (mapRedeemValue d + wrap64 (t.1.nAmount + t.1.nTxFee))
          else mapRedeemValue d) ∧
        (t.2.destIn = d →
          LockChecked E nHeight redeem (redeem.nBalance - mapRedeemValue d - (t.1.nAmount + t.1.nTxFee))) := by
  obtain ⟨tx, txContxt⟩ := t
  rw [mintRedeemLoop] at h
  simp only at h
  set set' := if isTemplateOf tx.sendTo TEMPLATE_MINTREDEEM then tx.sendTo :: setBlockRedeem else setBlockRedeem
    with hset
  have hsub : ∀ d ∈ setBlockRedeem, d ∈ set' := by
    intro d hd
    rw [hset]
    split_ifs
    · exact List.mem_cons_of_mem _ hd
    · exact hd
  have hsend : isTemplateOf tx.sendTo TEMPLATE_MINTREDEEM = true → tx.sendTo ∈ set' := by
    intro ht
    rw [hset, if_pos ht]
    exact List.mem_cons_self
  by_cases hdest : isTemplateOf txContxt.destIn TEMPLATE_MINTREDEEM = true
  · rw [if_pos hdest] at h
    by_cases hmem : txContxt.destIn ∈ set'
    · rw [if_pos hmem] at h
      cases h
    · rw [if_neg hmem] at h
      obtain ⟨r, hread⟩ := Option.ne_none_iff_exists'.1 (hr txContxt.destIn)
      rw [hread] at h
      simp only at h
      have hbalance : wrap64 (wrap64 (r.nBalance - mapRedeemValue txContxt.destIn) - tx.nAmount - tx.nTxFee) =
          wrap64 (r.nBalance - mapRedeemValue txContxt.destIn - (tx.nAmount + tx.nTxFee)) := by
        rw [sub_sub, wrap64_sub_left]
      by_cases hlock : r.nLockBeginHeight > 0
      · rw [if_pos hlock] at h
        split_ifs at h with hcount hcheck
        refine ⟨set', _, h, hsub, hsend, fun _ => hmem, fun d redeem hd hredeem hpos => ?_⟩
        by_cases heq : txContxt.destIn = d
        · subst heq
          obtain rfl : r = redeem := Option.some.inj (hread.symm.trans hredeem)
          refine ⟨by rw [Function.update_self, if_pos rfl], fun _ _ => ⟨by omega, fun hlt => ?_⟩⟩
          by_contra hle
          refine hcheck ?_
          rw [hbalance, Bool.and_eq_true, decide_eq_true_eq, decide_eq_true_eq]
          exact ⟨hlt, not_le.1 hle⟩
        · exact ⟨by rw [Function.update_of_ne (Ne.symm heq), if_neg heq], fun h' => absurd h' heq⟩
      · rw [if_neg hlock] at h
        refine ⟨set', mapRedeemValue, h, hsub, hsend, fun _ => hmem, fun d redeem hd hredeem hpos => ?_⟩
        have hne : txContxt.destIn ≠ d := by
          rintro rfl
          rw [hread] at hredeem
          rw [← Option.some.inj hredeem] at hpos
          exact hlock hpos
        exact ⟨(if_neg hne).symm, fun heq => absurd heq hne⟩
  · rw [if_neg hdest] at h
    refine ⟨set', mapRedeemValue, h, hsub, hsend, fun hd => absurd hd hdest, fun d redeem hd _ _ => ?_⟩
    have hne : txContxt.destIn ≠ d := by
      rintro rfl
      exact hdest hd
    exact ⟨(if_neg hne).symm, fun heq => absurd heq hne⟩

/-- **At a transaction that spends from the address** nothing came in before, and what is left is not below the lock. -/
theorem mintRedeemLoop_spend (hr : ∀ d, getAddressRedeem E s.dbRedeem hashPrev d ≠ none)
    (h : mintRedeemLoop E s hashPrev nHeight (A ++ t :: l) setBlockRedeem mapRedeemValue = true)
    (hd : isTemplateOf t.2.destIn TEMPLATE_MINTREDEEM = true)
    (hredeem : getAddressRedeem E s.dbRedeem hashPrev t.2.destIn = some redeem) :
    t.2.destIn ∉ setBlockRedeem ∧ (∀ u ∈ A ++ [t], u.1.sendTo ≠ t.2.destIn) ∧
      LockChecked E nHeight redeem (redeem.nBalance - mapRedeemValue t.2.destIn - spentFrom t.2.destIn (A ++ [t])) := by
  induction A generalizing setBlockRedeem mapRedeemValue with
  | nil =>
    obtain ⟨set', map', -, hsub, hsend, hdest, hmap⟩ := mintRedeemLoop_turn hr h
    refine ⟨fun hmem => hdest hd (hsub _ hmem), fun u hu heq => ?_, fun hpos => ?_⟩
    · rw [List.nil_append, List.mem_singleton] at hu
      subst hu
      exact hdest hd (heq ▸ hsend (heq ▸ hd))
    · have hone := (hmap _ _ hd hredeem hpos).2 rfl hpos
      simpa [spentFrom] using hone
  | cons u A ih =>
    obtain ⟨set', map', hrest, hsub, hsend, -, hmap⟩ := mintRedeemLoop_turn hr h
    obtain ⟨hset, hsends, hlock⟩ := ih hrest
    refine ⟨fun hmem => hset (hsub _ hmem), fun v hv heq => ?_, fun hpos => ?_⟩
    · rcases List.mem_cons.1 hv with rfl | hv
      · exact hset (heq ▸ hsend (heq ▸ hd))
      · exact hsends v hv heq
    · obtain ⟨hlt, hle⟩ := hlock hpos
      refine ⟨hlt, fun hcount => (hle hcount).trans (le_of_eq ?_)⟩
      rw [(hmap _ _ hd hredeem hpos).1, List.cons_append, spentFrom, spentFrom, List.map_cons, List.sum_cons]
      split_ifs
      · rw [wrap64_add_right, ← wrap64_sub_left, wrap64_sub_right, wrap64_sub_left]
        congr 1
        ring
      · rw [zero_add]

/-! ## Records that cannot be read -/

/-- **On a record that cannot be read no block is stored**: `UpdateRedeem` reads the same contexts. -/
theorem addBlockRedeem_of_none (h : getAddressRedeem E s.dbRedeem hashPrev dest = none) (hashBlock : ℕ)
    (vTxRedeem : List (CDestination × ℤ)) : addBlockRedeem E s.dbRedeem hashBlock hashPrev vTxRedeem = none := by
  have hboth : getRedeem s.dbRedeem hashPrev = none ∨ ∃ ctxt, getRedeem s.dbRedeem hashPrev = some ctxt ∧
      ctxt.hashRef ≠ 0 ∧ getRedeem s.dbRedeem ctxt.hashRef = none := by
    unfold getAddressRedeem at h
    split_ifs at h with hzero
    unfold getRedeem
    rw [if_neg hzero]
    split at h
    · rename_i hnone
      exact Or.inl hnone
    · rename_i ctxt hctxt
      right
      refine ⟨ctxt, hctxt, ?_⟩
      split at h
      · cases h
      · split_ifs at h with hfull
        simp only [Bool.or_eq_true, beq_iff_eq, not_or] at hfull
        rw [if_neg hfull.2]
        split at h
        · exact ⟨hfull.2, ‹_›⟩
        · cases h
  unfold addBlockRedeem getFullBlockRedeem getIncrementBlockRedeem
  rcases hboth with hnone | ⟨ctxt, hctxt, href, hnone⟩
  · simp [hnone]
  · simp [hctxt, href, hnone]

end

/-! ## The record after a block -/

section

variable {deltas : List ℤ} {dest : CDestination} {t : CTransaction × CTxContxt}

theorem applyDeltas_spends (nHeight : ℕ) (r : CDestRedeem) (h : ∀ v ∈ deltas, v ≤ 0) :
    (applyDeltas nHeight r deltas).nLockAmount = r.nLockAmount ∧
      (applyDeltas nHeight r deltas).nLockBeginHeight = r.nLockBeginHeight := by
  induction deltas generalizing r with
  | nil => exact ⟨rfl, rfl⟩
  | cons v l ih =>
    have hrest : ∀ w ∈ l, w ≤ 0 := fun w hw => h w (List.mem_cons_of_mem _ hw)
    show (applyDeltas nHeight (if v = 0 then r else addRedeemValue nHeight r v) l).nLockAmount = _ ∧
      (applyDeltas nHeight (if v = 0 then r else addRedeemValue nHeight r v) l).nLockBeginHeight = _
    split_ifs with hv
    · exact ih _ hrest
    · have hone : addRedeemValue nHeight r v = { r with nBalance := wrap64 (r.nBalance + v) } :=
        if_neg (not_lt.2 (h v List.mem_cons_self))
      rw [hone]
      exact ih _ hrest

theorem applyDeltas_deposits (nHeight : ℕ) (r : CDestRedeem) (h : ∀ v ∈ deltas, 0 ≤ v) :
    applyDeltas nHeight r deltas = r ∨ (applyDeltas nHeight r deltas).nLockBeginHeight = nHeight ∧
      (applyDeltas nHeight r deltas).nLockAmount = (applyDeltas nHeight r deltas).nBalance := by
  induction deltas generalizing r with
  | nil => exact Or.inl rfl
  | cons v l ih =>
    have hrest : ∀ w ∈ l, 0 ≤ w := fun w hw => h w (List.mem_cons_of_mem _ hw)
    have hcons : applyDeltas nHeight r (v :: l) =
        applyDeltas nHeight (if v = 0 then r else addRedeemValue nHeight r v) l := rfl
    rw [hcons]
    by_cases hv : v = 0
    · rw [if_pos hv]
      exact ih r hrest
    · have hone : addRedeemValue nHeight r v = ⟨wrap64 (r.nBalance + v), wrap64 (r.nBalance + v), nHeight⟩ :=
        if_pos (lt_of_le_of_ne (h v List.mem_cons_self) (Ne.symm hv))
      rw [if_neg hv, hone]
      right
      rcases ih ⟨wrap64 (r.nBalance + v), wrap64 (r.nBalance + v), nHeight⟩ hrest with heq | hlock
      · rw [heq]
        exact ⟨rfl, rfl⟩
      · exact hlock

theorem Balanced.pays (h : Balanced t) (hd : t.2.destIn.isNull = false) : Pays t := by
  have hvalues := h.values
  split_ifs at hvalues with hmint
  · rw [(hvalues.context h.shape).1] at hd
    exact absurd hd (by decide)
  · exact hvalues

theorem Balanced.amount (h : Balanced t) : 0 ≤ t.1.nAmount := by
  have hvalues := h.values
  split_ifs at hvalues
  · exact hvalues.amount
  · exact hvalues.amount

theorem Balanced.txRedeem_nonpos (h : Balanced t) (hnull : dest.isNull = false) (hsend : t.1.sendTo ≠ dest) :
    ∀ v ∈ txRedeem dest t, v ≤ 0 := by
  intro v hv
  unfold txRedeem at hv
  rw [if_neg hsend, List.nil_append] at hv
  split_ifs at hv with hin
  · obtain hp := h.pays (hin ▸ hnull)
    have h1 := hp.amount
    have h2 := hp.fee
    have h3 := hp.bounded
    rw [List.mem_singleton.1 hv, wrap64_eq (fits64_of_nonneg (by omega) h3), wrap64_eq ⟨by omega, by omega⟩]
    omega
  · simp at hv

theorem Balanced.txRedeem_nonneg (h : Balanced t) (hin : t.2.destIn ≠ dest) : ∀ v ∈ txRedeem dest t, 0 ≤ v := by
  intro v hv
  unfold txRedeem at hv
  rw [if_neg hin, List.append_nil] at hv
  split_ifs at hv
  · rw [List.mem_singleton.1 hv]
    exact h.amount
  · simp at hv

variable {l : List (CTransaction × CTxContxt)}

theorem exists_last_spend (h : ∃ t ∈ l, t.2.destIn = dest) :
    ∃ A t C, l = A ++ t :: C ∧ t.2.destIn = dest ∧ ∀ u ∈ C, u.2.destIn ≠ dest := by
  induction l with
  | nil =>
    obtain ⟨t, ht, -⟩ := h
    simp at ht
  | cons u l ih =>
    by_cases hl : ∃ t ∈ l, t.2.destIn = dest
    · obtain ⟨A, t, C, rfl, hrest⟩ := ih hl
      exact ⟨u :: A, t, C, rfl, hrest⟩
    · obtain ⟨t, ht, hd⟩ := h
      rcases List.mem_cons.1 ht with rfl | ht
      · exact ⟨[], t, l, rfl, hd, fun v hv heq => hl ⟨v, hv, heq⟩⟩
      · exact absurd ⟨t, ht, hd⟩ hl

theorem txDelta_sum_eq_spentFrom (hsend : ∀ u ∈ l, u.1.sendTo ≠ dest) :
    (l.map (txDelta dest)).sum = -spentFrom dest l := by
  induction l with
  | nil => rfl
  | cons u l ih =>
    rw [List.map_cons, List.sum_cons, ih fun v hv => hsend v (List.mem_cons_of_mem _ hv), txDelta,
      if_neg (hsend u List.mem_cons_self), spentFrom, spentFrom, List.map_cons, List.sum_cons]
    ring

/-- **The record of an address after a block**, when each transaction that spends from it has passed the check. -/
theorem applyDeltas_block (nHeight : ℕ) {E : Env} {r : CDestRedeem} (hr : Fits64 r.nBalance)
    (hnull : dest.isNull = false) (hbal : ∀ t ∈ l, Balanced t)
    (hcheck : ∀ A t C, l = A ++ t :: C → t.2.destIn = dest → (∀ u ∈ A ++ [t], u.1.sendTo ≠ dest) ∧
      LockChecked E nHeight r (r.nBalance - spentFrom dest (A ++ [t]))) :
    let r' := applyDeltas nHeight r (l.flatMap (txRedeem dest))
    (r'.nLockBeginHeight = nHeight ∧ r'.nLockAmount = r'.nBalance) ∨
      (r'.nLockBeginHeight = r.nLockBeginHeight ∧ r'.nLockAmount = r.nLockAmount ∧
        ((∃ t ∈ l, t.2.destIn = dest) → LockChecked E nHeight r r'.nBalance)) := by
  intro r'
  by_cases hspend : ∃ t ∈ l, t.2.destIn = dest
  · obtain ⟨A, t, C, hl, htd, hC⟩ := exists_last_spend hspend
    obtain ⟨hsend, hlock⟩ := hcheck A t C hl htd
    have hsplit : l = (A ++ [t]) ++ C := by
      rw [hl]
      simp
    have hmemA : ∀ u ∈ A ++ [t], u ∈ l := fun u hu => by
      rw [hsplit]
      exact List.mem_append_left _ hu
    have hspends : ∀ v ∈ (A ++ [t]).flatMap (txRedeem dest), v ≤ 0 := by
      intro v hv
      obtain ⟨u, hu, hv⟩ := List.mem_flatMap.1 hv
      exact (hbal u (hmemA u hu)).txRedeem_nonpos hnull (hsend u hu) v hv
    have hdeps : ∀ v ∈ C.flatMap (txRedeem dest), 0 ≤ v := by
      intro v hv
      obtain ⟨u, hu, hv⟩ := List.mem_flatMap.1 hv
      exact (hbal u (by rw [hsplit]; exact List.mem_append_right _ hu)).txRedeem_nonneg (hC u hu) v hv
    have hr' : r' = applyDeltas nHeight (applyDeltas nHeight r ((A ++ [t]).flatMap (txRedeem dest)))
        (C.flatMap (txRedeem dest)) := by
      rw [applyDeltas, applyDeltas, ← List.foldl_append, ← List.flatMap_append, ← hsplit]
      rfl
    obtain ⟨hamount, hbegin⟩ := applyDeltas_spends nHeight r hspends
    rw [hr']
    rcases applyDeltas_deposits nHeight (applyDeltas nHeight r ((A ++ [t]).flatMap (txRedeem dest))) hdeps with
      heq | hdep
    · right
      rw [heq]
      refine ⟨hbegin, hamount, fun _ hpos => ⟨(hlock hpos).1, fun hlt => ((hlock hpos).2 hlt).trans (le_of_eq ?_)⟩⟩
      rw [applyDeltas_balance _ _ _ hr, txRedeem_sum_list, txDelta_sum_eq_spentFrom hsend, ← sub_eq_add_neg,
        wrap64_eq (wrap64_fits _)]
    · exact Or.inl hdep
  · have hdeps : ∀ v ∈ l.flatMap (txRedeem dest), 0 ≤ v := by
      intro v hv
      obtain ⟨u, hu, hv⟩ := List.mem_flatMap.1 hv
      exact (hbal u hu).txRedeem_nonneg (fun heq => hspend ⟨u, hu, heq⟩) v hv
    rcases applyDeltas_deposits nHeight r hdeps with heq | hdep
    · right
      rw [show r' = r from heq]
      exact ⟨rfl, rfl, fun hs => absurd hs hspend⟩
    · exact Or.inl hdep

end

/-! ## Runs -/

section

variable {E : Env} {S : CBlock → Prop} {P : CBlockChain → CBlock → Prop} {c : CBlockChain} {s s' : CBlockBase}
  {dest : CDestination} {hash : ℕ} {p q : CBlockIndex} {l ptr : CBlockIndexPtr}

theorem Run.runOver (h : Run E P c) : RunOver E (fun _ => True) P c := by
  induction h with
  | genesis => exact .genesis
  | call nNetTime block err _ hadd hP ih => exact .call nNetTime block err ih trivial hadd hP

theorem Extends.chainRedeem (h : Extends E s s') (hread : ∀ p ∈ ptr, (s.read p).isSome) :
    chainRedeem E s' dest ptr = Minemon.chainRedeem E s dest ptr := by
  induction ptr with
  | nil => rfl
  | cons p l ih =>
    rw [Minemon.chainRedeem, Minemon.chainRedeem, ih fun q hq => hread q (List.mem_cons_of_mem _ hq), storedRedeem,
      storedRedeem, h.read_eq (hread p List.mem_cons_self)]

/-- **The record after a block**: everything is locked from this block on, or the lock is the one before. -/
theorem Run.applyDeltas (h : Run E MintsSound c) (hf : CollisionFree E c.cntrBlock) (hgen : hashGenesisBlock E ≠ 0)
    (hd : isTemplateOf dest TEMPLATE_MINTREDEEM = true) (hp : c.cntrBlock.mapIndex hash = p :: q :: l)
    {b : CBlockEx} (hb : c.cntrBlock.read p = some b) :
    let r := chainRedeem E c.cntrBlock dest (q :: l)
    let r' := Minemon.applyDeltas p.nHeight r (storedRedeem c.cntrBlock dest p)
    (r'.nLockBeginHeight = p.nHeight ∧ r'.nLockAmount = r'.nBalance) ∨
      (r'.nLockBeginHeight = r.nLockBeginHeight ∧ r'.nLockAmount = r.nLockAmount ∧
        ((∃ t ∈ b.block.vtx.zip b.vTxContxt, t.2.destIn = dest) → LockChecked E p.nHeight r r'.nBalance)) := by
  have hchain := (h.storeOK.chain _ _ _ hp).2
  have hheight := hchain.read_height hb
  obtain ⟨c0, c1, nNetTime, block, a, hrun, -, hnew, hext⟩ := h.origin hp
  rw [a.toStored.pIndexNew_eq] at hnew
  obtain ⟨rfl, htail⟩ := List.cons.inj hnew
  obtain rfl := Option.some.inj ((hext.read a.toStored.read).symm.trans hb)
  have hs := hrun.storeOK
  have hread := (hs.chain _ _ _ a.prev).2.read
  have hext0 := (a.toStored.extends hs).trans hext
  -- the records that the check reads are those of the chain
  have hrecord : ∀ d, getAddressRedeem E c0.cntrBlock.dbRedeem block.hashPrev d =
      some (chainRedeem E c.cntrBlock d (q :: l)) := by
    intro d
    rw [(hrun.runOver.ledgersOK hgen).redeem_eq hs a.prev d, ← htail, hext0.chainRedeem hread]
  have hbal := h.balanced hf (fun c block hP => hP.2.nonneg) hp
  have hzip : ∀ t ∈ block.vtx.zip a.vTxContxt, Balanced t := by
    intro t ht
    refine hbal t (mem_chainTxs.2 ⟨_, List.mem_cons_self, _, hb, ?_⟩)
    rw [a.toStored.txs_eq]
    exact List.mem_cons_of_mem _ ht
  have hfits : Fits64 (chainRedeem E c.cntrBlock dest (q :: l)).nBalance := by
    rw [h.chainRedeem_balance hf hd hchain.tail.index]
    obtain ⟨-, h0, h1⟩ := h.chainBalance_eq hf hd (by decide) hchain.tail.index
    exact fits64_of_nonneg h0 h1
  have hstored : storedRedeem c.cntrBlock dest a.toStored.entry =
      (block.vtx.zip a.vTxContxt).flatMap (txRedeem dest) := by
    rw [storedRedeem, hb]
    exact redeemDeltas_eq hd _
  rw [hstored]
  refine applyDeltas_block _ hfits (isTemplateOf_not_isNull hd) hzip fun A t C hsplit htd => ?_
  have hloop :
      mintRedeemLoop E c0.cntrBlock block.hashPrev block.getBlockHeight (A ++ t :: C) [] (fun _ => 0) = true := by
    rw [← hsplit]
    exact a.redeem
  subst htd
  obtain ⟨-, hsend, hlock⟩ := mintRedeemLoop_spend (fun d => by rw [hrecord d]; simp) hloop hd (hrecord _)
  rw [sub_zero] at hlock
  rw [← hheight]
  exact ⟨hsend, hlock⟩

/-- The lock of a record: an amount that an `int64` holds, and none without a height. -/
structure LockOK (r : CDestRedeem) : Prop where
  nonneg : 0 ≤ r.nLockAmount
  lt : r.nLockAmount < 2 ^ 63
  none : r.nLockBeginHeight = 0 → r.nLockAmount = 0

theorem LockOK.empty : LockOK {} := ⟨le_rfl, by decide, fun _ => rfl⟩

theorem Run.lockOK (h : Run E MintsSound c) (hf : CollisionFree E c.cntrBlock) (hgen : hashGenesisBlock E ≠ 0)
    (hd : isTemplateOf dest TEMPLATE_MINTREDEEM = true) (hp : c.cntrBlock.mapIndex hash = p :: l) :
    LockOK (chainRedeem E c.cntrBlock dest (p :: l)) := by
  induction l generalizing hash p with
  | nil =>
    have hread := (h.storeOK.chain _ _ _ hp).2.read_genesis
    have hstored : storedRedeem c.cntrBlock dest p = [] := by
      rw [storedRedeem, hread]
      rfl
    rw [chainRedeem_cons, hstored]
    split_ifs <;> exact .empty
  | cons q l ih =>
    have hchain := (h.storeOK.chain _ _ _ hp).2
    obtain ⟨b, hb⟩ := Option.isSome_iff_exists.1 (hchain.read p List.mem_cons_self)
    have hbalance := h.chainRedeem_balance hf hd hp
    rw [chainRedeem_cons] at hbalance ⊢
    split_ifs at hbalance ⊢
    · exact .empty
    · obtain ⟨-, h0, h1⟩ := h.chainBalance_eq hf hd (by decide) hp
      rcases h.applyDeltas hf hgen hd hp hb with ⟨hbegin, hamount⟩ | ⟨hbegin, hamount, -⟩
      · rw [← hbalance, ← hamount] at h0 h1
        refine ⟨h0, h1, fun hzero => ?_⟩
        rw [hbegin, hchain.nHeight_eq p (q :: l) rfl] at hzero
        simp at hzero
      · have hbefore := ih hchain.tail.index
        exact ⟨hamount ▸ hbefore.nonneg, hamount ▸ hbefore.lt, fun hzero => hamount ▸ hbefore.none (hbegin ▸ hzero)⟩

theorem LockOK.lockAfter_eq (E : Env) {r : CDestRedeem} (h : LockOK r) {nHeight : ℕ}
    (hle : r.nLockBeginHeight ≤ nHeight)
    (hlt : nHeight - r.nLockBeginHeight < BPX_REDEEM_DAY_COUNT E * BPX_REDEEM_DAY_HEIGHT E) :
    wrap64 (lockAfter E r (nHeight - r.nLockBeginHeight)) = r.nLockAmount -
      r.nLockAmount / BPX_REDEEM_DAY_COUNT E * ((nHeight - r.nLockBeginHeight) / BPX_REDEEM_DAY_HEIGHT E : ℕ) := by
  have h0 := h.nonneg
  have h1 := h.lt
  have hday : (nHeight - r.nLockBeginHeight) / BPX_REDEEM_DAY_HEIGHT E < BPX_REDEEM_DAY_COUNT E :=
    Nat.div_lt_of_lt_mul (by rwa [Nat.mul_comm])
  have heq : lockAfter E r (nHeight - r.nLockBeginHeight) = r.nLockAmount -
      r.nLockAmount / BPX_REDEEM_DAY_COUNT E * ((nHeight - r.nLockBeginHeight) / BPX_REDEEM_DAY_HEIGHT E : ℕ) := by
    rw [lockAfter, ← Nat.cast_sub hle, Int.tdiv_eq_ediv_of_nonneg h0, Int.tdiv_eq_ediv_of_nonneg (Int.natCast_nonneg _),
      Int.natCast_ediv]
  have hfree : r.nLockAmount / BPX_REDEEM_DAY_COUNT E *
      ((nHeight - r.nLockBeginHeight) / BPX_REDEEM_DAY_HEIGHT E : ℕ) ≤ r.nLockAmount :=
    calc r.nLockAmount / BPX_REDEEM_DAY_COUNT E * ((nHeight - r.nLockBeginHeight) / BPX_REDEEM_DAY_HEIGHT E : ℕ)
        ≤ r.nLockAmount / BPX_REDEEM_DAY_COUNT E * BPX_REDEEM_DAY_COUNT E :=
          mul_le_mul_of_nonneg_left (by exact_mod_cast hday.le) (Int.ediv_nonneg h0 (Int.natCast_nonneg _))
      _ ≤ r.nLockAmount := Int.ediv_mul_le _ (by exact_mod_cast (Nat.zero_lt_of_lt hday).ne')
  have hfree0 : 0 ≤ r.nLockAmount / BPX_REDEEM_DAY_COUNT E *
      ((nHeight - r.nLockBeginHeight) / BPX_REDEEM_DAY_HEIGHT E : ℕ) :=
    mul_nonneg (Int.ediv_nonneg h0 (Int.natCast_nonneg _)) (Int.natCast_nonneg _)
  rw [heq]
  exact wrap64_eq (fits64_of_nonneg (by omega) (by omega))

/-- **Redeem locks hold** in every run whose blocks mint what is new on their chains: a block that spends from a
redeem address leaves there what is locked. And whatever the databases hold, no block is accepted on a record
that cannot be read. -/
theorem redeemLocks_hold (h : Run E MintsSound c) (hf : CollisionFree E c.cntrBlock) (hgen : hashGenesisBlock E ≠ 0) :
    (∀ hash p l b dest redeem, c.cntrBlock.mapIndex hash = p :: l → c.cntrBlock.read p = some b →
      isTemplateOf dest TEMPLATE_MINTREDEEM = true → (∃ t ∈ b.block.vtx.zip b.vTxContxt, t.2.destIn = dest) →
      getAddressRedeem E c.cntrBlock.dbRedeem hash dest = some redeem →
      p.nHeight - redeem.nLockBeginHeight < BPX_REDEEM_DAY_COUNT E * BPX_REDEEM_DAY_HEIGHT E →
      redeem.nLockAmount - redeem.nLockAmount / BPX_REDEEM_DAY_COUNT E *
          ((p.nHeight - redeem.nLockBeginHeight) / BPX_REDEEM_DAY_HEIGHT E : ℕ) ≤
        unspentValue E c.cntrBlock (fun d => d = dest) (p :: l)) ∧
    ∀ (c0 c1 : CBlockChain) (nNetTime : ℤ) (block : CBlock) (dest : CDestination),
      getAddressRedeem E c0.cntrBlock.dbRedeem block.hashPrev dest = none →
      addNewBlock E nNetTime c0 block ≠ some (.OK, c1) := by
  constructor
  · intro hash p l b dest redeem hp hb hd hspend hredeem hlt
    have hs := h.storeOK
    have hchain := (hs.chain _ _ _ hp).2
    obtain ⟨hunspent, h0, -⟩ := h.chainBalance_eq hf hd (by decide) hp
    rw [(h.runOver.ledgersOK hgen).redeem_eq hs hp dest] at hredeem
    obtain rfl := Option.some.inj hredeem
    have hok := h.lockOK hf hgen hd hp
    have hbalance := h.chainRedeem_balance hf hd hp
    rw [← hunspent]
    cases l with
    | nil =>
      -- the genesis block spends nothing
      rw [hchain.read_genesis] at hb
      obtain rfl := Option.some.inj hb
      obtain ⟨t, ht, -⟩ := hspend
      simp [getGenesisBlock] at ht
    | cons q l =>
      by_cases hzero : (chainRedeem E c.cntrBlock dest (p :: q :: l)).nLockBeginHeight = 0
      · rw [hok.none hzero, Int.zero_ediv, zero_mul, sub_zero]
        exact h0
      · have hbefore := h.lockOK hf hgen hd hchain.tail.index
        rw [chainRedeem_cons] at hzero hlt hbalance ⊢
        split_ifs at hzero hlt hbalance ⊢
        · exact absurd rfl hzero
        · rw [← hbalance]
          rcases h.applyDeltas hf hgen hd hp hb with ⟨hbegin, hamount⟩ | ⟨hbegin, hamount, hcheck⟩
          · rw [hbegin, Nat.sub_self, Nat.zero_div, Nat.cast_zero, mul_zero, sub_zero, hamount]
          · rw [hbegin] at hzero hlt ⊢
            rw [hamount]
            obtain ⟨hbegan, hle⟩ := hcheck hspend (Nat.pos_of_ne_zero hzero)
            rw [← hbefore.lockAfter_eq E hbegan.le hlt]
            refine (hle ?_).trans (le_of_eq (wrap64_eq ?_))
            · rw [← Nat.cast_sub hbegan.le]
              exact_mod_cast hlt
            · rw [hbalance]
              obtain ⟨-, h2, h3⟩ := h.chainBalance_eq hf hd (by decide) hp
              exact fits64_of_nonneg h2 h3
  · intro c0 c1 nNetTime block dest hnone hadd
    rcases addNewBlock_cases hadd with ⟨-, ⟨a⟩⟩ | ⟨herr, -⟩
    · obtain ⟨ctxt, hctxt, -⟩ := a.added.redeem
      rw [addBlockRedeem_of_none hnone] at hctxt
      cases hctxt
    · exact herr rfl

end

/-! ## On the toy network -/

/-- Of what was redeemed, `nAmount` goes to the miner. -/
def toySpend (nAmount : ℤ) (c : CBlockChain) : List CTransaction :=
  let redeemed := (c.cntrBlock.pIndexLast.flatMap fun q => (c.cntrBlock.read q).elim [] fun b => b.block.vtx).filter
    fun tx => tx.sendTo = toyRedeem.dest toyEnv
  redeemed.map fun tx =>
    { nTimeStamp := toyTipTime c + 60
      vInput := [⟨tx.getHash toyEnv, 0⟩]
      sendTo := toyMiner.destSpent
      nAmount := nAmount
      nTxFee := MIN_TX_FEE
      vchSig := (CTemplate.mintredeem toyRedeem).buildTemplateData ++ List.replicate 64 0 }

/-- A withdrawal of 60 coins in the fifth block, 5 of which are spent a day later. -/
def toyLockPlans : List ToyPlan :=
  toyWithdrawPlans ++ ([{}, {}, {}, {}, { vtx := toySpend 5000000 }] : List ToyPlan)

/-- Height of the last block, whether it spends what was redeemed, and the record and the unspent amount then. -/
def toyRedeemed (c : CBlockChain) : ℕ × Bool × Option CDestRedeem × ℤ :=
  (c.cntrBlock.pIndexLast.length - 1,
    (c.cntrBlock.pIndexLast.head?.bind c.cntrBlock.read).any fun b =>
      (b.block.vtx.zip b.vTxContxt).any fun t => t.2.destIn = toyRedeem.dest toyEnv,
    getAddressRedeem toyEnv c.cntrBlock.dbRedeem (toyTipHash c) (toyRedeem.dest toyEnv),
    unspentValue toyEnv c.cntrBlock (fun d => d = toyRedeem.dest toyEnv) c.cntrBlock.pIndexLast)

theorem redeemLocks_hold_toy :
    ∃ c, Run toyEnv MintsSound c ∧ CollisionFree toyEnv c.cntrBlock ∧
      getAddressRedeem toyEnv c.cntrBlock.dbRedeem (toyTipHash c) (toyRedeem.dest toyEnv) =
        some ⟨54990000, 60000000, 5⟩ ∧
      54000000 ≤ unspentValue toyEnv c.cntrBlock (fun d => d = toyRedeem.dest toyEnv) c.cntrBlock.pIndexLast := by
  obtain ⟨c, blocks, hover, hf, hx, p, l, hlast, hp⟩ := toyRun_any MintsSound.of_mintsSound toyLockPlans
    (fun c _ => toyRedeemed c = (10, true, some ⟨54990000, 60000000, 5⟩, 54990000)) (by decide +kernel)
  obtain ⟨hlen, hspend, hrecord, -⟩ : _ ∧ _ ∧ _ ∧ _ := by
    simpa only [toyRedeemed, decide_eq_true_eq, Prod.mk.injEq] using hx
  obtain ⟨b, hb, hany⟩ := (Option.any_eq_true _ _).1 hspend
  rw [hlast] at hb hlen
  have hheight := (hover.run.storeOK.chain _ _ _ hp).2.nHeight_eq p l rfl
  rw [List.length_cons, Nat.add_sub_cancel, ← hheight] at hlen
  simp only [List.any_eq_true, decide_eq_true_eq] at hany
  have hlock := (redeemLocks_hold hover.run hf (by decide +kernel)).1 _ p l b _ _ hp hb (by decide +kernel) hany hrecord
  rw [hlen] at hlock
  refine ⟨c, hover.run, hf, hrecord, ?_⟩
  rw [hlast]
  exact hlock (by decide)

/-- A block that spends 50 coins of what was redeemed in the block before. -/
def toyUnreadBlock (c : CBlockChain) : CBlock :=
  ToyPlan.block { vtx := fun c => toyRewards c ++ toySpend 50000000 c } c

/-- The redeem database when the record of the block before cannot be read. -/
def toySeen (c : CBlockChain) : ℕ → Option CRedeemContext :=
  Function.update c.cntrBlock.dbRedeem (toyUnreadBlock c).hashPrev none

/-- **A read that fails sets everything free.** `VerifyBlockMintRedeem` answers `-1`, which is `true`, and the
block is accepted; without the failure it is not. -/
theorem redeemLocks_unread :
    ∃ c c', Run toyEnv MintsSound c ∧ CollisionFree toyEnv c.cntrBlock ∧
      getAddressRedeem toyEnv (toySeen c) (toyUnreadBlock c).hashPrev (toyRedeem.dest toyEnv) = none ∧
      addNewBlockSeeing toyEnv (toySeen c) (toyUnreadBlock c).nTimeStamp c (toyUnreadBlock c) = some (.OK, c') ∧
      toyRedeemed c' = (6, true, some ⟨9990000, 60000000, 5⟩, 9990000) ∧
      (addNewBlock toyEnv (toyUnreadBlock c).nTimeStamp c (toyUnreadBlock c)).map Prod.fst =
        some .ERR_BLOCK_TRANSACTIONS_INVALID := by
  obtain ⟨c, blocks, hover, hf, hx, -⟩ := toyRun_any MintsSound.of_mintsSound toyWithdrawPlans
    (fun c _ => getAddressRedeem toyEnv (toySeen c) (toyUnreadBlock c).hashPrev (toyRedeem.dest toyEnv) = none &&
      ((addNewBlockSeeing toyEnv (toySeen c) (toyUnreadBlock c).nTimeStamp c (toyUnreadBlock c)).any (fun r =>
        r.1 = .OK && toyRedeemed r.2 = (6, true, some ⟨9990000, 60000000, 5⟩, 9990000)) &&
      (addNewBlock toyEnv (toyUnreadBlock c).nTimeStamp c (toyUnreadBlock c)).map Prod.fst =
        some .ERR_BLOCK_TRANSACTIONS_INVALID)) (by decide +kernel)
  simp only [Bool.and_eq_true, decide_eq_true_eq] at hx
  obtain ⟨hnone, hseen, hrejected⟩ := hx
  obtain ⟨⟨err, c'⟩, hadd, hc'⟩ := (Option.any_eq_true _ _).1 hseen
  simp only [Bool.and_eq_true, decide_eq_true_eq] at hc'
  obtain ⟨rfl, hredeemed⟩ := hc'
  exact ⟨c, c', hover.run, hf, hnone, hadd, hredeemed, hrejected⟩

end Minemon
