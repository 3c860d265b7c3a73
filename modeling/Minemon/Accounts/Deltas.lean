import Minemon.Accounts.Shown
import Minemon.Pledge.Entries

/-!
# What a block changes of a pledge

`UpdatePledge` sums up, for each pledge address, what the transactions of a block send to it and spend from
it. For an address whose template is known to have one mining address, all of it is under that one.

* `blockPledges_entry`: `UpdatePledge` computes `blockPledge`.
-/

namespace Minemon

open CBlockBase

/-- The entry of a pledge address after one more transaction. -/
def txPledge (nHeight : ℕ) (dest : CDestination) (o : Option (ℤ × ℕ)) (t : CTransaction × CTxContxt) :
    Option (ℤ × ℕ) :=
  let o1 :=
    if t.1.sendTo = dest then
      some (wrap64 ((o.getD (0, 0)).1 + t.1.nAmount),
        if t.1.nType ≠ CTransaction.TX_STAKE && !t.2.destIn.isNull then nHeight else (o.getD (0, 0)).2)
    else o
  if t.2.destIn = dest then
    some (wrap64 ((o1.getD (0, 0)).1 - wrap64 (t.1.nAmount + t.1.nTxFee)), (o1.getD (0, 0)).2)
  else o1

def blockPledge (b : CBlockEx) (dest : CDestination) : Option (ℤ × ℕ) :=
  (b.block.vtx.zip b.vTxContxt).foldl (txPledge b.block.getBlockHeight dest) none

/-- Every template of this pledge address that the blocks in `S` show has the mining address `destPowMint`. -/
structure MintOf (E : Env) (S : CBlock → Prop) (dest destPowMint : CDestination) : Prop where
  type : isTemplateOf dest TEMPLATE_MINTPLEDGE = true
  mint : ∀ pledge, ShownAt E S dest (.mintpledge pledge) → pledge.destPowMint = destPowMint

/-- Whether the pledge templates that the blocks show with the identifier of the address all have the mining
address. -/
def mintShown (E : Env) (blocks : List CBlock) (dest destPowMint : CDestination) : Bool :=
  isTemplateOf dest TEMPLATE_MINTPLEDGE &&
    blocks.all fun block => (block.txMint :: block.vtx).all fun tx => tx.vchSig.tails.all fun vch =>
      match createTemplatePtr TEMPLATE_MINTPLEDGE vch with
      | some (some (.mintpledge pledge)) =>
        (CTemplate.mintpledge pledge).getTemplateId E != dest.getTemplateId || pledge.destPowMint == destPowMint
      | _ => true

theorem MintOf.of_mintShown {E : Env} {blocks : List CBlock} {dest destPowMint : CDestination}
    (h : mintShown E blocks dest destPowMint = true) : MintOf E (· ∈ blocks) dest destPowMint := by
  simp only [mintShown, Bool.and_eq_true, List.all_eq_true] at h
  refine ⟨h.1, fun pledge hshown => ?_⟩
  obtain ⟨block, hblock, tx, htx, vch, hvch, hread⟩ := hshown.shown
  have hone := h.2 block hblock tx htx vch ((List.mem_tails _ _).2 hvch)
  rw [show createTemplatePtr TEMPLATE_MINTPLEDGE vch = _ from hread] at hone
  simpa [hshown.id] using hone

/-! ## The entry -/

theorem pledgeEntry_changePledge (m : PledgeMap) (destPowMint dest a b : CDestination) (f : ℤ × ℕ → ℤ × ℕ) :
    pledgeEntry (changePledge m destPowMint dest f) a b =
      if a = destPowMint ∧ b = dest then some (f ((pledgeEntry m a b).getD (0, 0))) else pledgeEntry m a b := by
  unfold pledgeEntry changePledge
  rw [OrdMap.find?_upsert]
  by_cases ha : a = destPowMint
  · subst ha
    rw [if_pos rfl, Option.bind_some, OrdMap.find?_upsert]
    have hget : ∀ b, ((m.find? a).getD OrdMap.empty).find? b = (m.find? a).bind fun pow => pow.find? b := by
      intro b
      exact find?_getD_empty m a b
    by_cases hb : b = dest
    · subst hb
      rw [if_pos rfl, if_pos ⟨rfl, rfl⟩, hget]
    · rw [if_neg hb, if_neg (fun h => hb h.2), hget]
  · rw [if_neg ha, if_neg (fun h => ha h.1)]

section

variable {E : Env} {S : CBlock → Prop} {db : TemplateDB} {dest destPowMint : CDestination} {nHeight : ℕ}

theorem pledgeTx_entry (hm : MintOf E S dest destPowMint) (hdb : DbShown E S db) {t : CTransaction × CTxContxt}
    (hsig : SigShown E S t) {m m1 m2 : PledgeMap} (h1 : pledgeSendTo db nHeight m t.1 t.2 = some (some m1))
    (h2 : pledgeDestIn db m1 t.1 t.2 = some (some m2)) :
    pledgeEntry m2 destPowMint dest = txPledge nHeight dest (pledgeEntry m destPowMint dest) t := by
  have htype : ∀ {d : CDestination}, isTemplateOf d TEMPLATE_MINTPLEDGE = false → d ≠ dest := by
    rintro d hd rfl
    rw [hm.type] at hd
    cases hd
  have hsend : pledgeEntry m1 destPowMint dest =
      if t.1.sendTo = dest then
        some (wrap64 (((pledgeEntry m destPowMint dest).getD (0, 0)).1 + t.1.nAmount),
          if t.1.nType ≠ CTransaction.TX_STAKE && !t.2.destIn.isNull then nHeight
          else ((pledgeEntry m destPowMint dest).getD (0, 0)).2)
      else pledgeEntry m destPowMint dest := by
    rcases pledgeSendTo_cases h1 with ⟨hno, rfl⟩ | ⟨hyes, pledge, hp, rfl⟩
    · rw [if_neg (htype hno)]
    · rw [pledgeEntry_changePledge]
      by_cases hd : t.1.sendTo = dest
      · rw [if_pos hd]
        have hshown := pledgeTemplate_shown hdb (isTemplateOf_type hyes).2
          (fun hne => hsig.sendTo hne (isDestInRecorded_of_type hyes (Or.inr rfl))) hp
        rw [hd] at hshown
        rw [if_pos ⟨(hm.mint pledge hshown).symm, hd.symm⟩]
      · rw [if_neg hd, if_neg (fun h => hd h.2.symm)]
  unfold txPledge
  rw [← hsend]
  rcases pledgeDestIn_cases h2 with ⟨hno, rfl⟩ | ⟨hyes, v, pledge, hv, hp, rfl⟩
  · rw [if_neg (htype hno)]
  · rw [pledgeEntry_changePledge]
    by_cases hd : t.2.destIn = dest
    · rw [if_pos hd]
      have hshown := pledgeTemplate_shown hdb (isTemplateOf_type hyes).2 (fun hne => hsig.destIn (fun hnil => hne
        (List.suffix_nil.1 (hnil ▸ hv.suffix))) (isTemplateOf_type hyes).1 v hv) hp
      rw [hd] at hshown
      rw [if_pos ⟨(hm.mint pledge hshown).symm, hd.symm⟩]
    · rw [if_neg hd, if_neg (fun h => hd h.2.symm)]

/-- **`UpdatePledge`** sums up what the block does to the entry of an address. -/
theorem blockPledges_entry (hm : MintOf E S dest destPowMint) (hdb : DbShown E S db)
    (l : List (CTransaction × CTxContxt)) (hsig : ∀ t ∈ l, SigShown E S t) {m m' : PledgeMap}
    (h : blockPledges db nHeight l m = some (some m')) :
    pledgeEntry m' destPowMint dest = l.foldl (txPledge nHeight dest) (pledgeEntry m destPowMint dest) := by
  fun_induction blockPledges db nHeight l m with
  | case1 =>
    cases h
    rfl
  | case2 | case3 | case4 | case5 => cases h
  | case6 tx txContxt l m m1 h1 m2 h2 ih =>
    rw [List.foldl_cons, ← pledgeTx_entry hm hdb (hsig (tx, txContxt) List.mem_cons_self) h1 h2]
    exact ih (fun t' ht' => hsig t' (List.mem_cons_of_mem _ ht')) h

end

/-! ## Amount and height -/

/-- What a transaction changes of the balance of an address. -/
def txDelta (dest : CDestination) (t : CTransaction × CTxContxt) : ℤ :=
  (if t.1.sendTo = dest then t.1.nAmount else 0) - if t.2.destIn = dest then t.1.nAmount + t.1.nTxFee else 0

/-- A transfer to the address that is no reward. -/
def isDeposit (dest : CDestination) (t : CTransaction × CTxContxt) : Bool :=
  t.1.sendTo = dest && (t.1.nType ≠ CTransaction.TX_STAKE && !t.2.destIn.isNull)

theorem txPledge_amount (nHeight : ℕ) (dest : CDestination) {o : Option (ℤ × ℕ)} (t : CTransaction × CTxContxt)
    {x : ℤ} (ho : (o.getD (0, 0)).1 = wrap64 x) :
    ((txPledge nHeight dest o t).getD (0, 0)).1 = wrap64 (x + txDelta dest t) := by
  have hsend : ((if t.1.sendTo = dest then
      some (wrap64 ((o.getD (0, 0)).1 + t.1.nAmount),
        if t.1.nType ≠ CTransaction.TX_STAKE && !t.2.destIn.isNull then nHeight else (o.getD (0, 0)).2)
      else o).getD (0, 0)).1 = wrap64 (x + if t.1.sendTo = dest then t.1.nAmount else 0) := by
    by_cases h : t.1.sendTo = dest
    · rw [if_pos h, if_pos h, Option.getD_some, ho, wrap64_add_left]
    · rw [if_neg h, if_neg h, add_zero, ho]
  unfold txPledge txDelta
  simp only
  by_cases h : t.2.destIn = dest
  · rw [if_pos h, if_pos h, Option.getD_some]
    show wrap64 (_ - wrap64 _) = _
    rw [hsend, wrap64_sub_right, wrap64_sub_left, add_sub_assoc]
  · rw [if_neg h, if_neg h, hsend, sub_zero]

theorem txPledge_height (nHeight : ℕ) (dest : CDestination) (o : Option (ℤ × ℕ)) (t : CTransaction × CTxContxt) :
    ((txPledge nHeight dest o t).getD (0, 0)).2 = if isDeposit dest t then nHeight else (o.getD (0, 0)).2 := by
  unfold txPledge isDeposit
  by_cases h : t.1.sendTo = dest
  · simp only [h, if_true, decide_true, Bool.true_and]
    split_ifs <;> rfl
  · simp only [h, if_false, decide_false, Bool.false_and, Bool.false_eq_true]
    split_ifs <;> rfl

theorem blockPledge_amount (b : CBlockEx) (dest : CDestination) :
    ((blockPledge b dest).getD (0, 0)).1 = wrap64 ((b.block.vtx.zip b.vTxContxt).map (txDelta dest)).sum := by
  have main : ∀ (l : List (CTransaction × CTxContxt)) (o : Option (ℤ × ℕ)) (x : ℤ), (o.getD (0, 0)).1 = wrap64 x →
      ((l.foldl (txPledge b.block.getBlockHeight dest) o).getD (0, 0)).1 = wrap64 (x + (l.map (txDelta dest)).sum) := by
    intro l
    induction l with
    | nil =>
      intro o x ho
      rw [List.foldl_nil, List.map_nil, List.sum_nil, add_zero, ho]
    | cons t l ih =>
      intro o x ho
      rw [List.foldl_cons, ih _ _ (txPledge_amount _ dest t ho), List.map_cons, List.sum_cons, add_assoc]
  have hblock := main (b.block.vtx.zip b.vTxContxt) none 0 rfl
  rwa [zero_add] at hblock

theorem blockPledge_height (b : CBlockEx) (dest : CDestination) :
    ((blockPledge b dest).getD (0, 0)).2 =
      if (b.block.vtx.zip b.vTxContxt).any (isDeposit dest) then b.block.getBlockHeight else 0 := by
  have main : ∀ (l : List (CTransaction × CTxContxt)) (o : Option (ℤ × ℕ)),
      ((l.foldl (txPledge b.block.getBlockHeight dest) o).getD (0, 0)).2 =
        if l.any (isDeposit dest) then b.block.getBlockHeight else (o.getD (0, 0)).2 := by
    intro l
    induction l with
    | nil => exact fun o => rfl
    | cons t l ih =>
      intro o
      rw [List.foldl_cons, ih, txPledge_height, List.any_cons]
      cases isDeposit dest t <;> cases l.any (isDeposit dest) <;> rfl
  exact main _ none

/-! ## Redeems -/

/-- What a block changes of a redeem address, one amount after the other. -/
def redeemDeltas (b : CBlockEx) (dest : CDestination) : List ℤ :=
  ((blockRedeems (b.block.vtx.zip b.vTxContxt)).filter fun kv => kv.1 = dest).map Prod.snd

def txRedeem (dest : CDestination) (t : CTransaction × CTxContxt) : List ℤ :=
  (if t.1.sendTo = dest then [t.1.nAmount] else []) ++
    if t.2.destIn = dest then [wrap64 (0 - wrap64 (t.1.nAmount + t.1.nTxFee))] else []

theorem redeemDeltas_eq {dest : CDestination} (hd : isTemplateOf dest TEMPLATE_MINTREDEEM = true) (b : CBlockEx) :
    redeemDeltas b dest = (b.block.vtx.zip b.vTxContxt).flatMap (txRedeem dest) := by
  have hone : ∀ (a : CDestination) (x : ℤ),
      ((if isTemplateOf a TEMPLATE_MINTREDEEM then [(a, x)] else []).filter fun kv => kv.1 = dest).map Prod.snd =
        if a = dest then [x] else [] := by
    intro a x
    by_cases ha : a = dest
    · subst ha
      rw [if_pos hd, if_pos rfl]
      simp
    · rw [if_neg ha]
      split_ifs
      · simp [ha]
      · rfl
  unfold redeemDeltas blockRedeems
  rw [List.filter_flatMap, List.map_flatMap]
  congr 1
  funext t
  rw [List.filter_append, List.map_append, hone, hone]
  rfl

theorem txRedeem_sum (dest : CDestination) (t : CTransaction × CTxContxt) (x : ℤ) :
    wrap64 (x + (txRedeem dest t).sum) = wrap64 (x + txDelta dest t) := by
  have hsend : (if t.1.sendTo = dest then [t.1.nAmount] else []).sum =
      if t.1.sendTo = dest then t.1.nAmount else 0 := by
    split_ifs <;> simp
  unfold txRedeem txDelta
  rw [List.sum_append, hsend]
  by_cases h : t.2.destIn = dest
  · rw [if_pos h, if_pos h, List.sum_singleton, ← add_assoc, wrap64_add_right, zero_sub, ← sub_eq_add_neg,
      wrap64_sub_right, add_sub_assoc]
  · rw [if_neg h, if_neg h, List.sum_nil, add_zero, sub_zero]

theorem txRedeem_sum_list (dest : CDestination) (l : List (CTransaction × CTxContxt)) (x : ℤ) :
    wrap64 (x + (l.flatMap (txRedeem dest)).sum) = wrap64 (x + (l.map (txDelta dest)).sum) := by
  induction l generalizing x with
  | nil => rfl
  | cons t l ih =>
    rw [List.flatMap_cons, List.sum_append, ← add_assoc, ih, add_right_comm, txRedeem_sum, List.map_cons, List.sum_cons,
      add_right_comm, add_assoc]

end Minemon
