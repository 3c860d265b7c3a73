import Minemon.Lib.Multimap
import Minemon.Wallet.Coins

/-!
# Selecting coins

`CWallet::SelectCoins` and `ArrangeInputs` in `minemon/wallet.cpp`: one pass over the coins of an address keeps the
largest of those below the target and the least of those above it, and the inputs are then put together from either.

* `CWallet.selectLoop`: the pass. `CWallet.takeLower`, `CWallet.assemble`: the inputs.
* `takeLower_spec`, `takeLarger_eq`, `dropLowest_eq`: the loops over `mapValue`, without the words.

`none` is a result that the source does not define.
-/

namespace Minemon

def INT64_MAX : ℤ := 2 ^ 63 - 1

def MAX_SIGNATURE_SIZE : ℕ := 2048

def MAX_TX_INPUT_COUNT : ℕ := (MAX_TX_SIZE - MAX_SIGNATURE_SIZE - 4) / 33

structure SelectState where
  nTargetValue : ℤ
  coinLowestLarger : ℤ × Option (ℕ × ℕ) := (INT64_MAX, none)
  nTotalLower : ℤ := 0
  mapValue : List (ℤ × (ℕ × ℕ)) := []

/-- How one turn of the loop ends: with `return`, with `break` or with the next coin. -/
inductive SelectTurn where
  | found (out : ℕ × ℕ)
  | stop (s : SelectState)
  | next (s : SelectState)

/-- `while (mapValue.size() > nMaxInput)` -/
def dropLowest (nMaxInput : ℕ) : ℤ → List (ℤ × (ℕ × ℕ)) → ℤ × List (ℤ × (ℕ × ℕ))
  | nTotalLower, [] => (nTotalLower, [])
  | nTotalLower, e :: mapValue =>
    if nMaxInput < mapValue.length + 1 then dropLowest nMaxInput (wrap64 (nTotalLower - e.1)) mapValue
    else (nTotalLower, e :: mapValue)

namespace CWallet

/-! ## Coins -/

section

variable (w : CWallet)

/-- `CWalletTxOut::IsLocked`, which compares the height as a `uint32`. -/
def isLocked (out : ℕ × ℕ) (nHeight : ℤ) : Bool := nHeight % 2 ^ 32 < (w.heap out.1).getLockUntil out.2

def getTxTime (out : ℕ × ℕ) : ℤ := (w.heap out.1).nTimeStamp

def getTxOutPoint (out : ℕ × ℕ) : CTxOutPoint := ⟨(w.heap out.1).txid, out.2⟩

def coinAmount (out : ℕ × ℕ) : ℤ := (w.heap out.1).getAmount out.2

end

/-! ## The pass over the coins -/

section

variable (w : CWallet) (nForkHeight nTxTime nAmount : ℤ) (nMaxInput : ℕ)

def selectTurn (s : SelectState) (out : ℕ × ℕ) : SelectTurn :=
  if w.isLocked out nForkHeight || nTxTime < w.getTxTime out then
    .next (if nAmount < 0 then { s with nTargetValue := wrap64 (s.nTargetValue - w.coinAmount out) } else s)
  else
    let nValue := w.coinAmount out
    if nValue = s.nTargetValue then .found out
    else if nValue < s.nTargetValue then
      let mapValue := Multimap.insert (nValue, out) s.mapValue
      let nTotalLower := wrap64 (s.nTotalLower + nValue)
      if nAmount < 0 && nMaxInput ≤ mapValue.length then
        .stop { s with nTargetValue := nTotalLower, nTotalLower := nTotalLower, mapValue := mapValue }
      else
        let r := dropLowest nMaxInput nTotalLower mapValue
        let s' : SelectState := { s with nTotalLower := r.1, mapValue := r.2 }
        if s.nTargetValue ≤ r.1 then .stop s' else .next s'
    else if nValue < s.coinLowestLarger.1 then .next { s with coinLowestLarger := (nValue, some out) }
    else .next s

/-- The first loop; a coin of exactly the target is returned at once. -/
def selectLoop : SelectState → List (ℕ × ℕ) → (ℕ × ℕ) ⊕ SelectState
  | s, [] => .inr s
  | s, out :: setCoins =>
    match w.selectTurn nForkHeight nTxTime nAmount nMaxInput s out with
    | .found out => .inl out
    | .stop s => .inr s
    | .next s => selectLoop s setCoins

end

/-! ## The inputs -/

section

variable (w : CWallet)

/-- `while (nValueRet < nTargetValue)`, with the size of `mapValue` first. An empty map has no last entry. -/
def takeLower (nTargetValue : ℤ) :
    ℕ → ℤ → List (ℤ × (ℕ × ℕ)) → List CTxOutPoint → Option (ℤ × List CTxOutPoint)
  | 0, nValueRet, _, vCoins => if nValueRet < nTargetValue then none else some (nValueRet, vCoins)
  | n + 1, nValueRet, mapValue, vCoins =>
    if nValueRet < nTargetValue then
      let it := Multimap.lowerBound (wrap64 (nTargetValue - nValueRet)) mapValue
      let it := if it = mapValue.length then it - 1 else it
      match mapValue[it]? with
      | none => none
      | some e =>
        takeLower nTargetValue n (wrap64 (nValueRet + e.1)) (mapValue.eraseIdx it) (vCoins ++ [w.getTxOutPoint e.2])
    else some (nValueRet, vCoins)

/-- The larger coin, and up to three of the smallest. -/
def takeLarger (nLarger : ℤ) (out : ℕ × ℕ) (mapValue : List (ℤ × (ℕ × ℕ))) : ℤ × List CTxOutPoint :=
  (mapValue.take 3).foldl (fun r e => (wrap64 (r.1 + e.1), r.2 ++ [w.getTxOutPoint e.2]))
    (wrap64 (0 + nLarger), [w.getTxOutPoint out])

def assemble (s : SelectState) : Option (ℤ × List CTxOutPoint) :=
  if s.nTargetValue ≤ s.nTotalLower then w.takeLower s.nTargetValue s.mapValue.length 0 s.mapValue []
  else
    match s.coinLowestLarger.2 with
    | none => some (0, [])
    | some out =>
      if ((w.heap out.1).getOutput out.2).isNull then some (0, [])
      else some (w.takeLarger s.coinLowestLarger.1 out s.mapValue)

/-- `SelectCoins`, with the value and `vCoins`. The coins of `dest` are in `setCoins` in the order of their pointers,
which the allocator decides. -/
def selectCoins (setCoins : List (ℕ × ℕ)) (dest : CDestination) (nForkHeight nTxTime nAmount nTxFee : ℤ)
    (nMaxInput : ℕ) : Option (ℤ × List CTxOutPoint) :=
  let nTotalValue := (w.mapWalletUnspent dest).nTotalValue
  let nTargetValue := if 0 ≤ nAmount then wrap64 (nAmount + nTxFee) else nTotalValue
  if nTotalValue < nTargetValue then some (0, [])
  else
    match w.selectLoop nForkHeight nTxTime nAmount nMaxInput { nTargetValue := nTargetValue } setCoins with
    | .inl out => some (w.coinAmount out, [w.getTxOutPoint out])
    | .inr s => w.assemble s

/-- `ArrangeInputs`: the transaction with its inputs; `some none` is `false`. -/
def arrangeInputs (setCoins : List (ℕ × ℕ)) (destIn : CDestination) (nForkHeight : ℤ) (tx : CTransaction) :
    Option (Option CTransaction) :=
  match w.selectCoins setCoins destIn nForkHeight tx.nTimeStamp tx.nAmount tx.nTxFee MAX_TX_INPUT_COUNT with
  | none => none
  | some (nValueIn, vCoins) =>
    if nValueIn ≤ 0 then some none
    else
      some (some { tx with
        vInput := vCoins
        nAmount := if tx.nAmount < 0 then wrap64 (nValueIn - tx.nTxFee) else tx.nAmount })

end

end CWallet

/-! ## Coins that can be selected -/

def CWallet.worth (w : CWallet) (l : List (ℕ × ℕ)) : ℤ := (l.map w.coinAmount).sum

def CWallet.coinEntry (w : CWallet) (out : ℕ × ℕ) : ℤ × (ℕ × ℕ) := (w.coinAmount out, out)

/-- Unlocked at the height, and not newer than the transaction. -/
def CWallet.eligible (w : CWallet) (nForkHeight nTxTime : ℤ) (out : ℕ × ℕ) : Bool :=
  !(w.isLocked out nForkHeight || nTxTime < w.getTxTime out)

/-- Different coins, not null, worth less than a word together and each less than the value that stands for no coin. -/
structure CoinsFit (w : CWallet) (l : List (ℕ × ℕ)) : Prop where
  nodup : l.Nodup
  notNull : ∀ out ∈ l, ((w.heap out.1).getOutput out.2).isNull = false
  lt_max : ∀ out ∈ l, w.coinAmount out < INT64_MAX
  worth_lt : w.worth l < 2 ^ 63

section

variable {w : CWallet} {coins l l' : List (ℕ × ℕ)}

@[simp] theorem worth_nil : w.worth [] = 0 := rfl

@[simp] theorem worth_cons {out : ℕ × ℕ} : w.worth (out :: l) = w.coinAmount out + w.worth l := List.sum_cons

@[simp] theorem worth_append : w.worth (l ++ l') = w.worth l + w.worth l' := by
  rw [CWallet.worth, List.map_append, List.sum_append]
  rfl

theorem worth_perm (h : l.Perm l') : w.worth l = w.worth l' := (h.map _).sum_eq

theorem map_coinEntry_fst (l : List (ℕ × ℕ)) : (l.map w.coinEntry).map Prod.fst = l.map w.coinAmount := by
  rw [List.map_map]
  rfl

theorem map_coinEntry_snd (l : List (ℕ × ℕ)) : (l.map w.coinEntry).map Prod.snd = l := by
  rw [List.map_map]
  exact List.map_id l

theorem coinAmount_pos {out : ℕ × ℕ} (h : ((w.heap out.1).getOutput out.2).isNull = false) : 0 < w.coinAmount out := by
  rw [CWallet.coinAmount, CWalletTx.getAmount_eq h]
  simp only [CTxOut.isNull, Bool.or_eq_false_iff, decide_eq_false_iff_not, not_le] at h
  exact h.2

namespace CoinsFit

section

variable (h : CoinsFit w coins)

include h

theorem pos {out : ℕ × ℕ} (hout : out ∈ coins) : 0 < w.coinAmount out :=
  coinAmount_pos (h.notNull out hout)

theorem nodup_of_subperm (hl : l.Subperm coins) : l.Nodup := by
  have ⟨l', hperm, hsub⟩ := hl
  exact hperm.nodup_iff.1 (h.nodup.sublist hsub)

theorem worth_nonneg (hl : l ⊆ coins) : 0 ≤ w.worth l := by
  apply List.sum_nonneg
  intro v hv
  have ⟨out, hout, heq⟩ := List.mem_map.1 hv
  exact heq ▸ (h.pos (hl hout)).le

theorem eq_nil_of_worth (hl : l ⊆ coins) (hworth : w.worth l ≤ 0) : l = [] := by
  cases l with
  | nil => rfl
  | cons out l =>
    have hpos := h.pos (hl List.mem_cons_self)
    have hrest := h.worth_nonneg (List.subset_of_cons_subset hl)
    rw [worth_cons] at hworth
    omega

theorem worth_le (hnodup : l.Nodup) (hl : l ⊆ coins) : w.worth l ≤ w.worth coins := by
  have ⟨l', hperm, hsub⟩ := List.subperm_of_subset hnodup hl
  rw [← worth_perm hperm]
  apply (hsub.map w.coinAmount).sum_le_sum
  intro v hv
  have ⟨out, hout, heq⟩ := List.mem_map.1 hv
  exact heq ▸ (h.pos hout).le

theorem wrap_worth (hnodup : l.Nodup) (hl : l ⊆ coins) : wrap64 (w.worth l) = w.worth l :=
  wrap64_eq (fits64_of_nonneg (h.worth_nonneg hl) ((h.worth_le hnodup hl).trans_lt h.worth_lt))

end

end CoinsFit

/-! ## The inputs that are put together -/

variable {cs : List (ℕ × ℕ)}

theorem takeLower_succ {nTargetValue nValueRet : ℤ} {n : ℕ} (hlen : cs.length = n + 1)
    (hshort : nValueRet < nTargetValue) (vCoins : List CTxOutPoint) :
    ∃ out cs', (out :: cs').Perm cs ∧
      w.takeLower nTargetValue (n + 1) nValueRet (cs.map w.coinEntry) vCoins
        = w.takeLower nTargetValue n (wrap64 (nValueRet + w.coinAmount out)) (cs'.map w.coinEntry)
          (vCoins ++ [w.getTxOutPoint out]) := by
  rw [CWallet.takeLower, if_pos hshort]
  dsimp only
  set it := Multimap.lowerBound (wrap64 (nTargetValue - nValueRet)) (cs.map w.coinEntry)
  have hit : it ≤ (cs.map w.coinEntry).length := List.findIdx_le_length
  rw [List.length_map] at hit ⊢
  have hat : (if it = cs.length then it - 1 else it) < cs.length := by
    split_ifs <;> omega
  generalize (if it = cs.length then it - 1 else it) = i at hat
  refine ⟨cs[i], cs.eraseIdx i, List.getElem_cons_eraseIdx_perm hat, ?_⟩
  rw [List.getElem?_map, List.getElem?_eq_getElem hat, List.eraseIdx_map]
  rfl

/-- From coins that are worth enough, some are taken one by one until they are worth the target. -/
theorem takeLower_spec (h : CoinsFit w coins) (nTargetValue : ℤ) (n : ℕ) :
    ∀ (cs taken : List (ℕ × ℕ)) (vCoins : List CTxOutPoint), cs.length = n → (taken ++ cs).Nodup →
      taken ++ cs ⊆ coins → nTargetValue ≤ w.worth taken + w.worth cs →
      ∃ ds rest, (ds ++ rest).Perm cs ∧
        w.takeLower nTargetValue n (w.worth taken) (cs.map w.coinEntry) vCoins
          = some (w.worth taken + w.worth ds, vCoins ++ ds.map w.getTxOutPoint) ∧
        nTargetValue ≤ w.worth taken + w.worth ds ∧ (nTargetValue = w.worth taken + w.worth cs → rest = []) := by
  induction n with
  | zero =>
    intro cs taken vCoins hlen _ _ henough
    rw [List.length_eq_zero_iff] at hlen
    subst hlen
    rw [worth_nil, add_zero] at henough
    refine ⟨[], [], List.Perm.refl _, ?_, by simpa using henough, fun _ => rfl⟩
    rw [CWallet.takeLower, if_neg (not_lt.2 henough)]
    simp
  | succ n ih =>
    intro cs taken vCoins hlen hnodup hsub henough
    by_cases hshort : w.worth taken < nTargetValue
    swap
    · refine ⟨[], cs, List.Perm.refl _, ?_, by simpa using hshort, fun heq => ?_⟩
      · rw [CWallet.takeLower, if_neg hshort]
        simp
      · exact h.eq_nil_of_worth (fun out hout => hsub (List.mem_append_right taken hout)) (by omega)
    · obtain ⟨out, cs', hperm, hturn⟩ := takeLower_succ (w := w) hlen hshort vCoins
      have hall : (taken ++ [out] ++ cs').Perm (taken ++ cs) := by
        rw [List.append_assoc]
        exact hperm.append_left taken
      have hworth := worth_perm (w := w) hperm
      have hlen' := hperm.length_eq
      rw [worth_cons] at hworth
      rw [List.length_cons] at hlen'
      have hnodup' := hall.nodup_iff.2 hnodup
      have hsub' : taken ++ [out] ++ cs' ⊆ coins := fun c hc => hsub (hall.subset hc)
      have htaken : w.worth (taken ++ [out]) = w.worth taken + w.coinAmount out := by simp
      have hvalue : wrap64 (w.worth taken + w.coinAmount out) = w.worth (taken ++ [out]) := by
        rw [← htaken]
        exact h.wrap_worth (List.Nodup.of_append_left hnodup') fun c hc => hsub' (List.mem_append_left _ hc)
      have ⟨ds, rest, hds, heq, hle, hrest⟩ := ih cs' (taken ++ [out]) (vCoins ++ [w.getTxOutPoint out]) (by omega)
        hnodup' hsub' (by omega)
      refine ⟨out :: ds, rest, (hds.cons out).trans hperm, ?_, by rw [worth_cons]; omega, fun h => hrest (by omega)⟩
      rw [hturn, hvalue, heq, htaken]
      simp [add_assoc]

theorem foldl_take (h : CoinsFit w coins) (l : List (ℕ × ℕ)) :
    ∀ taken : List (ℕ × ℕ), (taken ++ l).Nodup → taken ++ l ⊆ coins →
      (l.map w.coinEntry).foldl (fun r e => (wrap64 (r.1 + e.1), r.2 ++ [w.getTxOutPoint e.2]))
        (w.worth taken, taken.map w.getTxOutPoint) = (w.worth (taken ++ l), (taken ++ l).map w.getTxOutPoint) := by
  induction l with
  | nil =>
    intro taken _ _
    rw [List.append_nil]
    rfl
  | cons out l ih =>
    intro taken hnodup hsub
    rw [List.append_cons] at hnodup hsub ⊢
    have hvalue : wrap64 (w.worth taken + w.coinAmount out) = w.worth (taken ++ [out]) := by
      rw [← h.wrap_worth (List.Nodup.of_append_left hnodup) fun c hc => hsub (List.mem_append_left l hc)]
      simp
    rw [← ih (taken ++ [out]) hnodup hsub, ← hvalue, List.map_append]
    rfl

theorem takeLarger_eq (h : CoinsFit w coins) {out : ℕ × ℕ} (hnodup : (out :: cs.take 3).Nodup)
    (hsub : out :: cs.take 3 ⊆ coins) :
    w.takeLarger (w.coinAmount out) out (cs.map w.coinEntry)
      = (w.worth (out :: cs.take 3), (out :: cs.take 3).map w.getTxOutPoint) := by
  have hone : wrap64 (0 + w.coinAmount out) = w.worth [out] := by
    rw [← h.wrap_worth (List.nodup_singleton out) (List.cons_subset.2 ⟨hsub List.mem_cons_self, List.nil_subset _⟩)]
    simp
  rw [CWallet.takeLarger, ← List.map_take, hone]
  exact foldl_take h (cs.take 3) [out] hnodup hsub

theorem dropLowest_eq (h : CoinsFit w coins) (nMaxInput : ℕ) (hnodup : cs.Nodup)
    (hsub : cs ⊆ coins) : dropLowest nMaxInput (w.worth cs) (cs.map w.coinEntry)
      = (w.worth (cs.drop (cs.length - nMaxInput)), (cs.drop (cs.length - nMaxInput)).map w.coinEntry) := by
  induction cs with
  | nil =>
    rw [List.drop_nil]
    rfl
  | cons out cs ih =>
    have hrest : cs ⊆ coins := List.subset_of_cons_subset hsub
    have hless : w.worth (out :: cs) - (w.coinEntry out).1 = w.worth cs := by
      rw [worth_cons]
      exact add_sub_cancel_left _ _
    rw [List.map_cons, dropLowest, List.length_map, List.length_cons]
    split_ifs with hmany
    · rw [hless, h.wrap_worth hnodup.of_cons hrest, ih hnodup.of_cons hrest, Nat.sub_add_comm (by omega),
        List.drop_succ_cons]
    · rw [Nat.sub_eq_zero_of_le (not_lt.1 hmany)]
      rfl

theorem insert_coinEntry (out : ℕ × ℕ) (cs : List (ℕ × ℕ)) :
    ∃ cs' : List (ℕ × ℕ), Multimap.insert (w.coinEntry out) (cs.map w.coinEntry) = cs'.map w.coinEntry ∧
      cs'.Perm (out :: cs) := by
  induction cs with
  | nil => exact ⟨[out], rfl, List.Perm.refl _⟩
  | cons c cs ih =>
    rw [List.map_cons, Multimap.insert]
    split_ifs
    · exact ⟨out :: c :: cs, rfl, List.Perm.refl _⟩
    · obtain ⟨cs', heq, hperm⟩ := ih
      exact ⟨c :: cs', by rw [heq, List.map_cons], (hperm.cons c).trans (List.Perm.swap out c cs)⟩

end

end Minemon
