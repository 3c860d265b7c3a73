import Minemon.Wallet.SelectCoins

/-!
# Coin selection is sound and complete

The first loop of `SelectCoins` by its invariants: for an amount, `mapValue` has the largest of the coins below the
target that were seen; for everything, all eligible coins that were seen.

* `PayInv`, `selectTurn_pay`, `selectLoop_pay`: the pass for an amount.
* `SweepInv`, `selectTurn_sweep`, `selectLoop_sweep`: the pass for a negative amount.
* `selectCoins_spec`: **what is selected is sound, and enough whenever enough can be selected**.
* `arrangeInputs_spec`: the inputs of a transaction.
-/

namespace Minemon

/-! ## The pass for an amount -/

section

variable (w : CWallet) (nForkHeight nTxTime : ℤ) (nMaxInput : ℕ)

def CWallet.lower (t : ℤ) (out : ℕ × ℕ) : Bool := w.eligible nForkHeight nTxTime out && decide (w.coinAmount out < t)

/-- Between two turns: `mapValue` has the largest of the lower coins, and `coinLowestLarger` one of the larger ones. -/
structure PayInv (t : ℤ) (seen cs : List (ℕ × ℕ)) (s : SelectState) : Prop where
  target : s.nTargetValue = t
  map : s.mapValue = cs.map w.coinEntry
  total : s.nTotalLower = w.worth cs
  largest : Multimap.Largest nMaxInput ((seen.filter (w.lower nForkHeight nTxTime t)).map w.coinEntry)
    (cs.map w.coinEntry)
  exact : ∀ out ∈ seen, w.eligible nForkHeight nTxTime out = true → w.coinAmount out ≠ t
  larger : s.coinLowestLarger = (INT64_MAX, none) ∧
      (∀ out ∈ seen, w.eligible nForkHeight nTxTime out = true → w.coinAmount out ≤ t) ∨
    ∃ out ∈ seen, w.eligible nForkHeight nTxTime out = true ∧ t < w.coinAmount out ∧
      s.coinLowestLarger = (w.coinAmount out, some out)

end

section

variable {w : CWallet} {nForkHeight nTxTime nAmount nTxFee t : ℤ} {nMaxInput : ℕ} {coins seen rest cs : List (ℕ × ℕ)}
  {s : SelectState} {out : ℕ × ℕ} {dest : CDestination}

theorem PayInv.start (t : ℤ) : PayInv w nForkHeight nTxTime nMaxInput t [] [] { nTargetValue := t } where
  target := rfl
  map := rfl
  total := rfl
  largest := Multimap.Largest.nil nMaxInput
  exact := by simp
  larger := Or.inl ⟨rfl, by simp⟩

section

variable (h : PayInv w nForkHeight nTxTime nMaxInput t seen cs s)

include h

theorem PayInv.split : ∃ ds, (cs ++ ds).Perm (seen.filter (w.lower nForkHeight nTxTime t)) := by
  obtain ⟨dropped, hperm, -, -⟩ := h.largest.split
  refine ⟨dropped.map Prod.snd, ?_⟩
  have hsnd := hperm.map Prod.snd
  rwa [List.map_append, map_coinEntry_snd, map_coinEntry_snd] at hsnd

theorem PayInv.nodup (hseen : seen.Nodup) : cs.Nodup := by
  have ⟨ds, hperm⟩ := h.split
  exact List.Nodup.of_append_left (hperm.nodup_iff.2 (hseen.filter _))

theorem PayInv.mem (hout : out ∈ cs) :
    out ∈ seen ∧ w.eligible nForkHeight nTxTime out = true ∧ w.coinAmount out < t := by
  have ⟨ds, hperm⟩ := h.split
  have hmem := hperm.mem_iff.1 (List.mem_append_left ds hout)
  simpa [CWallet.lower] using hmem

theorem PayInv.skip
    (hout : w.eligible nForkHeight nTxTime out = true → t < w.coinAmount out ∧ s.coinLowestLarger ≠ (INT64_MAX, none)) :
    PayInv w nForkHeight nTxTime nMaxInput t (out :: seen) cs s where
  target := h.target
  map := h.map
  total := h.total
  largest := by
    rw [List.filter_cons_of_neg]
    · exact h.largest
    · simp only [CWallet.lower, Bool.and_eq_true, decide_eq_true_eq, not_and, not_lt]
      exact fun hel => (hout hel).1.le
  exact := List.forall_mem_cons.2 ⟨fun hel => (hout hel).1.ne', h.exact⟩
  larger := by
    rcases h.larger with ⟨hnone, hle⟩ | ⟨c, hc, hlarger⟩
    · exact Or.inl ⟨hnone, List.forall_mem_cons.2 ⟨fun hel => absurd hnone (hout hel).2, hle⟩⟩
    · exact Or.inr ⟨c, List.mem_cons_of_mem out hc, hlarger⟩

theorem PayInv.keepLarger
    (hel : w.eligible nForkHeight nTxTime out = true) (hlt : t < w.coinAmount out) :
    PayInv w nForkHeight nTxTime nMaxInput t (out :: seen) cs
      { s with coinLowestLarger := (w.coinAmount out, some out) } where
  target := h.target
  map := h.map
  total := h.total
  largest := by
    rw [List.filter_cons_of_neg]
    · exact h.largest
    · simp only [CWallet.lower, Bool.and_eq_true, decide_eq_true_eq, not_and, not_lt]
      exact fun _ => hlt.le
  exact := List.forall_mem_cons.2 ⟨fun _ => hlt.ne', h.exact⟩
  larger := Or.inr ⟨out, List.mem_cons_self, hel, hlt, rfl⟩

variable (hfit : CoinsFit w coins)

include hfit

theorem PayInv.insertLower (hnodup : (out :: seen).Nodup) (hsub : out :: seen ⊆ coins)
    (hel : w.eligible nForkHeight nTxTime out = true) (hlt : w.coinAmount out < t) :
    ∃ cs', dropLowest nMaxInput (wrap64 (s.nTotalLower + w.coinAmount out))
        (Multimap.insert (w.coinAmount out, out) s.mapValue) = (w.worth cs', cs'.map w.coinEntry) ∧
      PayInv w nForkHeight nTxTime nMaxInput t (out :: seen) cs'
        { s with nTotalLower := w.worth cs', mapValue := cs'.map w.coinEntry } := by
  obtain ⟨ds, hins, hperm⟩ := insert_coinEntry (w := w) out cs
  have hcs : (out :: cs).Nodup := by
    refine List.nodup_cons.2 ⟨fun hmem => ?_, h.nodup hnodup.of_cons⟩
    exact (List.nodup_cons.1 hnodup).1 (h.mem hmem).1
  have hds : ds.Nodup := hperm.nodup_iff.2 hcs
  have hds' : ds ⊆ coins := by
    intro c hc
    rcases List.mem_cons.1 (hperm.mem_iff.1 hc) with rfl | hc
    · exact hsub List.mem_cons_self
    · exact hsub (List.mem_cons_of_mem out (h.mem hc).1)
  have htotal : wrap64 (s.nTotalLower + w.coinAmount out) = w.worth ds := by
    rw [← hfit.wrap_worth hds hds', worth_perm hperm, worth_cons, h.total, add_comm]
  have hdrop := dropLowest_eq hfit nMaxInput hds hds'
  refine ⟨ds.drop (ds.length - nMaxInput), ?_, h.target, rfl, rfl, ?_, ?_, ?_⟩
  · rw [htotal, h.map]
    exact hins ▸ hdrop
  · have hlargest := h.largest.insert (e := w.coinEntry out)
    rw [hins, Multimap.keepLast, List.length_map, ← List.map_drop] at hlargest
    rw [List.filter_cons_of_pos (by simp [CWallet.lower, hel, hlt])]
    exact hlargest
  · exact List.forall_mem_cons.2 ⟨fun _ => hlt.ne, h.exact⟩
  · rcases h.larger with ⟨hnone, hle⟩ | ⟨c, hc, hlarger⟩
    · exact Or.inl ⟨hnone, List.forall_mem_cons.2 ⟨fun _ => hlt.le, hle⟩⟩
    · exact Or.inr ⟨c, List.mem_cons_of_mem out hc, hlarger⟩

/-- One turn: the coin is the target, or the invariant holds with it; the loop is left only with enough. -/
theorem selectTurn_pay (hamount : 0 ≤ nAmount) (hnodup : (out :: seen).Nodup) (hsub : out :: seen ⊆ coins) :
    (w.eligible nForkHeight nTxTime out = true ∧ w.coinAmount out = t ∧
      w.selectTurn nForkHeight nTxTime nAmount nMaxInput s out = .found out) ∨
    ∃ cs' s', PayInv w nForkHeight nTxTime nMaxInput t (out :: seen) cs' s' ∧
      (w.selectTurn nForkHeight nTxTime nAmount nMaxInput s out = .next s' ∨
        w.selectTurn nForkHeight nTxTime nAmount nMaxInput s out = .stop s' ∧ t ≤ s'.nTotalLower) := by
  have hpay : ¬nAmount < 0 := not_lt.2 hamount
  have ht := h.target
  subst ht
  unfold CWallet.selectTurn
  by_cases hel : (w.isLocked out nForkHeight || decide (nTxTime < w.getTxTime out)) = true
  · rw [if_pos hel, if_neg hpay]
    exact Or.inr ⟨cs, s, h.skip (by simp [CWallet.eligible, hel]), Or.inl rfl⟩
  have hel' : w.eligible nForkHeight nTxTime out = true := by
    simpa [CWallet.eligible] using hel
  rw [if_neg hel]
  dsimp only
  rcases lt_trichotomy (w.coinAmount out) s.nTargetValue with hlt | heq | hgt
  · obtain ⟨cs', hdrop, hinv⟩ := h.insertLower hfit hnodup hsub hel' hlt
    rw [if_neg hlt.ne, if_pos hlt, if_neg (by simp [hpay]), hdrop]
    refine Or.inr ⟨cs', _, hinv, ?_⟩
    dsimp only
    split_ifs with henough
    · exact Or.inr ⟨rfl, henough⟩
    · exact Or.inl rfl
  · rw [if_pos heq]
    exact Or.inl ⟨hel', heq, rfl⟩
  · rw [if_neg hgt.ne', if_neg hgt.not_gt]
    split_ifs with hleast
    · exact Or.inr ⟨cs, _, h.keepLarger hel' hgt, Or.inl rfl⟩
    · refine Or.inr ⟨cs, s, h.skip fun _ => ⟨hgt, fun hnone => hleast ?_⟩, Or.inl rfl⟩
      rw [hnone]
      exact hfit.lt_max out (hsub List.mem_cons_self)

/-- If no larger coin was seen, `mapValue` is worth as much as any coins that can be selected. -/
theorem PayInv.worth_le (hseen : seen ⊆ coins) (hnone : s.coinLowestLarger = (INT64_MAX, none)) {ds : List (ℕ × ℕ)}
    (hnodup : ds.Nodup)
    (hds : ∀ out ∈ ds, out ∈ seen ∧ w.eligible nForkHeight nTxTime out = true) (hlen : ds.length ≤ nMaxInput) :
    w.worth ds ≤ s.nTotalLower := by
  have hle : ∀ out ∈ seen, w.eligible nForkHeight nTxTime out = true → w.coinAmount out ≤ t := by
    rcases h.larger with hle | ⟨out, -, -, -, hsome⟩
    · exact hle.2
    · exact absurd (congrArg Prod.snd (hnone.symm.trans hsome)) (by simp)
  have hlower : ds ⊆ seen.filter (w.lower nForkHeight nTxTime t) := by
    intro out hout
    have ⟨hmem, hel⟩ := hds out hout
    have hlt : w.coinAmount out < t := lt_of_le_of_ne (hle out hmem hel) (h.exact out hmem hel)
    simp [CWallet.lower, hmem, hel, hlt]
  have hsub := (List.subperm_of_subset hnodup hlower).map (f := w.coinEntry) fun a b hab => congrArg Prod.snd hab
  have hsum := h.largest.sum_le hsub (by rwa [List.length_map]) fun e he => by
    have ⟨out, hout, heq⟩ := List.mem_map.1 he
    exact heq ▸ (hfit.pos (hseen (h.mem hout).1)).le
  rw [map_coinEntry_fst, map_coinEntry_fst] at hsum
  rw [h.total]
  exact hsum

end

theorem selectLoop_pay (hfit : CoinsFit w coins) (hamount : 0 ≤ nAmount) (l : List (ℕ × ℕ)) :
    ∀ {seen cs s}, PayInv w nForkHeight nTxTime nMaxInput t seen cs s → (seen ++ l).Perm coins →
      (∃ out ∈ coins, w.eligible nForkHeight nTxTime out = true ∧ w.coinAmount out = t ∧
        w.selectLoop nForkHeight nTxTime nAmount nMaxInput s l = .inl out) ∨
      ∃ seen' cs' s', PayInv w nForkHeight nTxTime nMaxInput t seen' cs' s' ∧ seen'.Subperm coins ∧
        (t ≤ s'.nTotalLower ∨ seen'.Perm coins) ∧ w.selectLoop nForkHeight nTxTime nAmount nMaxInput s l = .inr s' := by
  induction l with
  | nil =>
    intro seen cs s h hperm
    rw [List.append_nil] at hperm
    exact Or.inr ⟨seen, cs, s, h, hperm.subperm, Or.inr hperm, rfl⟩
  | cons out l ih =>
    intro seen cs s h hperm
    have hperm' : (out :: seen ++ l).Perm coins := List.perm_middle.symm.trans hperm
    have hsub : (out :: seen).Subperm coins := (List.sublist_append_left _ l).subperm.trans hperm'.subperm
    rw [CWallet.selectLoop]
    have hnodup : (out :: seen).Nodup := List.Nodup.of_append_left (hperm'.nodup_iff.2 hfit.nodup)
    rcases selectTurn_pay h hfit hamount hnodup hsub.subset with
      ⟨hel, heq, hturn⟩ | ⟨cs', s', hinv, hturn | ⟨hturn, henough⟩⟩
    · rw [hturn]
      exact Or.inl ⟨out, hsub.subset List.mem_cons_self, hel, heq, rfl⟩
    · rw [hturn]
      exact ih hinv hperm'
    · rw [hturn]
      exact Or.inr ⟨out :: seen, cs', s', hinv, hsub, Or.inl henough, rfl⟩

/-! ## What is selected -/

/-- The result `r` of `SelectCoins` stands for the coins `ds`. -/
structure Selects (w : CWallet) (nForkHeight nTxTime : ℤ) (nMaxInput : ℕ) (coins : List (ℕ × ℕ))
    (r : ℤ × List CTxOutPoint) (ds : List (ℕ × ℕ)) : Prop where
  value : r.1 = w.worth ds
  outs : r.2 = ds.map w.getTxOutPoint
  nodup : ds.Nodup
  mem : ∀ out ∈ ds, out ∈ coins ∧ w.eligible nForkHeight nTxTime out = true
  length_le : ds.length ≤ nMaxInput

theorem Selects.none : Selects w nForkHeight nTxTime nMaxInput coins (0, []) [] :=
  ⟨rfl, rfl, List.nodup_nil, by simp, Nat.zero_le _⟩

theorem assemble_lower (hfit : CoinsFit w coins) (hmap : s.mapValue = cs.map w.coinEntry)
    (htotal : s.nTotalLower = w.worth cs) (hnodup : cs.Nodup) (hlen : cs.length ≤ nMaxInput)
    (hmem : ∀ out ∈ cs, out ∈ coins ∧ w.eligible nForkHeight nTxTime out = true)
    (henough : s.nTargetValue ≤ s.nTotalLower) :
    ∃ r ds, w.assemble s = some r ∧ Selects w nForkHeight nTxTime nMaxInput coins r ds ∧ s.nTargetValue ≤ r.1 ∧
      (s.nTargetValue = s.nTotalLower → ds.Perm cs) := by
  have hsub : cs ⊆ coins := fun out hout => (hmem out hout).1
  have ⟨ds, rest, hperm, heq, hle, hrest⟩ := takeLower_spec hfit s.nTargetValue cs.length cs [] []
    rfl hnodup hsub (by rw [worth_nil, zero_add, ← htotal]; exact henough)
  rw [worth_nil, zero_add, List.nil_append] at heq
  rw [worth_nil, zero_add] at hle hrest
  have hds : ∀ out ∈ ds, out ∈ cs := fun out hout => hperm.mem_iff.1 (List.mem_append_left rest hout)
  refine ⟨(w.worth ds, ds.map w.getTxOutPoint), ds, ?_, ⟨rfl, rfl, ?_, fun out hout => hmem out (hds out hout), ?_⟩,
    hle, fun hall => ?_⟩
  · rw [CWallet.assemble, if_pos henough, hmap, List.length_map]
    exact heq
  · exact List.Nodup.of_append_left (hperm.nodup_iff.2 hnodup)
  · have hlength := hperm.length_eq
    rw [List.length_append] at hlength
    omega
  · rw [hrest (by rw [hall, htotal]), List.append_nil] at hperm
    exact hperm

/-- What is put together for an amount: enough, or nothing when there was no larger coin. -/
theorem assemble_pay (h : PayInv w nForkHeight nTxTime nMaxInput t seen cs s) (hfit : CoinsFit w coins)
    (hseen : seen.Subperm coins) (hfour : 4 ≤ nMaxInput) :
    ∃ r ds, w.assemble s = some r ∧ Selects w nForkHeight nTxTime nMaxInput coins r ds ∧
      (t ≤ r.1 ∨ ds = [] ∧ s.nTotalLower < t ∧ s.coinLowestLarger = (INT64_MAX, none)) := by
  have hnodup : cs.Nodup := h.nodup (hfit.nodup_of_subperm hseen)
  have hmem : ∀ out ∈ cs, out ∈ coins ∧ w.eligible nForkHeight nTxTime out = true :=
    fun out hout => ⟨hseen.subset (h.mem hout).1, (h.mem hout).2.1⟩
  have hlen : cs.length ≤ nMaxInput := by
    simpa using h.largest.length_le
  have ht := h.target
  subst ht
  by_cases henough : s.nTargetValue ≤ s.nTotalLower
  · have ⟨r, ds, heq, hsel, hle, _⟩ := assemble_lower hfit h.map h.total hnodup hlen hmem henough
    exact ⟨r, ds, heq, hsel, Or.inl hle⟩
  rw [CWallet.assemble, if_neg henough]
  rcases h.larger with ⟨hnone, -⟩ | ⟨out, hout, hel, hlt, hsome⟩
  · rw [hnone]
    exact ⟨(0, []), [], rfl, Selects.none, Or.inr ⟨rfl, not_le.1 henough, rfl⟩⟩
  · -- the larger coin is none of those in `mapValue`
    have hfresh : out ∉ cs.take 3 := fun hin => (h.mem (List.mem_of_mem_take hin)).2.2.not_gt hlt
    have hnodup' : (out :: cs.take 3).Nodup := List.nodup_cons.2 ⟨hfresh, hnodup.sublist (List.take_sublist 3 cs)⟩
    have hmem' : ∀ c ∈ out :: cs.take 3, c ∈ coins ∧ w.eligible nForkHeight nTxTime c = true :=
      List.forall_mem_cons.2 ⟨⟨hseen.subset hout, hel⟩, fun c hc => hmem c (List.mem_of_mem_take hc)⟩
    have hsub : out :: cs.take 3 ⊆ coins := fun c hc => (hmem' c hc).1
    rw [hsome, h.map]
    dsimp only
    rw [if_neg (by simp [hfit.notNull out (hseen.subset hout)]), takeLarger_eq hfit hnodup' hsub]
    refine ⟨_, out :: cs.take 3, rfl, ⟨rfl, rfl, hnodup', hmem', ?_⟩, Or.inl ?_⟩
    · simp only [List.length_cons, List.length_take]
      omega
    · have hrest := hfit.worth_nonneg (List.subset_of_cons_subset hsub)
      rw [worth_cons]
      omega

/-- **For an amount**: enough, or nothing when no coins that can be selected are enough. -/
theorem selectCoins_pay (nForkHeight nTxTime nTxFee : ℤ) (hfit : CoinsFit w coins) (hfour : 4 ≤ nMaxInput)
    (hamount : 0 ≤ nAmount) (htotal : (w.mapWalletUnspent dest).nTotalValue = w.worth coins) :
    ∃ r ds, w.selectCoins coins dest nForkHeight nTxTime nAmount nTxFee nMaxInput = some r ∧
      Selects w nForkHeight nTxTime nMaxInput coins r ds ∧
      (wrap64 (nAmount + nTxFee) ≤ r.1 ∨ ds = [] ∧ ∀ ds' : List (ℕ × ℕ), ds'.Nodup →
        (∀ out ∈ ds', out ∈ coins ∧ w.eligible nForkHeight nTxTime out = true) → ds'.length ≤ nMaxInput →
        w.worth ds' < wrap64 (nAmount + nTxFee)) := by
  unfold CWallet.selectCoins
  dsimp only
  rw [if_pos hamount, htotal]
  split_ifs with hpoor
  · refine ⟨_, [], rfl, Selects.none, Or.inr ⟨rfl, fun ds' hnodup hmem _ => ?_⟩⟩
    exact (hfit.worth_le hnodup fun out hout => (hmem out hout).1).trans_lt hpoor
  · rcases selectLoop_pay hfit hamount coins (PayInv.start _) (List.Perm.refl _) with
      ⟨out, hout, hel, heq, hloop⟩ | ⟨seen, cs, s, hinv, hseen, hend, hloop⟩
    · rw [hloop]
      refine ⟨_, [out], rfl, ⟨by simp, rfl, List.nodup_singleton out, by simp [hout, hel], by simp; omega⟩,
        Or.inl heq.ge⟩
    · rw [hloop]
      have ⟨r, ds, hr, hsel, hres⟩ := assemble_pay hinv hfit hseen hfour
      refine ⟨r, ds, hr, hsel, hres.imp_right fun ⟨hnil, hlow, hnone⟩ => ⟨hnil, fun ds' hnodup hmem hlen => ?_⟩⟩
      have hall := hend.resolve_left (not_le.2 hlow)
      have hle := hinv.worth_le hfit hseen.subset hnone hnodup
        (fun out hout => ⟨hall.mem_iff.2 (hmem out hout).1, (hmem out hout).2⟩) hlen
      exact hle.trans_lt hlow

/-! ## The pass over everything -/

section

variable (w nForkHeight nTxTime nMaxInput)

/-- Between two turns for a negative amount: `mapValue` has the eligible coins, and the target counts them and `rest`.
-/
structure SweepInv (seen rest cs : List (ℕ × ℕ)) (s : SelectState) : Prop where
  target : s.nTargetValue = w.worth cs + w.worth rest
  map : s.mapValue = cs.map w.coinEntry
  total : s.nTotalLower = w.worth cs
  perm : cs.Perm (seen.filter (w.eligible nForkHeight nTxTime))
  size : cs.length < nMaxInput

/-- The pass is over: the target is what `mapValue` is worth, and `mapValue` is full or every coin was seen. -/
structure SweepDone (coins seen cs : List (ℕ × ℕ)) (s : SelectState) : Prop where
  target : s.nTargetValue = s.nTotalLower
  map : s.mapValue = cs.map w.coinEntry
  total : s.nTotalLower = w.worth cs
  perm : cs.Perm (seen.filter (w.eligible nForkHeight nTxTime))
  size : cs.length ≤ nMaxInput
  all : seen.Perm coins ∨ cs.length = nMaxInput

end

theorem SweepInv.subperm (h : SweepInv w nForkHeight nTxTime nMaxInput seen rest cs s)
    (hperm : (seen ++ rest).Perm coins) : (cs ++ rest).Subperm coins := by
  have hsub : (cs ++ rest).Subperm (seen ++ rest) :=
    (h.perm.append_right rest).subperm.trans ((List.filter_sublist).append_right rest).subperm
  exact hsub.trans hperm.subperm

section

variable (h : SweepInv w nForkHeight nTxTime nMaxInput seen (out :: rest) cs s) (hfit : CoinsFit w coins)
  (hperm : (seen ++ out :: rest).Perm coins)

include h hfit hperm

theorem SweepInv.skip (hout : w.eligible nForkHeight nTxTime out = false) :
    SweepInv w nForkHeight nTxTime nMaxInput (out :: seen) rest cs
      { s with nTargetValue := wrap64 (s.nTargetValue - w.coinAmount out) } where
  target := by
    have hsub : (cs ++ rest).Subperm coins :=
      ((List.sublist_cons_self out rest).append_left cs).subperm.trans (h.subperm hperm)
    have hleft : s.nTargetValue - w.coinAmount out = w.worth (cs ++ rest) := by
      rw [h.target, worth_cons, worth_append]
      omega
    rw [hleft, hfit.wrap_worth (hfit.nodup_of_subperm hsub) hsub.subset, worth_append]
  map := h.map
  total := h.total
  perm := by
    rw [List.filter_cons_of_neg (by simp [hout])]
    exact h.perm
  size := h.size

theorem SweepInv.insert (hout : w.eligible nForkHeight nTxTime out = true) :
    ∃ cs' : List (ℕ × ℕ), cs'.Perm ((out :: seen).filter (w.eligible nForkHeight nTxTime)) ∧
      cs'.length ≤ nMaxInput ∧ s.nTargetValue = w.worth cs' + w.worth rest ∧
      wrap64 (s.nTotalLower + w.coinAmount out) = w.worth cs' ∧
      Multimap.insert (w.coinAmount out, out) s.mapValue = cs'.map w.coinEntry ∧
      dropLowest nMaxInput (w.worth cs') (cs'.map w.coinEntry) = (w.worth cs', cs'.map w.coinEntry) := by
  obtain ⟨cs', hins, hcs⟩ := insert_coinEntry (w := w) out cs
  have hsub : cs'.Subperm coins := by
    refine hcs.subperm.trans (List.Subperm.trans ?_ (h.subperm hperm))
    exact (List.sublist_append_left (out :: cs) rest).subperm.trans List.perm_middle.symm.subperm
  have hnodup := hfit.nodup_of_subperm hsub
  have hworth := worth_perm (w := w) hcs
  have hlen := hcs.length_eq
  have hsize := h.size
  rw [worth_cons] at hworth
  rw [List.length_cons] at hlen
  refine ⟨cs', ?_, by omega, ?_, ?_, ?_, ?_⟩
  · rw [List.filter_cons_of_pos hout]
    exact hcs.trans (h.perm.cons out)
  · rw [h.target, worth_cons, hworth]
    omega
  · rw [← hfit.wrap_worth hnodup hsub.subset, hworth, h.total, add_comm]
  · rw [h.map]
    exact hins
  · rw [dropLowest_eq hfit nMaxInput hnodup hsub.subset, Nat.sub_eq_zero_of_le (by omega), List.drop_zero]

theorem selectTurn_sweep (hamount : nAmount < 0) :
    (w.eligible nForkHeight nTxTime out = true ∧ cs = [] ∧ rest = [] ∧
      w.selectTurn nForkHeight nTxTime nAmount nMaxInput s out = .found out) ∨
    ∃ cs' s', (SweepInv w nForkHeight nTxTime nMaxInput (out :: seen) rest cs' s' ∧
        w.selectTurn nForkHeight nTxTime nAmount nMaxInput s out = .next s') ∨
      (SweepDone w nForkHeight nTxTime nMaxInput coins (out :: seen) cs' s' ∧
        w.selectTurn nForkHeight nTxTime nAmount nMaxInput s out = .stop s') := by
  have hsub := (h.subperm hperm).subset
  have hrest : rest ⊆ coins := fun c hc => hsub (List.mem_append_right cs (List.mem_cons_of_mem out hc))
  have hcs : cs ⊆ coins := fun c hc => hsub (List.mem_append_left _ hc)
  have htarget := h.target
  rw [worth_cons] at htarget
  have hcs0 := hfit.worth_nonneg hcs
  have hrest0 := hfit.worth_nonneg hrest
  unfold CWallet.selectTurn
  by_cases hel : (w.isLocked out nForkHeight || decide (nTxTime < w.getTxTime out)) = true
  · rw [if_pos hel, if_pos hamount]
    exact Or.inr ⟨cs, _, Or.inl ⟨h.skip hfit hperm (by simp [CWallet.eligible, hel]), rfl⟩⟩
  have hel' : w.eligible nForkHeight nTxTime out = true := by
    simpa [CWallet.eligible] using hel
  rw [if_neg hel]
  dsimp only
  by_cases hexact : w.coinAmount out = s.nTargetValue
  · -- nothing but this coin is left of the target
    rw [if_pos hexact]
    exact Or.inl ⟨hel', hfit.eq_nil_of_worth hcs (by omega), hfit.eq_nil_of_worth hrest (by omega), rfl⟩
  obtain ⟨cs', hcs', hlen, htarget', htotal, hins, hdrop⟩ := h.insert hfit hperm hel'
  rw [if_neg hexact, if_pos (by omega), htotal, hins, List.length_map, hdrop]
  right
  by_cases hfull : nMaxInput ≤ cs'.length
  · rw [if_pos (by simp [hamount, hfull])]
    exact ⟨cs', _, Or.inr ⟨⟨rfl, rfl, rfl, hcs', hlen, Or.inr (le_antisymm hlen hfull)⟩, rfl⟩⟩
  rw [if_neg (by simp [hfull])]
  split_ifs with henough
  · -- no coin is left that is worth anything
    have hnil : rest = [] := hfit.eq_nil_of_worth hrest (by omega)
    subst hnil
    rw [worth_nil, add_zero] at htarget'
    refine ⟨cs', _, Or.inr ⟨⟨htarget', rfl, rfl, hcs', hlen, Or.inl ?_⟩, rfl⟩⟩
    exact (List.perm_append_singleton out seen).symm.trans hperm
  · exact ⟨cs', { s with nTotalLower := w.worth cs', mapValue := cs'.map w.coinEntry },
      Or.inl ⟨⟨htarget', rfl, rfl, hcs', not_le.1 hfull⟩, rfl⟩⟩

end

theorem selectLoop_sweep (hfit : CoinsFit w coins) (hamount : nAmount < 0) (rest : List (ℕ × ℕ)) :
    ∀ {seen cs s}, SweepInv w nForkHeight nTxTime nMaxInput seen rest cs s → (seen ++ rest).Perm coins →
      (∃ out, (coins.filter (w.eligible nForkHeight nTxTime)).Perm [out] ∧
        w.selectLoop nForkHeight nTxTime nAmount nMaxInput s rest = .inl out) ∨
      ∃ seen' cs' s', SweepDone w nForkHeight nTxTime nMaxInput coins seen' cs' s' ∧ seen'.Subperm coins ∧
        w.selectLoop nForkHeight nTxTime nAmount nMaxInput s rest = .inr s' := by
  induction rest with
  | nil =>
    intro seen cs s h hperm
    rw [List.append_nil] at hperm
    have htarget : s.nTargetValue = s.nTotalLower := by
      rw [h.target, h.total, worth_nil, add_zero]
    exact Or.inr ⟨seen, cs, s, ⟨htarget, h.map, h.total, h.perm, h.size.le, Or.inl hperm⟩, hperm.subperm, rfl⟩
  | cons out rest ih =>
    intro seen cs s h hperm
    have hperm' : (out :: seen ++ rest).Perm coins := List.perm_middle.symm.trans hperm
    rw [CWallet.selectLoop]
    rcases selectTurn_sweep h hfit hperm hamount with
      ⟨hel, hnil, hlast, hturn⟩ | ⟨cs', s', ⟨hinv, hturn⟩ | ⟨hdone, hturn⟩⟩
    · rw [hturn]
      refine Or.inl ⟨out, ?_, rfl⟩
      have hone := (hperm'.filter (w.eligible nForkHeight nTxTime)).symm
      rw [hlast, List.append_nil, List.filter_cons_of_pos hel] at hone
      exact hone.trans ((hnil ▸ h.perm).symm.cons out)
    · rw [hturn]
      exact ih hinv hperm'
    · rw [hturn]
      refine Or.inr ⟨out :: seen, cs', s', hdone, ?_, rfl⟩
      exact (List.sublist_append_left (out :: seen) rest).subperm.trans hperm'.subperm

/-- **For everything**: all eligible coins, if there are not too many. -/
theorem selectCoins_sweep (nForkHeight nTxTime nTxFee : ℤ) (hfit : CoinsFit w coins) (hfour : 4 ≤ nMaxInput)
    (hamount : nAmount < 0) (htotal : (w.mapWalletUnspent dest).nTotalValue = w.worth coins) :
    ∃ r ds, w.selectCoins coins dest nForkHeight nTxTime nAmount nTxFee nMaxInput = some r ∧
      Selects w nForkHeight nTxTime nMaxInput coins r ds ∧
      ((coins.filter (w.eligible nForkHeight nTxTime)).length ≤ nMaxInput →
        ds.Perm (coins.filter (w.eligible nForkHeight nTxTime))) := by
  have hstart : SweepInv w nForkHeight nTxTime nMaxInput [] coins [] { nTargetValue := w.worth coins } :=
    ⟨(zero_add _).symm, rfl, rfl, List.Perm.refl _, by simp; omega⟩
  unfold CWallet.selectCoins
  dsimp only
  rw [if_neg (not_le.2 hamount), htotal, if_neg (lt_irrefl _)]
  rcases selectLoop_sweep hfit hamount coins hstart (List.Perm.refl _) with
    ⟨out, hone, hloop⟩ | ⟨seen, cs, s, hdone, hseen, hloop⟩
  · rw [hloop]
    have hmem : out ∈ coins.filter (w.eligible nForkHeight nTxTime) := hone.mem_iff.2 (List.mem_singleton_self out)
    refine ⟨_, [out], rfl, ⟨by simp, rfl, List.nodup_singleton out, ?_, by simp; omega⟩, fun _ => hone.symm⟩
    simpa using hmem
  · rw [hloop]
    have hmem : ∀ c ∈ cs, c ∈ coins ∧ w.eligible nForkHeight nTxTime c = true := by
      intro c hc
      have ⟨hin, hel⟩ := List.mem_filter.1 (hdone.perm.mem_iff.1 hc)
      exact ⟨hseen.subset hin, hel⟩
    have hnodup : cs.Nodup := hdone.perm.nodup_iff.2 ((hfit.nodup_of_subperm hseen).filter _)
    have ⟨r, ds, hr, hsel, _, hall⟩ := assemble_lower hfit hdone.map hdone.total hnodup hdone.size hmem hdone.target.le
    refine ⟨r, ds, hr, hsel, fun hfew => (hall hdone.target).trans ?_⟩
    rcases hdone.all with hperm | hfull
    · exact hdone.perm.trans (hperm.filter _)
    · have hsub : cs ⊆ coins.filter (w.eligible nForkHeight nTxTime) := fun c hc => List.mem_filter.2 (hmem c hc)
      exact (List.subperm_of_subset hnodup hsub).perm_of_length_le (by omega)

/-! ## The coins of an address -/

/-- The coins that an address can spend at a height, in a transaction of a time. -/
def CWallet.eligibleCoins (w : CWallet) (dest : CDestination) (nForkHeight nTxTime : ℤ) : Finset (ℕ × ℕ) :=
  (w.mapWalletUnspent dest).setCoins.filter fun out => w.eligible nForkHeight nTxTime out = true

/-- Outputs that are not null, each with its own outpoint, and `nTotalValue` is what they are worth together. No coin is
worth `INT64_MAX`, which stands for no coin. -/
structure CoinsOK (w : CWallet) (dest : CDestination) : Prop where
  notNull : ∀ out ∈ (w.mapWalletUnspent dest).setCoins, ((w.heap out.1).getOutput out.2).isNull = false
  outPoint : Set.InjOn w.getTxOutPoint (w.mapWalletUnspent dest).setCoins
  total : (w.mapWalletUnspent dest).nTotalValue = ∑ out ∈ (w.mapWalletUnspent dest).setCoins, w.coinAmount out
  total_lt : ∑ out ∈ (w.mapWalletUnspent dest).setCoins, w.coinAmount out < 2 ^ 63
  lt_max : ∀ out ∈ (w.mapWalletUnspent dest).setCoins, w.coinAmount out < INT64_MAX

theorem CoinsOK.fit (h : CoinsOK w dest) {setCoins : List (ℕ × ℕ)}
    (horder : (setCoins : Multiset (ℕ × ℕ)) = (w.mapWalletUnspent dest).setCoins.val) :
    CoinsFit w setCoins ∧ (w.mapWalletUnspent dest).nTotalValue = w.worth setCoins ∧
      ∀ out, out ∈ setCoins ↔ out ∈ (w.mapWalletUnspent dest).setCoins := by
  have hmem : ∀ out, out ∈ setCoins ↔ out ∈ (w.mapWalletUnspent dest).setCoins := by
    intro out
    rw [← Multiset.mem_coe, horder, Finset.mem_val]
  have hworth : w.worth setCoins = ∑ out ∈ (w.mapWalletUnspent dest).setCoins, w.coinAmount out := by
    rw [Finset.sum_eq_multiset_sum, ← horder, Multiset.map_coe, Multiset.sum_coe]
    rfl
  refine ⟨⟨?_, fun out hout => h.notNull out ((hmem out).1 hout), fun out hout => h.lt_max out ((hmem out).1 hout), ?_⟩,
    h.total.trans hworth.symm, hmem⟩
  · rw [← Multiset.coe_nodup, horder]
    exact Finset.nodup _
  · rw [hworth]
    exact h.total_lt

/-- The result `(nValueRet, vCoins)` of `SelectCoins` stands for the coins in `S`. -/
structure SelectsSet (w : CWallet) (dest : CDestination) (nForkHeight nTxTime : ℤ) (nMaxInput : ℕ) (nValueRet : ℤ)
    (vCoins : List CTxOutPoint) (S : Finset (ℕ × ℕ)) : Prop where
  eligible : S ⊆ w.eligibleCoins dest nForkHeight nTxTime
  nodup : vCoins.Nodup
  outs : vCoins.toFinset = S.image w.getTxOutPoint
  length_le : vCoins.length ≤ nMaxInput
  value : nValueRet = ∑ out ∈ S, w.coinAmount out

theorem Selects.toSet (hok : CoinsOK w dest) {setCoins ds : List (ℕ × ℕ)} {r : ℤ × List CTxOutPoint}
    (hmem : ∀ out, out ∈ setCoins ↔ out ∈ (w.mapWalletUnspent dest).setCoins)
    (h : Selects w nForkHeight nTxTime nMaxInput setCoins r ds) :
    SelectsSet w dest nForkHeight nTxTime nMaxInput r.1 r.2 ds.toFinset where
  eligible := by
    intro out hout
    have ⟨hin, hel⟩ := h.mem out (List.mem_toFinset.1 hout)
    exact Finset.mem_filter.2 ⟨(hmem out).1 hin, hel⟩
  nodup := by
    rw [h.outs]
    refine h.nodup.map_on fun c hc c' hc' heq => ?_
    exact hok.outPoint ((hmem c).1 (h.mem c hc).1) ((hmem c').1 (h.mem c' hc').1) heq
  outs := by
    ext out
    simp [h.outs]
  length_le := by
    rw [h.outs, List.length_map]
    exact h.length_le
  value := by
    rw [h.value, List.sum_toFinset _ h.nodup]
    rfl

/-- **Coin selection is sound and complete.** Whatever the order of the coins, what is selected are different coins of
the address that are unlocked and not newer than the transaction, not too many, with their exact value. It is enough
for an amount whenever some such coins are; and for a negative amount it is all of them if they are not too many. -/
theorem selectCoins_spec (hok : CoinsOK w dest) (setCoins : List (ℕ × ℕ))
    (horder : (setCoins : Multiset (ℕ × ℕ)) = (w.mapWalletUnspent dest).setCoins.val)
    (nForkHeight nTxTime nAmount nTxFee : ℤ) (nMaxInput : ℕ) (hfee : Fits64 nTxFee) (hfour : 4 ≤ nMaxInput) :
    ∃ nValueRet vCoins S,
      w.selectCoins setCoins dest nForkHeight nTxTime nAmount nTxFee nMaxInput = some (nValueRet, vCoins) ∧
      SelectsSet w dest nForkHeight nTxTime nMaxInput nValueRet vCoins S ∧
      (0 ≤ nAmount → (∃ T ⊆ w.eligibleCoins dest nForkHeight nTxTime, T.card ≤ nMaxInput ∧
        nAmount + nTxFee ≤ ∑ out ∈ T, w.coinAmount out) → nAmount + nTxFee ≤ nValueRet) ∧
      (nAmount < 0 → (w.eligibleCoins dest nForkHeight nTxTime).card ≤ nMaxInput →
        S = w.eligibleCoins dest nForkHeight nTxTime) := by
  have ⟨hfit, htotal, hmem⟩ := hok.fit horder
  have heligible : w.eligibleCoins dest nForkHeight nTxTime
      = (setCoins.filter (w.eligible nForkHeight nTxTime)).toFinset := by
    ext out
    simp [CWallet.eligibleCoins, hmem]
  rcases le_or_gt 0 nAmount with hamount | hamount
  · have ⟨r, ds, heq, hsel, hres⟩ := selectCoins_pay nForkHeight nTxTime nTxFee hfit hfour hamount htotal
    refine ⟨r.1, r.2, ds.toFinset, heq, hsel.toSet hok hmem, fun _ ⟨T, hT, hcard, henough⟩ => ?_, fun hneg => by omega⟩
    have hT' : ∀ out ∈ T.toList, out ∈ setCoins ∧ w.eligible nForkHeight nTxTime out = true := by
      intro out hout
      have hin := hT (Finset.mem_toList.1 hout)
      rw [heligible] at hin
      simpa using hin
    have hworth : w.worth T.toList = ∑ out ∈ T, w.coinAmount out := Finset.sum_map_toList T w.coinAmount
    have hle := hfit.worth_le T.nodup_toList fun out hout => (hT' out hout).1
    have hlt := hfit.worth_lt
    -- a target that some coins reach does not overflow
    have ht : wrap64 (nAmount + nTxFee) = nAmount + nTxFee := wrap64_eq ⟨by linarith [hfee.1], by omega⟩
    rw [ht] at hres
    rcases hres with hres | ⟨-, hnever⟩
    · exact hres
    · have hless := hnever T.toList T.nodup_toList hT' (by rwa [Finset.length_toList])
      omega
  · have ⟨r, ds, heq, hsel, hall⟩ := selectCoins_sweep nForkHeight nTxTime nTxFee hfit hfour hamount htotal
    refine ⟨r.1, r.2, ds.toFinset, heq, hsel.toSet hok hmem, fun hpos => by omega, fun _ hfew => ?_⟩
    rw [heligible] at hfew ⊢
    rw [List.toFinset_card_of_nodup (hfit.nodup.filter _)] at hfew
    exact List.toFinset_eq_of_perm _ _ (hall hfew)

/-- **ArrangeInputs**: whatever the order of the coins, a transaction gets as its inputs different coins of the address
that are unlocked and not newer than it, not too many, and of a positive value. For an amount they are worth the amount
and the fee, unless this sum leaves `int64` and the wallet selects for what is left of it. -/
theorem arrangeInputs_spec (hok : CoinsOK w dest) (setCoins : List (ℕ × ℕ))
    (horder : (setCoins : Multiset (ℕ × ℕ)) = (w.mapWalletUnspent dest).setCoins.val) (tx : CTransaction) :
    ∃ o, w.arrangeInputs setCoins dest nForkHeight tx = some o ∧ ∀ tx', o = some tx' →
      ∃ nValueIn S, SelectsSet w dest nForkHeight tx.nTimeStamp MAX_TX_INPUT_COUNT nValueIn tx'.vInput S ∧
        0 < nValueIn ∧ (0 ≤ tx.nAmount → wrap64 (tx.nAmount + tx.nTxFee) ≤ nValueIn ∧
          (Fits64 (tx.nAmount + tx.nTxFee) → tx.nAmount + tx.nTxFee ≤ nValueIn)) := by
  have ⟨hfit, htotal, hmem⟩ := hok.fit horder
  have hfour : 4 ≤ MAX_TX_INPUT_COUNT := by decide
  have hsel : ∃ r ds, w.selectCoins setCoins dest nForkHeight tx.nTimeStamp tx.nAmount tx.nTxFee MAX_TX_INPUT_COUNT
        = some r ∧ Selects w nForkHeight tx.nTimeStamp MAX_TX_INPUT_COUNT setCoins r ds ∧
      (0 ≤ tx.nAmount → wrap64 (tx.nAmount + tx.nTxFee) ≤ r.1 ∨ ds = []) := by
    rcases le_or_gt 0 tx.nAmount with hamount | hamount
    · have ⟨r, ds, heq, hsel, hres⟩ := selectCoins_pay nForkHeight tx.nTimeStamp tx.nTxFee hfit hfour hamount htotal
      exact ⟨r, ds, heq, hsel, fun _ => hres.imp_right And.left⟩
    · have ⟨r, ds, heq, hsel, _⟩ := selectCoins_sweep nForkHeight tx.nTimeStamp tx.nTxFee hfit hfour hamount htotal
      exact ⟨r, ds, heq, hsel, fun hpos => by omega⟩
  have ⟨r, ds, heq, hsel, hres⟩ := hsel
  rw [CWallet.arrangeInputs, heq]
  dsimp only
  by_cases hpoor : r.1 ≤ 0
  · rw [if_pos hpoor]
    exact ⟨none, rfl, by simp⟩
  · rw [if_neg hpoor]
    refine ⟨_, rfl, fun tx' htx' => ⟨r.1, ds.toFinset, ?_, not_le.1 hpoor, fun hamount => ?_⟩⟩
    · rw [← Option.some.inj htx']
      exact hsel.toSet hok hmem
    · rcases hres hamount with hres | hnil
      · exact ⟨hres, fun hsum => wrap64_eq hsum ▸ hres⟩
      · rw [hsel.value, hnil] at hpoor
        exact absurd le_rfl hpoor

end

/-! ### Two coins -/

def toyCoinDest : CDestination := ⟨CDestination.PREFIX_PUBKEY, 7⟩

def toyTwoCoins : CWallet where
  heap p := { CWalletTx.null with sendTo := toyCoinDest, nAmount := p + 3, txid := p + 1 }
  mapWalletUnspent _ := ⟨7, {(0, 0), (1, 0)}⟩

theorem toyTwoCoins_ok : CoinsOK toyTwoCoins toyCoinDest where
  notNull := by decide
  outPoint := by
    intro c _ c' _ heq
    exact Prod.ext (Nat.succ.inj (congrArg CTxOutPoint.hash heq)) (congrArg CTxOutPoint.n heq)
  total := by decide
  total_lt := by decide
  lt_max := by decide

theorem selectCoins_spec_toy :
    ∃ nValueRet vCoins S, toyTwoCoins.selectCoins [(1, 0), (0, 0)] toyCoinDest 0 0 5 1 4 = some (nValueRet, vCoins) ∧
      SelectsSet toyTwoCoins toyCoinDest 0 0 4 nValueRet vCoins S ∧ 6 ≤ nValueRet := by
  have ⟨nValueRet, vCoins, S, heq, hsel, henough, _⟩ := selectCoins_spec toyTwoCoins_ok [(1, 0), (0, 0)]
    (by decide) 0 0 5 1 4 (by unfold Fits64; decide) (by decide)
  exact ⟨nValueRet, vCoins, S, heq, hsel, henough (by decide) ⟨{(0, 0), (1, 0)}, by decide, by decide, by decide⟩⟩

theorem arrangeInputs_spec_toy : ∃ nValueIn vInput S,
    SelectsSet toyTwoCoins toyCoinDest 0 0 MAX_TX_INPUT_COUNT nValueIn vInput S ∧ 6 ≤ nValueIn := by
  have ⟨o, heq, hsel⟩ := @arrangeInputs_spec toyTwoCoins 0 toyCoinDest toyTwoCoins_ok [(1, 0), (0, 0)] (by decide)
    { nAmount := 5, nTxFee := 1 }
  cases o with
  | none => exact absurd heq (by decide)
  | some tx' =>
    have ⟨nValueIn, S, hset, _, hle⟩ := hsel tx' rfl
    exact ⟨nValueIn, _, S, hset, (hle (by decide)).2 (by unfold Fits64; decide)⟩

end Minemon
