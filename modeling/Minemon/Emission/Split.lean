import Minemon.Emission.PledgeValue
import Minemon.Service.Work

/-!
# The division of a block's reward

`CalcBlockPledgeReward` gives each pledge address its share, rounded down and less the fee of the pool,
and the rest to the mining address.

* `distributeLoop_spec`, `distributeReward_spec`: who receives what, with nothing lost in rounding.
-/

namespace Minemon

def rewardOf (m : RewardMap) (dest : CDestination) : ℤ := (m.find? dest).getD 0

def rewardTotal (m : RewardMap) : ℤ := m.sumBy fun _ v => v

theorem elim_id_eq_getD (o : Option ℤ) : (o.elim 0 fun v => v) = o.getD 0 := by cases o <;> rfl

theorem rewardOf_addReward (m : RewardMap) (dest d : CDestination) (x : ℤ) :
    rewardOf (addReward m dest x) d = if d = dest then wrap64 (rewardOf m dest + x) else rewardOf m d := by
  unfold rewardOf addReward
  rw [OrdMap.find?_upsert]
  split_ifs <;> rfl

theorem rewardTotal_addReward (m : RewardMap) (dest : CDestination) (x : ℤ) :
    rewardTotal (addReward m dest x) = rewardTotal m - rewardOf m dest + wrap64 (rewardOf m dest + x) := by
  unfold rewardTotal addReward
  rw [OrdMap.sumBy_upsert, elim_id_eq_getD]
  rfl

theorem rewardTotal_insert {m : RewardMap} {dest : CDestination} (h : m.find? dest = none) (x : ℤ) :
    rewardTotal (m.insert dest x) = rewardTotal m + x := by
  unfold rewardTotal OrdMap.insert
  rw [OrdMap.sumBy_upsert, h]
  simp

/-! ## Valid pledges -/

/-- No sum of `GetMintPledgeData` overflows. -/
def PledgeSumSafe (nMinPledge nMaxPledge : ℤ) : List (CDestination × (ℤ × ℕ)) → ℤ → Prop
  | [], _ => True
  | kv :: l, nTotalPledge =>
    if kv.2.1 ≥ nMinPledge then
      Fits64 (nTotalPledge + min kv.2.1 nMaxPledge) ∧
        PledgeSumSafe nMinPledge nMaxPledge l (nTotalPledge + min kv.2.1 nMaxPledge)
    else PledgeSumSafe nMinPledge nMaxPledge l nTotalPledge

section

variable {nMin nMax : ℤ}

theorem cut_eq_min (x : ℤ) : (if x > nMax then nMax else x) = min x nMax := by
  split_ifs <;> omega

/-- Between two turns: the pledges that were taken are in bounds, and the addresses to come are others. -/
structure PledgeLoop (nMax : ℤ) (m : RewardMap) (l : List (CDestination × (ℤ × ℕ))) : Prop where
  bounds : ∀ d v, m.find? d = some v → 0 < v ∧ v ≤ nMax
  fresh : ∀ kv ∈ l, m.find? kv.1 = none
  nodup : (l.map Prod.fst).Nodup

variable {m : RewardMap} {l : List (CDestination × (ℤ × ℕ))} {kv : CDestination × (ℤ × ℕ)} {t : ℤ}

theorem PledgeLoop.start (l : PowPledges) : PledgeLoop nMax OrdMap.empty l.toList :=
  ⟨fun d v hd => by simp at hd, fun _ _ => rfl, l.keys_nodup⟩

theorem PledgeLoop.skip (h : PledgeLoop nMax m (kv :: l)) : PledgeLoop nMax m l :=
  ⟨h.bounds, fun e he => h.fresh e (List.mem_cons_of_mem _ he), (List.nodup_cons.1 h.nodup).2⟩

theorem PledgeLoop.take (h : PledgeLoop nMax m (kv :: l)) {x : ℤ} (hpos : 0 < x) (hle : x ≤ nMax) :
    PledgeLoop nMax (m.insert kv.1 x) l := by
  refine ⟨fun d v hd => ?_, fun e he => ?_, h.skip.nodup⟩
  · rw [OrdMap.find?_insert] at hd
    split_ifs at hd
    · obtain rfl := Option.some.inj hd
      exact ⟨hpos, hle⟩
    · exact h.bounds d v hd
  · have hne : e.1 ≠ kv.1 := fun heq => (List.nodup_cons.1 h.nodup).1 (heq ▸ List.mem_map_of_mem he)
    rw [OrdMap.find?_insert, if_neg hne]
    exact h.skip.fresh e he

theorem validPledgesLoop_spec (hmin : 0 < nMin) (hmax : 0 < nMax) (h : PledgeLoop nMax m l)
    (ht : t = wrap64 (rewardTotal m)) :
    (validPledgesLoop nMin nMax l m t).2 = wrap64 (rewardTotal (validPledgesLoop nMin nMax l m t).1) ∧
      (∀ d v, (validPledgesLoop nMin nMax l m t).1.find? d = some v → 0 < v ∧ v ≤ nMax) ∧
      rewardTotal m ≤ rewardTotal (validPledgesLoop nMin nMax l m t).1 := by
  induction l generalizing m t with
  | nil => exact ⟨ht, h.bounds, le_rfl⟩
  | cons kv l ih =>
    rw [validPledgesLoop]
    by_cases hge : kv.2.1 ≥ nMin
    · rw [if_pos hge]
      simp only [cut_eq_min]
      have hpos : 0 < min kv.2.1 nMax := lt_min (by omega) hmax
      have htot := rewardTotal_insert (h.fresh kv List.mem_cons_self) (min kv.2.1 nMax)
      have hrest := ih (t := wrap64 (t + min kv.2.1 nMax)) (h.take hpos (min_le_right _ _))
        (by rw [htot, ht, wrap64_add_left])
      exact ⟨hrest.1, hrest.2.1, by omega⟩
    · rw [if_neg hge]
      exact ih h.skip ht

theorem pledgeSumSafe (hmin : 0 < nMin) (hmax : 0 < nMax) (h : PledgeLoop nMax m l) (h0 : 0 ≤ t)
    (ht : t = rewardTotal m) (hfit : rewardTotal (validPledgesLoop nMin nMax l m t).1 < 2 ^ 63) :
    PledgeSumSafe nMin nMax l t := by
  induction l generalizing m t with
  | nil => trivial
  | cons kv l ih =>
    rw [validPledgesLoop] at hfit
    rw [PledgeSumSafe]
    by_cases hge : kv.2.1 ≥ nMin
    · rw [if_pos hge] at hfit ⊢
      simp only [cut_eq_min] at hfit
      have hpos : 0 < min kv.2.1 nMax := lt_min (by omega) hmax
      have htot := rewardTotal_insert (h.fresh kv List.mem_cons_self) (min kv.2.1 nMax)
      have htake := h.take hpos (min_le_right _ _)
      have hle := (validPledgesLoop_spec (t := wrap64 (t + min kv.2.1 nMax)) hmin hmax htake (by rw [htot, ht])).2.2
      have hfits : Fits64 (t + min kv.2.1 nMax) := fits64_of_nonneg (by omega) (by omega)
      rw [wrap64_eq hfits] at hfit
      exact ⟨hfits, ih htake (by omega) (by rw [htot, ht]) hfit⟩
    · rw [if_neg hge] at hfit ⊢
      exact ih h.skip h0 ht hfit

end

/-! ## Shares -/

theorem sum_shares_le {R T : ℤ} (hR : 0 ≤ R) (hT : 0 < T) {l : List ℤ} (h0 : ∀ v ∈ l, 0 ≤ v)
    (hl : l.sum ≤ T) : (l.map fun v => R * v / T).sum ≤ R := by
  have hmul : (l.map fun v => R * v / T).sum * T ≤ R * l.sum := by
    clear hl
    induction l with
    | nil => simp
    | cons v l ih =>
      have hv : R * v / T * T ≤ R * v := Int.ediv_mul_le _ hT.ne'
      have := ih fun w hw => h0 w (List.mem_cons_of_mem _ hw)
      simp only [List.map_cons, List.sum_cons]
      nlinarith
  have hle : R * l.sum ≤ R * T := mul_le_mul_of_nonneg_left hl hR
  exact le_of_mul_le_mul_right (hmul.trans hle) hT

section

variable {R T : ℤ} (fee : ℕ)

theorem destReward_bounds {pledge : ℤ} (hR : 0 ≤ R) (hR' : R < 2 ^ 63) (hT : 0 < T) (hT' : T < 2 ^ 63)
    (h0 : 0 ≤ pledge) (hle : pledge ≤ T) :
    0 ≤ destReward R T fee pledge ∧ destReward R T fee pledge ≤ R * pledge / T := by
  obtain ⟨he, hge, hshare⟩ := mulDiv_le hR h0 hT hR' hT' hle
  unfold destReward
  simp only [he]
  split_ifs with hfee
  · simp only [gt_iff_lt, Bool.and_eq_true, decide_eq_true_eq] at hfee
    obtain ⟨he', hge', hle'⟩ := mulDiv_le (a := R * pledge / T) (b := (fee : ℤ)) (c := 1000) hge
      (by positivity) (by norm_num) (by omega) (by norm_num) (by omega)
    rw [he', wrap64_eq (fits64_of_nonneg (by omega) (by omega))]
    exact ⟨by omega, by omega⟩
  · exact ⟨hge, le_rfl⟩

/-- The divisions and products of one share are exact. -/
structure ShareSafe (R T : ℤ) (fee : ℕ) (pledge : ℤ) : Prop where
  divisor : T ≠ 0
  product : 0 ≤ R * pledge ∧ R * pledge < 2 ^ 128
  share : Fits64 (R * pledge / T)
  fee : 0 < fee → fee ≤ 1000 →
    R * pledge / T * fee < 2 ^ 128 ∧ Fits64 (R * pledge / T - R * pledge / T * fee / 1000)

theorem shareSafe {pledge : ℤ} (hR : 0 ≤ R) (hR' : R < 2 ^ 63) (hT : 0 < T) (hT' : T < 2 ^ 63)
    (h0 : 0 ≤ pledge) (hle : pledge ≤ T) : ShareSafe R T fee pledge := by
  obtain ⟨-, hge, hshare⟩ := mulDiv_le hR h0 hT hR' hT' hle
  refine ⟨hT.ne', ⟨mul_nonneg hR h0, by nlinarith⟩, fits64_of_nonneg hge (by omega), fun _ hfee => ?_⟩
  have hfee' : (fee : ℤ) ≤ 1000 := by exact_mod_cast hfee
  have hcut := mul_div_le_left hge (show (0 : ℤ) < 1000 by norm_num) hfee'
  have hcut0 : 0 ≤ R * pledge / T * fee / 1000 := by positivity
  exact ⟨by nlinarith, fits64_of_nonneg (by omega) (by omega)⟩

end

/-! ## The loop -/

/-- No sum of the loop over the valid pledges overflows. -/
def DistributeSafe (R T : ℤ) (fee : ℕ) : List (CDestination × ℤ) → RewardMap → ℤ → Prop
  | [], _, _ => True
  | kv :: l, m, nDistributeTotalReward =>
    ShareSafe R T fee kv.2 ∧ Fits64 (rewardOf m kv.1 + destReward R T fee kv.2) ∧
      Fits64 (nDistributeTotalReward + destReward R T fee kv.2) ∧
      DistributeSafe R T fee l (addReward m kv.1 (destReward R T fee kv.2))
        (nDistributeTotalReward + destReward R T fee kv.2)

def shareOf (R T : ℤ) (fee : ℕ) (l : List (CDestination × ℤ)) (d : CDestination) : ℤ :=
  (OrdMap.lookupList d l).elim 0 (destReward R T fee)

def shareTotal (R T : ℤ) (fee : ℕ) (l : List (CDestination × ℤ)) : ℤ :=
  (l.map fun kv => destReward R T fee kv.2).sum

section

variable {R T : ℤ} {fee : ℕ}

theorem shareTotal_cons (kv : CDestination × ℤ) (l : List (CDestination × ℤ)) :
    shareTotal R T fee (kv :: l) = destReward R T fee kv.2 + shareTotal R T fee l := rfl

variable {l : List (CDestination × ℤ)} {kv : CDestination × ℤ}

theorem shareTotal_nonneg (hl : ∀ kv ∈ l, 0 ≤ destReward R T fee kv.2) : 0 ≤ shareTotal R T fee l := by
  apply List.sum_nonneg
  intro x hx
  obtain ⟨kv, hkv, rfl⟩ := List.mem_map.1 hx
  exact hl kv hkv

theorem shareOf_cons_of_ne {d : CDestination} (h : d ≠ kv.1) : shareOf R T fee (kv :: l) d = shareOf R T fee l d := by
  unfold shareOf
  rw [OrdMap.lookupList, if_neg h]

theorem shareOf_cons_self (kv : CDestination × ℤ) (l : List (CDestination × ℤ)) :
    shareOf R T fee (kv :: l) kv.1 = destReward R T fee kv.2 := by
  unfold shareOf
  rw [OrdMap.lookupList, if_pos rfl]
  rfl

theorem shareOf_bounds (hl : ∀ kv ∈ l, 0 ≤ destReward R T fee kv.2)
    (d : CDestination) : 0 ≤ shareOf R T fee l d ∧ shareOf R T fee l d ≤ shareTotal R T fee l := by
  induction l with
  | nil => exact ⟨le_rfl, le_rfl⟩
  | cons kv l ih =>
    have hkv := hl kv List.mem_cons_self
    have hl' : ∀ kv ∈ l, 0 ≤ destReward R T fee kv.2 := fun e he => hl e (List.mem_cons_of_mem _ he)
    have htot := shareTotal_nonneg hl'
    rw [shareTotal_cons]
    by_cases h : d = kv.1
    · subst h
      rw [shareOf_cons_self]
      exact ⟨hkv, by omega⟩
    · rw [shareOf_cons_of_ne h]
      obtain ⟨h0, h1⟩ := ih hl'
      exact ⟨h0, by omega⟩

/-- The shares are at least 0 and leave `nDist` within the reward, for which every entry has room. -/
structure LoopPre (R T : ℤ) (fee : ℕ) (l : List (CDestination × ℤ)) (m : RewardMap) (nDist : ℤ) : Prop where
  safe : ∀ kv ∈ l, ShareSafe R T fee kv.2
  share : ∀ kv ∈ l, 0 ≤ destReward R T fee kv.2
  nodup : (l.map Prod.fst).Nodup
  dist : 0 ≤ nDist
  within : nDist + shareTotal R T fee l ≤ R
  reward : R < 2 ^ 63
  room : ∀ kv ∈ l, Fits64 (rewardOf m kv.1) ∧ Fits64 (rewardOf m kv.1 + R)

theorem LoopPre.sums {m : RewardMap} {nDist : ℤ}
    (h : LoopPre R T fee (kv :: l) m nDist) :
    Fits64 (rewardOf m kv.1 + destReward R T fee kv.2) ∧ Fits64 (nDist + destReward R T fee kv.2) := by
  have hkv := h.share kv List.mem_cons_self
  have htot := shareTotal_nonneg fun e he => h.share e (List.mem_cons_of_mem kv he)
  have hw := h.within
  rw [shareTotal_cons] at hw
  obtain ⟨⟨h1, -⟩, -, h2⟩ := h.room kv List.mem_cons_self
  have h3 := h.dist
  have h4 := h.reward
  exact ⟨⟨by omega, by omega⟩, fits64_of_nonneg (by omega) (by omega)⟩

theorem LoopPre.step {m : RewardMap} {nDist : ℤ}
    (h : LoopPre R T fee (kv :: l) m nDist) :
    LoopPre R T fee l (addReward m kv.1 (destReward R T fee kv.2)) (nDist + destReward R T fee kv.2) := by
  have hkv := h.share kv List.mem_cons_self
  have hw := h.within
  rw [shareTotal_cons] at hw
  obtain ⟨hnotin, hnd⟩ := List.nodup_cons.1 h.nodup
  refine ⟨fun e he => h.safe e (List.mem_cons_of_mem _ he), fun e he => h.share e (List.mem_cons_of_mem _ he),
    hnd, add_nonneg h.dist hkv, by omega, h.reward, fun e he => ?_⟩
  have hne : e.1 ≠ kv.1 := fun heq => hnotin (heq ▸ List.mem_map_of_mem he)
  rw [rewardOf_addReward, if_neg hne]
  exact h.room e (List.mem_cons_of_mem _ he)

/-- **The loop pays the shares**, each to its address, and counts them. -/
theorem distributeLoop_spec (l : List (CDestination × ℤ)) (m : RewardMap) (nDist : ℤ)
    (h : LoopPre R T fee l m nDist) :
    (distributeLoop R T fee l m nDist).2 = nDist + shareTotal R T fee l ∧
      rewardTotal (distributeLoop R T fee l m nDist).1 = rewardTotal m + shareTotal R T fee l ∧
      (∀ d, rewardOf (distributeLoop R T fee l m nDist).1 d = rewardOf m d + shareOf R T fee l d) ∧
      DistributeSafe R T fee l m nDist := by
  induction l generalizing m nDist with
  | nil => simp [distributeLoop, shareTotal, shareOf, OrdMap.lookupList, DistributeSafe]
  | cons kv l ih =>
    obtain ⟨hnotin, -⟩ := List.nodup_cons.1 h.nodup
    obtain ⟨hfit, hfit'⟩ := h.sums
    obtain ⟨h1, h2, h3, h4⟩ := ih _ _ h.step
    rw [distributeLoop]
    simp only [wrap64_eq hfit']
    refine ⟨?_, ?_, fun d => ?_, h.safe kv List.mem_cons_self, hfit, hfit', h4⟩
    · rw [h1, shareTotal_cons, add_assoc]
    · rw [h2, rewardTotal_addReward, wrap64_eq hfit, shareTotal_cons]
      ring
    · rw [h3, rewardOf_addReward]
      by_cases hd : d = kv.1
      · subst hd
        have hne : ∀ e ∈ l, e.1 ≠ kv.1 := fun e he heq => hnotin (heq ▸ List.mem_map_of_mem he)
        have hnone : shareOf R T fee l kv.1 = 0 := by
          unfold shareOf
          rw [OrdMap.lookupList_of_not_mem hne]
          rfl
        rw [if_pos rfl, wrap64_eq hfit, shareOf_cons_self, hnone, add_zero]
      · rw [if_neg hd, shareOf_cons_of_ne hd]

/-- The remainder and the mining address: no step overflows. -/
structure RemainderSafe (R T : ℤ) (fee : ℕ) (l : List (CDestination × ℤ)) (destMint : CDestination)
    (m : RewardMap) : Prop where
  remainder : Fits64 (R - shareTotal R T fee l)
  entry : Fits64 (rewardOf m destMint + shareOf R T fee l destMint + (R - shareTotal R T fee l))

/-- **The whole reward is paid**: the shares to the pledges, the remainder to the mining address. -/
theorem distributeReward_spec {valid : RewardMap} (destMint : CDestination) {m : RewardMap}
    (h : LoopPre R T fee valid.toList m 0)
    (hmint : Fits64 (rewardOf m destMint) ∧ Fits64 (rewardOf m destMint + R)) :
    rewardTotal (distributeReward R T fee valid destMint m) = rewardTotal m + R ∧
      (∀ d, rewardOf (distributeReward R T fee valid destMint m) d =
        rewardOf m d + shareOf R T fee valid.toList d
          + if d = destMint then R - shareTotal R T fee valid.toList else 0) ∧
      DistributeSafe R T fee valid.toList m 0 ∧ RemainderSafe R T fee valid.toList destMint m := by
  obtain ⟨h1, h2, h3, h4⟩ := distributeLoop_spec valid.toList m 0 h
  obtain ⟨hs0, hs1⟩ := shareOf_bounds h.share destMint
  have htot := shareTotal_nonneg h.share
  have hw := h.within
  have hR := h.reward
  obtain ⟨hm, hm'⟩ := hmint
  have hrest : Fits64 (R - shareTotal R T fee valid.toList) := fits64_of_nonneg (by omega) (by omega)
  have hentry : Fits64 (rewardOf m destMint + shareOf R T fee valid.toList destMint
      + (R - shareTotal R T fee valid.toList)) := by
    unfold Fits64 at hm hm' ⊢
    omega
  unfold distributeReward
  simp only [h1, zero_add, wrap64_eq hrest]
  split_ifs with hpos
  · refine ⟨?_, fun d => ?_, h4, hrest, hentry⟩
    · rw [rewardTotal_addReward, h2, h3, wrap64_eq hentry]
      ring
    · rw [rewardOf_addReward, h3, h3]
      split_ifs with hd
      · rw [hd, wrap64_eq hentry]
      · ring
  · have hzero : R - shareTotal R T fee valid.toList = 0 := by omega
    refine ⟨by omega, fun d => ?_, h4, hrest, hentry⟩
    rw [h3, hzero, ite_self, add_zero]

end

/-! ## The reward of a block -/

section

variable {E : Env} {s : CBlockBase} {p prev : CBlockIndex} {R T : ℤ} {valid : RewardMap}

/-- Where the reward and the valid pledges of a block come from. -/
structure RewardSource (E : Env) (s : CBlockBase) (p prev : CBlockIndex) (R : ℤ) (valid : RewardMap) (T : ℤ)
    (r : PledgeRange) (l : PowPledges) : Prop where
  range : getPledgeMinMaxValue E s prev.hashBlock = some r
  pledges : getPowPledgeList E s.dbPledge prev.hashBlock p.destMint = some l
  loop : validPledgesLoop r.nStakeMinPledge r.nMaxPledge l.toList OrdMap.empty 0 = (valid, T)
  value : calcPledgeRewardValue s prev.hashBlock T r.nPowMinPledge r.nMaxPledge = R
  nonneg : 0 ≤ R

theorem blockPledgeRewardData_source (h : blockPledgeRewardData E s p prev = some (R, valid, T)) :
    ∃ r l, RewardSource E s p prev R valid T r l := by
  unfold blockPledgeRewardData getMintPledgeData at h
  cases hr : getPledgeMinMaxValue E s prev.hashBlock with
  | none => simp [hr] at h
  | some r =>
    cases hl : getPowPledgeList E s.dbPledge prev.hashBlock p.destMint with
    | none => simp [hr, hl] at h
    | some l =>
      simp only [hr, hl] at h
      split_ifs at h with h0
      simp only [Option.some.injEq, Prod.mk.injEq] at h
      obtain ⟨h1, h2, h3⟩ := h
      exact ⟨r, l, hr, hl, Prod.ext h2 h3, by rw [← h3]; exact h1, by omega⟩

/-- The pledges that share a reward: each at least 1 and at most the maximum, and `T` is their sum. -/
structure ValidPledges (r : PledgeRange) (l : PowPledges) (valid : RewardMap) (T : ℤ) : Prop where
  pledge : ∀ d v, valid.find? d = some v → 0 < v ∧ v ≤ r.nMaxPledge
  total : T = rewardTotal valid
  safe : PledgeSumSafe r.nStakeMinPledge r.nMaxPledge l.toList 0

variable {r : PledgeRange} {l : PowPledges}

theorem RewardSource.validPledges
    (h : RewardSource E s p prev R valid T r l) (hr : r.Valid) (hfit : Fits64 (rewardTotal valid)) :
    ValidPledges r l valid T := by
  have hmax : 0 < r.nMaxPledge := hr.pow_pos.trans_le hr.pow_le
  have hspec := validPledgesLoop_spec (t := 0) hr.stake_pos hmax (.start l) (by decide)
  have hsafe := pledgeSumSafe hr.stake_pos hmax (.start l) le_rfl rfl
  rw [h.loop] at hspec hsafe
  obtain ⟨h1, h2, -⟩ := hspec
  exact ⟨h2, by rw [← wrap64_eq hfit]; exact h1, hsafe hfit.2⟩

theorem RewardSource.powMin_le (h : RewardSource E s p prev R valid T r l) (hR : R ≠ 0) : r.nPowMinPledge ≤ T := by
  by_contra hlt
  apply hR
  rw [← h.value]
  unfold calcPledgeRewardValue
  rw [if_pos (by omega)]

theorem RewardSource.fits (h : RewardSource E s p prev R valid T r l) : Fits64 R := by
  rw [← h.value]
  unfold calcPledgeRewardValue mulDiv
  simp only
  split_ifs
  · decide
  · decide
  · exact wrap64_fits _
  · exact wrap64_fits _

theorem pledge_le_total {l : List (CDestination × ℤ)} (hpos : ∀ kv ∈ l, 0 < kv.2) :
    ∀ kv ∈ l, kv.2 ≤ (l.map fun e => e.2).sum := by
  intro kv hkv
  refine List.single_le_sum (fun x hx => ?_) _ (List.mem_map_of_mem hkv)
  obtain ⟨e, he, rfl⟩ := List.mem_map.1 hx
  exact (hpos e he).le

theorem RewardSource.loopPre {m : RewardMap} (fee : ℕ)
    (h : RewardSource E s p prev R valid T r l) (hr : r.Valid) (hv : ValidPledges r l valid T)
    (hfit : Fits64 (rewardTotal valid)) (hR : R ≠ 0)
    (hm : ∀ d, Fits64 (rewardOf m d) ∧ Fits64 (rewardOf m d + R)) : LoopPre R T fee valid.toList m 0 := by
  have hlt : R < 2 ^ 63 := h.fits.2
  have hT : 0 < T := hr.pow_pos.trans_le (h.powMin_le hR)
  have hT' : T < 2 ^ 63 := by rw [hv.total]; exact hfit.2
  have hpos : ∀ kv ∈ valid.toList, 0 < kv.2 := fun kv hkv => (hv.pledge kv.1 kv.2 (OrdMap.find?_eq_some.2 hkv)).1
  have hle : ∀ kv ∈ valid.toList, kv.2 ≤ T := by
    rw [hv.total]
    exact pledge_le_total hpos
  have hshare : ∀ kv ∈ valid.toList, 0 ≤ destReward R T fee kv.2 ∧ destReward R T fee kv.2 ≤ R * kv.2 / T :=
    fun kv hkv => destReward_bounds fee h.nonneg hlt hT hT' (hpos kv hkv).le (hle kv hkv)
  refine ⟨fun kv hkv => shareSafe fee h.nonneg hlt hT hT' (hpos kv hkv).le (hle kv hkv),
    fun kv hkv => (hshare kv hkv).1, valid.keys_nodup, le_rfl, ?_, hlt, fun kv _ => hm kv.1⟩
  have hsum := sum_shares_le h.nonneg hT (l := valid.toList.map fun e => e.2)
    (fun v hx => by obtain ⟨e, he, rfl⟩ := List.mem_map.1 hx; exact (hpos e he).le) (by rw [hv.total]; rfl)
  rw [List.map_map] at hsum
  have := List.sum_le_sum fun kv hkv => (hshare kv hkv).2
  unfold shareTotal
  simp only [zero_add]
  exact this.trans hsum

/-- No operation on the way to the reward of a block and its division overflows or divides by zero. -/
structure BlockRewardSafe (E : Env) (s : CBlockBase) (p prev : CBlockIndex) (m : RewardMap) : Prop where
  pledges : ∀ r l, getPledgeMinMaxValue E s prev.hashBlock = some r →
    getPowPledgeList E s.dbPledge prev.hashBlock p.destMint = some l →
      PledgeSumSafe r.nStakeMinPledge r.nMaxPledge l.toList 0
  value : ∀ r valid T, getPledgeMinMaxValue E s prev.hashBlock = some r →
    getMintPledgeData E s prev.hashBlock p.destMint r.nStakeMinPledge r.nMaxPledge = some (valid, T) →
      r.nPowMinPledge ≤ T → RewardValueSafe s prev.hashBlock T r.nMaxPledge
  split : ∀ R valid T proof, blockPledgeRewardData E s p prev = some (R, valid, T) → R ≠ 0 →
    getPowMintTemplateParam s p.destMint = some (some proof) →
      DistributeSafe R T proof.nPledgeFee valid.toList m 0 ∧
        RemainderSafe R T proof.nPledgeFee valid.toList p.destMint m

/-- What `CalcBlockPledgeReward` is to do with a reward of `R`. -/
structure SplitsReward (E : Env) (s : CBlockBase) (p prev : CBlockIndex) (m m' : RewardMap) (R : ℤ)
    (valid : RewardMap) (T : ℤ) : Prop where
  sum : rewardTotal m' - rewardTotal m = if valid.toList = [] then 0 else max R 0
  increase : ∀ d, rewardOf m d ≤ rewardOf m' d
  share : ∀ d pledge, valid.find? d = some pledge → d ≠ p.destMint →
    rewardOf m' d - rewardOf m d ≤ R * pledge / T
  safe : BlockRewardSafe E s p prev m

variable {m m' : RewardMap}

theorem blockRewardSafe (hsupply : Fits64 (getBlockMoneySupply s prev.hashBlock))
    (hdata : blockPledgeRewardData E s p prev = some (R, valid, T)) (hfit : Fits64 (rewardTotal valid))
    (hm : ∀ d, Fits64 (rewardOf m d) ∧ Fits64 (rewardOf m d + R)) : BlockRewardSafe E s p prev m := by
  obtain ⟨r, l, hsrc⟩ := blockPledgeRewardData_source hdata
  obtain ⟨hr, h0⟩ := getPledgeMinMaxValue_valid E hsupply hsrc.range
  have hv := hsrc.validPledges hr hfit
  refine ⟨fun r' l' hr' hl' => ?_, fun r' valid' T' hr' _ hT' => ?_, fun R' valid' T' proof hd hR _ => ?_⟩
  · obtain rfl := Option.some.inj (hsrc.range.symm.trans hr')
    obtain rfl := Option.some.inj (hsrc.pledges.symm.trans hl')
    exact hv.safe
  · obtain rfl := Option.some.inj (hsrc.range.symm.trans hr')
    exact rewardValueSafe hr h0 hsupply hT'
  · obtain ⟨rfl, rfl, rfl⟩ : R = R' ∧ valid = valid' ∧ T = T' := by simpa [hdata] using hd
    exact (distributeReward_spec p.destMint (hsrc.loopPre proof.nPledgeFee hr hv hfit hR hm) (hm _)).2.2

/-- **The reward of a block is divided exactly**, when the pledges and the entries have room for it. -/
theorem calcBlockPledgeReward_splits (rest : CBlockIndexPtr)
    (hsupply : Fits64 (getBlockMoneySupply s prev.hashBlock))
    (hdata : blockPledgeRewardData E s p prev = some (R, valid, T)) (hfit : Fits64 (rewardTotal valid))
    (hm : ∀ d, Fits64 (rewardOf m d) ∧ Fits64 (rewardOf m d + R))
    (hret : calcBlockPledgeReward E s (p :: prev :: rest) m = some (some m')) :
    SplitsReward E s p prev m m' R valid T := by
  obtain ⟨r, l, hsrc⟩ := blockPledgeRewardData_source hdata
  obtain ⟨hr, -⟩ := getPledgeMinMaxValue_valid E hsupply hsrc.range
  have hv := hsrc.validPledges hr hfit
  have hsafe := blockRewardSafe hsupply hdata hfit hm
  have hnonneg := hsrc.nonneg
  have hpos : ∀ kv ∈ valid.toList, 0 < kv.2 := fun kv hkv =>
    (hv.pledge kv.1 kv.2 (OrdMap.find?_eq_some.2 hkv)).1
  simp only [calcBlockPledgeReward, hdata] at hret
  by_cases hR : R = 0 ∨ valid.toList = []
  · -- nothing to divide
    rw [if_pos (by simpa using hR)] at hret
    obtain rfl := Option.some.inj (Option.some.inj hret)
    refine ⟨?_, fun d => le_rfl, fun d pledge hd _ => ?_, hsafe⟩
    · rw [sub_self]
      split_ifs with he
      · rfl
      · rw [hR.resolve_right he, max_self]
    · have hp := (hv.pledge d pledge hd).1
      have hT : 0 ≤ T := by
        rw [hv.total]
        exact List.sum_nonneg fun x hx => by obtain ⟨e, he, rfl⟩ := List.mem_map.1 hx; exact (hpos e he).le
      rw [sub_self]
      exact Int.ediv_nonneg (mul_nonneg hnonneg hp.le) hT
  · rw [if_neg (by simpa using hR)] at hret
    rw [not_or] at hR
    cases hproof : getPowMintTemplateParam s p.destMint with
    | none => simp [hproof] at hret
    | some o =>
      cases o with
      | none => simp [hproof] at hret
      | some proof =>
        simp only [hproof, Option.some.injEq] at hret
        subst hret
        have hpre := hsrc.loopPre proof.nPledgeFee hr hv hfit hR.1 hm
        obtain ⟨h1, h2, -, hrem⟩ := distributeReward_spec p.destMint hpre (hm _)
        have hw := hpre.within
        have hT : 0 < T := hr.pow_pos.trans_le (hsrc.powMin_le hR.1)
        refine ⟨?_, fun d => ?_, fun d pledge hd hne => ?_, hsafe⟩
        · rw [h1, if_neg hR.2, max_eq_left hnonneg]
          ring
        · have hs := (shareOf_bounds hpre.share d).1
          rw [h2]
          split_ifs <;> omega
        · have hmem := OrdMap.find?_eq_some.1 hd
          have hle : pledge ≤ T := by rw [hv.total]; exact pledge_le_total hpos _ hmem
          have hTfit : T < 2 ^ 63 := by rw [hv.total]; exact hfit.2
          have hb : destReward R T proof.nPledgeFee pledge ≤ R * pledge / T :=
            (destReward_bounds proof.nPledgeFee hnonneg hsrc.fits.2 hT hTfit (hpos _ hmem).le hle).2
          have hshare : shareOf R T proof.nPledgeFee valid.toList d = destReward R T proof.nPledgeFee pledge := by
            unfold shareOf
            rw [show OrdMap.lookupList d valid.toList = some pledge from hd]
            rfl
          rw [h2, if_neg hne, hshare]
          omega

end

/-! ## Where there is no room -/

def toyParent (nMoneySupply : ℤ) : CBlockIndex :=
  { CBlockBase.newIndex toyEnv (2 ^ 224) (getGenesisBlock toyEnv) 1 8 0 0 [] with
    nMoneySupply := nMoneySupply }

def toyPledgeStore (nMoneySupply : ℤ) (pledges : PowPledges) : CBlockBase :=
  { CBlockBase.initiate toyEnv (getGenesisBlock toyEnv) with
    mapIndex := Function.update (fun _ => []) (2 ^ 224) [toyParent nMoneySupply]
    dbTemplateData := Function.update (fun _ => none) (toyMiner.dest toyEnv)
      (some (CTemplate.proof toyMiner).buildTemplateData)
    dbPledge := Function.update (fun _ => none) (2 ^ 224)
      (some { mapPledge := OrdMap.empty.insert (toyMiner.dest toyEnv) pledges }) }

def toyMinedEntry : CBlockIndex := { toyParent 0 with destMint := toyMiner.dest toyEnv }

/-- The rewards that `CalcBlockPledgeReward` leaves for that block. -/
def toySplit (nMoneySupply : ℤ) (pledges : PowPledges) (m : RewardMap) : Option (Option RewardMap) :=
  calcBlockPledgeReward toyEnv (toyPledgeStore nMoneySupply pledges)
    [toyMinedEntry, toyParent nMoneySupply] m

def toyPledger (i : ℕ) : CDestination := ⟨CDestination.PREFIX_TEMPLATE, i⟩

def toyPledges : PowPledges := OrdMap.empty.insert (toyPledger 0) (100000000, 1)

/-- Two pledges that count, and one that is too small. -/
def toyThreePledges : PowPledges :=
  (toyPledges.insert (toyPledger 1) (100000007, 1)).insert (toyPledger 2) (50000000, 1)

/-- The shares are rounded down, one of them is added to what is there, and the rest goes to the miner. -/
theorem calcBlockPledgeReward_splits_toy :
    ∃ m', toySplit 0 toyThreePledges (OrdMap.empty.insert (toyPledger 0) 5) = some (some m') ∧
      m'.toList = [(toyPledger 0, 5 + 1617999), (toyPledger 1, 1618000), (toyMiner.dest toyEnv, 1)] ∧
      SplitsReward toyEnv (toyPledgeStore 0 toyThreePledges) toyMinedEntry (toyParent 0)
        (OrdMap.empty.insert (toyPledger 0) 5) m' 3236000
        ((OrdMap.empty.insert (toyPledger 0) 100000000).insert (toyPledger 1) 100000007) 200000007 := by
  obtain ⟨o, hret, m', rfl, hlist⟩ := exists_some_of_any
    (o := toySplit 0 toyThreePledges (OrdMap.empty.insert (toyPledger 0) 5))
    (P := fun o => ∃ m ∈ o, m.toList =
      [(toyPledger 0, 5 + 1617999), (toyPledger 1, 1618000), (toyMiner.dest toyEnv, 1)]) (by decide +kernel)
  refine ⟨m', hret, hlist, ?_⟩
  refine calcBlockPledgeReward_splits [] (by decide) (by decide +kernel) (by decide) (fun d => ?_) hret
  rw [rewardOf, OrdMap.find?_insert, OrdMap.find?_empty]
  split_ifs
  · decide
  · decide

/-- Three ways in which the division is not exact: an entry that has no room for the share it receives
(it becomes negative), pledges whose sum is more than an `int64`, and a miner among their own pledge
addresses, who is paid the remainder on top of the share. -/
theorem calcBlockPledgeReward_no_room :
    (toySplit 0 toyPledges (OrdMap.empty.insert (toyPledger 0) (2 ^ 63 - 1))).map
        (Option.map (rewardOf · (toyPledger 0))) = some (some (-2 ^ 63 + 1617999)) ∧
      (∃ pledges, toySplit (2 ^ 63 - 1) pledges OrdMap.empty = some (some OrdMap.empty) ∧
        (getMintPledgeData toyEnv (toyPledgeStore (2 ^ 63 - 1) pledges) (2 ^ 224) (toyMiner.dest toyEnv)
          100000000 ((2 ^ 63 - 1) / 100)).map (fun v => decide (Fits64 (rewardTotal v.1))) = some false) ∧
      (toySplit 0 ((OrdMap.empty.insert (toyMiner.dest toyEnv) (100000000, 1)).insert (toyPledger 0)
          (100000007, 1)) OrdMap.empty).map (Option.map (rewardOf · (toyMiner.dest toyEnv))) =
            some (some (3236000 * 100000000 / 200000007 + 1)) := by
  refine ⟨by decide +kernel, ⟨(List.range 101).foldr
    (fun i l => l.insert (toyPledger i) (2 ^ 62, 1)) OrdMap.empty, ?_⟩, by decide +kernel⟩
  decide +kernel

end Minemon
