import Minemon.Rewards.Payable

/-!
# Epochs

The rewards of an epoch are cut into lists, one for each of the blocks of the next epoch, and the blocks
that an epoch is computed from are those since the end of the epoch before.

* `fillRewardList_flatten`: the lists, one after another, are the rewards in their order.
* `epoch_rewards_once`: every epoch is distributed exactly once, and every block is in one epoch.
-/

namespace Minemon

open CBlockBase

/-! ## Lists of lists -/

section

variable {α : Type*}

theorem modify_append_flatten (x : α) (v : List (List α)) (j : ℕ) (hj : j < v.length)
    (h : ∀ i, j < i → v.getD i [] = []) : (v.modify j (· ++ [x])).flatten = v.flatten ++ [x] := by
  induction v generalizing j with
  | nil => simp at hj
  | cons a v ih =>
    cases j with
    | zero =>
      have hnil : v.flatten = [] := by
        rw [List.flatten_eq_nil_iff]
        intro l hl
        obtain ⟨i, hi, rfl⟩ := List.mem_iff_getElem.1 hl
        have := h (i + 1) (by omega)
        simpa [List.getD, hi] using this
      simp [List.modify, hnil]
    | succ j =>
      have := ih j (by simpa using hj) fun i hi => by simpa using h (i + 1) (by omega)
      simp only [List.modify_succ_cons, List.flatten_cons, this, List.append_assoc]

theorem getD_modify_of_ne (f : List α → List α) (v : List (List α)) {i j : ℕ} (h : j ≠ i) :
    (v.modify j f).getD i [] = v.getD i [] := by
  simp [List.getD_eq_getElem?_getD, h]

theorem flatMap_range_getD (v : List (List α)) (n : ℕ) (h : v.length ≤ n) :
    (List.range n).flatMap (fun i => v.getD i []) = v.flatten := by
  induction v generalizing n with
  | nil => simp
  | cons a v ih =>
    cases n with
    | zero => simp at h
    | succ n =>
      rw [List.range_succ_eq_map, List.flatMap_cons, List.flatMap_map]
      simp only [List.getD_cons_zero, List.getD_cons_succ, List.flatten_cons]
      rw [ih n (by simpa using h)]

end

theorem forall₂_flatMap_map {β ι : Type*} {R S : β → α → Prop} (f : ι → List α) (g : ι → α → α) (L : List ι)
    {l : List β} (h : List.Forall₂ R l (L.flatMap f)) (hg : ∀ i b a, R b a → S b (g i a)) :
    List.Forall₂ S l (L.flatMap fun i => (f i).map (g i)) := by
  induction L generalizing l with
  | nil =>
    cases h
    exact .nil
  | cons i L ih =>
    rw [List.flatMap_cons] at h ⊢
    have h1 := List.forall₂_take_append _ _ _ h
    have h2 := List.forall₂_drop_append _ _ _ h
    rw [← List.take_append_drop (f i).length l]
    refine List.rel_append ?_ (ih h2)
    exact List.forall₂_map_right_iff.2 (h1.imp fun b a hr => hg i b a hr)

/-! ## The lists of an epoch -/

/-- A transaction that pays the reward `kv`, whatever its time. -/
def PaysReward (s : CBlockBase) (kv : CDestination × ℤ) (tx : CTransaction) : Prop :=
  rewardTx s kv.1 kv.2 = some (some { tx with nTimeStamp := 0 }) ∧
    tx.vchData = kv.1.toBytes ∧ tx.nAmount = kv.2

section

variable {E : Env} {s : CBlockBase} {tx : CTransaction} {m : RewardMap} {v : List (List CTransaction)} {p : CBlockIndex}
  {ptr l : CBlockIndexPtr} {i k : ℕ}

theorem rewardTx_fields {dest : CDestination} {nReward : ℤ}
    (h : rewardTx s dest nReward = some (some tx)) :
    tx.nTimeStamp = 0 ∧ tx.vchData = dest.toBytes ∧ tx.nAmount = nReward := by
  obtain ⟨-, sendTo, rfl, -⟩ := rewardTx_some h
  exact ⟨rfl, rfl, rfl⟩

/-- **The lists hold the rewards in their order.** The lists behind the one that is filled are empty. -/
theorem fillRewardList_flatten (nSingle : ℕ) (l : List (CDestination × ℤ)) (n : ℕ)
    (v : List (List CTransaction)) (hroom : n + l.length ≤ nSingle * v.length)
    (hempty : ∀ i, n / nSingle < i → v.getD i [] = []) {v' : List (List CTransaction)}
    (h : fillRewardList s nSingle l n v = some (true, v')) :
    v'.length = v.length ∧ ∃ txs, v'.flatten = v.flatten ++ txs ∧
      List.Forall₂ (fun kv tx => rewardTx s kv.1 kv.2 = some (some tx)) l txs := by
  fun_induction fillRewardList s nSingle l n v with
  | case1 =>
    cases h
    exact ⟨rfl, [], (List.append_nil _).symm, .nil⟩
  | case2 | case3 => cases h
  | case4 _ _ n v tx htx ih =>
    rw [List.length_cons] at hroom
    have hj : n / nSingle < v.length := Nat.div_lt_of_lt_mul (by omega)
    have hstep : n / nSingle ≤ (n + 1) / nSingle := Nat.div_le_div_right (by omega)
    obtain ⟨hlen, txs, hflat, hall⟩ := ih (by rw [List.length_modify]; omega)
      (fun i hi => by rw [getD_modify_of_ne _ _ (by omega)]; exact hempty i (by omega)) h
    refine ⟨by rw [hlen, List.length_modify], tx :: txs, ?_, .cons htx hall⟩
    rw [hflat, modify_append_flatten tx v _ hj hempty, List.append_assoc]
    rfl

theorem flatten_replicate_nil (n : ℕ) : (List.replicate n ([] : List CTransaction)).flatten = [] := by
  simp

theorem calcRewardList_flatten {hash : ℕ}
    (hcalc : calcDistributePledgeReward E s hash = some (some m))
    (hsize : m.size ≤ BPX_PLEDGE_REWARD_DISTRIBUTE_HEIGHT E * calcSingleBlockDistributePledgeRewardTxCount)
    (h : calcRewardList E s hash = some (true, v)) :
    v.length ≤ BPX_PLEDGE_REWARD_DISTRIBUTE_HEIGHT E ∧
      List.Forall₂ (fun kv tx => rewardTx s kv.1 kv.2 = some (some tx)) m.toList v.flatten := by
  have hpos := calcSingleBlockDistributePledgeRewardTxCount_pos
  unfold calcRewardList at h
  simp only [hcalc] at h
  by_cases hm : m.toList = []
  · rw [if_pos (by simpa using hm)] at h
    obtain rfl : v = [] := by simpa using h.symm
    rw [hm]
    exact ⟨Nat.zero_le _, .nil⟩
  · rw [if_neg (by simpa using hm)] at h
    generalize calcSingleBlockDistributePledgeRewardTxCount = k at *
    generalize BPX_PLEDGE_REWARD_DISTRIBUTE_HEIGHT E = D at *
    have hdiv := Nat.div_add_mod m.size k
    have hmod := Nat.mod_lt m.size hpos
    -- the number of lists is the size divided by `k`, rounded up
    have hN : ∀ N, N = m.size / k + (if m.size % k > 0 then 1 else 0) → m.size ≤ k * N ∧ N ≤ D := by
      rintro N rfl
      have hle : m.size / k ≤ D := Nat.div_le_of_le_mul (by rw [Nat.mul_comm]; exact hsize)
      split_ifs with h0
      · refine ⟨by rw [Nat.mul_add, Nat.mul_one]; omega, ?_⟩
        have : m.size / k < D := by
          by_contra hge
          have := Nat.mul_le_mul_left k (not_lt.1 hge)
          rw [Nat.mul_comm k D] at this
          omega
        omega
      · exact ⟨by rw [Nat.add_zero]; omega, hle⟩
    obtain ⟨hcap, hle⟩ := hN _ rfl
    obtain ⟨hlen, txs, hflat, hall⟩ := fillRewardList_flatten (s := s) k m.toList 0 _
      (by rw [List.length_replicate, Nat.zero_add]; exact hcap) (fun i _ => by simp [List.getD]) h
    rw [flatten_replicate_nil, List.nil_append] at hflat
    rw [hlen, List.length_replicate, hflat]
    exact ⟨hle, hall⟩

/-! ## The block an epoch ends in -/

theorem dropWhile_epoch (hi : i < BPX_PLEDGE_REWARD_DISTRIBUTE_HEIGHT E) (hc : StoredChain E s (p :: l))
    (hheight : p.nHeight = k * BPX_PLEDGE_REWARD_DISTRIBUTE_HEIGHT E + i) :
    ∃ pEnd lEnd, ((p :: l).dropWhile fun q => q.nHeight % BPX_PLEDGE_REWARD_DISTRIBUTE_HEIGHT E > 0) =
        pEnd :: lEnd ∧ pEnd :: lEnd <:+ p :: l ∧ pEnd.nHeight = k * BPX_PLEDGE_REWARD_DISTRIBUTE_HEIGHT E := by
  induction i generalizing p l with
  | zero =>
    refine ⟨p, l, ?_, List.suffix_refl _, by omega⟩
    rw [List.dropWhile_cons, if_neg (by simp [hheight])]
  | succ i ih =>
    have hmod : p.nHeight % BPX_PLEDGE_REWARD_DISTRIBUTE_HEIGHT E = i + 1 := by
      rw [hheight, Nat.mul_add_mod_self_right, Nat.mod_eq_of_lt hi]
    cases hc with
    | genesis _ _ =>
      rw [genesisEntry_nHeight] at hheight
      omega
    | @step _ q l' b hq hb index =>
      have hprev : q.nHeight = k * BPX_PLEDGE_REWARD_DISTRIBUTE_HEIGHT E + i := by
        have h1 := hb.nHeight
        rw [hb.blockHeight, hq.height] at h1
        omega
      obtain ⟨pEnd, lEnd, hdrop, hsuf, hend⟩ := ih (by omega) hq hprev
      refine ⟨pEnd, lEnd, ?_, hsuf.trans (List.suffix_cons _ _), hend⟩
      rw [List.dropWhile_cons, if_pos (by simp [hmod]), hdrop]

theorem StoredChain.suffix_eq {q : CBlockIndex} {l' : CBlockIndexPtr}
    (h : StoredChain E s ptr) (hp : p :: l <:+ ptr) (hq : q :: l' <:+ ptr) (heq : p.nHeight = q.nHeight) :
    p :: l = q :: l' := by
  have h1 := (h.suffix hp (by simp)).nHeight_eq p l rfl
  have h2 := (h.suffix hq (by simp)).nHeight_eq q l' rfl
  exact List.IsSuffix.eq_of_length (List.suffix_of_suffix_length_le hp hq (by simp; omega)) (by simp; omega)

/-! ## The blocks of an epoch -/

/-- The blocks that the loop of `CalcDistributePledgeReward` comes to. -/
def calcRange : ℕ → CBlockIndexPtr → List CBlockIndexPtr
  | 0, _ => []
  | _ + 1, [] => []
  | _ + 1, [_] => []
  | n + 1, p :: prev :: rest => (p :: prev :: rest) :: calcRange n (prev :: rest)

def calcAll (E : Env) (s : CBlockBase) : List CBlockIndexPtr → RewardMap → Option (Option RewardMap)
  | [], m => some (some m)
  | ptr :: l, m =>
    match calcBlockPledgeReward E s ptr m with
    | none => none
    | some none => some none
    | some (some m') => calcAll E s l m'

theorem calcDistributeLoop_eq_calcAll (n : ℕ) (ptr : CBlockIndexPtr) (m : RewardMap) :
    calcDistributeLoop E s n ptr m = calcAll E s (calcRange n ptr) m := by
  induction n generalizing ptr m with
  | zero => rfl
  | succ n ih =>
    match ptr with
    | [] => rfl
    | [_] => rfl
    | p :: prev :: rest =>
      rw [calcDistributeLoop, calcRange, calcAll]
      cases calcBlockPledgeReward E s (p :: prev :: rest) m with
      | none => rfl
      | some o =>
        cases o with
        | none => rfl
        | some m' => exact ih _ _

theorem mem_calcRange (n : ℕ) (ptr ptr' : CBlockIndexPtr) :
    ptr' ∈ calcRange n ptr ↔ ptr' <:+ ptr ∧ 2 ≤ ptr'.length ∧ ptr.length < ptr'.length + n := by
  induction n generalizing ptr with
  | zero =>
    simp only [calcRange, List.not_mem_nil, false_iff, not_and, Nat.add_zero]
    intro hsuf _
    exact not_lt.2 hsuf.length_le
  | succ n ih =>
    match ptr with
    | [] =>
      simp only [calcRange, List.not_mem_nil, false_iff, not_and]
      intro hsuf h2
      have := hsuf.length_le
      rw [List.length_nil] at this
      omega
    | [p] =>
      simp only [calcRange, List.not_mem_nil, false_iff, not_and]
      intro hsuf h2
      have := hsuf.length_le
      rw [List.length_singleton] at this
      omega
    | p :: prev :: rest =>
      have hcons : ptr' <:+ p :: prev :: rest ↔ ptr' = p :: prev :: rest ∨ ptr' <:+ prev :: rest :=
        List.suffix_cons_iff
      rw [calcRange, List.mem_cons, ih, hcons]
      constructor
      · rintro (rfl | ⟨hsuf, h2, hlen⟩)
        · exact ⟨Or.inl rfl, by simp, by omega⟩
        · exact ⟨Or.inr hsuf, h2, by rw [List.length_cons]; omega⟩
      · rintro ⟨heq | hsuf, h2, hlen⟩
        · exact Or.inl heq
        · exact Or.inr ⟨hsuf, h2, by rw [List.length_cons] at hlen; omega⟩

def IsEpochEnd (E : Env) (ptr : CBlockIndexPtr) : Prop :=
  ∃ p l, ptr = p :: l ∧ 0 < p.nHeight ∧ p.nHeight % BPX_PLEDGE_REWARD_DISTRIBUTE_HEIGHT E = 0

theorem exists_suffix_length {α : Type*} (l : List α) {n : ℕ} (h : n ≤ l.length) : ∃ m, m <:+ l ∧ m.length = n :=
  ⟨l.drop (l.length - n), List.drop_suffix _ _, by rw [List.length_drop]; omega⟩

/-- **Every block is in the range of exactly one epoch end.** -/
theorem existsUnique_epoch {ptrEnd : CBlockIndexPtr} (hc : StoredChain E s ptrEnd) (hend : IsEpochEnd E ptrEnd)
    (hsuf : ptr <:+ ptrEnd) (h2 : 2 ≤ ptr.length) :
    ∃! q, q <:+ ptrEnd ∧ IsEpochEnd E q ∧ ptr ∈ calcRange (BPX_PLEDGE_REWARD_DISTRIBUTE_HEIGHT E) q := by
  have hD := distribute_height_pos E
  -- a suffix is an end when its length is 1 beyond a positive multiple of the period
  have hiff : ∀ q, q <:+ ptrEnd → 2 ≤ q.length → (IsEpochEnd E q ↔
      (q.length - 1) % BPX_PLEDGE_REWARD_DISTRIBUTE_HEIGHT E = 0) := by
    intro q hq hq2
    match q, hq2 with
    | p :: l, hq2 =>
      have hheight := (hc.suffix hq (by simp)).nHeight_eq p l rfl
      constructor
      · rintro ⟨p', l', heq, -, hmod⟩
        obtain ⟨rfl, rfl⟩ := List.cons.inj heq
        rw [hheight] at hmod
        simpa using hmod
      · intro hmod
        exact ⟨p, l, rfl, by rw [hheight]; simp at hq2; omega, by rw [hheight]; simpa using hmod⟩
  have hlen : 2 ≤ ptrEnd.length := h2.trans hsuf.length_le
  have hendmod := (hiff ptrEnd (List.suffix_refl _) hlen).1 hend
  generalize BPX_PLEDGE_REWARD_DISTRIBUTE_HEIGHT E = D at *
  obtain ⟨k, hk⟩ := Nat.dvd_of_mod_eq_zero hendmod
  -- the number of the epoch: the height divided by the period, rounded up
  obtain ⟨j, hj1, hj2⟩ : ∃ j, ptr.length - 1 ≤ D * j ∧ D * j < ptr.length - 1 + D := by
    refine ⟨(ptr.length - 1 + (D - 1)) / D, ?_, ?_⟩
    · have h1 := Nat.div_add_mod (ptr.length - 1 + (D - 1)) D
      have h3 := Nat.mod_lt (ptr.length - 1 + (D - 1)) hD
      omega
    · have h1 := Nat.div_add_mod (ptr.length - 1 + (D - 1)) D
      omega
  have hjk : D * j ≤ D * k := by
    by_contra hlt
    have hjk' : k < j := lt_of_mul_lt_mul_left (not_le.1 hlt) (Nat.zero_le D)
    have h3 := Nat.mul_le_mul_left D (Nat.succ_le_of_lt hjk')
    have h4 := hsuf.length_le
    rw [Nat.mul_succ] at h3
    omega
  obtain ⟨q, hq, hqlen⟩ := exists_suffix_length ptrEnd (n := D * j + 1) (by omega)
  refine ⟨q, ⟨hq, ?_, ?_⟩, ?_⟩
  · rw [hiff q hq (by omega), hqlen, Nat.add_sub_cancel, Nat.mul_mod_right]
  · rw [mem_calcRange]
    exact ⟨List.suffix_of_suffix_length_le hsuf hq (by omega), h2, by omega⟩
  · rintro q' ⟨hq', hend', hmem⟩
    rw [mem_calcRange] at hmem
    obtain ⟨hsuf', -, hlt⟩ := hmem
    have hle := hsuf'.length_le
    have hmod := (hiff q' hq' (by omega)).1 hend'
    obtain ⟨j', hj'⟩ := Nat.dvd_of_mod_eq_zero hmod
    have hjj : j' = j := by
      rcases Nat.lt_trichotomy j' j with hlt' | heq | hgt
      · have h3 := Nat.mul_le_mul_left D (Nat.succ_le_of_lt hlt')
        rw [Nat.mul_succ] at h3
        omega
      · exact heq
      · have h3 := Nat.mul_le_mul_left D (Nat.succ_le_of_lt hgt)
        rw [Nat.mul_succ] at h3
        omega
    subst hjj
    have hlen' : q'.length = q.length := by omega
    exact List.IsSuffix.eq_of_length (List.suffix_of_suffix_length_le hq' hq hlen'.le) hlen'

/-! ## The rewards of an epoch -/

def entryAt (ptr : CBlockIndexPtr) (nHeight : ℕ) : Option CBlockIndex := ptr.find? fun p => p.nHeight == nHeight

theorem StoredChain.entryAt (hc : StoredChain E s ptr) (hp : p :: l <:+ ptr) : entryAt ptr p.nHeight = some p := by
  have hmem : p ∈ ptr := hp.subset List.mem_cons_self
  cases hq : Minemon.entryAt ptr p.nHeight with
  | none =>
    have := List.find?_eq_none.1 hq p hmem
    simp at this
  | some q =>
    have hheight : q.nHeight = p.nHeight := by simpa using List.find?_some hq
    obtain ⟨l1, l2, rfl⟩ := List.append_of_mem (List.mem_of_find?_eq_some hq)
    have := hc.suffix_eq (List.suffix_append l1 (q :: l2)) hp hheight
    rw [(List.cons.inj this).1]

/-- What the calls for the blocks of a chain return, by the height of the previous block. -/
def answersOf (E : Env) (ptr : CBlockIndexPtr) (v : List (List CTransaction)) (nHeight : ℕ) :
    List CTransaction :=
  (v.getD (nHeight % BPX_PLEDGE_REWARD_DISTRIBUTE_HEIGHT E) []).map fun tx =>
    { tx with nTimeStamp := (((entryAt ptr nHeight).elim 0 CBlockIndex.nTimeStamp) + 1) % 2 ^ 32 }

theorem answersOf_pays (k : ℕ)
    (hlen : v.length ≤ BPX_PLEDGE_REWARD_DISTRIBUTE_HEIGHT E)
    (h : List.Forall₂ (fun kv tx => rewardTx s kv.1 kv.2 = some (some tx)) m.toList v.flatten) :
    List.Forall₂ (PaysReward s) m.toList ((List.range (BPX_PLEDGE_REWARD_DISTRIBUTE_HEIGHT E)).flatMap fun i =>
      answersOf E ptr v (k * BPX_PLEDGE_REWARD_DISTRIBUTE_HEIGHT E + i)) := by
  rw [← flatMap_range_getD v _ hlen] at h
  have hmod : ∀ i ∈ List.range (BPX_PLEDGE_REWARD_DISTRIBUTE_HEIGHT E),
      answersOf E ptr v (k * BPX_PLEDGE_REWARD_DISTRIBUTE_HEIGHT E + i) = (v.getD i []).map fun tx =>
        { tx with nTimeStamp := (((entryAt ptr (k * BPX_PLEDGE_REWARD_DISTRIBUTE_HEIGHT E + i)).elim 0
          CBlockIndex.nTimeStamp) + 1) % 2 ^ 32 } := by
    intro i hi
    unfold answersOf
    rw [Nat.mul_add_mod_self_right, Nat.mod_eq_of_lt (List.mem_range.1 hi)]
  rw [List.flatMap_congr hmod]
  refine forall₂_flatMap_map _ _ _ h fun i kv tx htx => ?_
  obtain ⟨h0, h1, h2⟩ := rewardTx_fields htx
  exact ⟨by rw [htx, ← h0], h1, h2⟩

variable {c : CBlockChain} {P : CBlockChain → CBlock → Prop}

theorem answers_of_epoch (hok : StoreOK E s) {hash : ℕ} {top : CBlockIndex} (htop : s.mapIndex hash = top :: l)
    (hk : 1 ≤ k) {pEnd : CBlockIndex} {lEnd : CBlockIndexPtr} (hsuf : pEnd :: lEnd <:+ top :: l)
    (hend : pEnd.nHeight = k * BPX_PLEDGE_REWARD_DISTRIBUTE_HEIGHT E)
    (hv : calcRewardList E s pEnd.hashBlock = some (true, v))
    {l' : CBlockIndexPtr} {cache : RewardCache} (hp : p :: l' <:+ top :: l)
    (hi : i < BPX_PLEDGE_REWARD_DISTRIBUTE_HEIGHT E)
    (hheight : p.nHeight = k * BPX_PLEDGE_REWARD_DISTRIBUTE_HEIGHT E + i) (hhist : CallHistory E s cache) :
    rewardAnswer E s cache p.hashBlock p.nTimeStamp = some (some (answersOf E (top :: l) v p.nHeight)) := by
  have hc := (hok.chain _ _ _ htop).2
  have hcp := hc.suffix hp (by simp)
  -- the search from `p` ends in `pEnd`
  obtain ⟨pEnd', lEnd', hdrop, hsuf', hend'⟩ := dropWhile_epoch hi hcp hheight
  have heq := hc.suffix_eq hsuf (hsuf'.trans hp) (hend.trans hend'.symm)
  have hcalcEnd : calcEndBlock E s p.hashBlock = some pEnd := by
    unfold calcEndBlock
    rw [hcp.index, hdrop, ← heq]
    rfl
  have hge : BPX_PLEDGE_REWARD_DISTRIBUTE_HEIGHT E ≤ getBlockHeightByHash p.hashBlock := by
    rw [hcp.height, hheight]
    have := Nat.mul_le_mul_right (BPX_PLEDGE_REWARD_DISTRIBUTE_HEIGHT E) hk
    omega
  have hselect : selectRewardList E p.hashBlock p.nTimeStamp v = answersOf E (top :: l) v p.nHeight := by
    rw [selectRewardList, answersOf, hc.entryAt hp, hcp.height]
    rfl
  rw [rewardAnswer_of_end p.nTimeStamp hge hcalcEnd]
  cases hfind : cache.find? pEnd.hashBlock with
  | none => simp [hv, hselect]
  | some w =>
    obtain ⟨fOk, hw⟩ := hhist.computed _ _ hfind
    obtain ⟨-, rfl⟩ := Prod.mk.inj (Option.some.inj (hv.symm.trans hw))
    simp only [hselect]

/-- **Each reward of an epoch is paid once.** In every state of a run:
* the calls for the blocks that follow an epoch on one chain return, one after another, one
  transaction for each reward of the epoch, in order, whatever calls were made before, as long as the
  rewards fit into that many blocks;
* the rewards of an epoch are those of its own blocks, and each block on a chain belongs to one epoch. -/
theorem epoch_rewards_once (h : Run E P c) :
    (∀ hash top l k, c.cntrBlock.mapIndex hash = top :: l → 1 ≤ k →
      top.nHeight = k * BPX_PLEDGE_REWARD_DISTRIBUTE_HEIGHT E + (BPX_PLEDGE_REWARD_DISTRIBUTE_HEIGHT E - 1) →
        ∃ pEnd lEnd, pEnd :: lEnd <:+ top :: l ∧ pEnd.nHeight = k * BPX_PLEDGE_REWARD_DISTRIBUTE_HEIGHT E ∧
          ∀ m, calcDistributePledgeReward E c.cntrBlock pEnd.hashBlock = some (some m) →
            m.size ≤ BPX_PLEDGE_REWARD_DISTRIBUTE_HEIGHT E * calcSingleBlockDistributePledgeRewardTxCount →
            ∃ answers : ℕ → List CTransaction,
              (∀ p l' cache, p :: l' <:+ top :: l → k * BPX_PLEDGE_REWARD_DISTRIBUTE_HEIGHT E ≤ p.nHeight →
                CallHistory E c.cntrBlock cache →
                  rewardAnswer E c.cntrBlock cache p.hashBlock p.nTimeStamp = some (some (answers p.nHeight))) ∧
              m.keys.Nodup ∧ List.Forall₂ (PaysReward c.cntrBlock) m.toList
                ((List.range (BPX_PLEDGE_REWARD_DISTRIBUTE_HEIGHT E)).flatMap fun i =>
                  answers (k * BPX_PLEDGE_REWARD_DISTRIBUTE_HEIGHT E + i))) ∧
    (∀ hash pEnd lEnd, c.cntrBlock.mapIndex hash = pEnd :: lEnd → IsEpochEnd E (pEnd :: lEnd) →
      calcDistributePledgeReward E c.cntrBlock hash =
          calcAll E c.cntrBlock (calcRange (BPX_PLEDGE_REWARD_DISTRIBUTE_HEIGHT E) (pEnd :: lEnd)) OrdMap.empty ∧
        ∀ ptr, ptr <:+ pEnd :: lEnd → 2 ≤ ptr.length →
          ∃! q, q <:+ pEnd :: lEnd ∧ IsEpochEnd E q ∧
            ptr ∈ calcRange (BPX_PLEDGE_REWARD_DISTRIBUTE_HEIGHT E) q) := by
  have hok := h.storeOK
  have hD := distribute_height_pos E
  constructor
  · intro hash top l k htop hk hheight
    have hc := (hok.chain _ _ _ htop).2
    obtain ⟨pEnd, lEnd, -, hsuf, hend⟩ := dropWhile_epoch (by omega) hc hheight
    refine ⟨pEnd, lEnd, hsuf, hend, fun m hm hsize => ?_⟩
    obtain ⟨v, hv⟩ := (calcRewardList_true_iff _).2 (epochPayable_of_calc hok h.pledgeOK hm)
    obtain ⟨hlen, hflat⟩ := calcRewardList_flatten hm hsize hv
    refine ⟨answersOf E (top :: l) v, fun p l' cache hp hge hhist => ?_, m.keys_nodup,
      answersOf_pays k hlen hflat⟩
    obtain ⟨i, hi⟩ := Nat.exists_eq_add_of_le hge
    have hle := (hp.length_le)
    have h1 := hc.nHeight_eq _ _ rfl
    have h2 := (hc.suffix hp (by simp)).nHeight_eq _ _ rfl
    rw [List.length_cons, List.length_cons] at hle
    exact answers_of_epoch hok htop hk hsuf hend hv hp (by omega) hi hhist
  · intro hash pEnd lEnd hidx hend
    obtain ⟨hhash, hc⟩ := hok.chain _ _ _ hidx
    obtain ⟨p, l, heq, -, hmod⟩ := id hend
    obtain ⟨rfl, rfl⟩ := List.cons.inj heq
    refine ⟨?_, fun ptr hsuf h2 => existsUnique_epoch hc hend hsuf h2⟩
    rw [← hhash, calcDistributePledgeReward_eq hc hmod, calcDistributeLoop_eq_calcAll]

end

/-- Nine blocks of the toy network, with a pledge of 100 coins in the fourth. -/
def toyEpoch : Option CBlockChain :=
  (toyPledged 0).bind fun c4 => (toyRun (fun _ _ => true) (List.replicate 5 {}) c4).map Prod.fst

/-- The rewards of the first epoch go to one address, and the calls for the blocks at the heights 6 to
10 return one transaction. -/
theorem epoch_rewards_once_toy :
    ∃ c, toyEpoch = some c ∧ Run toyEnv (fun _ _ => True) c ∧
      ∃ top l, c.cntrBlock.mapIndex (toyTipHash c) = top :: l ∧ top.nHeight = 9 ∧
        ∃ pEnd lEnd, pEnd :: lEnd <:+ top :: l ∧ pEnd.nHeight = 5 ∧
          ∃ m, calcDistributePledgeReward toyEnv c.cntrBlock pEnd.hashBlock = some (some m) ∧ m.size = 1 ∧
            ∃ answers : ℕ → List CTransaction,
              (∀ p l' cache, p :: l' <:+ top :: l → 5 ≤ p.nHeight → CallHistory toyEnv c.cntrBlock cache →
                rewardAnswer toyEnv c.cntrBlock cache p.hashBlock p.nTimeStamp =
                  some (some (answers p.nHeight))) ∧
              List.Forall₂ (PaysReward c.cntrBlock) m.toList
                ((List.range 5).flatMap fun i => answers (5 + i)) := by
  obtain ⟨hsome, hidx, hmap⟩ : toyEpoch.isSome = true ∧
      toyEpoch.map (fun c => (c.cntrBlock.mapIndex (toyTipHash c)).head?.map CBlockIndex.nHeight) =
        some (some 9) ∧
      toyEpoch.map (fun c => (c.cntrBlock.mapIndex (toyTipHash c)).all fun p => p.nHeight ≠ 5 ||
        ((calcDistributePledgeReward toyEnv c.cntrBlock p.hashBlock).bind id).map OrdMap.size = some 1) =
          some true := by decide +kernel
  obtain ⟨c, hc⟩ := Option.isSome_iff_exists.1 hsome
  have hrun : Run toyEnv (fun _ _ => True) c := by
    obtain ⟨c4, h4, h⟩ := Option.bind_eq_some_iff.1 hc
    obtain ⟨r, hr, rfl⟩ := Option.map_eq_some_iff.1 h
    exact ((RunOver.toyPledged h4).toyRun (fun _ _ _ => trivial) _ hr fun _ _ => trivial).run
  rw [hc, Option.map_some, Option.some.injEq] at hidx hmap
  obtain ⟨top, htop, hheight⟩ := Option.map_eq_some_iff.1 hidx
  obtain ⟨l, hl⟩ := List.head?_eq_some_iff.1 htop
  obtain ⟨pEnd, lEnd, hsuf, hend, hpay⟩ := (epoch_rewards_once hrun).1 _ top l 1 hl le_rfl hheight
  have hfive : pEnd.nHeight = 5 := hend
  -- the rewards at the height 5 are those of `pEnd`
  obtain ⟨m, hm, hsize⟩ : ∃ m, calcDistributePledgeReward toyEnv c.cntrBlock pEnd.hashBlock = some (some m) ∧
      m.size = 1 := by
    rw [hl] at hmap
    have h1 := List.all_eq_true.1 hmap pEnd (hsuf.subset List.mem_cons_self)
    simp only [hfive, ne_eq, not_true_eq_false, decide_false, Bool.false_or, decide_eq_true_eq] at h1
    obtain ⟨m, hm, hsize⟩ := Option.map_eq_some_iff.1 h1
    obtain ⟨o, ho, rfl⟩ := Option.bind_eq_some_iff.1 hm
    exact ⟨m, ho, hsize⟩
  obtain ⟨answers, hans, -, hall⟩ := hpay m hm (by
    rw [hsize]
    exact Nat.mul_pos (distribute_height_pos toyEnv) calcSingleBlockDistributePledgeRewardTxCount_pos)
  exact ⟨c, hc, hrun, top, l, hl, hheight, pEnd, lEnd, hsuf, hfive, m, hm, hsize, answers, hans, hall⟩

end Minemon
