import Minemon.Lib.OrdSet
import Minemon.Pool.View

/-!
# Listing unspent outputs

`CTxPool::ListUnspent` of `minemon/txpool.cpp`: the outputs of a destination that the chain has and the pool does
not spend, and after them those of the pool. A limit of 0 is no limit, for the whole and for the part of the pool.

* `CTxPool.listUnspent_iff`: **the listing is as it should be** except where the outputs of the chain use the limit
  up with the very last of them and the pool has more.
-/

namespace Minemon

structure CTxUnspent extends CTxOutPoint where
  output : CTxOut
  nTxType : ℤ := -1
  nHeight : ℤ := -1
deriving DecidableEq

/-! ## The listings -/

namespace CTxPoolView

variable (view : CTxPoolView)

def listed (dest : CDestination) (e : CTxOutPoint × CSpent) : Bool :=
  !e.2.isSpent && !(view.getUnspent e.1).isNull && (view.getUnspent e.1).destTo = dest

/-- The loop of `ListUnspent` over `mapSpent`. A `CTxUnspent` is compared by its outpoint. -/
def listLoop (dest : CDestination) (setTxUnspent : OrdSet CTxOutPoint) (nMax : ℕ) :
    List (CTxOutPoint × CSpent) → ℕ → List CTxUnspent → List CTxUnspent
  | [], _, vTxUnspent => vTxUnspent
  | e :: l, nCount, vTxUnspent =>
    if nMax ≠ 0 ∧ nMax ≤ nCount then vTxUnspent
    else if view.listed dest e then
      if e.1 ∈ setTxUnspent then listLoop dest setTxUnspent nMax l nCount vTxUnspent
      else
        listLoop dest setTxUnspent nMax l (nCount + 1) (vTxUnspent ++ [{ e.1 with output := view.getUnspent e.1 }])
    else listLoop dest setTxUnspent nMax l nCount vTxUnspent

def listUnspent (dest : CDestination) (setTxUnspent : OrdSet CTxOutPoint) (nMax : ℕ) : List CTxUnspent :=
  view.listLoop dest setTxUnspent nMax view.mapSpent.toList 0 []

end CTxPoolView

/-- The variables of `CTxPool::ListUnspent`. -/
structure Listing where
  nCount : ℕ := 0
  setTxUnspent : OrdSet CTxOutPoint := OrdMap.empty
  vUnspent : List CTxUnspent

def Listing.push (x : Listing) (u : CTxUnspent) : Listing :=
  ⟨x.nCount + 1, x.setTxUnspent.add u.toCTxOutPoint, x.vUnspent ++ [u]⟩

/-- The loop over `vUnspentOnChain`, and whether it returned before its end. -/
def chainLoop (view : CTxPoolView) (nMax : ℕ) : List CTxUnspent → Listing → Bool × Listing
  | [], x => (false, x)
  | u :: l, x =>
    if nMax ≠ 0 ∧ nMax ≤ x.nCount then (true, x)
    else if view.isSpent u.toCTxOutPoint then chainLoop view nMax l x
    else chainLoop view nMax l (x.push u)

/-- `CTxPool::ListUnspent`: `vUnspent` after it. -/
def CTxPool.listUnspent (view : CTxPoolView) (dest : CDestination) (nMax : ℕ)
    (vUnspentOnChain vUnspent : List CTxUnspent) : List CTxUnspent :=
  match chainLoop view nMax vUnspentOnChain { vUnspent := vUnspent } with
  | (true, x) => x.vUnspent
  | (false, x) =>
    x.vUnspent ++ view.listUnspent dest x.setTxUnspent (if nMax ≠ 0 then nMax - x.nCount else nMax)

/-! ## What the loops take -/

variable {view : CTxPoolView} {dest : CDestination} {nMax : ℕ}

def unspentOf (view : CTxPoolView) (l : List CTxUnspent) : List CTxUnspent :=
  l.filter fun u => !view.isSpent u.toCTxOutPoint

def Listing.pushAll (x : Listing) (l : List CTxUnspent) : Listing := l.foldl Listing.push x

theorem Listing.pushAll_eq (x : Listing) (l : List CTxUnspent) :
    (x.pushAll l).nCount = x.nCount + l.length ∧ (x.pushAll l).vUnspent = x.vUnspent ++ l ∧
      (x.pushAll l).setTxUnspent = x.setTxUnspent.addAll (l.map CTxUnspent.toCTxOutPoint) := by
  induction l generalizing x with
  | nil => simp [pushAll, OrdSet.addAll]
  | cons u l ih =>
    obtain ⟨hcount, hlist, hset⟩ := ih (x.push u)
    refine ⟨?_, ?_, ?_⟩
    · rw [pushAll, List.foldl_cons, ← pushAll, hcount, List.length_cons, push]
      dsimp only
      omega
    · rw [pushAll, List.foldl_cons, ← pushAll, hlist, push]
      exact List.append_cons x.vUnspent u l |>.symm
    · rw [pushAll, List.foldl_cons, ← pushAll, hset, push, List.map_cons, OrdSet.addAll, OrdSet.addAll, List.foldl_cons]

variable {u : CTxUnspent}

theorem unspentOf_cons_of_spent (hu : view.isSpent u.toCTxOutPoint = true) (l : List CTxUnspent) :
    unspentOf view (u :: l) = unspentOf view l := by
  simp [unspentOf, hu]

theorem unspentOf_cons_of_unspent (hu : ¬view.isSpent u.toCTxOutPoint = true) (l : List CTxUnspent) :
    unspentOf view (u :: l) = u :: unspentOf view l := by
  simp [unspentOf, hu]

theorem chainLoop_of_lt (l : List CTxUnspent) (x : Listing)
    (h : nMax = 0 ∨ l = [] ∨ x.nCount + (unspentOf view l.dropLast).length < nMax) :
    chainLoop view nMax l x = (false, x.pushAll (unspentOf view l)) := by
  induction l generalizing x with
  | nil => rfl
  | cons u l ih =>
    have hgo : ¬(nMax ≠ 0 ∧ nMax ≤ x.nCount) := by
      rcases h with h | h | h
      · exact fun hmax => hmax.1 h
      · cases h
      · omega
    rw [chainLoop, if_neg hgo]
    split_ifs with hu
    · rw [unspentOf_cons_of_spent hu]
      refine ih x (h.imp_right fun hrest => ?_)
      cases l with
      | nil => exact Or.inl rfl
      | cons v l =>
        rw [List.dropLast_cons_cons, unspentOf_cons_of_spent hu] at hrest
        exact Or.inr (hrest.resolve_left (List.cons_ne_nil _ _))
    · rw [unspentOf_cons_of_unspent hu, Listing.pushAll, List.foldl_cons]
      refine ih (x.push u) (h.imp_right fun hrest => ?_)
      cases l with
      | nil => exact Or.inl rfl
      | cons v l =>
        rw [List.dropLast_cons_cons, unspentOf_cons_of_unspent hu, List.length_cons] at hrest
        have hlt := hrest.resolve_left (List.cons_ne_nil _ _)
        refine Or.inr ?_
        rw [Listing.push]
        dsimp only
        omega

theorem chainLoop_of_le (l : List CTxUnspent) (x : Listing) (hmax : nMax ≠ 0) (hl : l ≠ []) (hx : x.nCount ≤ nMax)
    (h : nMax ≤ x.nCount + (unspentOf view l.dropLast).length) :
    chainLoop view nMax l x = (true, x.pushAll ((unspentOf view l).take (nMax - x.nCount))) := by
  induction l generalizing x with
  | nil => exact absurd rfl hl
  | cons u l ih =>
    rw [chainLoop]
    by_cases hfull : nMax ≤ x.nCount
    · rw [if_pos ⟨hmax, hfull⟩, Nat.sub_eq_zero_of_le hfull, List.take_zero]
      rfl
    · rw [if_neg fun hboth => hfull hboth.2]
      have hne : l ≠ [] := by
        rintro rfl
        simp [unspentOf] at h
        omega
      obtain ⟨v, l', rfl⟩ := List.exists_cons_of_ne_nil hne
      rw [List.dropLast_cons_cons] at h
      split_ifs with hu
      · rw [unspentOf_cons_of_spent hu] at h ⊢
        exact ih x hne hx h
      · rw [unspentOf_cons_of_unspent hu, List.length_cons] at h
        rw [unspentOf_cons_of_unspent hu, ih (x.push u) hne (by rw [Listing.push]; dsimp only; omega) (by
          rw [Listing.push]
          dsimp only
          omega)]
        have hsucc : nMax - x.nCount = nMax - (x.push u).nCount + 1 := by
          rw [Listing.push]
          dsimp only
          omega
        rw [hsucc, List.take_succ_cons, Listing.pushAll, Listing.pushAll, List.foldl_cons]

def CTxPoolView.pooled (view : CTxPoolView) (dest : CDestination) (setTxUnspent : OrdSet CTxOutPoint)
    (l : List (CTxOutPoint × CSpent)) : List CTxUnspent :=
  (l.filter fun e => view.listed dest e && decide (e.1 ∉ setTxUnspent)).map fun e =>
    { e.1 with output := view.getUnspent e.1 }

theorem CTxPoolView.listLoop_eq {setTxUnspent : OrdSet CTxOutPoint} (l : List (CTxOutPoint × CSpent)) (nCount : ℕ)
    (vTxUnspent : List CTxUnspent) :
    view.listLoop dest setTxUnspent nMax l nCount vTxUnspent = vTxUnspent ++
      if nMax = 0 then view.pooled dest setTxUnspent l else (view.pooled dest setTxUnspent l).take (nMax - nCount) := by
  induction l generalizing nCount vTxUnspent with
  | nil => simp [listLoop, pooled]
  | cons e l ih =>
    rw [listLoop]
    by_cases hfull : nMax ≠ 0 ∧ nMax ≤ nCount
    · rw [if_pos hfull, if_neg hfull.1, Nat.sub_eq_zero_of_le hfull.2, List.take_zero, List.append_nil]
    · rw [if_neg hfull]
      by_cases hlisted : view.listed dest e = true
      · rw [if_pos hlisted]
        by_cases hin : e.1 ∈ setTxUnspent
        · have hskip : view.pooled dest setTxUnspent (e :: l) = view.pooled dest setTxUnspent l := by
            simp [pooled, hin]
          rw [if_pos hin, ih, hskip]
        · have hcons : view.pooled dest setTxUnspent (e :: l) =
              { e.1 with output := view.getUnspent e.1 } :: view.pooled dest setTxUnspent l := by
            simp [pooled, hlisted, hin]
          rw [if_neg hin, ih, hcons]
          split_ifs with hmax
          · simp
          · have hsucc : nMax - nCount = nMax - (nCount + 1) + 1 := by omega
            rw [hsucc, List.take_succ_cons]
            simp
      · have hskip : view.pooled dest setTxUnspent (e :: l) = view.pooled dest setTxUnspent l := by
          simp [pooled, hlisted]
        rw [if_neg hlisted, ih, hskip]

/-! ## The listing as a whole -/

def CTxPoolView.Pools (view : CTxPoolView) (dest : CDestination) (u : CTxUnspent) : Prop :=
  ∃ c, view.mapSpent.find? u.toCTxOutPoint = some c ∧ c.isSpent = false ∧ c.output.isNull = false ∧
    c.output.destTo = dest ∧ u = { u.toCTxOutPoint with output := c.output }

/-- What `ListUnspent` should append. -/
structure ListsUnspent (view : CTxPoolView) (dest : CDestination) (nMax : ℕ) (vUnspentOnChain vNew : List CTxUnspent) :
    Prop where
  distinct : (vNew.map CTxUnspent.toCTxOutPoint).Nodup
  unspent : ∀ u ∈ vNew, view.isSpent u.toCTxOutPoint = false
  source : ∀ u ∈ vNew, u ∈ vUnspentOnChain ∨ view.Pools dest u
  limit : nMax ≠ 0 → vNew.length ≤ nMax
  all : nMax = 0 ∨ vNew.length < nMax → ∀ u,
    (u ∈ vUnspentOnChain ∧ view.isSpent u.toCTxOutPoint = false) ∨ view.Pools dest u →
      u.toCTxOutPoint ∈ vNew.map CTxUnspent.toCTxOutPoint

theorem CTxPoolView.Pools.isSpent (h : view.Pools dest u) : view.isSpent u.toCTxOutPoint = false := by
  obtain ⟨c, hfind, hc, -⟩ := h
  rw [CTxPoolView.isSpent, CTxPoolView.getSpent, hfind]
  exact hc

theorem CTxPoolView.mem_pooled {setTxUnspent : OrdSet CTxOutPoint} :
    u ∈ view.pooled dest setTxUnspent view.mapSpent.toList ↔ view.Pools dest u ∧ u.toCTxOutPoint ∉ setTxUnspent := by
  rw [pooled, List.mem_map]
  constructor
  · rintro ⟨⟨o, c⟩, he, rfl⟩
    rw [List.mem_filter, Bool.and_eq_true, decide_eq_true_eq] at he
    obtain ⟨hmem, hlisted, hnew⟩ := he
    have hfind := OrdMap.find?_eq_some.2 hmem
    have hlisted' : (c.isSpent = false ∧ c.output.isNull = false) ∧ c.output.destTo = dest := by
      by_cases hc : c.isSpent = true
      · simp [listed, hc] at hlisted
      · simpa [listed, getUnspent, hfind, hc] using hlisted
    refine ⟨⟨c, hfind, hlisted'.1.1, hlisted'.1.2, hlisted'.2, ?_⟩, hnew⟩
    simp [getUnspent, hfind, hlisted'.1.1]
  · rintro ⟨⟨c, hfind, hc, hnull, hdest, hu⟩, hnew⟩
    have hout : view.getUnspent u.toCTxOutPoint = c.output := by simp [getUnspent, hfind, hc]
    refine ⟨(u.toCTxOutPoint, c), ?_, ?_⟩
    · rw [List.mem_filter]
      refine ⟨OrdMap.find?_eq_some.1 hfind, ?_⟩
      simp [listed, hout, hc, hnull, hdest, hnew]
    · dsimp only
      rw [hout]
      exact hu.symm

variable {vUnspentOnChain vUnspent vChain vPool : List CTxUnspent}

theorem mem_unspentOf :
    u ∈ unspentOf view vUnspentOnChain ↔ u ∈ vUnspentOnChain ∧ view.isSpent u.toCTxOutPoint = false := by
  simp [unspentOf]

theorem ListsUnspent.of_parts (hnodup : (vUnspentOnChain.map CTxUnspent.toCTxOutPoint).Nodup)
    (hchain : vChain.Sublist (unspentOf view vUnspentOnChain))
    (hpool : ∀ u ∈ vPool, view.Pools dest u ∧ u.toCTxOutPoint ∉ vChain.map CTxUnspent.toCTxOutPoint)
    (hdistinct : (vPool.map CTxUnspent.toCTxOutPoint).Nodup) (hlimit : nMax ≠ 0 → vChain.length + vPool.length ≤ nMax)
    (hall : nMax = 0 ∨ vChain.length + vPool.length < nMax → vChain = unspentOf view vUnspentOnChain ∧
      ∀ u, view.Pools dest u → u.toCTxOutPoint ∈ (vChain ++ vPool).map CTxUnspent.toCTxOutPoint) :
    ListsUnspent view dest nMax vUnspentOnChain (vChain ++ vPool) where
  distinct := by
    rw [List.map_append]
    refine List.Nodup.append ?_ hdistinct fun o ho hp => ?_
    · exact hnodup.sublist ((hchain.trans List.filter_sublist).map _)
    · obtain ⟨u, hu, rfl⟩ := List.mem_map.1 hp
      exact (hpool u hu).2 ho
  unspent u hu := by
    rcases List.mem_append.1 hu with hu | hu
    · exact (mem_unspentOf.1 (hchain.subset hu)).2
    · exact (hpool u hu).1.isSpent
  source u hu := by
    rcases List.mem_append.1 hu with hu | hu
    · exact Or.inl (mem_unspentOf.1 (hchain.subset hu)).1
    · exact Or.inr (hpool u hu).1
  limit hmax := by
    rw [List.length_append]
    exact hlimit hmax
  all h u hu := by
    rw [List.length_append] at h
    obtain ⟨heq, hpools⟩ := hall h
    rcases hu with hu | hu
    · rw [List.map_append, heq]
      exact List.mem_append_left _ (List.mem_map_of_mem (mem_unspentOf.2 hu))
    · exact hpools u hu

theorem ListsUnspent.of_chain (hnodup : (vUnspentOnChain.map CTxUnspent.toCTxOutPoint).Nodup) (hmax : nMax ≠ 0)
    (hle : nMax ≤ (unspentOf view vUnspentOnChain).length) :
    ListsUnspent view dest nMax vUnspentOnChain ((unspentOf view vUnspentOnChain).take nMax) := by
  have hlen : ((unspentOf view vUnspentOnChain).take nMax).length = nMax := by
    rw [List.length_take]
    omega
  have hparts : ListsUnspent view dest nMax vUnspentOnChain ((unspentOf view vUnspentOnChain).take nMax ++ []) := by
    refine .of_parts hnodup (List.take_sublist _ _) (fun u hu => ?_) List.nodup_nil (fun _ => ?_) fun h => ?_
    · cases hu
    · rw [hlen]
      rfl
    · rw [hlen, List.length_nil] at h
      omega
  rwa [List.append_nil] at hparts

theorem length_unspentOf_dropLast (view : CTxPoolView) (l : List CTxUnspent) :
    (unspentOf view l).length = (unspentOf view l.dropLast).length +
      if ∃ u ∈ l.getLast?, view.isSpent u.toCTxOutPoint = false then 1 else 0 := by
  rcases List.eq_nil_or_concat l with rfl | ⟨init, u, rfl⟩
  · simp [unspentOf]
  · simp only [List.concat_eq_append, List.dropLast_concat, List.getLast?_concat, Option.mem_def, Option.some.injEq]
    rw [unspentOf, List.filter_append, List.length_append, ← unspentOf]
    by_cases hu : view.isSpent u.toCTxOutPoint = true <;> simp [hu]

/-- The outputs of the chain use the limit up with the last of them, and the pool has more. -/
def UsesUp (view : CTxPoolView) (dest : CDestination) (nMax : ℕ) (vUnspentOnChain : List CTxUnspent) : Prop :=
  nMax ≠ 0 ∧ (unspentOf view vUnspentOnChain).length = nMax ∧
    (∃ u ∈ vUnspentOnChain.getLast?, view.isSpent u.toCTxOutPoint = false) ∧
    ∃ u, view.Pools dest u ∧ u.toCTxOutPoint ∉ vUnspentOnChain.map CTxUnspent.toCTxOutPoint

theorem CTxPoolView.Pools.mem_map_unspentOf (h : view.Pools dest u) :
    u.toCTxOutPoint ∈ (unspentOf view vUnspentOnChain).map CTxUnspent.toCTxOutPoint ↔
      u.toCTxOutPoint ∈ vUnspentOnChain.map CTxUnspent.toCTxOutPoint := by
  constructor
  · intro hu
    exact (List.filter_sublist.map _).subset hu
  · intro hu
    obtain ⟨v, hv, heq⟩ := List.mem_map.1 hu
    refine List.mem_map.2 ⟨v, mem_unspentOf.2 ⟨hv, ?_⟩, heq⟩
    rw [heq]
    exact h.isSpent

/-- The outputs of the pool that the chain does not list. -/
def CTxPoolView.further (view : CTxPoolView) (dest : CDestination) (vUnspentOnChain : List CTxUnspent) :
    List CTxUnspent :=
  view.pooled dest (OrdSet.addAll OrdMap.empty ((unspentOf view vUnspentOnChain).map CTxUnspent.toCTxOutPoint))
    view.mapSpent.toList

theorem CTxPoolView.mem_further :
    u ∈ view.further dest vUnspentOnChain ↔
      view.Pools dest u ∧ u.toCTxOutPoint ∉ vUnspentOnChain.map CTxUnspent.toCTxOutPoint := by
  rw [further, mem_pooled, OrdSet.mem_addAll]
  refine and_congr_right fun hu => not_congr ?_
  rw [hu.mem_map_unspentOf]
  exact or_iff_left OrdMap.not_mem_empty

theorem ListsUnspent.of_further (hnodup : (vUnspentOnChain.map CTxUnspent.toCTxOutPoint).Nodup)
    (hpool : vPool.Sublist (view.further dest vUnspentOnChain))
    (hlimit : nMax ≠ 0 → (unspentOf view vUnspentOnChain).length + vPool.length ≤ nMax)
    (hall : nMax = 0 ∨ (unspentOf view vUnspentOnChain).length + vPool.length < nMax →
      vPool = view.further dest vUnspentOnChain) :
    ListsUnspent view dest nMax vUnspentOnChain (unspentOf view vUnspentOnChain ++ vPool) := by
  refine .of_parts hnodup (List.Sublist.refl _) (fun u hu => ?_) ?_ hlimit fun h => ⟨rfl, fun u hu => ?_⟩
  · obtain ⟨hpools, hnew⟩ := CTxPoolView.mem_further.1 (hpool.subset hu)
    exact ⟨hpools, mt hpools.mem_map_unspentOf.1 hnew⟩
  · refine List.Nodup.sublist (hpool.map _) ?_
    rw [CTxPoolView.further, CTxPoolView.pooled, List.map_map]
    exact view.mapSpent.keys_nodup.sublist (List.filter_sublist.map Prod.fst)
  · rw [hall h, List.map_append, List.mem_append]
    by_cases hin : u.toCTxOutPoint ∈ vUnspentOnChain.map CTxUnspent.toCTxOutPoint
    · exact Or.inl (hu.mem_map_unspentOf.2 hin)
    · exact Or.inr (List.mem_map_of_mem (CTxPoolView.mem_further.2 ⟨hu, hin⟩))

theorem CTxPool.listUnspent_of_ended (h : nMax = 0 ∨ (unspentOf view vUnspentOnChain.dropLast).length < nMax) :
    CTxPool.listUnspent view dest nMax vUnspentOnChain vUnspent = vUnspent ++ (unspentOf view vUnspentOnChain ++
      if nMax - (unspentOf view vUnspentOnChain).length = 0 then view.further dest vUnspentOnChain
      else (view.further dest vUnspentOnChain).take (nMax - (unspentOf view vUnspentOnChain).length)) := by
  obtain ⟨hcount, hlist, hset⟩ := Listing.pushAll_eq { vUnspent := vUnspent } (unspentOf view vUnspentOnChain)
  have hrest : (if nMax ≠ 0 then nMax - (unspentOf view vUnspentOnChain).length else nMax) =
      nMax - (unspentOf view vUnspentOnChain).length := by
    split_ifs with hmax
    · rfl
    · rw [not_not.1 hmax, Nat.zero_sub]
  rw [CTxPool.listUnspent, chainLoop_of_lt _ _ (h.imp_right fun hlt => Or.inr (by rwa [Nat.zero_add]))]
  dsimp only
  rw [hcount, hlist, Nat.zero_add, hrest, List.append_assoc, CTxPoolView.listUnspent, CTxPoolView.listLoop_eq,
    List.nil_append, Nat.sub_zero, hset, CTxPoolView.further]

/-- **`ListUnspent` appends what it should**, exactly if the outputs of the chain do not use the limit up with the
last of them while the pool has more. -/
theorem CTxPool.listUnspent_iff (view : CTxPoolView) (dest : CDestination) (nMax : ℕ)
    (vUnspentOnChain vUnspent : List CTxUnspent) (hnodup : (vUnspentOnChain.map CTxUnspent.toCTxOutPoint).Nodup) :
    (∃ vNew, CTxPool.listUnspent view dest nMax vUnspentOnChain vUnspent = vUnspent ++ vNew ∧
      ListsUnspent view dest nMax vUnspentOnChain vNew) ↔ ¬UsesUp view dest nMax vUnspentOnChain := by
  have hlast := length_unspentOf_dropLast view vUnspentOnChain
  by_cases hreturn : nMax ≠ 0 ∧ nMax ≤ (unspentOf view vUnspentOnChain.dropLast).length
  · -- the loop over the chain returns
    obtain ⟨hmax, hle⟩ := hreturn
    have hne : vUnspentOnChain ≠ [] := by
      rintro rfl
      exact hmax (Nat.le_zero.1 hle)
    rw [CTxPool.listUnspent, chainLoop_of_le _ _ hmax hne (Nat.zero_le _) (by rwa [Nat.zero_add])]
    refine iff_of_true ⟨_, (Listing.pushAll_eq _ _).2.1, .of_chain hnodup hmax (by omega)⟩ ?_
    rintro ⟨-, hfull, hunspent, -⟩
    rw [if_pos hunspent] at hlast
    omega
  · have hend : nMax = 0 ∨ (unspentOf view vUnspentOnChain.dropLast).length < nMax := by omega
    rw [listUnspent_of_ended hend]
    by_cases hmore : nMax - (unspentOf view vUnspentOnChain).length = 0
    · -- no limit is left for the pool, or there was none
      rw [if_pos hmore]
      constructor
      · rintro ⟨vNew, heq, hnew⟩ ⟨hmax, hfull, -, u, hu⟩
        obtain rfl := List.append_cancel_left heq
        have hlimit := hnew.limit hmax
        have hpos := List.length_pos_of_mem (CTxPoolView.mem_further.2 hu)
        rw [List.length_append] at hlimit
        omega
      · intro huses
        refine ⟨_, rfl, .of_further hnodup (List.Sublist.refl _) (fun hmax => ?_) fun _ => rfl⟩
        have hnone : view.further dest vUnspentOnChain = [] := by
          refine List.eq_nil_iff_forall_not_mem.2 fun u hu => huses ⟨hmax, ?_, ?_, u, CTxPoolView.mem_further.1 hu⟩
          · split_ifs at hlast <;> omega
          · by_contra hspent
            rw [if_neg hspent] at hlast
            omega
        rw [hnone, List.length_nil]
        split_ifs at hlast <;> omega
    · rw [if_neg hmore]
      refine iff_of_true ⟨_, rfl, .of_further hnodup (List.take_sublist _ _) (fun _ => ?_) fun hless => ?_⟩ ?_
      · rw [List.length_take]
        omega
      · rw [List.length_take] at hless
        exact List.take_of_length_le (by omega)
      · rintro ⟨-, hfull, -⟩
        omega

/-- A pool whose transaction 9 pays 5 to the destination. -/
def pooledNine : CTxPoolView :=
  { mapSpent := OrdMap.empty.insert ⟨9, 0⟩ (CSpent.ofUnspent ⟨⟨1, 1⟩, 5, 0, 0⟩) }

/-- A chain whose transaction 4 pays 3 to the destination. -/
def chainFour : List CTxUnspent := [{ hash := 4, n := 0, output := ⟨⟨1, 1⟩, 3, 0, 0⟩ }]

theorem CTxPool.listUnspent_pooledNine :
    (∃ vNew, CTxPool.listUnspent pooledNine ⟨1, 1⟩ 2 chainFour [] = [] ++ vNew ∧
      ListsUnspent pooledNine ⟨1, 1⟩ 2 chainFour vNew) ↔ ¬UsesUp pooledNine ⟨1, 1⟩ 2 chainFour :=
  CTxPool.listUnspent_iff pooledNine ⟨1, 1⟩ 2 chainFour [] (by decide)

/-- With a limit of 1, two outputs are listed. -/
theorem CTxPool.listUnspent_beyond_limit :
    (chainFour.map CTxUnspent.toCTxOutPoint).Nodup ∧
      ¬∃ vNew, CTxPool.listUnspent pooledNine ⟨1, 1⟩ 1 chainFour [] = [] ++ vNew ∧
        ListsUnspent pooledNine ⟨1, 1⟩ 1 chainFour vNew := by
  refine ⟨by decide, ?_⟩
  rintro ⟨vNew, heq, hnew⟩
  have hlimit := hnew.limit one_ne_zero
  rw [List.nil_append] at heq
  rw [← heq] at hlimit
  revert hlimit
  decide

end Minemon
