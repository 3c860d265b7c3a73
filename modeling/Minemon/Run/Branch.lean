import Minemon.Run.Store

/-!
# From one block to another

`GetBranch` walks back from two blocks by their times, until it stands on the same entry on both sides.
Where both sides have come down to the time of the genesis block it takes the same number of steps on
either: it finds the common block when the chains have equally many blocks of that time, and follows a
null pointer otherwise.

* `getBranch_isSome_iff`: when there is an answer.
-/

namespace Minemon

open CBlockBase

section

variable {E : Env} {s : CBlockBase} {p q : CBlockIndex} {l l' ptr ptr' : CBlockIndexPtr}

/-! ## Times along a chain -/

theorem StoredChain.time_le_head (h : StoredChain E s ptr) :
    ∀ p l, ptr = p :: l → ∀ q ∈ ptr, q.nTimeStamp ≤ p.nTimeStamp := by
  induction h with
  | genesis _ _ =>
    intro p l heq q hq
    obtain ⟨rfl, -⟩ := List.cons.inj heq
    rw [List.mem_singleton.1 hq]
  | @step p q l b _ hb _ ih =>
    intro p' l' heq q' hq'
    obtain ⟨rfl, -⟩ := List.cons.inj heq
    rcases List.mem_cons.1 hq' with rfl | hq'
    · exact le_rfl
    · have htime := hb.time
      rw [← hb.nTimeStamp] at htime
      exact (ih q l rfl q' hq').trans htime

theorem StoredChain.genesis_time_le (h : StoredChain E s ptr) :
    ∀ q ∈ ptr, (genesisEntry E).nTimeStamp ≤ q.nTimeStamp := by
  induction h with
  | genesis _ _ =>
    intro q hq
    rw [List.mem_singleton.1 hq]
  | @step p q l b _ hb _ ih =>
    intro q' hq'
    rcases List.mem_cons.1 hq' with rfl | hq'
    · rw [hb.nTimeStamp]
      exact (ih q List.mem_cons_self).trans hb.time
    · exact ih q' hq'

def genesisTimeCount (E : Env) (ptr : CBlockIndexPtr) : ℕ :=
  ptr.countP fun p => p.nTimeStamp == (genesisEntry E).nTimeStamp

theorem genesisTimeCount_cons (E : Env) (p : CBlockIndex) (l : CBlockIndexPtr) :
    genesisTimeCount E (p :: l) =
      genesisTimeCount E l + if p.nTimeStamp = (genesisEntry E).nTimeStamp then 1 else 0 := by
  unfold genesisTimeCount
  rw [List.countP_cons]
  simp only [beq_iff_eq]

theorem genesisTimeCount_of_later (h : (genesisEntry E).nTimeStamp < p.nTimeStamp) :
    genesisTimeCount E (p :: l) = genesisTimeCount E l := by
  rw [genesisTimeCount_cons, if_neg (by omega), Nat.add_zero]

theorem StoredChain.genesisTimeCount_eq_length (h : StoredChain E s (p :: l))
    (hp : p.nTimeStamp = (genesisEntry E).nTimeStamp) : genesisTimeCount E (p :: l) = (p :: l).length := by
  refine List.countP_eq_length.2 fun q hq => ?_
  have h1 := h.time_le_head p l rfl q hq
  have h2 := h.genesis_time_le q hq
  rw [beq_iff_eq]
  omega

/-! ## Equal pointers -/

theorem StoredChain.eq_of_samePtr (h : StoredChain E s ptr) (h' : StoredChain E s ptr')
    (hsame : samePtr ptr ptr' = true) : ptr = ptr' := by
  cases ptr with
  | nil => cases h
  | cons p l =>
    cases ptr' with
    | nil => cases h'
    | cons q l' =>
      have hhash : p.hashBlock = q.hashBlock := by simpa [samePtr] using hsame
      rw [← h.index, ← h'.index, hhash]

theorem samePtr_self (ptr : CBlockIndexPtr) : samePtr ptr ptr = true := by
  simp [samePtr]

theorem StoredChain.singleton (h : StoredChain E s [p]) : p = genesisEntry E := by
  cases h with
  | genesis _ _ => rfl

theorem StoredChain.tail_of_ne (h : StoredChain E s (p :: l)) (hl : l ≠ []) : StoredChain E s l :=
  h.suffix (List.suffix_cons p l) hl

/-! ## The walk -/

theorem getBranchLoop_succ (fuel : ℕ) (vPath : List CBlockIndexPtr) (hne : samePtr (p :: l) (q :: l') = false) :
    getBranchLoop (fuel + 1) (q :: l') (p :: l) vPath =
      if q.nTimeStamp > p.nTimeStamp then getBranchLoop fuel l' (p :: l) vPath
      else if p.nTimeStamp > q.nTimeStamp then getBranchLoop fuel (q :: l') l (vPath ++ [p :: l])
      else getBranchLoop fuel l' l (vPath ++ [p :: l]) := by
  rw [getBranchLoop, hne]
  rfl

theorem StoredChain.ne_nil {ptr : CBlockIndexPtr} (h : StoredChain E s ptr) : ptr ≠ [] := by
  cases h <;> simp

theorem StoredChain.ne_nil_of_later (h : StoredChain E s (p :: l)) (h' : StoredChain E s (q :: l'))
    (hlt : q.nTimeStamp < p.nTimeStamp) : l ≠ [] := by
  rintro rfl
  have := h'.genesis_time_le q List.mem_cons_self
  rw [h.singleton] at hlt
  omega

theorem StoredChain.tails_of_ne (h : StoredChain E s (p :: l)) (h' : StoredChain E s (q :: l'))
    (hne : samePtr (p :: l) (q :: l') = false) : l ≠ [] ∨ l' ≠ [] := by
  by_contra hnil
  simp only [ne_eq, not_or, not_not] at hnil
  obtain ⟨rfl, rfl⟩ := hnil
  rw [h.singleton, h'.singleton, samePtr_self] at hne
  simp at hne

variable {pIndexRef pIndex : CBlockIndexPtr}

/-- **When there is an answer**: the chains have equally many blocks with the time of the genesis
block. -/
theorem getBranchLoop_isSome_iff (fuel : ℕ) (hr : StoredChain E s pIndexRef) (hp : StoredChain E s pIndex)
    (vPath : List CBlockIndexPtr) (hfuel : pIndexRef.length + pIndex.length < fuel) :
    (getBranchLoop fuel pIndexRef pIndex vPath).isSome = true ↔
      genesisTimeCount E pIndexRef = genesisTimeCount E pIndex := by
  induction fuel generalizing pIndexRef pIndex vPath with
  | zero => omega
  | succ fuel ih =>
    obtain ⟨q, l', rfl⟩ := List.exists_cons_of_ne_nil hr.ne_nil
    obtain ⟨p, l, rfl⟩ := List.exists_cons_of_ne_nil hp.ne_nil
    · have hq0 := hr.genesis_time_le q List.mem_cons_self
      have hp0 := hp.genesis_time_le p List.mem_cons_self
      rw [List.length_cons, List.length_cons] at hfuel
      by_cases hsame : samePtr (p :: l) (q :: l') = true
      · rw [getBranchLoop, if_pos hsame, hp.eq_of_samePtr hr hsame]
        simp
      have hne : samePtr (p :: l) (q :: l') = false := by simpa using hsame
      rw [getBranchLoop_succ fuel vPath hne]
      split_ifs with h1 h2
      · rw [ih (hr.tail_of_ne (hr.ne_nil_of_later hp h1)) hp _ (by rw [List.length_cons]; omega),
          genesisTimeCount_of_later (p := q) (by omega)]
      · rw [ih hr (hp.tail_of_ne (hp.ne_nil_of_later hr h2)) _ (by rw [List.length_cons]; omega),
          genesisTimeCount_of_later (p := p) (by omega)]
      · have htime : p.nTimeStamp = q.nTimeStamp := by omega
        by_cases hl' : l' = []
        · -- the reference is the genesis block, the other one is above it and has its time
          subst hl'
          obtain ⟨x, l2, rfl⟩ := List.exists_cons_of_ne_nil ((hp.tails_of_ne hr hne).resolve_right (by simp))
          have hcp := hp.genesisTimeCount_eq_length (htime.trans (by rw [hr.singleton]))
          have hcr := hr.genesisTimeCount_eq_length (by rw [hr.singleton])
          rw [hcp, hcr]
          cases fuel <;> simp [getBranchLoop, samePtr]
        by_cases hl : l = []
        · subst hl
          obtain ⟨x, l2, rfl⟩ := List.exists_cons_of_ne_nil hl'
          have hcr := hr.genesisTimeCount_eq_length (htime.symm.trans (by rw [hp.singleton]))
          have hcp := hp.genesisTimeCount_eq_length (by rw [hp.singleton])
          rw [hcp, hcr]
          cases fuel <;> simp [getBranchLoop, samePtr]
        rw [ih (hr.tail_of_ne hl') (hp.tail_of_ne hl) _ (by omega), genesisTimeCount_cons E q,
          genesisTimeCount_cons E p, htime]
        omega

/-- **The answer divides both chains at a common block**, and the path is the upper part of the second. -/
theorem getBranch_some {pIndexRef pIndex pBranch : CBlockIndexPtr} {vPath : List CBlockIndexPtr}
    (hr : StoredChain E s pIndexRef) (hp : StoredChain E s pIndex)
    (h : getBranch pIndexRef pIndex = some (pBranch, vPath)) :
    pBranch ≠ [] ∧ ∃ down up, pIndexRef = down ++ pBranch ∧ pIndex = up ++ pBranch ∧
      vPath.filterMap List.head? = up := by
  obtain ⟨⟨x, hx, hsame⟩, ⟨up, hup, hpath⟩, hnil⟩ := getBranchLoop_spec h
  have hne : pBranch ≠ [] := by
    intro h0
    obtain ⟨a, b, ha, hb, hdiff⟩ := (hnil h0).resolve_left fun h => hr.ne_nil h.1
    rw [(hr.suffix ha (by simp)).singleton, (hp.suffix hb (by simp)).singleton, samePtr_self] at hdiff
    cases hdiff
  have hx0 : x ≠ [] := by
    rintro rfl
    obtain ⟨p, l, rfl⟩ := List.exists_cons_of_ne_nil hne
    simp [samePtr] at hsame
  obtain ⟨down, hdown⟩ := hx
  have heq : pBranch = x := (hp.suffix ⟨up, hup.symm⟩ hne).eq_of_samePtr (hr.suffix ⟨down, hdown⟩ hx0) hsame
  exact ⟨hne, down, up, by rw [← hdown, heq], hup, hpath⟩

theorem getBranch_isSome_iff (hr : StoredChain E s pIndexRef)
    (hp : StoredChain E s pIndex) :
    (getBranch pIndexRef pIndex).isSome = true ↔ genesisTimeCount E pIndexRef = genesisTimeCount E pIndex :=
  getBranchLoop_isSome_iff _ hr hp [] (Nat.lt_succ_self _)

theorem pathDownTo_append {down pBranch : CBlockIndexPtr} (h : StoredChain E s (down ++ pBranch))
    (hne : pBranch ≠ []) : pathDownTo pBranch (down ++ pBranch) = down := by
  induction down with
  | nil =>
    obtain ⟨p, l, rfl⟩ := List.exists_cons_of_ne_nil hne
    rw [List.nil_append, pathDownTo, if_pos (samePtr_self _)]
  | cons p down ih =>
    have htail : StoredChain E s (down ++ pBranch) :=
      h.suffix (List.suffix_cons p _) (by simp [hne])
    have hbranch : StoredChain E s pBranch := h.suffix (List.suffix_append (p :: down) pBranch) hne
    have hdiff : samePtr (p :: (down ++ pBranch)) pBranch ≠ true := by
      intro hsame
      have := congrArg List.length (h.eq_of_samePtr hbranch hsame)
      simp at this
      omega
    rw [List.cons_append, pathDownTo, if_neg hdiff, ih htail]

end

end Minemon
