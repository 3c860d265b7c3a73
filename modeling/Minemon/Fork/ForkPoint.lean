import Minemon.Run.Branch

/-!
# The fork point

What `GetBranch` finds on any tree of blocks whose times do not go back. The lowest common ancestor of two
blocks is passed by when one side has more blocks of its time above it than the other: from there on both
sides step together, one of them behind.

* `BlockTree`: the trees; the blocks of a store are one (`storedChain_blockTree`).
* `getBranch_finds_forkPoint`: when it is found.
-/

namespace Minemon

open CBlockBase

/-- A tree of blocks with one root. A block stands with its ancestors, as the pointer to it has them. -/
structure BlockTree (T : CBlockIndexPtr → Prop) : Prop where
  ne_nil : ¬T []
  prev : ∀ p q l, T (p :: q :: l) → T (q :: l)
  time : ∀ p q l, T (p :: q :: l) → q.nTimeStamp ≤ p.nTimeStamp
  ptr : ∀ p l q l', T (p :: l) → T (q :: l') → p.hashBlock = q.hashBlock → p :: l = q :: l'
  root : ∀ p q, T [p] → T [q] → p = q

/-- The lowest common ancestor of two blocks. -/
structure IsForkPoint (pBranch pIndexRef pIndex : CBlockIndexPtr) : Prop where
  ne_nil : pBranch ≠ []
  ref : pBranch <:+ pIndexRef
  index : pBranch <:+ pIndex
  lowest : ∀ ptr, ptr <:+ pIndexRef → ptr <:+ pIndex → ptr <:+ pBranch

/-- The pointers to the blocks from `pIndex` down to `pBranch`, the latter left out. -/
def pointersAbove (pBranch pIndex : CBlockIndexPtr) : List CBlockIndexPtr :=
  pIndex.tails.take (pIndex.length - pBranch.length)

/-- The blocks of a chain that have the time of the head of another. -/
def timeCount (pBranch ptr : CBlockIndexPtr) : ℕ :=
  ptr.countP fun p => pBranch.head?.any fun c => c.nTimeStamp == p.nTimeStamp

section

variable {T : CBlockIndexPtr → Prop} {p q c : CBlockIndex} {l l' ptr ptr' down up pBranch : CBlockIndexPtr}

theorem storedChain_blockTree (E : Env) (s : CBlockBase) : BlockTree (StoredChain E s) where
  ne_nil h := by cases h
  prev p q l h := h.tail_of_ne (by simp)
  time p q l h := h.time_le_head p (q :: l) rfl q (by simp)
  ptr p l q l' h h' hhash := h.eq_of_samePtr h' (by simp [samePtr, hhash])
  root p q h h' := h.singleton.trans h'.singleton.symm

/-! ## Chains of a tree -/

theorem BlockTree.suffix (hT : BlockTree T) (h : T ptr) (hsuf : ptr' <:+ ptr) (hne : ptr' ≠ []) : T ptr' := by
  induction ptr with
  | nil => exact absurd (List.suffix_nil.1 hsuf) hne
  | cons p l ih =>
    rcases List.suffix_cons_iff.1 hsuf with rfl | hsuf
    · exact h
    · cases l with
      | nil => exact absurd (List.suffix_nil.1 hsuf) hne
      | cons q l => exact ih (hT.prev p q l h) hsuf

theorem BlockTree.time_le (hT : BlockTree T) (h : T (p :: l)) (hq : q ∈ l) : q.nTimeStamp ≤ p.nTimeStamp := by
  induction l generalizing p with
  | nil => simp at hq
  | cons r l ih =>
    have hle := hT.time p r l h
    rcases List.mem_cons.1 hq with rfl | hq
    · exact hle
    · exact (ih (hT.prev p r l h) hq).trans hle

theorem BlockTree.eq_of_samePtr (hT : BlockTree T) (h : T ptr) (h' : T ptr') (hsame : samePtr ptr ptr' = true) :
    ptr = ptr' := by
  match ptr, ptr', h, h' with
  | p :: l, q :: l', h, h' => exact hT.ptr p l q l' h h' (by simpa [samePtr] using hsame)
  | [], _, h, _ => exact absurd h hT.ne_nil
  | _ :: _, [], _, h' => exact absurd h' hT.ne_nil

theorem BlockTree.exists_root (hT : BlockTree T) (h : T ptr) : ∃ g, T [g] ∧ [g] <:+ ptr := by
  induction ptr with
  | nil => exact absurd h hT.ne_nil
  | cons p l ih =>
    cases l with
    | nil => exact ⟨p, h, List.suffix_rfl⟩
    | cons q l =>
      obtain ⟨g, hg, hsuf⟩ := ih (hT.prev p q l h)
      exact ⟨g, hg, hsuf.trans (List.suffix_cons p _)⟩

theorem BlockTree.exists_isForkPoint (hT : BlockTree T) (h : T ptr) (h' : T ptr') :
    ∃ pBranch, IsForkPoint pBranch ptr ptr' := by
  induction ptr with
  | nil => exact absurd h hT.ne_nil
  | cons p l ih =>
    by_cases hsuf : (p :: l) <:+ ptr'
    · exact ⟨p :: l, by simp, List.suffix_rfl, hsuf, fun _ h1 _ => h1⟩
    · cases l with
      | nil =>
        obtain ⟨g, hg, hroot⟩ := hT.exists_root h'
        exact absurd (hT.root p g h hg ▸ hroot) hsuf
      | cons q l =>
        obtain ⟨pBranch, hne, href, hindex, hlow⟩ := ih (hT.prev p q l h)
        refine ⟨pBranch, hne, href.trans (List.suffix_cons p _), hindex, fun x h1 h2 => ?_⟩
        rcases List.suffix_cons_iff.1 h1 with rfl | h1
        · exact absurd h2 hsuf
        · exact hlow x h1 h2

/-! ## Counting -/

theorem timeCount_append (pBranch down l : CBlockIndexPtr) :
    timeCount pBranch (down ++ l) = timeCount pBranch down + timeCount pBranch l :=
  List.countP_append

theorem timeCount_cons (c p : CBlockIndex) (l l' : CBlockIndexPtr) :
    timeCount (c :: l) (p :: l') = timeCount (c :: l) l' + if c.nTimeStamp = p.nTimeStamp then 1 else 0 := by
  unfold timeCount
  rw [List.countP_cons]
  simp

theorem timeCount_of_later (h : c.nTimeStamp < p.nTimeStamp) :
    timeCount (c :: l) (p :: l') = timeCount (c :: l) l' := by
  rw [timeCount_cons, if_neg (by omega), Nat.add_zero]

theorem pointersAbove_self (pBranch : CBlockIndexPtr) : pointersAbove pBranch pBranch = [] := by
  simp [pointersAbove]

theorem pointersAbove_cons (p : CBlockIndex) (up pBranch : CBlockIndexPtr) :
    pointersAbove pBranch (p :: up ++ pBranch) = (p :: up ++ pBranch) :: pointersAbove pBranch (up ++ pBranch) := by
  unfold pointersAbove
  rw [List.cons_append, List.tails_cons, List.length_cons, List.length_append,
    show up.length + pBranch.length + 1 - pBranch.length = up.length + 1 by omega,
    show up.length + pBranch.length - pBranch.length = up.length by omega, List.take_succ_cons]

/-! ## The walk -/

theorem IsForkPoint.above (h : IsForkPoint pBranch (down ++ pBranch) (up ++ pBranch)) (hl : l <:+ down)
    (hl' : l' <:+ up) : IsForkPoint pBranch (l ++ pBranch) (l' ++ pBranch) := by
  obtain ⟨a, rfl⟩ := hl
  obtain ⟨b, rfl⟩ := hl'
  refine ⟨h.ne_nil, List.suffix_append _ _, List.suffix_append _ _, fun x hx hx' => ?_⟩
  exact h.lowest x (hx.trans ⟨a, by simp⟩) (hx'.trans ⟨b, by simp⟩)

theorem BlockTree.samePtr_above (hT : BlockTree T) (hr : T (down ++ pBranch)) (hp : T (up ++ pBranch))
    (hfork : IsForkPoint pBranch (down ++ pBranch) (up ++ pBranch)) (hnil : down ≠ [] ∨ up ≠ []) :
    samePtr (up ++ pBranch) (down ++ pBranch) = false := by
  by_contra hsame
  have heq := hT.eq_of_samePtr hp hr (by simpa using hsame)
  have hlow := (hfork.lowest _ List.suffix_rfl (heq ▸ List.suffix_rfl)).length_le
  have hlen := congrArg List.length heq
  rw [List.length_append] at hlow
  rw [List.length_append, List.length_append] at hlen
  rcases hnil with hnil | hnil <;> have := List.length_pos_of_ne_nil hnil <;> omega

theorem BlockTree.getBranchLoop_ne (hT : BlockTree T) (fuel : ℕ) (hc : T (c :: l)) (vPath : List CBlockIndexPtr)
    {r : CBlockIndexPtr × List CBlockIndexPtr} (hpast : ptr <:+ l ∨ ptr' <:+ l)
    (h : getBranchLoop fuel ptr ptr' vPath = some r) : r.1 ≠ c :: l := by
  rintro heq
  obtain ⟨⟨x, href, hsame⟩, ⟨up, hup, -⟩, -⟩ := getBranchLoop_spec h
  have hindex : r.1 <:+ ptr' := ⟨up, hup.symm⟩
  rw [heq] at hindex hsame
  rcases hpast with hpast | hpast
  · have hx : x <:+ c :: l := (href.trans hpast).trans (List.suffix_cons c l)
    have hne : x ≠ [] := by
      rintro rfl
      simp [samePtr] at hsame
    have hlen := congrArg List.length (hT.eq_of_samePtr hc (hT.suffix hc hx hne) hsame)
    have := (href.trans hpast).length_le
    simp at hlen
    omega
  · have := (hindex.trans hpast).length_le
    simp at this

/-- **The lowest common ancestor is found** exactly when both sides have equally many blocks of its time above it. -/
theorem BlockTree.getBranchLoop_iff (hT : BlockTree T) (fuel : ℕ) (down up : CBlockIndexPtr)
    (hr : T (down ++ c :: l)) (hp : T (up ++ c :: l))
    (hfork : IsForkPoint (c :: l) (down ++ c :: l) (up ++ c :: l)) (vPath : List CBlockIndexPtr)
    (hfuel : down.length + up.length < fuel) :
    getBranchLoop fuel (down ++ c :: l) (up ++ c :: l) vPath =
        some (c :: l, vPath ++ pointersAbove (c :: l) (up ++ c :: l)) ↔
      timeCount (c :: l) down = timeCount (c :: l) up := by
  have hc : T (c :: l) := hT.suffix hr hfork.ref (by simp)
  induction fuel generalizing down up vPath with
  | zero => omega
  | succ fuel ih =>
    match down, up with
    | [], [] =>
      simp [getBranchLoop, samePtr_self, pointersAbove_self]
    | [], p :: up =>
      have hle : c.nTimeStamp ≤ p.nTimeStamp := hT.time_le hp (by simp)
      have hp' : T (up ++ c :: l) := hT.suffix hp (List.suffix_cons p _) (by simp)
      have hne : samePtr (p :: (up ++ c :: l)) (c :: l) = false := hT.samePtr_above hr hp hfork (by simp)
      rw [pointersAbove_cons, List.nil_append, List.cons_append, getBranchLoop_succ fuel vPath hne,
        if_neg (by omega)]
      split_ifs with hlt
      · have := ih [] up hr hp' (hfork.above List.suffix_rfl (List.suffix_cons p up))
          (vPath ++ [p :: (up ++ c :: l)]) (by simp at hfuel ⊢; omega)
        rw [List.append_assoc] at this
        rwa [timeCount_of_later hlt]
      · -- only the second side has blocks of this time left: the first one goes past the common block
        have hcount : timeCount (c :: l) [] ≠ timeCount (c :: l) (p :: up) := by
          rw [timeCount_cons, if_pos (by omega)]
          simp [timeCount]
        refine iff_of_false (fun h => ?_) hcount
        exact hT.getBranchLoop_ne fuel hc _ (.inl List.suffix_rfl) h rfl
    | q :: down, [] =>
      have hle : c.nTimeStamp ≤ q.nTimeStamp := hT.time_le hr (by simp)
      have hr' : T (down ++ c :: l) := hT.suffix hr (List.suffix_cons q _) (by simp)
      have hne : samePtr (c :: l) (q :: (down ++ c :: l)) = false := hT.samePtr_above hr hp hfork (by simp)
      rw [List.nil_append, List.cons_append, getBranchLoop_succ fuel vPath hne]
      split_ifs with hlt
      · have := ih down [] hr' hp (hfork.above (List.suffix_cons q down) List.suffix_rfl) vPath
          (by simp at hfuel ⊢; omega)
        rwa [timeCount_of_later hlt]
      · omega
      · have hcount : timeCount (c :: l) (q :: down) ≠ timeCount (c :: l) [] := by
          rw [timeCount_cons, if_pos (by omega)]
          simp [timeCount]
        refine iff_of_false (fun h => ?_) hcount
        exact hT.getBranchLoop_ne fuel hc _ (.inr List.suffix_rfl) h rfl
    | q :: down, p :: up =>
      have hcp : c.nTimeStamp ≤ p.nTimeStamp := hT.time_le hp (by simp)
      have hcq : c.nTimeStamp ≤ q.nTimeStamp := hT.time_le hr (by simp)
      have hr' : T (down ++ c :: l) := hT.suffix hr (List.suffix_cons q _) (by simp)
      have hp' : T (up ++ c :: l) := hT.suffix hp (List.suffix_cons p _) (by simp)
      have hne : samePtr (p :: (up ++ c :: l)) (q :: (down ++ c :: l)) = false :=
        hT.samePtr_above hr hp hfork (by simp)
      simp only [List.length_cons] at hfuel
      rw [pointersAbove_cons, List.cons_append, List.cons_append, getBranchLoop_succ fuel vPath hne]
      split_ifs with h1 h2
      · have := ih down (p :: up) hr' hp (hfork.above (List.suffix_cons q down) List.suffix_rfl) vPath
          (by simp only [List.length_cons]; omega)
        rw [pointersAbove_cons] at this
        rwa [timeCount_of_later (by omega)]
      · have := ih (q :: down) up hr hp' (hfork.above List.suffix_rfl (List.suffix_cons p up))
          (vPath ++ [p :: (up ++ c :: l)]) (by simp only [List.length_cons]; omega)
        rw [List.append_assoc] at this
        rwa [timeCount_of_later (by omega : c.nTimeStamp < p.nTimeStamp)]
      · have := ih down up hr' hp' (hfork.above (List.suffix_cons q down) (List.suffix_cons p up))
          (vPath ++ [p :: (up ++ c :: l)]) (by omega)
        rw [List.append_assoc] at this
        rwa [timeCount_cons c q, timeCount_cons c p, show p.nTimeStamp = q.nTimeStamp by omega,
          Nat.add_right_cancel_iff]

/-- **The fork point.** In every tree of blocks whose times do not go back, two blocks have a lowest common
ancestor. `GetBranch` answers it, with the path from the second block down to it, exactly when equally many
blocks of its time are above it on either side. -/
theorem getBranch_finds_forkPoint {T : CBlockIndexPtr → Prop} (hT : BlockTree T)
    {pIndexRef pIndex : CBlockIndexPtr} (hr : T pIndexRef) (hp : T pIndex) :
    ∃ pBranch, IsForkPoint pBranch pIndexRef pIndex ∧
      (getBranch pIndexRef pIndex = some (pBranch, pointersAbove pBranch pIndex) ↔
        timeCount pBranch pIndexRef = timeCount pBranch pIndex) := by
  obtain ⟨pBranch, hfork⟩ := hT.exists_isForkPoint hr hp
  refine ⟨pBranch, hfork, ?_⟩
  obtain ⟨down, rfl⟩ := hfork.ref
  obtain ⟨up, rfl⟩ := hfork.index
  obtain ⟨c, l, rfl⟩ := List.exists_cons_of_ne_nil hfork.ne_nil
  rw [timeCount_append, timeCount_append, Nat.add_right_cancel_iff]
  exact hT.getBranchLoop_iff _ down up hr hp hfork [] (by simp; omega)

end

/-! ## A tree with equal times -/

def isBlockTree (ptrs : List CBlockIndexPtr) : Bool :=
  ptrs.all (fun ptr => match ptr with
    | [] => false
    | [p] => ptrs.all fun ptr' => ptr'.length != 1 || ptr' == [p]
    | p :: q :: l => ptrs.contains (q :: l) && q.nTimeStamp ≤ p.nTimeStamp)
  && ptrs.all fun ptr => ptrs.all fun ptr' => !samePtr ptr ptr' || ptr == ptr'

theorem blockTree_of_isBlockTree {ptrs : List CBlockIndexPtr} (h : isBlockTree ptrs = true) : BlockTree (· ∈ ptrs) := by
  simp only [isBlockTree, Bool.and_eq_true, List.all_eq_true] at h
  obtain ⟨hshape, hptr⟩ := h
  refine ⟨fun hnil => ?_, fun p q l hp => ?_, fun p q l hp => ?_, fun p l q l' hp hq hhash => ?_,
    fun p q hp hq => ?_⟩
  · simpa using hshape [] hnil
  · have := hshape _ hp
    simp at this
    exact this.1
  · have := hshape _ hp
    simp at this
    exact this.2
  · have := hptr _ hp _ hq
    simpa [samePtr, hhash] using this
  · have := hshape _ hp
    simp at this
    simpa [eq_comm] using this [q] hq

def toyBlockAt (hash time : ℕ) : CBlockIndex where
  hashBlock := hash
  hashOrigin := 0
  txidMint := 0
  nMintType := 0
  destMint := CDestination.null
  nVersion := 1
  nType := 1
  nTimeStamp := time
  nHeight := 0
  nChainTrust := 0
  nMoneySupply := 0
  nProofBits := 0
  nFile := 0
  nOffset := 0

/-- A root, a block with its time, and a block with three more after it: one with the same time, two later. -/
def toyTree : List CBlockIndexPtr :=
  let root := toyBlockAt 0 0
  let fork := toyBlockAt 2 1
  [[root], [toyBlockAt 1 0, root], [fork, root], [toyBlockAt 3 1, fork, root], [toyBlockAt 4 2, fork, root],
    [toyBlockAt 5 3, fork, root]]

theorem getBranch_finds_forkPoint_toy :
    ∃ pBranch, IsForkPoint pBranch [toyBlockAt 4 2, toyBlockAt 2 1, toyBlockAt 0 0]
        [toyBlockAt 5 3, toyBlockAt 2 1, toyBlockAt 0 0] ∧
      (getBranch [toyBlockAt 4 2, toyBlockAt 2 1, toyBlockAt 0 0] [toyBlockAt 5 3, toyBlockAt 2 1, toyBlockAt 0 0] =
          some (pBranch, pointersAbove pBranch [toyBlockAt 5 3, toyBlockAt 2 1, toyBlockAt 0 0]) ↔
        timeCount pBranch [toyBlockAt 4 2, toyBlockAt 2 1, toyBlockAt 0 0] =
          timeCount pBranch [toyBlockAt 5 3, toyBlockAt 2 1, toyBlockAt 0 0]) :=
  getBranch_finds_forkPoint (T := (· ∈ toyTree)) (blockTree_of_isBlockTree (by decide)) (by decide) (by decide)

/-- A block and its child of the same time: the block is their lowest common ancestor, and the answer is the
one before it. Where the block is the root, a null pointer is followed. -/
theorem getBranch_past_forkPoint :
    BlockTree (· ∈ toyTree) ∧ [toyBlockAt 2 1, toyBlockAt 0 0] ∈ toyTree ∧
      [toyBlockAt 3 1, toyBlockAt 2 1, toyBlockAt 0 0] ∈ toyTree ∧
      IsForkPoint [toyBlockAt 2 1, toyBlockAt 0 0] [toyBlockAt 2 1, toyBlockAt 0 0]
        [toyBlockAt 3 1, toyBlockAt 2 1, toyBlockAt 0 0] ∧
      getBranch [toyBlockAt 2 1, toyBlockAt 0 0] [toyBlockAt 3 1, toyBlockAt 2 1, toyBlockAt 0 0] =
        some ([toyBlockAt 0 0],
          [[toyBlockAt 3 1, toyBlockAt 2 1, toyBlockAt 0 0], [toyBlockAt 2 1, toyBlockAt 0 0]]) ∧
      [toyBlockAt 0 0] ∈ toyTree ∧ [toyBlockAt 1 0, toyBlockAt 0 0] ∈ toyTree ∧
      getBranch [toyBlockAt 0 0] [toyBlockAt 1 0, toyBlockAt 0 0] = none :=
  ⟨blockTree_of_isBlockTree (by decide), by decide, by decide,
    ⟨by simp, List.suffix_rfl, List.suffix_cons _ _, fun _ h _ => h⟩, by decide, by decide, by decide, by decide⟩

end Minemon
