import Minemon.Storage.Locator

/-!
# Block download advances

The locators of a node go down its main chain in steps of at most 127 blocks, and an answer has up to 128. So
the first locator with a block of the peer's main chain is answered with the block after the highest common one.

* `blockDownload_advances`: the answer to the first locator that meets the other chain.
-/

namespace Minemon

/-! ## Walks down to the origin -/

/-- A walk from a block down to the origin, in steps of at most `n` blocks. -/
inductive Descent {α : Type} (T : ParentTree α) (n : ℕ) : α → List α → Prop
  | origin : Descent T n T.root [T.root]
  | step {p b : α} {l : List α} (hp : T.Anc p b) (hne : p ≠ b) (hd : T.depth b ≤ T.depth p + n)
      (h : Descent T n p l) : Descent T n b (b :: l)

namespace Descent

variable {α : Type} {T : ParentTree α} {n c : ℕ} {b : α} {l : List α}

theorem head (h : Descent T n b l) : ∃ l', l = b :: l' := by
  cases h with
  | origin => exact ⟨[], rfl⟩
  | step _ _ _ _ => exact ⟨_, rfl⟩

theorem anc (h : Descent T n b l) {x : α} (hx : x ∈ l) : T.Anc x b := by
  induction h with
  | origin =>
    rw [List.mem_singleton.1 hx]
    exact .refl
  | step hp _ _ _ ih =>
    rcases List.mem_cons.1 hx with rfl | hx
    · exact .refl
    · exact (ih hx).trans hp

theorem getLast (h : Descent T n b l) : l.getLast? = some T.root := by
  induction h with
  | origin => rfl
  | step _ _ _ h ih =>
    obtain ⟨l', rfl⟩ := h.head
    rw [List.getLast?_cons_cons]
    exact ih

/-- **The crossing**: the first block of the walk that is at `c` or below is less than a step below. -/
theorem crossing (h : Descent T n b l) (hn : 0 < n) (hlow : T.depth T.root ≤ c) (hhigh : c ≤ T.depth b) :
    ∃ l₁ x l₂, l = l₁ ++ x :: l₂ ∧ (∀ y ∈ l₁, c < T.depth y) ∧ T.depth x ≤ c ∧ c < T.depth x + n := by
  induction h with
  | origin => exact ⟨[], T.root, [], rfl, by simp, hlow, by omega⟩
  | @step p b l hp hne hd h ih =>
    by_cases hb : T.depth b ≤ c
    · exact ⟨[], b, l, rfl, by simp, hb, by omega⟩
    · by_cases hpc : c ≤ T.depth p
      · obtain ⟨l₁, x, l₂, rfl, hl₁, hx, hxn⟩ := ih hpc
        refine ⟨b :: l₁, x, l₂, rfl, fun y hy => ?_, hx, hxn⟩
        rcases List.mem_cons.1 hy with rfl | hy
        · omega
        · exact hl₁ y hy
      · -- the step goes over `c`
        obtain ⟨l', rfl⟩ := h.head
        refine ⟨[b], p, l', rfl, fun y hy => ?_, by omega, by omega⟩
        rw [List.mem_singleton.1 hy]
        omega

end Descent

/-! ## The locators -/

namespace BlockNode

variable {α : Type} [DecidableEq α] {N : BlockNode α}

theorem stepBack_spec (n : ℕ) (p : α) :
    ∃ q, N.stepBack n p = some q ∧ N.tree.Anc q p ∧ N.tree.depth p ≤ N.tree.depth q + n ∧
      (0 < n → p ≠ N.tree.root → q ≠ p) := by
  induction n generalizing p with
  | zero => exact ⟨p, rfl, .refl, le_rfl, fun h => absurd h (lt_irrefl 0)⟩
  | succ n ih =>
    rw [stepBack]
    by_cases hp : p = N.tree.root
    · rw [if_pos hp]
      exact ⟨p, rfl, .refl, by omega, fun _ hne => absurd hp hne⟩
    · obtain ⟨p₀, hp₀⟩ := ParentTree.exists_child hp
      obtain ⟨q, hq, hanc, hd, -⟩ := ih p₀
      have hdepth := hp₀.depth
      have hle := hanc.depth_le
      rw [if_neg hp, hp₀.parent]
      refine ⟨q, hq, hanc.trans (.of_child hp₀), by omega, fun _ _ hqp => ?_⟩
      rw [hqp] at hle
      omega

/-- One locator from the block `p` on: it ends with the origin, or `hashDepth` is the block to go on from. -/
def LocatorFrom (N : BlockNode α) (n : ℕ) (p : α) (l : List α) (hashDepth : ℕ) : Prop :=
  l ≠ [] ∧ ((hashDepth = 0 ∧ Descent N.tree n p l) ∨
    ∃ q, hashDepth = N.hash q ∧ N.tree.Anc q p ∧ q ≠ p ∧ ∀ l', Descent N.tree n q l' → Descent N.tree n p (l ++ l'))

theorem locatorLoop_spec {n : ℕ} (hn : 0 < n) (fuel : ℕ) (p : α) (v : List ℕ) (hfuel : 0 < fuel)
    (hlen : n / 2 ≤ v.length + fuel) :
    ∃ l hashDepth, N.locatorLoop n fuel p v = some (v ++ l.map N.hash, hashDepth) ∧ N.LocatorFrom n p l hashDepth := by
  induction fuel generalizing p v with
  | zero => exact absurd hfuel (lt_irrefl 0)
  | succ fuel ih =>
    rw [locatorLoop]
    by_cases hp : p = N.tree.root
    · rw [if_pos hp]
      refine ⟨[p], 0, rfl, by simp, Or.inl ⟨rfl, ?_⟩⟩
      rw [hp]
      exact .origin
    · rw [if_neg hp]
      obtain ⟨p₀, hp₀⟩ := ParentTree.exists_child hp
      have hdepth := hp₀.depth
      by_cases hfull : (v ++ [N.hash p]).length ≥ n / 2
      · rw [if_pos hfull, hp₀.parent]
        have hne : p₀ ≠ p := fun heq => by rw [heq] at hdepth; omega
        exact ⟨[p], N.hash p₀, rfl, by simp, Or.inr ⟨p₀, rfl, .of_child hp₀, hne, fun l' h =>
          .step (.of_child hp₀) hne (by omega) h⟩⟩
      · rw [if_neg hfull]
        rw [List.length_append, List.length_singleton, not_le] at hfull
        obtain ⟨q, hq, hanc, hd, hne⟩ := N.stepBack_spec n p
        have hqp := hne hn hp
        obtain ⟨l, hashDepth, hloop, -, hfrom⟩ := ih q (v ++ [N.hash p]) (by omega)
          (by rw [List.length_append, List.length_singleton]; omega)
        rw [hq]
        refine ⟨p :: l, hashDepth, ?_, by simp, ?_⟩
        · show N.locatorLoop n fuel q (v ++ [N.hash p]) = _
          rw [hloop, List.map_cons, List.append_assoc]
          rfl
        · rcases hfrom with ⟨hzero, hl⟩ | ⟨q', hq', hanc', -, hl⟩
          · exact Or.inl ⟨hzero, .step hanc hqp hd hl⟩
          · refine Or.inr ⟨q', hq', hanc'.trans hanc, fun heq => ?_, fun l' h => .step hanc hqp hd (hl l' h)⟩
            -- a block is not above itself
            rw [heq] at hanc'
            exact hqp (hanc.eq_of_depth hanc'.depth_le)

omit [DecidableEq α] in
theorem pNext_isSome {p : α} :
    (N.fork.pNext p).isSome = true ↔ N.tree.Anc p N.fork.pIndexLast ∧ p ≠ N.fork.pIndexLast := by
  rw [Option.isSome_iff_exists]
  constructor
  · rintro ⟨q, hq⟩
    obtain ⟨hanc, hpq⟩ := (N.linked p q).1 hq
    refine ⟨(ParentTree.Anc.of_child hpq).trans hanc, fun heq => ?_⟩
    have h1 := hanc.depth_le
    have h2 := hpq.depth
    rw [heq] at h2
    omega
  · rintro ⟨hanc, hne⟩
    obtain ⟨q, hpq, hq⟩ := hanc.child hne
    exact ⟨q, (N.linked p q).2 ⟨hq, hpq⟩⟩

theorem locatorStart_hash {p : α} (hp : N.tree.Anc p N.fork.pIndexLast) : N.locatorStart (N.hash p) = p := by
  rw [locatorStart, if_neg (N.hash_ne_zero p), (N.getIndex_eq_some _ _).2 rfl]
  by_cases hlast : p = N.fork.pIndexLast
  · simp [hlast]
  · simp [pNext_isSome.2 ⟨hp, hlast⟩]

theorem locators_from {n : ℕ} (hn : 0 < n) (k hashDepth : ℕ)
    (hanc : N.tree.Anc (N.locatorStart hashDepth) N.fork.pIndexLast)
    (hk : N.tree.depth (N.locatorStart hashDepth) < k) :
    ∃ Ls, (∀ fuel, k ≤ fuel → N.locators n fuel hashDepth = some (Ls.map (List.map N.hash))) ∧ Ls ≠ [] ∧
      (∀ l ∈ Ls, l ≠ []) ∧ Descent N.tree n (N.locatorStart hashDepth) Ls.flatten := by
  induction k generalizing hashDepth with
  | zero => exact absurd hk (Nat.not_lt_zero _)
  | succ k ih =>
    obtain ⟨l, d, hloop, hne, hfrom⟩ := N.locatorLoop_spec hn (n / 2 + 1) (N.locatorStart hashDepth) []
      (Nat.succ_pos _) (by rw [List.length_nil]; omega)
    rw [List.nil_append] at hloop
    rcases hfrom with ⟨rfl, hl⟩ | ⟨q, rfl, hq, hqne, hl⟩
    · refine ⟨[l], fun fuel hfuel => ?_, by simp, fun l' hl' => by rw [List.mem_singleton.1 hl']; exact hne, ?_⟩
      · obtain ⟨fuel, rfl⟩ := Nat.exists_eq_add_of_le' (Nat.one_le_of_lt hfuel)
        simp only [locators, getForkBlockLocator, hloop, if_true, List.map_singleton]
      · rwa [List.flatten_singleton]
    · -- the next call goes on from `q`
      have hqlast := hq.trans hanc
      have hlt : N.tree.depth q < N.tree.depth (N.locatorStart hashDepth) :=
        lt_of_le_of_ne hq.depth_le fun heq => hqne (hq.eq_of_depth heq.ge)
      have hstart := locatorStart_hash hqlast
      obtain ⟨Ls, hLs, -, hall, hdescent⟩ := ih (N.hash q) (by rw [hstart]; exact hqlast) (by rw [hstart]; omega)
      rw [hstart] at hdescent
      refine ⟨l :: Ls, fun fuel hfuel => ?_, by simp, ?_, ?_⟩
      · obtain ⟨fuel, rfl⟩ := Nat.exists_eq_add_of_le' (Nat.one_le_of_lt hfuel)
        simp only [locators, getForkBlockLocator, hloop, N.hash_ne_zero q, if_false,
          hLs fuel (Nat.le_of_succ_le_succ hfuel), Option.map_some, List.map_cons]
      · intro l' hl'
        rcases List.mem_cons.1 hl' with rfl | hl'
        · exact hne
        · exact hall l' hl'
      · rw [List.flatten_cons]
        exact hl _ hdescent

/-! ## The answers -/

def OnMain (N : BlockNode α) (h : ℕ) : Prop := ∃ b, N.tree.Anc b N.fork.pIndexLast ∧ N.hash b = h

theorem mainIndex_eq_some {h : ℕ} {b : α} : N.mainIndex h = some b ↔ N.tree.Anc b N.fork.pIndexLast ∧ N.hash b = h := by
  rw [mainIndex, Option.filter_eq_some_iff, getIndex_eq_some, Bool.or_eq_true, decide_eq_true_eq, pNext_isSome]
  constructor
  · rintro ⟨hb, rfl | hb'⟩
    · exact ⟨.refl, hb⟩
    · exact ⟨hb'.1, hb⟩
  · rintro ⟨hb, hh⟩
    by_cases hlast : b = N.fork.pIndexLast
    · exact ⟨hh, Or.inl hlast⟩
    · exact ⟨hh, Or.inr ⟨hb, hlast⟩⟩

theorem mainIndex_eq_none {h : ℕ} : N.mainIndex h = none ↔ ¬N.OnMain h := by
  rw [← not_iff_not, not_not, ← ne_eq, Option.ne_none_iff_exists']
  exact exists_congr fun b => mainIndex_eq_some

/-- A run of consecutive blocks of the main chain, up from the block after `p`. -/
structure MainRun (N : BlockNode α) (p : α) (run : List α) : Prop where
  consecutive : (p :: run).IsChain N.tree.Child
  main : ∀ b ∈ run, N.tree.Anc b N.fork.pIndexLast

theorem invLoop_spec (k : ℕ) {p : α} (hp : N.tree.Anc p N.fork.pIndexLast) :
    ∃ run, N.invLoop k (N.fork.pNext p) = run.map N.hash ∧ N.MainRun p run ∧
      ∀ z, N.tree.Anc z N.fork.pIndexLast → N.tree.depth p < N.tree.depth z → N.tree.depth z ≤ N.tree.depth p + k →
        z ∈ run := by
  induction k generalizing p with
  | zero => exact ⟨[], by simp [invLoop], ⟨.singleton p, by simp⟩, fun z _ h1 h2 => by omega⟩
  | succ k ih =>
    cases hnext : N.fork.pNext p with
    | none =>
      have hlast : p = N.fork.pIndexLast := by
        by_contra hne
        have := pNext_isSome.2 ⟨hp, hne⟩
        rw [hnext] at this
        exact absurd this (by simp)
      refine ⟨[], rfl, ⟨.singleton p, by simp⟩, fun z hz h1 _ => ?_⟩
      have := hz.depth_le
      rw [← hlast] at this
      omega
    | some q =>
      obtain ⟨hq, hpq⟩ := (N.linked p q).1 hnext
      have hdepth := hpq.depth
      obtain ⟨run, hrun, hmain, hall⟩ := ih hq
      refine ⟨q :: run, by rw [invLoop, hrun]; rfl, ⟨.cons_cons hpq hmain.consecutive, ?_⟩, fun z hz h1 h2 => ?_⟩
      · intro b hb
        rcases List.mem_cons.1 hb with rfl | hb
        · exact hq
        · exact hmain.main b hb
      · by_cases hzq : N.tree.depth z = N.tree.depth q
        · rw [hz.unique hq hzq]
          exact List.mem_cons_self
        · exact List.mem_cons_of_mem _ (hall z hz (by omega) (by omega))

end BlockNode

/-! ## Two nodes -/

section

variable {α β : Type} {A : BlockNode α} {B : BlockNode β} {c : ℕ}

/-- A hash stands for one block in both nodes: it has the height and the hash of the previous block in it. -/
structure SameBlocks (A : BlockNode α) (B : BlockNode β) : Prop where
  origin : A.hash A.tree.root = B.hash B.tree.root
  height : ∀ a b, A.hash a = B.hash b → A.tree.depth a = B.tree.depth b
  prev : ∀ p a b, A.hash a = B.hash b → A.tree.Child p a → ∃ q, B.tree.Child q b ∧ A.hash p = B.hash q

/-- The highest block that the two main chains have in common is at `c`. -/
structure HighestCommon (A : BlockNode α) (B : BlockNode β) (c : ℕ) : Prop where
  common : ∃ a, A.tree.Anc a A.fork.pIndexLast ∧ B.OnMain (A.hash a) ∧ A.tree.depth a = c
  highest : ∀ a, A.tree.Anc a A.fork.pIndexLast → B.OnMain (A.hash a) → A.tree.depth a ≤ c

theorem SameBlocks.onMain_of_anc (h : SameBlocks A B) {x a : α} (hx : A.tree.Anc x a) (ha : B.OnMain (A.hash a)) :
    B.OnMain (A.hash x) := by
  induction hx with
  | refl => exact ha
  | step _ hpb ih =>
    obtain ⟨b, hb, heq⟩ := ha
    obtain ⟨q, hq, hpq⟩ := h.prev _ _ b heq.symm hpb
    exact ih ⟨q, (ParentTree.Anc.of_child hq).trans hb, hpq.symm⟩

theorem HighestCommon.onMain_iff (hc : HighestCommon A B c) (h : SameBlocks A B) {x : α}
    (hx : A.tree.Anc x A.fork.pIndexLast) : B.OnMain (A.hash x) ↔ A.tree.depth x ≤ c := by
  refine ⟨hc.highest x hx, fun hle => ?_⟩
  obtain ⟨a, ha, hmain, hdepth⟩ := hc.common
  exact h.onMain_of_anc (hx.total ha (by omega)) hmain

variable [DecidableEq α] [DecidableEq β]

theorem exists_first_findSome {γ δ : Type} (f : γ → Option δ) (Ls : List (List γ)) {y : δ}
    (h : Ls.flatten.findSome? f = some y) :
    ∃ l₁ L l₂, Ls = l₁ ++ L :: l₂ ∧ (∀ L' ∈ l₁, ∀ x ∈ L', f x = none) ∧ L.findSome? f = some y := by
  induction Ls with
  | nil => simp at h
  | cons L Ls ih =>
    rw [List.flatten_cons, List.findSome?_append] at h
    cases hL : L.findSome? f with
    | some y' =>
      rw [hL, Option.some_or] at h
      exact ⟨[], L, Ls, rfl, by simp, by rw [hL, h]⟩
    | none =>
      rw [hL, Option.none_or] at h
      obtain ⟨l₁, L', l₂, rfl, hl₁, hL'⟩ := ih h
      refine ⟨L :: l₁, L', l₂, rfl, fun L'' hL'' => ?_, hL'⟩
      rcases List.mem_cons.1 hL'' with rfl | hL''
      · exact List.findSome?_eq_none_iff.1 hL
      · exact hl₁ L'' hL''

/-- **Block download advances**: the locators of `A` come to an end, with the origin, and the first of them that
has a block of `B` is answered with a run of the main chain of `B` in which the block after the highest common
one is. -/
theorem blockDownload_advances (h : SameBlocks A B) (hc : HighestCommon A B c)
    (hB : c < B.tree.depth B.fork.pIndexLast) :
    ∃ Ls : List (List ℕ), (∀ fuel, A.tree.depth A.fork.pIndexLast < fuel →
        A.locators (MAX_GETBLOCKS_COUNT - 1) fuel 0 = some Ls) ∧
      (∃ L, Ls.getLast? = some L ∧ L.getLast? = some (A.hash A.tree.root)) ∧
      ∃ l₁ L l₂, Ls = l₁ ++ L :: l₂ ∧ (∀ L' ∈ l₁, ∀ h ∈ L', ¬B.OnMain h) ∧ (∃ h ∈ L, B.OnMain h) ∧
        ∃ p run z, B.getForkBlockInv L MAX_GETBLOCKS_COUNT = run.map B.hash ∧ B.MainRun p run ∧ z ∈ run ∧
          B.tree.depth z = c + 1 := by
  obtain ⟨Bs, hlocators, hne, hall, hdescent⟩ := A.locators_from (n := 127) (by decide)
    (A.tree.depth A.fork.pIndexLast + 1) 0 .refl (Nat.lt_succ_self _)
  obtain ⟨a, ha, -, hac⟩ := hc.common
  have hlow : A.tree.depth A.tree.root ≤ c := hac ▸ (ParentTree.Anc.root A.tree a).depth_le
  obtain ⟨l₁, x, l₂, hflat, hl₁, hx, hxc⟩ := hdescent.crossing (by decide) hlow (hac ▸ ha.depth_le)
  have hanc : ∀ y ∈ l₁ ++ x :: l₂, A.tree.Anc y A.fork.pIndexLast := fun y hy => hdescent.anc (hflat ▸ hy)
  -- what `B` finds first is `x`
  obtain ⟨y, hy, hyx⟩ := (hc.onMain_iff h (hanc x (by simp))).2 hx
  have hfind : (Bs.map (List.map A.hash)).flatten.findSome? B.mainIndex = some y := by
    have hnone : (l₁.map A.hash).findSome? B.mainIndex = none := by
      rw [List.findSome?_eq_none_iff]
      intro g hg
      obtain ⟨w, hw, rfl⟩ := List.mem_map.1 hg
      rw [BlockNode.mainIndex_eq_none, hc.onMain_iff h (hanc w (by simp [hw])), not_le]
      exact hl₁ w hw
    rw [← List.map_flatten, hflat, List.map_append, List.findSome?_append, hnone, Option.none_or, List.map_cons,
      List.findSome?_cons, BlockNode.mainIndex_eq_some.2 ⟨hy, hyx⟩]
  obtain ⟨L₁, L, L₂, hLs, hL₁, hL⟩ := exists_first_findSome B.mainIndex _ hfind
  refine ⟨_, hlocators, ?_, L₁, L, L₂, hLs, fun L' hL' g hg => BlockNode.mainIndex_eq_none.1 (hL₁ L' hL' g hg), ?_, ?_⟩
  · -- the last locator ends where the walk ends
    obtain ⟨Bs', l, rfl⟩ := List.eq_nil_or_concat' Bs |>.resolve_left hne
    have hlast := hdescent.getLast
    rw [List.flatten_append, List.flatten_singleton, List.getLast?_append_of_ne_nil _ (hall l (by simp))] at hlast
    exact ⟨l.map A.hash, by simp, by rw [List.getLast?_map, hlast]; rfl⟩
  · obtain ⟨g, hg, hgy⟩ := List.exists_of_findSome?_eq_some hL
    exact ⟨g, hg, y, BlockNode.mainIndex_eq_some.1 hgy⟩
  · have hyc : B.tree.depth y = A.tree.depth x := (h.height x y hyx.symm).symm
    obtain ⟨z, hz, hzc⟩ := hy.exists_depth (k := c + 1) (by omega) (by omega)
    obtain ⟨run, hrun, hmain, hcontains⟩ := B.invLoop_spec MAX_GETBLOCKS_COUNT hy
    refine ⟨y, run, z, ?_, hmain, hcontains z hz (by omega) ?_, hzc⟩
    · rw [BlockNode.getForkBlockInv, hL]
      exact hrun
    · rw [hzc, hyc, show MAX_GETBLOCKS_COUNT = 128 from rfl]
      omega

end

theorem BlockNode.exists_updateLast {α : Type} [DecidableEq α] (N : BlockNode α) (last : α) {fuel : ℕ}
    (hfuel : N.tree.depth N.fork.pIndexLast + N.tree.depth last < fuel) :
    ∃ N' : BlockNode α, N'.tree = N.tree ∧ N'.hash = N.hash ∧ N.fork.updateLast N.tree fuel last = some N'.fork ∧
      N'.fork.pIndexLast = last := by
  obtain ⟨pNext', hcall, hlinked⟩ := updateLast_linked N.linked last hfuel
  exact ⟨⟨N.tree, N.hash, N.getIndex, ⟨last, pNext'⟩, N.getIndex_eq_some, N.hash_ne_zero, hlinked⟩,
    rfl, rfl, hcall, rfl⟩

/-! ## A toy network -/

def toyLine : ParentTree ℕ where
  root := 0
  parent n := if n = 0 then none else some (n - 1)
  depth n := n
  parent_of_ne n hn := ⟨n - 1, if_neg hn, by omega⟩

theorem toyLine_child {p n : ℕ} : toyLine.Child p n ↔ n = p + 1 := by
  constructor
  · exact fun h => h.depth
  · rintro rfl
    exact ⟨Nat.succ_ne_zero p, rfl⟩

theorem toyLine_anc {x n : ℕ} : toyLine.Anc x n ↔ x ≤ n := by
  refine ⟨fun h => h.depth_le, fun h => ?_⟩
  induction n, h using Nat.le_induction with
  | base => exact .refl
  | succ n _ ih => exact ih.step (toyLine_child.2 rfl)

def toyBlockHash (nFork : ℕ) (fSide : Bool) (n : ℕ) : ℕ := 2 * n + 2 + if nFork < n && fSide then 1 else 0

theorem toyBlockHash_div (nFork : ℕ) (fSide : Bool) (n : ℕ) : toyBlockHash nFork fSide n / 2 = n + 1 := by
  unfold toyBlockHash
  split_ifs
  · omega
  · omega

/-- A node whose blocks above the height `nFork` may be its own. -/
def toyNode (nFork : ℕ) (fSide : Bool) (nLast : ℕ) : BlockNode ℕ where
  tree := toyLine
  hash := toyBlockHash nFork fSide
  getIndex h := if toyBlockHash nFork fSide (h / 2 - 1) = h then some (h / 2 - 1) else none
  fork := ⟨nLast, fun n => if n < nLast then some (n + 1) else none⟩
  getIndex_eq_some h b := by
    constructor
    · intro hb
      split_ifs at hb with hh
      rw [← Option.some.inj hb, hh]
    · rintro rfl
      rw [toyBlockHash_div, Nat.add_sub_cancel, if_pos rfl]
  hash_ne_zero b := by
    unfold toyBlockHash
    omega
  linked a b := by
    show (if a < nLast then some (a + 1) else none) = some b ↔ toyLine.Anc b nLast ∧ toyLine.Child a b
    rw [toyLine_anc, toyLine_child]
    split_ifs with ha
    · rw [Option.some.injEq]
      omega
    · refine ⟨fun h => absurd h (by simp), fun h => ?_⟩
      omega

theorem toyNode_same (nFork nLast nLast' : ℕ) : SameBlocks (toyNode nFork false nLast) (toyNode nFork true nLast') := by
  have heq : ∀ {a b}, (toyNode nFork false nLast).hash a = (toyNode nFork true nLast').hash b → a = b :=
      fun {a b} h => by
    have hdiv := congrArg (· / 2) h
    simp only [toyNode, toyBlockHash_div] at hdiv
    omega
  refine ⟨rfl, fun a b h => heq h, fun p a b h hp => ?_⟩
  obtain rfl := heq h
  obtain rfl := toyLine_child.1 hp
  refine ⟨p, hp, ?_⟩
  -- a block with the hash of the other node is at the height of the fork at most
  have hle : ¬nFork < p + 1 := fun hlt => by simp [toyNode, toyBlockHash, hlt] at h
  have hle' : ¬nFork < p := by omega
  simp [toyNode, toyBlockHash, hle']

theorem toyNode_common (nFork nLast nLast' : ℕ) (h : nFork ≤ nLast) (h' : nFork ≤ nLast') :
    HighestCommon (toyNode nFork false nLast) (toyNode nFork true nLast') nFork := by
  refine ⟨⟨nFork, toyLine_anc.2 h, ⟨nFork, toyLine_anc.2 h', by simp [toyNode, toyBlockHash]⟩, rfl⟩,
    fun a _ hmain => ?_⟩
  obtain ⟨b, -, hb⟩ := hmain
  obtain rfl : a = b := (toyNode_same nFork nLast nLast').height a b hb.symm
  show a ≤ nFork
  by_contra hlt
  simp [toyNode, toyBlockHash, not_le.1 hlt] at hb

/-- Chains of 20000 and 30000 blocks that part at the height 100: the third locator meets the other chain. -/
theorem blockDownload_advances_toy :
    SameBlocks (toyNode 100 false 20000) (toyNode 100 true 30000) ∧
      HighestCommon (toyNode 100 false 20000) (toyNode 100 true 30000) 100 ∧
      ∃ L, ∃ run : List ℕ, ∃ z, (toyNode 100 true 30000).getForkBlockInv L MAX_GETBLOCKS_COUNT =
        run.map (toyNode 100 true 30000).hash ∧ z ∈ run ∧ z = 101 := by
  have hsame := toyNode_same 100 20000 30000
  have hcommon := toyNode_common 100 20000 30000 (by decide) (by decide)
  obtain ⟨-, -, -, -, L, -, -, -, -, -, run, z, hinv, -, hz, hdepth⟩ :=
    blockDownload_advances hsame hcommon (by show 100 < 30000; decide)
  exact ⟨hsame, hcommon, L, run, z, hinv, hz, hdepth⟩

end Minemon
