import Mathlib

/-!
# Trees given by parents

A tree whose nodes know their parent. The ancestors of a node form a chain: there is one at each depth up to
that of the node.

* `ParentTree`, `ParentTree.Child`, `ParentTree.Anc`: the tree, and its ancestors (a node is one of its own).
* `ParentTree.Anc.total`, `ParentTree.Anc.unique`: ancestors of one node are ancestors of each other.
-/

/-- Every node but the root has a parent, one level up. -/
structure ParentTree (α : Type*) where
  root : α
  parent : α → Option α
  depth : α → ℕ
  parent_of_ne : ∀ b, b ≠ root → ∃ p, parent b = some p ∧ depth b = depth p + 1

namespace ParentTree

variable {α : Type*} (T : ParentTree α)

/-- `b` is a child of `p`. -/
structure Child (p b : α) : Prop where
  ne : b ≠ T.root
  parent : T.parent b = some p

inductive Anc (x : α) : α → Prop
  | refl : Anc x x
  | step {p b : α} (h : Anc x p) (hb : T.Child p b) : Anc x b

variable {T} {a b c p x y : α}

theorem exists_child (h : b ≠ T.root) : ∃ p, T.Child p b := by
  obtain ⟨p, hp, -⟩ := T.parent_of_ne b h
  exact ⟨p, h, hp⟩

theorem Child.depth (h : T.Child p b) : T.depth b = T.depth p + 1 := by
  obtain ⟨q, hq, hd⟩ := T.parent_of_ne b h.ne
  rw [h.parent] at hq
  rw [Option.some.inj hq]
  exact hd

theorem Child.unique (h : T.Child p b) (h' : T.Child a b) : p = a :=
  Option.some.inj (h.parent.symm.trans h'.parent)

theorem Anc.depth_le (h : T.Anc x b) : T.depth x ≤ T.depth b := by
  induction h with
  | refl => exact le_rfl
  | step _ hb ih =>
    rw [hb.depth]
    omega

theorem Anc.eq_of_depth (h : T.Anc x b) (hd : T.depth b ≤ T.depth x) : x = b := by
  cases h with
  | refl => rfl
  | step h hb =>
    have h1 := h.depth_le
    have h2 := hb.depth
    omega

theorem Anc.trans (h : T.Anc x y) (h' : T.Anc y b) : T.Anc x b := by
  induction h' with
  | refl => exact h
  | step _ hb ih => exact ih.step hb

theorem Anc.of_child (h : T.Child p b) : T.Anc p b := .step .refl h

theorem Anc.total (hx : T.Anc x b) (hy : T.Anc y b) (hd : T.depth x ≤ T.depth y) : T.Anc x y := by
  induction hy with
  | refl => exact hx
  | step hy hb ih =>
    refine ih ?_
    cases hx with
    | refl =>
      have h1 := hy.depth_le
      have h2 := hb.depth
      omega
    | step hx hb' =>
      rw [hb.unique hb']
      exact hx

theorem Anc.unique (hx : T.Anc x b) (hy : T.Anc y b) (hd : T.depth x = T.depth y) : x = y :=
  (hx.total hy hd.le).eq_of_depth hd.ge

theorem Anc.root (T : ParentTree α) (b : α) : T.Anc T.root b := by
  by_cases hb : b = T.root
  · rw [hb]
    exact .refl
  · obtain ⟨p, hp, hd⟩ := T.parent_of_ne b hb
    exact (Anc.root T p).step ⟨hb, hp⟩
termination_by T.depth b

theorem Anc.exists_depth (h : T.Anc x b) {k : ℕ} (hx : T.depth x ≤ k) (hb : k ≤ T.depth b) :
    ∃ z, T.Anc z b ∧ T.depth z = k := by
  induction h with
  | refl => exact ⟨x, .refl, le_antisymm hx hb⟩
  | @step p b _ hpb ih =>
    by_cases hk : k = T.depth b
    · exact ⟨b, .refl, hk.symm⟩
    · have hdepth := hpb.depth
      obtain ⟨z, hz, hzk⟩ := ih (by omega)
      exact ⟨z, hz.step hpb, hzk⟩

theorem Anc.child (h : T.Anc p b) (hne : p ≠ b) : ∃ c, T.Child p c ∧ T.Anc c b := by
  induction h with
  | refl => exact absurd rfl hne
  | @step q b h hb ih =>
    by_cases hq : p = q
    · subst hq
      exact ⟨b, hb, .refl⟩
    · obtain ⟨c, hc, hcq⟩ := ih hq
      exact ⟨c, hc, hcq.step hb⟩

theorem Anc.parent_of_ne (h : T.Anc x b) (hb : T.Child p b) (hne : x ≠ b) : T.Anc x p := by
  cases h with
  | refl => exact absurd rfl hne
  | step h hb' =>
    rw [hb.unique hb']
    exact h

end ParentTree
