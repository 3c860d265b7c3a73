import Mathlib.Data.List.Nodup
import Mathlib.Logic.Function.Iterate

/-!
# Merkle trees that pair an odd last node with itself

The levels of the tree over a list of leaves, from the leaves to the root. Because an odd last node is
paired with itself, a list and the list with its last leaves repeated can have one root; lists without
repetition cannot.

* `Merkle.iterate_eq`: over lists without repetition, equal roots are the roots of one list, or one list
  is a level of the other tree.
-/

namespace Merkle

variable {α : Type*} (h : α → α → α)

def level : List α → List α
  | [] => []
  | [a] => [h a a]
  | a :: b :: l => h a b :: level l

def Injective (S : Set α) : Prop :=
  ∀ a ∈ S, ∀ b ∈ S, ∀ c ∈ S, ∀ d ∈ S, h a b = h c d → a = c ∧ b = d

variable {h} {S : Set α}

theorem exists_of_mem_level {l : List α} {z : α} (hz : z ∈ level h l) : ∃ x ∈ l, ∃ y ∈ l, z = h x y := by
  induction l using level.induct with
  | case1 => simp [level] at hz
  | case2 a => exact ⟨a, by simp, a, by simp, by simpa [level] using hz⟩
  | case3 a b l ih =>
    rcases List.mem_cons.1 hz with rfl | hz
    · exact ⟨a, by simp, b, by simp, rfl⟩
    · obtain ⟨x, hx, y, hy, rfl⟩ := ih hz
      exact ⟨x, by simp [hx], y, by simp [hy], rfl⟩

theorem level_eq_nil {l : List α} : level h l = [] ↔ l = [] := by
  cases l using level.induct <;> simp [level]

theorem level_nodup (hinj : Injective h S) {l : List α} (hl : ∀ x ∈ l, x ∈ S) (hnd : l.Nodup) : (level h l).Nodup := by
  induction l using level.induct with
  | case1 => exact List.nodup_nil
  | case2 a => exact List.nodup_singleton _
  | case3 a b l ih =>
    rw [List.nodup_cons, List.nodup_cons] at hnd
    refine List.nodup_cons.2 ⟨fun hmem => ?_, ih (fun x hx => hl x (by simp [hx])) hnd.2.2⟩
    obtain ⟨x, hx, y, hy, heq⟩ := exists_of_mem_level hmem
    have := (hinj a (hl a (by simp)) b (hl b (by simp)) x (hl x (by simp [hx])) y (hl y (by simp [hy])) heq).1
    exact hnd.1 (List.mem_cons_of_mem _ (this ▸ hx))

/-- **A level without repetition is determined by the next one.** -/
theorem level_inj (hinj : Injective h S) {l m : List α} (hl : ∀ x ∈ l, x ∈ S) (hm : ∀ x ∈ m, x ∈ S)
    (hnl : l.Nodup) (hnm : m.Nodup) (heq : level h l = level h m) : l = m := by
  induction l using level.induct generalizing m with
  | case1 => exact (level_eq_nil.1 heq.symm).symm
  | case2 a =>
    have ha := hl a (by simp)
    match m with
    | [] => simp [level] at heq
    | [b] =>
      have := (hinj a ha a ha b (hm b (by simp)) b (hm b (by simp)) (by simpa [level] using heq)).1
      rw [this]
    | b :: c :: m =>
      -- the padded pair would be a pair of two equal leaves
      obtain ⟨h1, h2⟩ := List.cons.inj heq
      obtain ⟨rfl, rfl⟩ := hinj a ha a ha b (hm b (by simp)) c (hm c (by simp)) h1
      simp at hnm
  | case3 a b l ih =>
    have ha := hl a (by simp)
    have hb := hl b (by simp)
    match m with
    | [] => simp [level] at heq
    | [c] =>
      obtain ⟨h1, h2⟩ := List.cons.inj heq
      obtain ⟨rfl, rfl⟩ := hinj a ha b hb c (hm c (by simp)) c (hm c (by simp)) h1
      simp at hnl
    | c :: d :: m =>
      obtain ⟨h1, h2⟩ := List.cons.inj heq
      obtain ⟨rfl, rfl⟩ := hinj a ha b hb c (hm c (by simp)) d (hm d (by simp)) h1
      rw [ih (fun x hx => hl x (by simp [hx])) (fun x hx => hm x (by simp [hx]))
        (List.nodup_cons.1 (List.nodup_cons.1 hnl).2).2 (List.nodup_cons.1 (List.nodup_cons.1 hnm).2).2 h2]

theorem iterate_nodup (hinj : Injective h S) {l : List α} {n : ℕ}
    (hl : ∀ i ≤ n, ∀ x ∈ (level h)^[i] l, x ∈ S) (hnd : l.Nodup) {i : ℕ} (hi : i ≤ n) : ((level h)^[i] l).Nodup := by
  induction i with
  | zero => exact hnd
  | succ i ih =>
    rw [Function.iterate_succ_apply']
    exact level_nodup hinj (hl i (by omega)) (ih (by omega))

/-- **Equal roots**: the shorter tree is the upper part of the higher one. -/
theorem iterate_eq (hinj : Injective h S) {l m : List α} {d k : ℕ}
    (hl : ∀ i ≤ d, ∀ x ∈ (level h)^[i] l, x ∈ S) (hm : ∀ i ≤ k + d, ∀ x ∈ (level h)^[i] m, x ∈ S)
    (hnl : l.Nodup) (hnm : m.Nodup) (heq : (level h)^[d] l = (level h)^[k + d] m) : l = (level h)^[k] m := by
  induction d generalizing l m with
  | zero => exact heq
  | succ d ih =>
    have hnk := iterate_nodup hinj hm hnm (show k ≤ k + (d + 1) by omega)
    have hup : level h l = (level h)^[k] (level h m) := by
      refine ih (fun i hi => hl (i + 1) (by omega)) (fun i hi => hm (i + 1) (by omega))
        (level_nodup hinj (hl 0 (by omega)) hnl) (level_nodup hinj (hm 0 (by omega)) hnm) ?_
      exact heq
    rw [← Function.iterate_succ_apply, Function.iterate_succ_apply'] at hup
    exact level_inj hinj (hl 0 (by omega)) (hm k (by omega)) hnl hnk hup

end Merkle
