import Mathlib

/-!
# Multimaps

A `std::multimap` as the list of its entries: equal keys stay in the order in which they came.

* `Multimap.insert`, `Multimap.lowerBound`, `Multimap.keepLast`: the operations.
* `Multimap.Largest k came kept`: of the entries that came, the `k` with the largest keys are kept.
* `Multimap.Largest.sum_le`: **no `k` of the entries that came have a larger sum of keys**.
-/

namespace Multimap

section

variable {K V : Type*} [LinearOrder K]

/-- Behind the entries whose keys are not greater. -/
def insert (e : K × V) : List (K × V) → List (K × V)
  | [] => [e]
  | a :: l => if e.1 < a.1 then e :: a :: l else a :: insert e l

/-- The place of the first entry whose key is not less; the length if there is none. -/
def lowerBound (k : K) (l : List (K × V)) : ℕ := l.findIdx fun e => decide (k ≤ e.1)

def keepLast (k : ℕ) (l : List (K × V)) : List (K × V) := l.drop (l.length - k)

def Ordered (l : List (K × V)) : Prop := l.Pairwise fun a b => a.1 ≤ b.1

variable {e : K × V} {l came kept : List (K × V)} {k : ℕ}

theorem insert_perm (e : K × V) (l : List (K × V)) : (insert e l).Perm (e :: l) := by
  induction l with
  | nil => exact List.Perm.refl _
  | cons a l ih =>
    unfold insert
    split_ifs
    · exact List.Perm.refl _
    · exact (ih.cons a).trans (List.Perm.swap e a l)

@[simp] theorem length_insert (e : K × V) (l : List (K × V)) : (insert e l).length = l.length + 1 :=
  (insert_perm e l).length_eq

theorem Ordered.insert (h : Ordered l) : Ordered (insert e l) := by
  induction l with
  | nil => exact List.pairwise_singleton _ _
  | cons a l ih =>
    have ⟨ha, hl⟩ := List.pairwise_cons.1 h
    unfold Multimap.insert
    split_ifs with hlt
    · refine List.pairwise_cons.2 ⟨fun b hb => ?_, h⟩
      rcases List.mem_cons.1 hb with rfl | hb
      · exact hlt.le
      · exact hlt.le.trans (ha b hb)
    · refine List.pairwise_cons.2 ⟨fun b hb => ?_, ih hl⟩
      rcases List.mem_cons.1 ((insert_perm e l).mem_iff.1 hb) with rfl | hb
      · exact not_lt.1 hlt
      · exact ha b hb

/-- Of the entries that came, the `k` with the largest keys are kept. -/
structure Largest (k : ℕ) (came kept : List (K × V)) : Prop where
  ordered : Ordered kept
  length_le : kept.length ≤ k
  split : ∃ dropped, (kept ++ dropped).Perm came ∧ (dropped = [] ∨ kept.length = k) ∧
    ∀ x ∈ dropped, ∀ y ∈ kept, x.1 ≤ y.1

theorem Largest.nil (k : ℕ) : Largest k ([] : List (K × V)) [] :=
  ⟨List.Pairwise.nil, Nat.zero_le k, [], List.Perm.refl _, Or.inl rfl, by simp⟩

theorem Largest.insert (h : Largest k came kept) : Largest k (e :: came) (keepLast k (insert e kept)) := by
  obtain ⟨dropped, hperm, hfull, hle⟩ := h.split
  have hordered := h.ordered.insert (e := e)
  have hcame : (Multimap.insert e kept ++ dropped).Perm (e :: came) :=
    ((insert_perm e kept).append_right dropped).trans (hperm.cons e)
  have hlen := length_insert e kept
  have hmem := insert_perm e kept
  unfold keepLast
  by_cases hroom : kept.length + 1 ≤ k
  · rw [hlen, Nat.sub_eq_zero_of_le hroom, List.drop_zero]
    have hnone : dropped = [] := hfull.resolve_right (by omega)
    subst hnone
    exact ⟨hordered, by omega, [], hcame, Or.inl rfl, by simp⟩
  · have hk : kept.length = k := le_antisymm h.length_le (by omega)
    rw [hlen, show kept.length + 1 - k = 1 by omega]
    cases hins : Multimap.insert e kept with
    | nil => rw [hins] at hlen; cases hlen
    | cons a l =>
      rw [hins] at hordered hcame hlen hmem
      have ⟨ha, hl⟩ := List.pairwise_cons.1 hordered
      refine ⟨hl, ?_, a :: dropped, List.perm_middle.trans hcame, ?_, ?_⟩
      · rw [List.length_cons] at hlen
        exact (Nat.succ.inj hlen).le.trans h.length_le
      · rw [List.length_cons] at hlen
        exact Or.inr ((Nat.succ.inj hlen).trans hk)
      · intro x hx y hy
        rcases List.mem_cons.1 hx with rfl | hx
        · exact ha y hy
        · -- either the new entry was dropped again, or an entry below it was
          rcases List.mem_cons.1 (hmem.mem_iff.1 List.mem_cons_self) with rfl | hkept
          · exact hle x hx y ((List.perm_cons a).1 hmem |>.mem_iff.1 hy)
          · exact (hle x hx a hkept).trans (ha y hy)

end

/-! ## Sums -/

section

variable {K : Type*} [AddCommGroup K] [LinearOrder K] [IsOrderedAddMonoid K]

/-- **Exchange.** A part of `kept + dropped` that is no larger than `kept` has no larger sum. -/
theorem sum_le_of_largest {s kept dropped : Multiset K} (hs : s ≤ kept + dropped)
    (hcard : dropped = 0 ∨ s.card ≤ kept.card) (hle : ∀ x ∈ dropped, ∀ y ∈ kept, x ≤ y)
    (hnonneg : ∀ y ∈ kept, 0 ≤ y) : s.sum ≤ kept.sum := by
  have hs' : s - kept + s ∩ kept = s := Multiset.sub_add_inter s kept
  have hkept : kept - s + s ∩ kept = kept := by
    rw [Multiset.inter_comm]
    exact Multiset.sub_add_inter kept s
  have hdropped : s - kept ≤ dropped := tsub_le_iff_left.2 hs
  have hpart : ∀ y ∈ kept - s, y ∈ kept := fun y hy => Multiset.mem_of_le tsub_le_self hy
  suffices hdiff : (s - kept).sum ≤ (kept - s).sum by
    calc s.sum = (s - kept).sum + (s ∩ kept).sum := by rw [← Multiset.sum_add, hs']
      _ ≤ (kept - s).sum + (s ∩ kept).sum := by gcongr
      _ = kept.sum := by rw [← Multiset.sum_add, hkept]
  rcases Multiset.empty_or_exists_mem (s - kept) with hnone | ⟨x, hx⟩
  · rw [hnone, Multiset.sum_zero]
    exact Multiset.sum_nonneg fun y hy => hnonneg y (hpart y hy)
  · have hcards : (s - kept).card ≤ (kept - s).card := by
      have hc := congrArg Multiset.card hs'
      have hc' := congrArg Multiset.card hkept
      rw [Multiset.card_add] at hc hc'
      rcases hcard with rfl | hcard
      · exact absurd (Multiset.mem_of_le hdropped hx) (Multiset.notMem_zero x)
      · omega
    have hpos : 0 < (kept - s).card := lt_of_lt_of_le (Multiset.card_pos_iff_exists_mem.2 ⟨x, hx⟩) hcards
    have ⟨y, hy⟩ := Multiset.card_pos_iff_exists_mem.1 hpos
    -- the least of what is kept stands between the two parts
    have ⟨z, hz, hmin⟩ := (kept - s).toFinset.exists_min_image id ⟨y, Multiset.mem_toFinset.2 hy⟩
    have hzkept := hpart z (Multiset.mem_toFinset.1 hz)
    calc (s - kept).sum ≤ (s - kept).card • z :=
          Multiset.sum_le_card_nsmul _ _ fun x hx => hle x (Multiset.mem_of_le hdropped hx) z hzkept
      _ ≤ (kept - s).card • z := nsmul_le_nsmul_left (hnonneg z hzkept) hcards
      _ ≤ (kept - s).sum := Multiset.card_nsmul_le_sum fun y hy => hmin y (Multiset.mem_toFinset.2 hy)

variable {V : Type*} {k : ℕ} {came kept s : List (K × V)}

/-- **No `k` of the entries that came have a larger sum of keys** than those that are kept. -/
theorem Largest.sum_le (h : Largest k came kept) (hs : s.Subperm came) (hcard : s.length ≤ k)
    (hnonneg : ∀ e ∈ kept, 0 ≤ e.1) : (s.map Prod.fst).sum ≤ (kept.map Prod.fst).sum := by
  obtain ⟨dropped, hperm, hfull, hle⟩ := h.split
  have hkeys : (↑(s.map Prod.fst) : Multiset K) ≤ ↑(kept.map Prod.fst) + ↑(dropped.map Prod.fst) := by
    rw [Multiset.coe_add, ← List.map_append, ← Multiset.map_coe, ← Multiset.map_coe]
    exact Multiset.map_le_map (Multiset.coe_le.2 (hs.trans hperm.symm.subperm))
  have hsum := sum_le_of_largest hkeys ?_ ?_ ?_
  · simpa using hsum
  · rcases hfull with rfl | hfull
    · exact Or.inl rfl
    · right
      simpa [hfull] using hcard
  · intro x hx y hy
    have ⟨a, ha, hax⟩ := List.mem_map.1 (Multiset.mem_coe.1 hx)
    have ⟨b, hb, hby⟩ := List.mem_map.1 (Multiset.mem_coe.1 hy)
    exact hax ▸ hby ▸ hle a ha b hb
  · intro y hy
    have ⟨b, hb, hby⟩ := List.mem_map.1 (Multiset.mem_coe.1 hy)
    exact hby ▸ hnonneg b hb

end

end Multimap
