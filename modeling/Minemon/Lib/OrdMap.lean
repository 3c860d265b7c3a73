import Mathlib

/-!
# Ordered maps

A finite map as the list of its pairs in strictly increasing key order: what iterating over a
`std::map` visits. The order is a field, so that every value is a legal map.

* `OrdMap.find?`, `OrdMap.upsert` (`m[k] = f(m[k])`), `OrdMap.insert`, `OrdMap.erase`,
  `OrdMap.filter`.
* `OrdMap.find?_upsert`, `OrdMap.find?_erase`, `OrdMap.find?_filter`: what a lookup sees after each
  of them.
* `OrdMap.ext_find?`: a map is determined by its lookups.
* `LinearOrder.byPair`: keys that are compared by one number first and by another one then.
-/

/-- `operator<` by two numbers: `f` first, `g` then. -/
abbrev LinearOrder.byPair {α : Type*} [DecidableEq α] (f g : α → ℕ)
    (hinj : ∀ a b, f a = f b → g a = g b → a = b) : LinearOrder α where
  __ := LinearOrder.lift' (fun a => toLex (f a, g a)) fun a b h => hinj a b (congrArg Prod.fst h) (congrArg Prod.snd h)
  toDecidableEq := inferInstance
  compare a b := compareOfLessAndEq a b
  compare_eq_compareOfLessAndEq _ _ := rfl

namespace OrdMap

/-! ## Sorted association lists -/

section Lists

variable {K V : Type*} [LinearOrder K]

def Sorted (l : List (K × V)) : Prop := l.Pairwise (fun a b => a.1 < b.1)

def upsertList (k : K) (f : Option V → V) : List (K × V) → List (K × V)
  | [] => [(k, f none)]
  | (k', v) :: l =>
    if k < k' then (k, f none) :: (k', v) :: l
    else if k = k' then (k, f (some v)) :: l
    else (k', v) :: upsertList k f l

def eraseList (k : K) : List (K × V) → List (K × V)
  | [] => []
  | (k', v) :: l => if k = k' then l else (k', v) :: eraseList k l

def lookupList (k : K) : List (K × V) → Option V
  | [] => none
  | (k', v) :: l => if k = k' then some v else lookupList k l

variable {f : Option V → V}

theorem mem_upsertList {k : K} {e : K × V} :
    ∀ {l : List (K × V)}, e ∈ upsertList k f l → e.1 = k ∨ e ∈ l
  | [], h => by simp only [upsertList, List.mem_singleton] at h; exact Or.inl (by rw [h])
  | (k', v) :: l, h => by
    rw [upsertList] at h
    split_ifs at h with h1 h2
    · rcases List.mem_cons.1 h with h | h
      · exact Or.inl (by rw [h])
      · exact Or.inr h
    · rcases List.mem_cons.1 h with h | h
      · exact Or.inl (by rw [h])
      · exact Or.inr (List.mem_cons_of_mem _ h)
    · rcases List.mem_cons.1 h with h | h
      · exact Or.inr (by rw [h]; exact List.mem_cons_self)
      · exact (mem_upsertList h).imp id (List.mem_cons_of_mem _)

theorem sorted_upsertList {k : K} :
    ∀ {l : List (K × V)}, Sorted l → Sorted (upsertList k f l)
  | [], _ => by simp [upsertList, Sorted]
  | (k', v) :: l, h => by
    have hl := List.pairwise_cons.1 h
    rw [upsertList]
    split_ifs with h1 h2
    · refine List.pairwise_cons.2 ⟨fun e he => ?_, h⟩
      rcases List.mem_cons.1 he with he | he
      · rw [he]; exact h1
      · exact h1.trans (hl.1 e he)
    · subst h2
      exact List.pairwise_cons.2 ⟨fun e he => hl.1 e he, hl.2⟩
    · refine List.pairwise_cons.2 ⟨fun e he => ?_, sorted_upsertList hl.2⟩
      rcases mem_upsertList he with he | he
      · rw [he]; exact lt_of_le_of_ne (not_lt.1 h1) (Ne.symm h2)
      · exact hl.1 e he

theorem upsertList_of_lt {k : K} :
    ∀ {l : List (K × V)}, (∀ e ∈ l, e.1 < k) → upsertList k f l = l ++ [(k, f none)]
  | [], _ => rfl
  | (k', v) :: l, h => by
    have hk : k' < k := h (k', v) List.mem_cons_self
    rw [upsertList, if_neg hk.not_gt, if_neg hk.ne', List.cons_append,
      upsertList_of_lt fun e he => h e (List.mem_cons_of_mem _ he)]

theorem eraseList_sublist (k : K) : ∀ l : List (K × V), (eraseList k l).Sublist l
  | [] => List.Sublist.slnil
  | (k', v) :: l => by
    rw [eraseList]
    split_ifs
    · exact List.sublist_cons_self _ _
    · exact (eraseList_sublist k l).cons_cons _

theorem lookupList_of_not_mem {k : K} :
    ∀ {l : List (K × V)}, (∀ e ∈ l, e.1 ≠ k) → lookupList k l = none
  | [], _ => rfl
  | (k', v) :: l, h => by
    rw [lookupList, if_neg (fun hk => h (k', v) List.mem_cons_self hk.symm)]
    exact lookupList_of_not_mem fun e he => h e (List.mem_cons_of_mem _ he)

theorem lookupList_eq_some {k : K} {v : V} :
    ∀ {l : List (K × V)}, Sorted l → (lookupList k l = some v ↔ (k, v) ∈ l)
  | [], _ => by simp [lookupList]
  | (k', v') :: l, h => by
    have hl := List.pairwise_cons.1 h
    rw [lookupList]
    split_ifs with hk
    · subst hk
      constructor
      · intro h'; cases h'; exact List.mem_cons_self
      · intro h'
        rcases List.mem_cons.1 h' with h' | h'
        · cases h'; rfl
        · exact absurd (hl.1 _ h') (lt_irrefl _)
    · rw [lookupList_eq_some hl.2, List.mem_cons]
      constructor
      · exact Or.inr
      · rintro (h' | h')
        · exact absurd (congrArg Prod.fst h') hk
        · exact h'

theorem lookupList_of_lt {k k' : K} {v : V} {l : List (K × V)} (h : Sorted ((k', v) :: l)) (h1 : k < k') :
    lookupList k ((k', v) :: l) = none := by
  apply lookupList_of_not_mem
  intro e he
  rcases List.mem_cons.1 he with he | he
  · rw [he]; exact h1.ne'
  · exact (h1.trans ((List.pairwise_cons.1 h).1 e he)).ne'

theorem lookupList_upsertList (k j : K) (f : Option V → V) :
    ∀ {l : List (K × V)}, Sorted l →
      lookupList j (upsertList k f l) = if j = k then some (f (lookupList k l)) else lookupList j l
  | [], _ => by simp [upsertList, lookupList]
  | (k', v) :: l, h => by
    have hl := List.pairwise_cons.1 h
    rw [upsertList]
    by_cases h1 : k < k'
    · rw [if_pos h1, lookupList_of_lt h h1]
      conv_lhs => rw [lookupList]
    · rw [if_neg h1]
      by_cases h2 : k = k'
      · subst h2
        rw [if_pos rfl, lookupList, lookupList, if_pos rfl, lookupList]
        split_ifs <;> rfl
      · rw [if_neg h2, lookupList, lookupList_upsertList k j f hl.2]
        by_cases h3 : j = k'
        · subst h3
          rw [if_pos rfl, if_neg (Ne.symm h2), lookupList, if_pos rfl]
        · rw [if_neg h3]
          rw [show lookupList k ((k', v) :: l) = lookupList k l from by rw [lookupList, if_neg h2],
            show lookupList j ((k', v) :: l) = lookupList j l from by rw [lookupList, if_neg h3]]

theorem length_upsertList_of_none {k : K} :
    ∀ {l : List (K × V)}, lookupList k l = none → (upsertList k f l).length = l.length + 1
  | [], _ => rfl
  | (k', v) :: l, h => by
    rw [lookupList] at h
    split_ifs at h with hk
    rw [upsertList]
    split_ifs
    · rfl
    · rw [List.length_cons, length_upsertList_of_none h, List.length_cons]

theorem lookupList_eraseList (k j : K) :
    ∀ {l : List (K × V)}, Sorted l →
      lookupList j (eraseList k l) = if j = k then none else lookupList j l
  | [], _ => by simp [eraseList, lookupList]
  | (k', v) :: l, h => by
    have hl := List.pairwise_cons.1 h
    rw [eraseList]
    split_ifs with h1 h2 h2
    · subst h1 h2
      exact lookupList_of_not_mem fun e he => (hl.1 e he).ne'
    · subst h1
      rw [lookupList, if_neg h2]
    · subst h2
      rw [lookupList, if_neg h1, lookupList_eraseList j j hl.2, if_pos rfl]
    · rw [lookupList, lookupList, lookupList_eraseList k j hl.2, if_neg h2]

end Lists

end OrdMap

/-! ## Maps -/

/-- A finite map with its pairs in strictly increasing key order. -/
structure OrdMap (K V : Type*) [LinearOrder K] where
  /-- The pairs, as iterated. -/
  toList : List (K × V)
  sorted : OrdMap.Sorted toList

namespace OrdMap

section Maps

variable {K V : Type*} [LinearOrder K]

def empty : OrdMap K V := ⟨[], List.Pairwise.nil⟩

instance : Inhabited (OrdMap K V) := ⟨empty⟩

def find? (m : OrdMap K V) (k : K) : Option V := lookupList k m.toList

/-- `m[k] = f(m[k])`, where `f` sees `none` when there was no entry. -/
def upsert (m : OrdMap K V) (k : K) (f : Option V → V) : OrdMap K V :=
  ⟨upsertList k f m.toList, sorted_upsertList m.sorted⟩

def insert (m : OrdMap K V) (k : K) (v : V) : OrdMap K V := m.upsert k fun _ => v

def erase (m : OrdMap K V) (k : K) : OrdMap K V :=
  ⟨eraseList k m.toList, m.sorted.sublist (eraseList_sublist k _)⟩

def filter (m : OrdMap K V) (p : K × V → Bool) : OrdMap K V :=
  ⟨m.toList.filter p, m.sorted.sublist List.filter_sublist⟩

def size (m : OrdMap K V) : ℕ := m.toList.length

def keys (m : OrdMap K V) : List K := m.toList.map Prod.fst

@[ext] theorem ext {m n : OrdMap K V} (h : m.toList = n.toList) : m = n := by
  cases m; cases n; congr

instance [DecidableEq V] : DecidableEq (OrdMap K V) := fun m n =>
  decidable_of_iff (m.toList = n.toList) ⟨OrdMap.ext, congrArg _⟩

@[simp] theorem find?_empty (k : K) : (empty : OrdMap K V).find? k = none := rfl

variable {m : OrdMap K V}

theorem find?_eq_some {k : K} {v : V} : m.find? k = some v ↔ (k, v) ∈ m.toList :=
  lookupList_eq_some m.sorted

theorem find?_upsert (m : OrdMap K V) (k j : K) (f : Option V → V) :
    (m.upsert k f).find? j = if j = k then some (f (m.find? k)) else m.find? j :=
  lookupList_upsertList k j f m.sorted

theorem find?_insert (m : OrdMap K V) (k j : K) (v : V) :
    (m.insert k v).find? j = if j = k then some v else m.find? j :=
  find?_upsert m k j _

theorem toList_insert_of_lt {k : K} (h : ∀ e ∈ m.toList, e.1 < k) (v : V) :
    (m.insert k v).toList = m.toList ++ [(k, v)] :=
  upsertList_of_lt h

theorem size_insert_of_none {k : K} (h : m.find? k = none) (v : V) : (m.insert k v).size = m.size + 1 :=
  length_upsertList_of_none h

theorem find?_erase (m : OrdMap K V) (k j : K) : (m.erase k).find? j = if j = k then none else m.find? j :=
  lookupList_eraseList k j m.sorted

theorem find?_foldl_erase (ks : List K) (m : OrdMap K V) (j : K) :
    (ks.foldl erase m).find? j = if j ∈ ks then none else m.find? j := by
  induction ks generalizing m with
  | nil => simp
  | cons k ks ih =>
    rw [List.foldl_cons, ih, find?_erase]
    by_cases h1 : j ∈ ks
    · rw [if_pos h1, if_pos (List.mem_cons_of_mem _ h1)]
    · by_cases h2 : j = k
      · rw [if_neg h1, if_pos h2, if_pos (by rw [h2]; exact List.mem_cons_self)]
      · rw [if_neg h1, if_neg h2, if_neg (by simp [h1, h2])]

theorem find?_foldl_upsert {W : Type*} (f : W → Option V → V) {l : List (K × W)} (hl : (l.map Prod.fst).Nodup)
    (m : OrdMap K V) (k : K) :
    (l.foldl (fun m e => m.upsert e.1 (f e.2)) m).find? k =
      (lookupList k l).elim (m.find? k) fun w => some (f w (m.find? k)) := by
  induction l generalizing m with
  | nil => rfl
  | cons e l ih =>
    rw [List.map_cons, List.nodup_cons] at hl
    rw [List.foldl_cons, ih hl.2, find?_upsert, lookupList]
    by_cases hk : k = e.1
    · have hnone : lookupList k l = none := lookupList_of_not_mem fun e' he' heq =>
        hl.1 (List.mem_map.2 ⟨e', he', heq.trans hk⟩)
      rw [if_pos hk, if_pos hk, hnone, hk]
      rfl
    · rw [if_neg hk, if_neg hk]

theorem find?_filter (m : OrdMap K V) (p : K × V → Bool) (k : K) :
    (m.filter p).find? k = (m.find? k).filter fun v => p (k, v) := by
  rw [Option.ext_iff]
  intro v
  rw [find?_eq_some, Option.filter_eq_some_iff, find?_eq_some]
  exact List.mem_filter

theorem find?_eq_none {k : K} : m.find? k = none ↔ k ∉ m.keys := by
  rw [Option.eq_none_iff_forall_ne_some]
  constructor
  · rintro h hk
    obtain ⟨⟨k', v⟩, he, rfl⟩ := List.mem_map.1 hk
    exact h v (find?_eq_some.2 he)
  · intro h v hv
    exact h (List.mem_map.2 ⟨(k, v), find?_eq_some.1 hv, rfl⟩)

theorem keys_nodup (m : OrdMap K V) : m.keys.Nodup :=
  List.pairwise_map.2 (m.sorted.imp fun h => h.ne)

/-- **A map is determined by its lookups.** -/
theorem ext_find? {m n : OrdMap K V} (h : ∀ k, m.find? k = n.find? k) : m = n := by
  have hmem : ∀ e, e ∈ m.toList ↔ e ∈ n.toList := fun ⟨k, v⟩ => by
    rw [← find?_eq_some, ← find?_eq_some, h k]
  have hnd : ∀ {l : List (K × V)}, Sorted l → l.Nodup := fun hs =>
    hs.imp fun hlt heq => absurd (congrArg Prod.fst heq) hlt.ne
  have hp : m.toList.Perm n.toList := (List.perm_ext_iff_of_nodup (hnd m.sorted) (hnd n.sorted)).2 hmem
  exact OrdMap.ext (hp.eq_of_pairwise (fun a b _ _ hab hba => absurd hab hba.asymm) m.sorted n.sorted)

end Maps

/-! ## Totals -/

section Totals

variable {K V : Type*} [LinearOrder K]

def sumBy (w : K → V → ℤ) (m : OrdMap K V) : ℤ := (m.toList.map fun e => w e.1 e.2).sum

theorem sum_upsertList (w : K → V → ℤ) (k : K) (f : Option V → V) :
    ∀ {l : List (K × V)}, Sorted l →
      ((upsertList k f l).map fun e => w e.1 e.2).sum =
        (l.map fun e => w e.1 e.2).sum - (lookupList k l).elim 0 (w k) + w k (f (lookupList k l))
  | [], _ => by simp [upsertList, lookupList]
  | (k', v) :: l, h => by
    have hl := List.pairwise_cons.1 h
    rw [upsertList]
    by_cases h1 : k < k'
    · rw [if_pos h1, lookupList_of_lt h h1]
      simp only [List.map_cons, List.sum_cons, Option.elim_none]
      ring
    · rw [if_neg h1, lookupList]
      by_cases h2 : k = k'
      · subst h2
        rw [if_pos rfl, if_pos rfl]
        simp only [List.map_cons, List.sum_cons, Option.elim_some]
        ring
      · rw [if_neg h2, if_neg h2]
        simp only [List.map_cons, List.sum_cons]
        rw [sum_upsertList w k f hl.2]
        ring

/-- **One entry changed**: the total loses the old weight and gains the new one. -/
theorem sumBy_upsert (w : K → V → ℤ) (m : OrdMap K V) (k : K) (f : Option V → V) :
    (m.upsert k f).sumBy w = m.sumBy w - (m.find? k).elim 0 (w k) + w k (f (m.find? k)) :=
  sum_upsertList w k f m.sorted

end Totals

end OrdMap
