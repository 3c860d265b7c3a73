import Minemon.Lib.OrdMap

/-!
# Ordered sets

A `std::set` is an ordered map with nothing at its keys, so that iterating over it visits the keys in increasing
order.

* `k ∈ m`: the map has an entry at `k`.
* `OrdSet`, `OrdSet.add`, `OrdSet.addAll`.
-/

namespace OrdMap

variable {K V : Type*} [LinearOrder K]

instance : Membership K (OrdMap K V) := ⟨fun m k => k ∈ m.keys⟩

instance (k : K) (m : OrdMap K V) : Decidable (k ∈ m) := inferInstanceAs (Decidable (k ∈ m.keys))

variable {m : OrdMap K V} {j k : K} {v : V}

theorem not_mem_iff : k ∉ m ↔ m.find? k = none := find?_eq_none.symm

theorem mem_iff : k ∈ m ↔ ∃ v, m.find? k = some v := by
  rw [← not_not (a := k ∈ m), not_mem_iff, ← ne_eq, Option.ne_none_iff_exists']

theorem mem_iff_isSome : k ∈ m ↔ (m.find? k).isSome = true := by
  rw [mem_iff, Option.isSome_iff_exists]

@[simp] theorem not_mem_empty : k ∉ (empty : OrdMap K V) := not_mem_iff.2 (find?_empty k)

@[simp] theorem mem_upsert {f : Option V → V} : j ∈ m.upsert k f ↔ j = k ∨ j ∈ m := by
  rw [mem_iff_isSome, mem_iff_isSome, find?_upsert]
  split_ifs with h <;> simp [h]

@[simp] theorem mem_insert : j ∈ m.insert k v ↔ j = k ∨ j ∈ m := mem_upsert

@[simp] theorem mem_erase : j ∈ m.erase k ↔ j ≠ k ∧ j ∈ m := by
  rw [mem_iff_isSome, mem_iff_isSome, find?_erase]
  split_ifs with h <;> simp [h]

end OrdMap

/-- `std::set` -/
abbrev OrdSet (K : Type*) [LinearOrder K] := OrdMap K Unit

namespace OrdSet

variable {K : Type*} [LinearOrder K] {s : OrdSet K} {j k : K}

def add (s : OrdSet K) (k : K) : OrdSet K := s.insert k ()

def addAll (s : OrdSet K) (l : List K) : OrdSet K := l.foldl add s

@[simp] theorem mem_add : j ∈ s.add k ↔ j = k ∨ j ∈ s := OrdMap.mem_insert

@[simp] theorem mem_addAll {l : List K} : j ∈ s.addAll l ↔ j ∈ l ∨ j ∈ s := by
  unfold addAll
  induction l generalizing s with
  | nil => simp
  | cons k l ih =>
    rw [List.foldl_cons, ih, mem_add, List.mem_cons]
    tauto

end OrdSet
