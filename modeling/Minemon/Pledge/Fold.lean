import Minemon.Pledge.Entries
import Minemon.Service.Work
import Minemon.Storage.PledgeCache

/-!
# The pledge database as a sum of changes

`AddBlockPledge` is called once for each block of a tree, after its parent, with readings and evictions in
between. Every reader then gives, for each block, the sum of the changes from the root to it.

* `PledgeRun`: the operations of the database in any order.
* `pledgeReaders_eq_sum`: the readers.
-/

namespace Minemon

open CachedStore

/-- Contexts of new blocks, readings, and entries dropped from the caches. The height of a root is 0. -/
inductive PledgeRun (E : Env) (fCache : Bool) : CPledgeDB → Snapshot.Tree ℕ PledgeMap → Prop
  | start : PledgeRun E fCache { fCache := fCache } fun _ => none
  | add {s T hash prev} (h : PledgeRun E fCache s T) (hne : hash ≠ 0)
      (fresh : T hash = none) (hprev : prev = 0 ∧ getBlockHeightByHash hash = 0 ∨ T prev ≠ none)
      (mapBlockPledge : PledgeMap) :
      PledgeRun E fCache ((CPledgeDB.addBlockPledge E hash prev mapBlockPledge).run s).2
        (Function.update T hash (some (prev, mapBlockPledge)))
  | blockPledge {s T} (h : PledgeRun E fCache s T) (hash prev : ℕ)
      (mapBlockPledge : PledgeMap) :
      PledgeRun E fCache ((CPledgeDB.getBlockPledge E hash prev mapBlockPledge).run s).2 T
  | pledge {s T} (h : PledgeRun E fCache s T) (hash : ℕ) :
      PledgeRun E fCache ((CPledgeDB.getPledge E hash).run s).2 T
  | fullPledge {s T} (h : PledgeRun E fCache s T) (hash : ℕ) :
      PledgeRun E fCache ((CPledgeDB.getFullPledge E hash).run s).2 T
  | powPledgeList {s T} (h : PledgeRun E fCache s T) (hash : ℕ)
      (destPowMint : CDestination) :
      PledgeRun E fCache ((CPledgeDB.getPowPledgeList E hash destPowMint).run s).2 T
  | addressPledgeData {s T} (h : PledgeRun E fCache s T) (hash : ℕ)
      (destPowMint destPledge : CDestination) :
      PledgeRun E fCache ((CPledgeDB.getAddressPledgeData E hash destPowMint destPledge).run s).2 T
  | evict {s s' T} (h : PledgeRun E fCache s T) (hs : Evicted s s') :
      PledgeRun E fCache s' T

section

variable {E : Env} {fCache : Bool} {s s' : CPledgeDB} {T : Snapshot.Tree ℕ PledgeMap}

/-- **Every operation keeps the contexts exact.** -/
theorem PledgeRun.exact (h : PledgeRun E fCache s T) : Snapshot.StoredExact (pledgeScheme E) fCache s T := by
  induction h with
  | start => exact Snapshot.StoredExact.new _ fCache
  | add _ hne fresh hprev d ih =>
    obtain ⟨c, hc, hexact⟩ := exact_addBlockPledge ih.exact fresh hne hprev d
    exact ih.added (run_add (CPledgeDB.reads_getBlockPledge E _ _ d) ih.coherent hc (ih.unwritten _ fresh)).2 hexact
  | blockPledge _ hash prev d ih => exact ih.same (CPledgeDB.reads_getBlockPledge E hash prev d _ ih.coherent).2
  | pledge _ hash ih => exact ih.same (CPledgeDB.reads_getPledge E hash _ ih.coherent).2
  | fullPledge _ hash ih => exact ih.same (CPledgeDB.reads_getFullPledge E hash _ ih.coherent).2
  | powPledgeList _ hash m ih => exact ih.same (CPledgeDB.same_getPowPledgeList E hash m ih.coherent)
  | addressPledgeData _ hash m p ih => exact ih.same (CPledgeDB.same_getAddressPledgeData E hash m p ih.coherent)
  | evict _ hs ih => exact ih.same (hs.same ih.coherent)

theorem CPledgeDB.readers_of_holds {hash : ℕ} {o : PledgeEntries} (hs : Coherent s) (hne : hash ≠ 0)
    (h : Snapshot.Holds (pledgeScheme E) T s.db hash o) (destPowMint destPledge : CDestination) :
    ((CPledgeDB.getAddressPledgeData E hash destPowMint destPledge).run s).1 =
        some ((o destPowMint destPledge).getD (0, 0)) ∧
      ((CPledgeDB.getPowPledgeList E hash destPowMint).run s).1.map (fun l => l.find? destPledge) =
        some (o destPowMint destPledge) ∧
      ((CPledgeDB.getFullPledge E hash).run s).1.map (fun c => pledgeEntry c.mapPledge destPowMint destPledge) =
        some (o destPowMint destPledge) := by
  obtain ⟨c, hfull, -, rfl⟩ := getFullPledge_of_holds hne h
  obtain ⟨l, hlist, hl⟩ := getPowPledgeList_of_holds hne h destPowMint
  refine ⟨?_, ?_, ?_⟩
  · rw [(CPledgeDB.reads_getAddressPledgeData E hne destPowMint destPledge s hs).1]
    cases s.fCache with
    | true => exact getAddressPledgeData_of_holds hne h destPowMint destPledge
    | false => simp [hfull, find?_getD_empty]
  · rw [(CPledgeDB.reads_getPowPledgeList E hne destPowMint s hs).1]
    cases s.fCache with
    | true => simp [hlist, hl]
    | false => simp [hfull, find?_getD_empty]
  · rw [(CPledgeDB.reads_getFullPledge E hash s hs).1]
    show (Minemon.getFullPledge s.db hash).map _ = _
    rw [hfull]
    rfl

/-! ## The sum of the changes -/

def pledgeDelta (mapBlockPledge : PledgeMap) (destPowMint destPledge : CDestination) : ℤ :=
  ((pledgeEntry mapBlockPledge destPowMint destPledge).getD (0, 0)).1

/-- The sum of the changes of one entry. -/
def pledgeSum (l : List (ℕ × PledgeMap)) (destPowMint destPledge : CDestination) : ℤ :=
  (l.map fun e => pledgeDelta e.2 destPowMint destPledge).sum

theorem entryAdd_amount {o inc : Option (ℤ × ℕ)} {x : ℤ} (h : (o.getD (0, 0)).1 = wrap64 x) :
    ((entryAdd o inc).getD (0, 0)).1 = wrap64 (x + (inc.getD (0, 0)).1) := by
  cases inc with
  | none => simpa using h
  | some v =>
    show wrap64 ((o.getD (0, 0)).1 + v.1) = _
    rw [h, wrap64_add_left]
    rfl

theorem filter_amount (o : Option (ℤ × ℕ)) : ((o.filter fun v => v.1 != 0).getD (0, 0)).1 = (o.getD (0, 0)).1 := by
  cases o with
  | none => rfl
  | some v =>
    by_cases hv : v.1 = 0
    · simp [Option.filter, hv]
    · simp [Option.filter, hv]

/-- **The amount of an entry is the sum of its changes**, as an `int64`; the snapshots do not show. -/
theorem fold_amount (E : Env) (l : List (ℕ × PledgeMap)) (destPowMint destPledge : CDestination) :
    (((pledgeScheme E).fold l destPowMint destPledge).getD (0, 0)).1 = wrap64 (pledgeSum l destPowMint destPledge) := by
  induction l using List.reverseRecOn with
  | nil => rfl
  | append_singleton l e ih =>
    have hstep : ∀ fFull, ((pledgeStep fFull ((pledgeScheme E).fold l) e.2 destPowMint destPledge).getD (0, 0)).1 =
        wrap64 (pledgeSum l destPowMint destPledge + pledgeDelta e.2 destPowMint destPledge) := by
      intro fFull
      unfold pledgeStep
      split_ifs
      · rw [filter_amount]
        exact entryAdd_amount ih
      · exact entryAdd_amount ih
    rw [Snapshot.Scheme.fold_concat]
    refine (hstep _).trans ?_
    unfold pledgeSum
    rw [List.map_append, List.sum_append]
    simp

/-- **Every reader of the pledge database gives the sum of the changes** from the root to the block, with the
caches and without them, whatever they have dropped. -/
theorem pledgeReaders_eq_sum (h : PledgeRun E fCache s T) {hash : ℕ} (hin : T hash ≠ none) :
    ∃ l, Snapshot.Path T 0 hash l ∧ ∀ destPowMint destPledge,
      ((CPledgeDB.getAddressPledgeData E hash destPowMint destPledge).run s).1.map Prod.fst =
          some (wrap64 (pledgeSum l destPowMint destPledge)) ∧
        ((CPledgeDB.getPowPledgeList E hash destPowMint).run s).1.map
            (fun m => ((m.find? destPledge).getD (0, 0)).1) =
          some (wrap64 (pledgeSum l destPowMint destPledge)) ∧
        ((CPledgeDB.getFullPledge E hash).run s).1.map
            (fun c => ((pledgeEntry c.mapPledge destPowMint destPledge).getD (0, 0)).1) =
          some (wrap64 (pledgeSum l destPowMint destPledge)) := by
  have hex := h.exact
  obtain ⟨l, hl⟩ := hex.exact.path hash hin
  have hne : hash ≠ 0 := by
    rintro rfl
    exact hin hex.exact.null
  refine ⟨l, hl, fun destPowMint destPledge => ?_⟩
  obtain ⟨haddr, hlist, hfull⟩ :=
    CPledgeDB.readers_of_holds hex.coherent hne (hex.exact.holds hash l hl) destPowMint destPledge
  have hsum := fold_amount E l destPowMint destPledge
  have hmap : ∀ {α : Type} (x : Option α) (f : α → Option (ℤ × ℕ)),
      x.map f = some ((pledgeScheme E).fold l destPowMint destPledge) →
        x.map (fun a => ((f a).getD (0, 0)).1) = some (wrap64 (pledgeSum l destPowMint destPledge)) := by
    intro α x f hx
    rw [← hsum, ← Option.map_some (f := fun o : Option (ℤ × ℕ) => (o.getD (0, 0)).1), ← hx, Option.map_map]
    rfl
  refine ⟨?_, hmap _ _ hlist, hmap _ _ hfull⟩
  rw [haddr, ← hsum]
  rfl

/-- One change, under the mining address of the toy network. -/
def toyDelta (nAmount : ℤ) (nHeight : ℕ) : PledgeMap :=
  OrdMap.empty.insert (toyMiner.dest toyEnv) (OrdMap.empty.insert ⟨CDestination.PREFIX_TEMPLATE, 3⟩ (nAmount, nHeight))

/-- A deposit in the first block and a withdrawal of all of it in the next one, which has a snapshot. -/
theorem pledgeReaders_eq_sum_toy : ∃ (s : CPledgeDB) (T : Snapshot.Tree ℕ PledgeMap),
    T (2 ^ 224 + 5) = some (5, toyDelta (-7) 0) ∧ PledgeRun toyEnv true s T ∧
      ∃ l, Snapshot.Path T 0 (2 ^ 224 + 5) l ∧ ∀ destPowMint destPledge,
        ((CPledgeDB.getAddressPledgeData toyEnv (2 ^ 224 + 5) destPowMint destPledge).run s).1.map Prod.fst =
            some (wrap64 (pledgeSum l destPowMint destPledge)) ∧
          ((CPledgeDB.getPowPledgeList toyEnv (2 ^ 224 + 5) destPowMint).run s).1.map
              (fun m => ((m.find? destPledge).getD (0, 0)).1) =
            some (wrap64 (pledgeSum l destPowMint destPledge)) ∧
          ((CPledgeDB.getFullPledge toyEnv (2 ^ 224 + 5)).run s).1.map
              (fun c => ((pledgeEntry c.mapPledge destPowMint destPledge).getD (0, 0)).1) =
            some (wrap64 (pledgeSum l destPowMint destPledge)) := by
  have hroot := @PledgeRun.add toyEnv true _ _ 5 0 .start (by decide) rfl (Or.inl ⟨rfl, by decide⟩) (toyDelta 7 0)
  have hnext := @PledgeRun.add toyEnv true _ _ (2 ^ 224 + 5) 5 hroot (by decide)
    (Function.update_of_ne (by decide) _ _) (Or.inr (by simp)) (toyDelta (-7) 0)
  exact ⟨_, _, Function.update_self _ _ _, hnext, pledgeReaders_eq_sum hnext (by simp)⟩

end

end Minemon
