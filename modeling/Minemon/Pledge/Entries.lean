import Minemon.Lib.Snapshot
import Minemon.Storage.PledgeDB

/-!
# The entries of the pledge database

What the operations of the pledge database do to the entry of one pledge address, and the database as
snapshots and increments.

* `pledgeScheme`: the database as a scheme of snapshots.
* `exact_addBlockPledge`: `AddBlockPledge` on a tree of blocks.
-/

namespace Minemon

/-! ## One entry -/

/-- The amount and the height of a pledge address under a mining address. -/
def pledgeEntry (m : PledgeMap) (destPowMint destPledge : CDestination) : Option (ℤ × ℕ) :=
  (m.find? destPowMint).bind fun pow => pow.find? destPledge

def entryAdd (o inc : Option (ℤ × ℕ)) : Option (ℤ × ℕ) := inc.elim o fun v => some (addPledgeValue o v)

@[simp] theorem entryAdd_none (o : Option (ℤ × ℕ)) : entryAdd o none = o := rfl

@[simp] theorem pledgeEntry_empty (destPowMint destPledge : CDestination) :
    pledgeEntry OrdMap.empty destPowMint destPledge = none := rfl

theorem find?_getD_empty (m : PledgeMap) (destPowMint destPledge : CDestination) :
    ((m.find? destPowMint).getD OrdMap.empty).find? destPledge = pledgeEntry m destPowMint destPledge := by
  unfold pledgeEntry
  cases m.find? destPowMint <;> rfl

theorem entryAdd_assoc (o i v : Option (ℤ × ℕ)) : entryAdd o (entryAdd i v) = entryAdd (entryAdd o i) v := by
  cases v with
  | none => rfl
  | some v =>
    cases i with
    | none =>
      simp only [entryAdd, addPledgeValue, Option.elim_some, Option.elim_none, Option.getD_none, Option.some.injEq,
        Prod.mk.injEq, wrap64_add_right, zero_add, true_and]
      split_ifs <;> omega
    | some i =>
      simp only [entryAdd, addPledgeValue, Option.elim_some, Option.getD_some, Option.some.injEq, Prod.mk.injEq,
        wrap64_add_right, wrap64_add_left, add_assoc, true_and]
      split_ifs <;> omega

theorem find?_addPowPledges (m inc : PowPledges) (destPledge : CDestination) :
    (addPowPledges m inc).find? destPledge = entryAdd (m.find? destPledge) (inc.find? destPledge) :=
  OrdMap.find?_foldl_upsert (fun v md => addPledgeValue md v) inc.keys_nodup m destPledge

theorem find?_of_isEmpty {pow : PowPledges} (h : pow.toList.isEmpty = true) (destPledge : CDestination) :
    pow.find? destPledge = none := by
  unfold OrdMap.find?
  rw [List.isEmpty_iff.1 h]
  rfl

theorem find?_foldl_nonempty (f : PowPledges → Option PowPledges → PowPledges) (g : PowPledges → PowPledges)
    (m inc : PledgeMap) (destPowMint : CDestination) :
    (inc.toList.foldl (fun m kv => if (g kv.2).toList.isEmpty then m else m.upsert kv.1 (f kv.2)) m).find? destPowMint =
      ((inc.find? destPowMint).filter fun pow => !(g pow).toList.isEmpty).elim (m.find? destPowMint)
        fun pow => some (f pow (m.find? destPowMint)) := by
  have hfold : inc.toList.foldl (fun m kv => if (g kv.2).toList.isEmpty then m else m.upsert kv.1 (f kv.2)) m =
      (inc.filter fun kv => !(g kv.2).toList.isEmpty).toList.foldl (fun m kv => m.upsert kv.1 (f kv.2)) m := by
    unfold OrdMap.filter
    rw [List.foldl_filter]
    congr 1
    funext m kv
    cases (g kv.2).toList.isEmpty <;> rfl
  rw [hfold, OrdMap.find?_foldl_upsert f (OrdMap.keys_nodup _)]
  exact congrArg (Option.elim · _ _) (OrdMap.find?_filter inc _ destPowMint)

/-- **`AddIncPledge`** changes each entry by that of the increment. -/
theorem pledgeEntry_addIncPledge (m inc : PledgeMap) (destPowMint destPledge : CDestination) :
    pledgeEntry (addIncPledge m inc) destPowMint destPledge =
      entryAdd (pledgeEntry m destPowMint destPledge) (pledgeEntry inc destPowMint destPledge) := by
  have hfind := find?_foldl_nonempty (fun inc pow => addPowPledges (pow.getD OrdMap.empty) inc) id m inc destPowMint
  simp only [id_eq] at hfind
  rw [pledgeEntry, addIncPledge, hfind, pledgeEntry.eq_1 inc]
  cases inc.find? destPowMint with
  | none => rfl
  | some pow =>
    cases hempty : pow.toList.isEmpty with
    | true =>
      rw [Option.filter_some, hempty, Option.bind_some, find?_of_isEmpty hempty]
      rfl
    | false =>
      rw [Option.filter_some, hempty, Option.bind_some]
      show (addPowPledges _ pow).find? destPledge = _
      rw [find?_addPowPledges, find?_getD_empty]

/-- **`ClearEmpty`** removes the entries whose amount is 0. -/
theorem pledgeEntry_clearEmpty (m : PledgeMap) (destPowMint destPledge : CDestination) :
    pledgeEntry (clearEmpty m) destPowMint destPledge =
      (pledgeEntry m destPowMint destPledge).filter fun v => v.1 != 0 := by
  have hfind := find?_foldl_nonempty (fun pow _ => pow.filter fun vd => vd.2.1 != 0)
    (fun pow => pow.filter fun vd => vd.2.1 != 0) OrdMap.empty m destPowMint
  have hclear : (clearEmpty m).find? destPowMint = _ := hfind
  rw [pledgeEntry, hclear, pledgeEntry]
  cases m.find? destPowMint with
  | none => rfl
  | some pow =>
    rw [Option.bind_some, ← OrdMap.find?_filter pow fun vd => vd.2.1 != 0, Option.filter_some]
    cases hempty : (pow.filter fun vd => vd.2.1 != 0).toList.isEmpty with
    | true => exact (find?_of_isEmpty hempty destPledge).symm
    | false => rfl

/-! ## The database as snapshots and increments -/

/-- What is pledged under each mining address. -/
abbrev PledgeEntries := CDestination → CDestination → Option (ℤ × ℕ)

/-- The entries after a block: a snapshot drops those whose amount is 0. -/
def pledgeStep (fFull : Bool) (o : PledgeEntries) (mapBlockPledge : PledgeMap) : PledgeEntries := fun m p =>
  if fFull then (entryAdd (o m p) (pledgeEntry mapBlockPledge m p)).filter fun v => v.1 != 0
  else entryAdd (o m p) (pledgeEntry mapBlockPledge m p)

/-- The pledge database: the snapshots are at the blocks for which `IsFullPledge` holds. -/
def pledgeScheme (E : Env) : Snapshot.Scheme ℕ CPledgeContext PledgeMap PledgeMap PledgeEntries where
  null := 0
  isFull := isFullPledge E
  ref := CPledgeContext.hashRef
  map := CPledgeContext.mapPledge
  view := addIncPledge
  obs := pledgeEntry
  init := fun _ _ => none
  step := fun fFull o e => pledgeStep fFull o e.2

theorem pledgeEntry_snapshot (m d : PledgeMap) :
    pledgeEntry (clearEmpty (addIncPledge m d)) = pledgeStep true (pledgeEntry m) d := by
  funext a b
  rw [pledgeEntry_clearEmpty, pledgeEntry_addIncPledge]
  rfl

theorem pledgeEntry_increment (m inc d : PledgeMap) :
    pledgeEntry (addIncPledge m (addIncPledge inc d)) = pledgeStep false (pledgeEntry (addIncPledge m inc)) d := by
  funext a b
  show _ = entryAdd (pledgeEntry (addIncPledge m inc) a b) (pledgeEntry d a b)
  simp only [pledgeEntry_addIncPledge, entryAdd_assoc]

theorem pledgeEntry_first_increment (m d : PledgeMap) :
    pledgeEntry (addIncPledge m (addIncPledge OrdMap.empty d)) = pledgeStep false (pledgeEntry m) d := by
  rw [pledgeEntry_increment]
  funext a b
  unfold pledgeStep
  rw [pledgeEntry_addIncPledge, pledgeEntry_empty, entryAdd_none]

section

variable {E : Env} {T : Snapshot.Tree ℕ PledgeMap} {db : ℕ → Option CPledgeContext} {hash prev : ℕ}
  {o : PledgeEntries}

theorem getPledge_of_ne {hash : ℕ} (h : hash ≠ 0) : getPledge db hash = db hash := if_neg h

theorem holds_pledge_iff : Snapshot.Holds (pledgeScheme E) T db hash o ↔
    ∃ c, db hash = some c ∧
      if isFullPledge E hash then c.hashRef = 0 ∧ pledgeEntry c.mapPledge = o
      else c.hashRef ≠ 0 ∧ isFullPledge E c.hashRef = true ∧ T c.hashRef ≠ none ∧
        ∃ r, db c.hashRef = some r ∧ r.hashRef = 0 ∧ pledgeEntry (addIncPledge r.mapPledge c.mapPledge) = o :=
  Iff.rfl

section

variable (hne : hash ≠ 0) (h : Snapshot.Holds (pledgeScheme E) T db hash o)

include hne h

theorem getFullPledge_of_holds :
    ∃ ctxt, getFullPledge db hash = some ctxt ∧ ctxt.hashRef = 0 ∧ pledgeEntry ctxt.mapPledge = o := by
  obtain ⟨c, hc, hform⟩ := holds_pledge_iff.1 h
  unfold getFullPledge
  rw [getPledge_of_ne hne, hc]
  split_ifs at hform with hf
  · obtain ⟨href, hobs⟩ := hform
    exact ⟨c, if_pos href, href, hobs⟩
  · obtain ⟨href, -, -, r, hr, -, hobs⟩ := hform
    refine ⟨⟨0, addIncPledge r.mapPledge c.mapPledge⟩, ?_, rfl, hobs⟩
    simp only [if_neg href, getPledge_of_ne href, hr]

theorem getPowPledgeList_of_holds
    (destPowMint : CDestination) :
    ∃ l, getPowPledgeList E db hash destPowMint = some l ∧ ∀ p, l.find? p = o destPowMint p := by
  obtain ⟨c, hc, hform⟩ := holds_pledge_iff.1 h
  unfold getPowPledgeList
  rw [if_neg hne, hc]
  split_ifs at hform with hf
  · obtain ⟨-, rfl⟩ := hform
    exact ⟨_, if_pos hf, fun p => find?_getD_empty _ _ _⟩
  · obtain ⟨href, -, -, r, hr, -, rfl⟩ := hform
    simp only [if_neg hf, if_neg href, hr]
    refine ⟨_, rfl, fun p => ?_⟩
    rw [find?_addPowPledges, find?_getD_empty, find?_getD_empty]
    exact (pledgeEntry_addIncPledge _ _ _ _).symm

theorem getAddressPledgeData_of_holds
    (destPowMint destPledge : CDestination) :
    getAddressPledgeData E db hash destPowMint destPledge = some ((o destPowMint destPledge).getD (0, 0)) := by
  obtain ⟨c, hc, hform⟩ := holds_pledge_iff.1 h
  unfold getAddressPledgeData
  simp only [if_neg hne, hc, find?_getD_empty]
  split_ifs at hform with hf
  · obtain ⟨-, rfl⟩ := hform
    exact if_pos hf
  · obtain ⟨href, -, -, r, hr, -, rfl⟩ := hform
    simp only [if_neg hf, if_neg href, hr, pledgeEntry_addIncPledge]
    cases pledgeEntry c.mapPledge destPowMint destPledge with
    | none => rfl
    | some v => cases pledgeEntry r.mapPledge destPowMint destPledge <;> rfl

end

/-- **`AddBlockPledge`** on a tree of blocks. -/
theorem exact_addBlockPledge (h : Snapshot.Exact (pledgeScheme E) T db) (fresh : T hash = none) (hne : hash ≠ 0)
    (hprev : prev = 0 ∧ getBlockHeightByHash hash = 0 ∨ T prev ≠ none) (d : PledgeMap) :
    ∃ c, addBlockPledge E db hash prev d = some c ∧
      Snapshot.Exact (pledgeScheme E) (Function.update T hash (some (prev, d))) (Function.update db hash (some c)) := by
  unfold addBlockPledge
  refine h.extend fresh hne (hprev.imp_left fun hroot => ⟨hroot.1, ?_⟩)
    (fun (hf : isFullPledge E hash = true) o ho => ?_)
    (fun (hf : isFullPledge E hash = false) hp r hr href => ?_)
    fun (hf : isFullPledge E hash = false) hp c r hc href hr => ?_
  · show isFullPledge E hash = true
    simp [isFullPledge, hroot.2]
  · -- the snapshot is that of the parent with the changes of the block
    have hfull : ∃ ctxt, getFullPledge db prev = some ctxt ∧ ctxt.hashRef = 0 ∧ pledgeEntry ctxt.mapPledge = o := by
      rcases ho with ⟨rfl, rfl⟩ | ⟨hp, hold⟩
      · exact ⟨{}, rfl, rfl, rfl⟩
      · exact getFullPledge_of_holds hp hold
    obtain ⟨ctxt, hget, href, rfl⟩ := hfull
    rw [if_pos hf, getFullBlockPledge, hget]
    exact ⟨_, rfl, href, pledgeEntry_snapshot _ _⟩
  · rw [hf, if_neg Bool.false_ne_true, getIncrementBlockPledge, getPledge_of_ne hp, hr]
    exact ⟨_, if_pos href, rfl, pledgeEntry_first_increment _ _⟩
  · rw [hf, if_neg Bool.false_ne_true, getIncrementBlockPledge, getPledge_of_ne hp, hc]
    exact ⟨_, if_neg href, rfl, pledgeEntry_increment _ _ _⟩

end

end Minemon
