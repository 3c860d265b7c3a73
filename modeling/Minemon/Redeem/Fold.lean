import Minemon.Redeem.Entries
import Minemon.Service.Work
import Minemon.Storage.RedeemCache

/-!
# The redeem database as a fold of events

`AddBlockRedeem` is called once for each block of a tree, after its parent, with readings and evictions in
between. As long as no balance goes below zero, the readers give for every address with a balance what the
events on the path to the block make of it by a rule that knows nothing of snapshots.

* `redeemReaders_eq_fold`: the readers.
-/

namespace Minemon

open CachedStore

/-! ## The rule -/

/-- A deposit adds to the balance and locks all of it from this height; a withdrawal only reduces the balance. -/
def redeemRule (r : CDestRedeem) (e : ℕ × ℤ) : CDestRedeem :=
  if 0 < e.2 then ⟨r.nBalance + e.2, r.nBalance + e.2, e.1⟩ else { r with nBalance := r.nBalance + e.2 }

def redeemFold (l : List (ℕ × ℤ)) : CDestRedeem := l.foldl redeemRule {}

/-- The events of an address on a path, with the heights of their blocks. -/
def redeemEventsOf (l : List (ℕ × List (CDestination × ℤ))) (dest : CDestination) : List (ℕ × ℤ) :=
  l.flatMap fun e => (e.2.filter fun kv => kv.1 = dest).map fun kv => (getBlockHeightByHash e.1, kv.2)

/-- No event makes a balance negative or drives it out of `int64`. -/
def NeverNegative (l : List (ℕ × List (CDestination × ℤ))) : Prop :=
  ∀ dest evs, evs <+: redeemEventsOf l dest → 0 ≤ (redeemFold evs).nBalance ∧ Fits64 (redeemFold evs).nBalance

theorem redeemFold_concat (l : List (ℕ × ℤ)) (e : ℕ × ℤ) : redeemFold (l ++ [e]) = redeemRule (redeemFold l) e := by
  unfold redeemFold
  rw [List.foldl_append]
  rfl

theorem redeemEventsOf_concat (l : List (ℕ × List (CDestination × ℤ))) (e : ℕ × List (CDestination × ℤ))
    (dest : CDestination) : redeemEventsOf (l ++ [e]) dest = redeemEventsOf l dest ++
      (e.2.filter fun kv => kv.1 = dest).map fun kv => (getBlockHeightByHash e.1, kv.2) := by
  simp [redeemEventsOf]

theorem NeverNegative.init {l : List (ℕ × List (CDestination × ℤ))} {e : ℕ × List (CDestination × ℤ)}
    (h : NeverNegative (l ++ [e])) : NeverNegative l := by
  intro dest evs hevs
  refine h dest evs (hevs.trans ?_)
  rw [redeemEventsOf_concat]
  exact List.prefix_append _ _

/-! ## The entries follow the rule -/

/-- The entry is that of the rule, or both have no balance; an entry without balance may have lost its lock. -/
def Agrees (o : Option CDestRedeem) (r : CDestRedeem) : Prop :=
  o.getD {} = r ∨ r.nBalance = 0 ∧ (o.getD {}).nBalance = 0

section

variable {o : Option CDestRedeem} {r : CDestRedeem}

theorem Agrees.balance (h : Agrees o r) : (o.getD {}).nBalance = r.nBalance := by
  rcases h with rfl | ⟨h1, h2⟩
  · rfl
  · rw [h1, h2]

theorem Agrees.event (h : Agrees o r) (e : ℕ × ℤ) (hpos : 0 ≤ (redeemRule r e).nBalance)
    (hfits : Fits64 (redeemRule r e).nBalance) :
    Agrees (if e.2 = 0 then o else some (addRedeemValue e.1 (o.getD {}) e.2)) (redeemRule r e) := by
  have hbal := h.balance
  have hnew : (redeemRule r e).nBalance = r.nBalance + e.2 := by
    unfold redeemRule
    split_ifs <;> rfl
  rw [hnew] at hpos hfits
  have hwrap : wrap64 ((o.getD {}).nBalance + e.2) = r.nBalance + e.2 := by
    rw [hbal]
    exact wrap64_eq hfits
  rcases lt_trichotomy e.2 0 with hneg | hzero | hdep
  · -- a withdrawal needs a balance, so that the entry still has its lock
    rcases h with rfl | ⟨h1, -⟩
    · rw [if_neg hneg.ne]
      left
      unfold addRedeemValue redeemRule
      rw [if_neg hneg.not_gt, if_neg hneg.not_gt, hwrap]
      rfl
    · omega
  · rw [if_pos hzero]
    have : redeemRule r e = r := by
      unfold redeemRule
      rw [if_neg (by omega), hzero, add_zero]
    rw [this]
    exact h
  · rw [if_neg hdep.ne']
    left
    unfold addRedeemValue redeemRule
    rw [if_pos hdep, if_pos hdep, hwrap]
    rfl

theorem Agrees.filter (h : Agrees o r) (hpos : 0 ≤ r.nBalance) : Agrees (o.filter fun r => r.nBalance > 0) r := by
  have hbal := h.balance
  cases o with
  | none => exact h
  | some v =>
    by_cases hv : v.nBalance > 0
    · rwa [Option.filter_some, if_pos (by simpa using hv)]
    · rw [Option.filter_some, if_neg (by simpa using hv)]
      have hbal' : v.nBalance = r.nBalance := hbal
      exact Or.inr ⟨by omega, rfl⟩

theorem Agrees.events {p : List (ℕ × ℤ)} (h : Agrees o (redeemFold p)) (nHeight : ℕ) (l : List ℤ)
    (hok : ∀ evs, evs <+: p ++ l.map (fun v => (nHeight, v)) →
      0 ≤ (redeemFold evs).nBalance ∧ Fits64 (redeemFold evs).nBalance) :
    Agrees (l.foldl (fun o v => if v = 0 then o else some (addRedeemValue nHeight (o.getD {}) v)) o)
      (redeemFold (p ++ l.map fun v => (nHeight, v))) := by
  induction l generalizing o p with
  | nil => simpa using h
  | cons v l ih =>
    have heq : p ++ (v :: l).map (fun v => (nHeight, v)) = (p ++ [(nHeight, v)]) ++ l.map fun v => (nHeight, v) := by
      simp
    rw [heq] at hok ⊢
    rw [List.foldl_cons]
    have hfirst := hok _ (List.prefix_append _ _)
    rw [redeemFold_concat] at hfirst
    refine ih ?_ hok
    rw [redeemFold_concat]
    exact h.event (nHeight, v) hfirst.1 hfirst.2

end

/-- **The entries of the database follow the rule.** -/
theorem fold_agrees (E : Env) {l : List (ℕ × List (CDestination × ℤ))} (hok : NeverNegative l) (dest : CDestination) :
    Agrees ((redeemScheme E).fold l dest) (redeemFold (redeemEventsOf l dest)) := by
  induction l using List.reverseRecOn with
  | nil => exact Or.inl rfl
  | append_singleton l e ih =>
    have hevs := fun evs => hok dest evs
    rw [redeemEventsOf_concat] at hevs
    have hmap : (e.2.filter fun kv => kv.1 = dest).map (fun kv => (getBlockHeightByHash e.1, kv.2)) =
        ((e.2.filter fun kv => kv.1 = dest).map Prod.snd).map fun v => (getBlockHeightByHash e.1, v) := by
      rw [List.map_map]
      rfl
    rw [hmap] at hevs
    have hstep := (ih hok.init).events (getBlockHeightByHash e.1) _ hevs
    rw [← redeemEvents_apply, ← hmap, ← redeemEventsOf_concat] at hstep
    rw [Snapshot.Scheme.fold_concat]
    show Agrees (redeemStep _ _ _ _ dest) _
    unfold redeemStep
    split_ifs
    · exact hstep.filter (hok dest _ (List.prefix_refl _)).1
    · exact hstep

/-! ## The readers -/

/-- Contexts of new blocks, readings, and entries dropped from the caches. The height of a root is 0. -/
inductive RedeemRun (E : Env) (fCache : Bool) : CRedeemDB → Snapshot.Tree ℕ (List (CDestination × ℤ)) → Prop
  | start : RedeemRun E fCache { fCache := fCache } fun _ => none
  | add {s T hash prev} (h : RedeemRun E fCache s T)
      (hne : hash ≠ 0) (fresh : T hash = none)
      (hprev : prev = 0 ∧ getBlockHeightByHash hash = 0 ∨ T prev ≠ none) (vTxRedeem : List (CDestination × ℤ)) :
      RedeemRun E fCache ((CRedeemDB.addBlockRedeem E hash prev vTxRedeem).run s).2
        (Function.update T hash (some (prev, vTxRedeem)))
  | blockRedeem {s T} (h : RedeemRun E fCache s T)
      (hash prev : ℕ) (vTxRedeem : List (CDestination × ℤ)) :
      RedeemRun E fCache ((CRedeemDB.getBlockRedeem E hash prev vTxRedeem).run s).2 T
  | redeem {s T} (h : RedeemRun E fCache s T) (hash : ℕ) :
      RedeemRun E fCache ((CRedeemDB.getRedeem E hash).run s).2 T
  | retrieve {s T} (h : RedeemRun E fCache s T) (hash : ℕ) :
      RedeemRun E fCache ((CRedeemDB.retrieve E hash).run s).2 T
  | addressRedeem {s T} (h : RedeemRun E fCache s T)
      (hash : ℕ) (dest : CDestination) :
      RedeemRun E fCache ((CRedeemDB.getAddressRedeem E hash dest).run s).2 T
  | evict {s s' T} (h : RedeemRun E fCache s T)
      (hs : Evicted s s') : RedeemRun E fCache s' T

section

variable {E : Env} {fCache : Bool} {s : CRedeemDB} {T : Snapshot.Tree ℕ (List (CDestination × ℤ))}

/-- **Every operation keeps the contexts exact.** -/
theorem RedeemRun.exact (h : RedeemRun E fCache s T) : Snapshot.StoredExact (redeemScheme E) fCache s T := by
  induction h with
  | start => exact Snapshot.StoredExact.new _ fCache
  | add _ hne fresh hprev d ih =>
    obtain ⟨c, hc, hexact⟩ := exact_addBlockRedeem ih.exact fresh hne hprev d
    exact ih.added (run_add (CRedeemDB.reads_getBlockRedeem E _ _ d) ih.coherent hc (ih.unwritten _ fresh)).2 hexact
  | blockRedeem _ hash prev d ih => exact ih.same (CRedeemDB.reads_getBlockRedeem E hash prev d _ ih.coherent).2
  | redeem _ hash ih => exact ih.same (CRedeemDB.reads_getRedeem E hash _ ih.coherent).2
  | retrieve _ hash ih => exact ih.same (CRedeemDB.reads_retrieve E hash _ ih.coherent).2
  | addressRedeem _ hash dest ih => exact ih.same (CRedeemDB.reads_getAddressRedeem E hash dest _ ih.coherent).2
  | evict _ hs ih => exact ih.same (hs.same ih.coherent)

/-- **The readers of the redeem database follow the rule**: for every block whose path has no event that makes
a balance negative, they give what the rule makes of the events, for every address with a balance. -/
theorem redeemReaders_eq_fold (h : RedeemRun E fCache s T) {hash : ℕ} (hin : T hash ≠ none) :
    ∃ l, Snapshot.Path T 0 hash l ∧ (NeverNegative l → ∀ dest, 0 < (redeemFold (redeemEventsOf l dest)).nBalance →
      ((CRedeemDB.getAddressRedeem E hash dest).run s).1 = some (redeemFold (redeemEventsOf l dest)) ∧
        ((CRedeemDB.retrieve E hash).run s).1.map (fun c => c.mapRedeem.find? dest) =
          some (some (redeemFold (redeemEventsOf l dest)))) := by
  have hex := h.exact
  obtain ⟨l, hl⟩ := hex.exact.path hash hin
  have hne : hash ≠ 0 := by
    rintro rfl
    exact hin hex.exact.null
  refine ⟨l, hl, fun hok dest hpos => ?_⟩
  have hfold : (redeemScheme E).fold l dest = some (redeemFold (redeemEventsOf l dest)) := by
    rcases fold_agrees E hok dest with heq | ⟨hzero, -⟩
    · cases hf : (redeemScheme E).fold l dest with
      | none =>
        rw [hf] at heq
        rw [← heq] at hpos
        exact absurd hpos (lt_irrefl 0)
      | some v =>
        rw [hf] at heq
        exact congrArg some heq
    · omega
  have hold := hex.exact.holds hash l hl
  constructor
  · rw [(CRedeemDB.reads_getAddressRedeem E hash dest s hex.coherent).1]
    refine (getAddressRedeem_of_holds hne hold dest).trans ?_
    rw [hfold]
    rfl
  · obtain ⟨c, hc, -, hobs⟩ := retrieve_of_holds hne hold
    rw [(CRedeemDB.reads_retrieve E hash s hex.coherent).1]
    show (Minemon.retrieve s.db hash).map _ = _
    rw [hc, ← hfold, ← hobs]
    rfl

def toyAddress : CDestination := ⟨CDestination.PREFIX_TEMPLATE, 3⟩

/-- A deposit in the first block and a withdrawal of a part of it in the next one. -/
def toyEvents : List (ℕ × List (CDestination × ℤ)) := [(5, [(toyAddress, 7)]), (2 ^ 224 + 5, [(toyAddress, -2)])]

theorem toyEvents_neverNegative : NeverNegative toyEvents := by
  intro dest evs hevs
  by_cases hd : dest = toyAddress
  · subst hd
    rw [show redeemEventsOf toyEvents toyAddress = [(0, 7), (1, -2)] by decide] at hevs
    simp only [List.prefix_cons_iff, List.prefix_nil] at hevs
    rcases hevs with rfl | ⟨_, rfl, rfl | ⟨_, rfl, rfl⟩⟩ <;> decide
  · have hnone : redeemEventsOf toyEvents dest = [] := by
      simp [redeemEventsOf, toyEvents, Ne.symm hd]
    rw [hnone, List.prefix_nil] at hevs
    subst hevs
    decide

/-- The lock amount and the begin height are those of the deposit, through the snapshot at height 1. -/
theorem redeemReaders_eq_fold_toy : ∃ (s : CRedeemDB) (T : Snapshot.Tree ℕ (List (CDestination × ℤ))),
    RedeemRun toyEnv true s T ∧ T (2 ^ 224 + 5) = some (5, [(toyAddress, -2)]) ∧
      ((CRedeemDB.getAddressRedeem toyEnv (2 ^ 224 + 5) toyAddress).run s).1 = some ⟨5, 7, 0⟩ ∧
        ((CRedeemDB.retrieve toyEnv (2 ^ 224 + 5)).run s).1.map (fun c => c.mapRedeem.find? toyAddress) =
          some (some ⟨5, 7, 0⟩) := by
  have hroot := @RedeemRun.add toyEnv true _ _ 5 0 .start (by decide) rfl (Or.inl ⟨rfl, by decide⟩) [(toyAddress, 7)]
  have hnext := @RedeemRun.add toyEnv true _ _ (2 ^ 224 + 5) 5 hroot (by decide)
    (Function.update_of_ne (by decide) _ _) (Or.inr (by simp)) [(toyAddress, -2)]
  obtain ⟨l, hl, hread⟩ := @redeemReaders_eq_fold toyEnv true _ _ hnext (2 ^ 224 + 5) (by simp)
  have hpath : l = toyEvents := hl.unique hnext.exact.exact.null (.step (Function.update_self _ _ _)
    (.root ((Function.update_of_ne (by decide) _ _).trans (Function.update_self _ _ _))))
  rw [hpath] at hread
  exact ⟨_, _, hnext, Function.update_self _ _ _, hread toyEvents_neverNegative toyAddress (by decide)⟩

end

end Minemon
