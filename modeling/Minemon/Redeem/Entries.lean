import Minemon.Lib.Snapshot
import Minemon.Storage.RedeemDB

/-!
# The entries of the redeem database

What the operations of the redeem database do to the entry of one address, and the database as snapshots
and increments. An increment holds whole entries, copied from the snapshot when they are first changed.

* `exact_addBlockRedeem`: `AddBlockRedeem` on a tree of blocks.
-/

namespace Minemon

/-! ## One entry -/

/-- The balance and the lock of each address. -/
abbrev RedeemEntries := CDestination → Option CDestRedeem

def redeemEvents (nHeight : ℕ) (o : RedeemEntries) (vTxRedeem : List (CDestination × ℤ)) : RedeemEntries :=
  vTxRedeem.foldl
    (fun o kv => if kv.2 = 0 then o
      else Function.update o kv.1 (some (addRedeemValue nHeight ((o kv.1).getD {}) kv.2))) o

/-- The entries after a block: a snapshot drops those with no balance. -/
def redeemStep (fFull : Bool) (nHeight : ℕ) (o : RedeemEntries) (vTxRedeem : List (CDestination × ℤ)) :
    RedeemEntries := fun a =>
  if fFull then (redeemEvents nHeight o vTxRedeem a).filter fun r => r.nBalance > 0
  else redeemEvents nHeight o vTxRedeem a

theorem redeemEvents_apply (nHeight : ℕ) (o : RedeemEntries) (vTxRedeem : List (CDestination × ℤ))
    (dest : CDestination) :
    redeemEvents nHeight o vTxRedeem dest =
      ((vTxRedeem.filter fun kv => kv.1 = dest).map Prod.snd).foldl
        (fun o v => if v = 0 then o else some (addRedeemValue nHeight (o.getD {}) v)) (o dest) := by
  induction vTxRedeem generalizing o with
  | nil => rfl
  | cons kv l ih =>
    rw [redeemEvents, List.foldl_cons, ← redeemEvents, ih]
    by_cases hk : kv.1 = dest
    · subst hk
      rw [List.filter_cons_of_pos (by simp), List.map_cons, List.foldl_cons]
      congr 1
      split_ifs
      · rfl
      · exact Function.update_self _ _ _
    · rw [List.filter_cons_of_neg (by simpa using hk)]
      congr 1
      split_ifs
      · rfl
      · exact Function.update_of_ne (Ne.symm hk) _ _

theorem find?_overwriteRedeem (ref inc : OrdMap CDestination CDestRedeem) (a : CDestination) :
    (overwriteRedeem ref inc).find? a = (inc.find? a).or (ref.find? a) := by
  refine (OrdMap.find?_foldl_upsert (fun r _ => r) inc.keys_nodup ref a).trans ?_
  show (inc.find? a).elim _ _ = _
  cases inc.find? a <;> rfl

theorem find?_fullRedeem (hashBlock : ℕ) (vTxRedeem : List (CDestination × ℤ)) (m : OrdMap CDestination CDestRedeem) :
    (fullRedeem hashBlock vTxRedeem m).mapRedeem.find? =
      redeemStep true (getBlockHeightByHash hashBlock) m.find? vTxRedeem := by
  have hevents : (vTxRedeem.foldl (fun m kv => if kv.2 = 0 then m
      else m.upsert kv.1 fun r => addRedeemValue (getBlockHeightByHash hashBlock) (r.getD {}) kv.2) m).find? =
      redeemEvents (getBlockHeightByHash hashBlock) m.find? vTxRedeem := by
    induction vTxRedeem generalizing m with
    | nil => rfl
    | cons kv l ih =>
      rw [List.foldl_cons, ih, redeemEvents, redeemEvents, List.foldl_cons]
      congr 1
      split_ifs
      · rfl
      · funext a
        rw [OrdMap.find?_upsert, Function.update_apply]
  funext a
  exact (OrdMap.find?_filter _ _ a).trans (by rw [hevents]; rfl)

theorem find?_overwrite_incRedeem (hashBlock : ℕ) (vTxRedeem : List (CDestination × ℤ))
    (ref inc : OrdMap CDestination CDestRedeem) :
    (overwriteRedeem ref (incRedeem hashBlock vTxRedeem ref inc)).find? =
      redeemEvents (getBlockHeightByHash hashBlock) (overwriteRedeem ref inc).find? vTxRedeem := by
  induction vTxRedeem generalizing inc with
  | nil => rfl
  | cons kv l ih =>
    rw [incRedeem, List.foldl_cons, ← incRedeem, ih, redeemEvents, redeemEvents, List.foldl_cons]
    congr 1
    split_ifs
    · rfl
    · funext a
      rw [find?_overwriteRedeem, OrdMap.find?_upsert, Function.update_apply, find?_overwriteRedeem,
        find?_overwriteRedeem]
      split_ifs
      · cases inc.find? kv.1 <;> rfl
      · rfl

/-! ## The database as snapshots and increments -/

/-- The redeem database: the snapshots are at the blocks for which `IsFullRedeem` holds. -/
def redeemScheme (E : Env) :
    Snapshot.Scheme ℕ CRedeemContext (OrdMap CDestination CDestRedeem) (List (CDestination × ℤ)) RedeemEntries where
  null := 0
  isFull := isFullRedeem E
  ref := CRedeemContext.hashRef
  map := CRedeemContext.mapRedeem
  view := overwriteRedeem
  obs := OrdMap.find?
  init := fun _ => none
  step := fun fFull o e => redeemStep fFull (getBlockHeightByHash e.1) o e.2

section

variable {E : Env} {T : Snapshot.Tree ℕ (List (CDestination × ℤ))} {db : ℕ → Option CRedeemContext} {hash prev : ℕ}
  {o : RedeemEntries}

theorem getRedeem_of_ne {hash : ℕ} (h : hash ≠ 0) : getRedeem db hash = db hash := if_neg h

theorem holds_redeem_iff : Snapshot.Holds (redeemScheme E) T db hash o ↔
    ∃ c, db hash = some c ∧
      if isFullRedeem E hash then c.hashRef = 0 ∧ c.mapRedeem.find? = o
      else c.hashRef ≠ 0 ∧ isFullRedeem E c.hashRef = true ∧ T c.hashRef ≠ none ∧
        ∃ r, db c.hashRef = some r ∧ r.hashRef = 0 ∧ (overwriteRedeem r.mapRedeem c.mapRedeem).find? = o :=
  Iff.rfl

theorem retrieve_of_holds (hne : hash ≠ 0) (h : Snapshot.Holds (redeemScheme E) T db hash o) :
    ∃ ctxt, retrieve db hash = some ctxt ∧ ctxt.hashRef = 0 ∧ ctxt.mapRedeem.find? = o := by
  obtain ⟨c, hc, hform⟩ := holds_redeem_iff.1 h
  unfold retrieve
  rw [getRedeem_of_ne hne, hc]
  split_ifs at hform with hf
  · obtain ⟨href, hobs⟩ := hform
    exact ⟨c, if_pos href, href, hobs⟩
  · obtain ⟨href, -, -, r, hr, -, hobs⟩ := hform
    refine ⟨⟨0, overwriteRedeem r.mapRedeem c.mapRedeem⟩, ?_, rfl, hobs⟩
    simp only [if_neg href, getRedeem_of_ne href, hr]

theorem getAddressRedeem_of_holds (hne : hash ≠ 0) (h : Snapshot.Holds (redeemScheme E) T db hash o)
    (dest : CDestination) : getAddressRedeem E db hash dest = some ((o dest).getD {}) := by
  obtain ⟨c, hc, hform⟩ := holds_redeem_iff.1 h
  unfold getAddressRedeem
  simp only [if_neg hne, hc]
  split_ifs at hform with hf
  · obtain ⟨-, rfl⟩ := hform
    cases hfind : c.mapRedeem.find? dest with
    | some redeem => rfl
    | none => simp [hf]
  · obtain ⟨href, -, -, r, hr, -, rfl⟩ := hform
    rw [find?_overwriteRedeem]
    cases hfind : c.mapRedeem.find? dest with
    | some redeem => rfl
    | none => simp [hf, href, hr]

theorem getFullBlockRedeem_eq (hash prev : ℕ) (vTxRedeem : List (CDestination × ℤ)) :
    getFullBlockRedeem db hash prev vTxRedeem =
      (retrieve db prev).map fun ctxt => fullRedeem hash vTxRedeem ctxt.mapRedeem := by
  unfold getFullBlockRedeem retrieve
  cases getRedeem db prev with
  | none => rfl
  | some ctxt =>
    by_cases href : ctxt.hashRef = 0
    · simp only [if_pos href]
      rfl
    · simp only [if_neg href]
      cases getRedeem db ctxt.hashRef <;> rfl

/-- **`AddBlockRedeem`** on a tree of blocks. -/
theorem exact_addBlockRedeem (h : Snapshot.Exact (redeemScheme E) T db) (fresh : T hash = none) (hne : hash ≠ 0)
    (hprev : prev = 0 ∧ getBlockHeightByHash hash = 0 ∨ T prev ≠ none) (d : List (CDestination × ℤ)) :
    ∃ c, addBlockRedeem E db hash prev d = some c ∧
      Snapshot.Exact (redeemScheme E) (Function.update T hash (some (prev, d))) (Function.update db hash (some c)) := by
  unfold addBlockRedeem
  refine h.extend fresh hne (hprev.imp_left fun hroot => ⟨hroot.1, ?_⟩)
    (fun (hf : isFullRedeem E hash = true) o ho => ?_) (fun (hf : isFullRedeem E hash = false) hp r hr href => ?_)
    fun (hf : isFullRedeem E hash = false) hp c r hc (href : c.hashRef ≠ 0) (hr : db c.hashRef = some r) => ?_
  · show isFullRedeem E hash = true
    simp [isFullRedeem, hroot.2]
  · have hfull : ∃ ctxt, retrieve db prev = some ctxt ∧ ctxt.hashRef = 0 ∧ ctxt.mapRedeem.find? = o := by
      rcases ho with ⟨rfl, rfl⟩ | ⟨hp, hold⟩
      · exact ⟨{}, rfl, rfl, rfl⟩
      · exact retrieve_of_holds hp hold
    obtain ⟨ctxt, hget, -, rfl⟩ := hfull
    rw [if_pos hf, getFullBlockRedeem_eq, hget]
    exact ⟨_, rfl, rfl, find?_fullRedeem hash d _⟩
  · rw [hf, if_neg Bool.false_ne_true, getIncrementBlockRedeem, getRedeem_of_ne hp, hr]
    exact ⟨_, if_pos href, rfl, find?_overwrite_incRedeem _ d r.mapRedeem OrdMap.empty⟩
  · rw [hf, if_neg Bool.false_ne_true, getIncrementBlockRedeem, getRedeem_of_ne hp, hc]
    simp only [if_neg href, getRedeem_of_ne href, hr]
    exact ⟨_, rfl, rfl, find?_overwrite_incRedeem _ d r.mapRedeem c.mapRedeem⟩

end

end Minemon
