import Minemon.Pool.Calls

/-!
# Two views over one map

During a call the pool has two views of its transactions: its own one, and that of the transactions involved
in a change, which are about to leave.

* `ViewsOK`: every link of the two views points to the entry of its id, and the views share no id.
* `ViewsOK.leave`, `ViewsOK.mined`, `ViewsOK.insertTx`: what the steps of a call do to the ids.
-/

namespace Minemon

structure ViewsOK (E : Env) (w : PoolViews) : Prop where
  main : LinkIds E w.mapTx w.txView
  involved : LinkIds E w.mapTx w.viewInvolvedTx
  disjoint : ∀ id, w.txView.Linked id → ¬w.viewInvolvedTx.Linked id

namespace ViewsOK

variable {E : Env} {fuel : ℕ} {w w' : PoolViews}

section

variable (h : ViewsOK E w)

include h

theorem leave {id : ℕ} {link : CPooledTxLink} {view inv : CTxPoolView} {mapTx : MapTx} {ok : Bool}
    (hget : w.txView.get id = some link) (hview : view.setTxLinkIndex = w.txView.setTxLinkIndex)
    (hadd : w.viewInvolvedTx.addNew E fuel w.mapTx id link.ptx = some (ok, mapTx, inv)) :
    ViewsOK E ⟨mapTx, view.eraseLink id, inv, w.fAdded && ok⟩ ∧
      Renumbered (fun k => k = id ∨ w.viewInvolvedTx.Linked k) w.mapTx mapTx ∧
      (∀ j, (view.eraseLink id).Linked j ↔ w.txView.Linked j ∧ j ≠ id) ∧
      (ok = true → ∀ j, inv.Linked j ↔ w.viewInvolvedTx.Linked j ∨ j = id) := by
  obtain ⟨hptx, t, ht, hid⟩ := h.main.find hget
  rw [hptx] at hadd
  obtain ⟨hf, -⟩ := CTxPoolView.addNew_frame fuel h.involved ht hid hadd
  have hlinked : ∀ j, (view.eraseLink id).Linked j ↔ w.txView.Linked j ∧ j ≠ id := by
    intro j
    rw [CTxPoolView.linked_eraseLink]
    unfold CTxPoolView.Linked
    rw [hview]
  refine ⟨⟨((h.main.renumbered hf.entries).congr hview).eraseLink id, hf.links, fun j hj hin => ?_⟩, hf.entries,
    hlinked, hf.linked⟩
  obtain ⟨hj, hne⟩ := (hlinked j).1 hj
  rcases hf.sub j hin with hin | rfl
  · exact h.disjoint j hj hin
  · exact hne rfl

theorem invalidateStep {out : CTxOutPoint} {l : List CTxOutPoint}
    (hs : PoolViews.InvalidateStep E fuel w out w' l) : ViewsOK E w' := by
  cases hs with
  | drop => exact ⟨h.main.congr rfl, h.involved, h.disjoint⟩
  | leave _ hget _ hset hadd =>
    refine (h.leave hget ?_ hadd).1
    rw [PoolViews.setTxLinkIndex_leaveOutput, PoolViews.setTxLinkIndex_leaveOutput,
      CTxPoolView.setUnspents_links hset]

theorem invalidateStep_entries {out : CTxOutPoint} {l : List CTxOutPoint}
    (hs : PoolViews.InvalidateStep E fuel w out w' l) : Renumbered (fun _ => True) w.mapTx w'.mapTx := by
  cases hs with
  | drop => exact Renumbered.refl _ _
  | leave _ hget _ hset hadd =>
    exact (h.leave hget (CTxPoolView.setUnspents_links hset) hadd).2.1.mono fun _ _ => trivial

theorem congr (hmap : w'.mapTx = w.mapTx)
    (hmain : w'.txView.setTxLinkIndex = w.txView.setTxLinkIndex)
    (hinvolved : w'.viewInvolvedTx.setTxLinkIndex = w.viewInvolvedTx.setTxLinkIndex) : ViewsOK E w' := by
  refine ⟨?_, ?_, fun id => ?_⟩
  · rw [hmap]
    exact h.main.congr hmain
  · rw [hmap]
    exact h.involved.congr hinvolved
  · rw [CTxPoolView.Linked, CTxPoolView.Linked, hmain, hinvolved]
    exact h.disjoint id

theorem mined {txid : ℕ} {view : CTxPoolView} (htxid : w.txView.Linked txid)
    (hview : w.txView.remove w.mapTx txid = some view) :
    ViewsOK E { w with txView := view, mapTx := w.mapTx.erase txid } ∧
      ∀ j, view.Linked j ↔ w.txView.Linked j ∧ j ≠ txid := by
  have hlinked : ∀ j, view.Linked j ↔ w.txView.Linked j ∧ j ≠ txid := by
    intro j
    rw [← CTxPoolView.linked_eraseLink]
    unfold CTxPoolView.Linked
    rw [CTxPoolView.remove_links hview]
  have hother : ∀ j, j ≠ txid → (w.mapTx.erase txid).find? j = w.mapTx.find? j := fun j hj => by
    rw [OrdMap.find?_erase, if_neg hj]
  refine ⟨⟨?_, ?_, fun j hj => h.disjoint j ((hlinked j).1 hj).1⟩, hlinked⟩
  · exact ((h.main.eraseLink txid).congr (CTxPoolView.remove_links hview)).entries fun j hj =>
      hother j ((hlinked j).1 hj).2
  · refine h.involved.entries fun j hj => hother j ?_
    rintro rfl
    exact h.disjoint j htxid hj

theorem insertTx {n n' txid : ℕ} {tx : CTransaction} {destIn : CDestination} {nValueIn : ℤ}
    {ok : Bool} (hins : CTxPool.insertTx E fuel w n txid tx destIn nValueIn = some (ok, w', n'))
    (hid : tx.getHash E = txid) (hentry : ∀ t, w.mapTx.find? txid = some t → t.tx.getHash E = txid)
    (hnew : ¬w.viewInvolvedTx.Linked txid) :
    ViewsOK E w' ∧ (∀ j, (w'.mapTx.find? j).isSome = true ↔ (w.mapTx.find? j).isSome = true ∨ j = txid) ∧
      (ok = true → ∀ j, w'.txView.Linked j ↔ w.txView.Linked j ∨ j = txid) ∧
      ∀ j, (w'.mapTx.find? j).map CPooledTx.content = if j = txid then
        some (((w.mapTx.find? txid).map CPooledTx.content).getD (tx, destIn, nValueIn, tx.getSerializeSize))
        else (w.mapTx.find? j).map CPooledTx.content := by
  obtain ⟨mapTx, mapTx', view', hmap, hadd, rfl, -⟩ := CTxPool.insertTx_cases hins
  have hfind : ∀ j, mapTx.find? j = if j = txid then
      some ((w.mapTx.find? txid).getD (CPooledTx.ofTx tx (CTxPool.getSequenceNumber w.mapTx n).1 destIn nValueIn))
      else w.mapTx.find? j := fun j => by
    rw [hmap, OrdMap.find?_upsert]
  obtain ⟨u, hu, huid⟩ : ∃ u, mapTx.find? txid = some u ∧ u.tx.getHash E = txid := by
    refine ⟨_, by rw [hfind, if_pos rfl], ?_⟩
    cases ht : w.mapTx.find? txid with
    | none => exact hid
    | some t => exact hentry t ht
  -- the views before `AddNew`, over the map that has the entry
  have hmain : LinkIds E mapTx w.txView := h.main.entries fun j hj => by
    rw [hfind]
    split_ifs with hjt
    · subst hjt
      obtain ⟨t, ht, -⟩ := h.main.find_linked hj
      rw [ht]
      rfl
    · rfl
  have hinvolved : LinkIds E mapTx w.viewInvolvedTx := h.involved.entries fun j hj => by
    rw [hfind, if_neg]
    rintro rfl
    exact hnew hj
  obtain ⟨hf, -⟩ := CTxPoolView.addNew_frame fuel hmain hu huid hadd
  refine ⟨⟨hf.links, hinvolved.renumbered hf.entries, fun j hj hin => ?_⟩, fun j => ?_, hf.linked, fun j => ?_⟩
  · rcases hf.sub j hj with hj | rfl
    · exact h.disjoint j hj hin
    · exact hnew hin
  · rw [hf.entries.isSome, hfind]
    split_ifs with hj <;> simp [hj]
  · rw [hf.entries.content, hfind]
    split_ifs
    · cases w.mapTx.find? txid <;> rfl
    · rfl

end

end ViewsOK

end Minemon
