import Minemon.Pool.Sequence

/-!
# The entries of the pool

An entry of `mapTx` keeps what `AddNew` has checked of its transaction, for as long as it stays.

* `PoolRun.entries`: what holds of every transaction that `AddNew` admits holds of every entry.
-/

namespace Minemon

def EntriesSat (Q : CTransaction × CDestination × ℤ × ℕ → Prop) (mapTx : MapTx) : Prop :=
  ∀ j c, (mapTx.find? j).map CPooledTx.content = some c → Q c

variable {E : Env} {rank : ℕ → ℕ} {fuel n : ℕ} {Q : CTransaction × CDestination × ℤ × ℕ → Prop} {w w' : PoolViews}
  {R : List CTransaction}

theorem EntriesSat.renumbered {S : ℕ → Prop} {mapTx mapTx' : MapTx} (h : EntriesSat Q mapTx)
    (hr : Renumbered S mapTx mapTx') : EntriesSat Q mapTx' := by
  intro j c hc
  rw [hr.content] at hc
  exact h j c hc

theorem EntriesSat.of_find {mapTx mapTx' : MapTx} (h : EntriesSat Q mapTx)
    (hfind : ∀ j t, mapTx'.find? j = some t → mapTx.find? j = some t) : EntriesSat Q mapTx' := by
  intro j c hc
  obtain ⟨t, ht, rfl⟩ := Option.map_eq_some_iff.1 hc
  exact h j _ (by rw [hfind j t ht]; rfl)

def Admits (E : Env) (Q : CTransaction × CDestination × ℤ × ℕ → Prop) : Prop :=
  ∀ s w tx nForkHeight hashLastBlock destIn nValueIn,
    Admitted E s w tx nForkHeight hashLastBlock destIn nValueIn → Q (tx, destIn, nValueIn, tx.getSerializeSize)

theorem EntriesSat.insertTx (h : EntriesSat Q w.mapTx) (hw : ViewsOK E w) {n' : ℕ} {tx : CTransaction}
    {destIn : CDestination} {nValueIn : ℤ} {ok : Bool}
    (hins : CTxPool.insertTx E fuel w n (tx.getHash E) tx destIn nValueIn = some (ok, w', n'))
    (hnew : w.mapTx.find? (tx.getHash E) = none) (hQ : Q (tx, destIn, nValueIn, tx.getSerializeSize)) :
    EntriesSat Q w'.mapTx := by
  obtain ⟨-, -, -, hcontent⟩ := hw.insertTx hins rfl (fun t ht => by simp [hnew] at ht) fun hl => by
    obtain ⟨t, ht, -⟩ := hw.involved.find_linked hl
    simp [hnew] at ht
  intro j c hc
  rw [hcontent] at hc
  split_ifs at hc with hj
  · rw [hnew] at hc
    rw [← Option.some.inj hc]
    exact hQ
  · exact h j c hc

theorem CTxPool.eraseInvolved_find (w : PoolViews) {j : ℕ} {t : CPooledTx}
    (h : (eraseInvolved w).mapTx.find? j = some t) : w.mapTx.find? j = some t := by
  unfold eraseInvolved at h
  dsimp only at h
  rw [OrdMap.find?_foldl_erase] at h
  split_ifs at h
  exact h

theorem SyncOrder.invalidateSpent_entries {out : CTxOutPoint} (h : SyncOrder E rank fuel R w n ∧ EntriesSat Q w.mapTx)
    (hw : w.invalidateSpent E fuel out = some w') : SyncOrder E rank fuel R w' n ∧ EntriesSat Q w'.mapTx :=
  PoolViews.invalidateSpent_rule (fun w => SyncOrder E rank fuel R w n ∧ EntriesSat Q w.mapTx)
    (fun _ _ _ _ h hs => ⟨h.1.invalidateStep hs, h.2.renumbered (h.1.views.invalidateStep_entries hs)⟩) h hw

theorem SyncOrder.entriesRule (hQ : Admits E Q) (s : CBlockBase) (update : CBlockChainUpdate) :
    CTxPool.SyncRule E fuel s update fun R w n => SyncOrder E rank fuel R w n ∧ EntriesSat Q w.mapTx := by
  refine ⟨fun h hw => SyncOrder.invalidateSpent_entries h hw, fun {R w n txid view} h htxid hview => ?_,
    fun {tx R w n err w' n'} h hadd => ?_⟩
  · refine ⟨h.1.mined htxid hview, h.2.of_find fun j t ht => ?_⟩
    rw [OrdMap.find?_erase] at ht
    split_ifs at ht
    exact ht
  · refine ⟨h.1.back hadd, ?_⟩
    have hentries : EntriesSat Q w'.mapTx := by
      obtain ⟨-, rfl, -⟩ | ⟨ok, destIn, nValueIn, hadmitted, hins, -⟩ := CTxPool.addNew_cases hadd
      · exact h.2
      · exact h.2.insertTx h.1.views hins (h.1.new tx List.mem_cons_self).2 (hQ _ _ _ _ _ _ _ hadmitted)
    split_ifs
    · exact hentries
    · exact hentries

theorem PoolRun.entries (hQ : Admits E Q) {pool : CTxPool} (run : PoolRun E (Orderly E rank) pool) :
    EntriesSat Q pool.mapTx := by
  induction run with
  | empty =>
    intro j c hc
    simp at hc
  | call run hP hcall ih =>
    rename_i pool pool' fuel x
    have horder := run.orderInv
    cases x with
    | push s tx =>
      obtain ⟨⟨err, r, pool1⟩, hpush, rfl⟩ := Option.map_eq_some_iff.1 hcall
      obtain ⟨-, hsame⟩ | ⟨last, l, ok, destIn, nValueIn, w, n, -, hnone, -, hadmitted, hins, -, hpool⟩ :=
        CTxPool.push_cases hpush
      · dsimp only
        rwa [hsame]
      · dsimp only
        rw [hpool]
        exact EntriesSat.insertTx (w := pool.views) ih horder.viewsOK hins hnone (hQ _ _ _ _ _ _ _ hadmitted)
    | pop txid =>
      obtain ⟨-, rfl⟩ | ⟨t, view, w1, w, -, hview, hw1, hw, rfl⟩ := CTxPool.pop_cases hcall
      · exact ih
      · have hdone := SyncOrder.invalidateSpent_entries
          (SyncOrder.invalidateSpent_entries ⟨horder.popOrder hview, ih⟩ hw1) hw
        exact hdone.2.of_find fun j t => CTxPool.eraseInvolved_find w
    | sync s update =>
      obtain ⟨⟨change, pool1⟩, hsync, rfl⟩ := Option.map_eq_some_iff.1 hcall
      obtain ⟨w, hw, hmap, -, -⟩ := CTxPool.sync_rule (SyncOrder.entriesRule hQ s update)
        ⟨horder.syncOrder hP, ih⟩ hsync
      dsimp only
      rw [hmap]
      exact hw.2.of_find fun j t => CTxPool.eraseInvolved_find w
    | load s vTx => exact absurd hP id

end Minemon
