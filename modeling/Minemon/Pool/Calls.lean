import Minemon.Pool.Frames

/-!
# The calls of the pool, step by step

What each call can do to the views, said once, and a rule for the invariants of each loop.

* `PoolViews.InvalidateStep`, `PoolViews.invalidateLoop_rule`: one turn of `InvalidateSpent`, and all of them.
* `CTxPool.sync_rule`: an invariant of `SynchronizeBlockChain` from its steps.
-/

namespace Minemon

/-! ## InvalidateSpent, turn by turn -/

namespace PoolViews

/-- One turn of `InvalidateSpent`: the output is dropped, or its pooled spender moves to the involved view. -/
inductive InvalidateStep (E : Env) (nFuel : ℕ) (w : PoolViews) (out : CTxOutPoint) :
    PoolViews → List CTxOutPoint → Prop
  | drop (h : w.txView.getSpent out = 0 ∨ ¬w.txView.Linked (w.txView.getSpent out)) :
      InvalidateStep E nFuel w out { w with txView := w.txView.eraseSpent out } []
  | leave {link : CPooledTxLink} {t : CPooledTx} {view viewInvolvedTx : CTxPoolView} {mapTx : MapTx} {ok : Bool}
      (hspent : w.txView.getSpent out ≠ 0) (hget : w.txView.get (w.txView.getSpent out) = some link)
      (ht : w.mapTx.find? link.ptx = some t) (hset : CTxPoolView.setUnspents w.mapTx t.tx.vInput w.txView = some view)
      (hadd : w.viewInvolvedTx.addNew E nFuel w.mapTx (w.txView.getSpent out) link.ptx =
        some (ok, mapTx, viewInvolvedTx)) :
      InvalidateStep E nFuel w out
        ⟨mapTx, (leaveOutput (leaveOutput view ⟨w.txView.getSpent out, 0⟩).1
          ⟨w.txView.getSpent out, 1⟩).1.eraseLink (w.txView.getSpent out), viewInvolvedTx, w.fAdded && ok⟩
        ((leaveOutput view ⟨w.txView.getSpent out, 0⟩).2 ++ (leaveOutput
          (leaveOutput view ⟨w.txView.getSpent out, 0⟩).1 ⟨w.txView.getSpent out, 1⟩).2)

/-- **The rule for `InvalidateSpent`**: what every turn keeps, the loop keeps. The list is part of the invariant. -/
theorem invalidateLoop_rule {E : Env} {nFuel : ℕ} (Inv : PoolViews → List CTxOutPoint → Prop)
    (step : ∀ w out l w' l', Inv w (out :: l) → InvalidateStep E nFuel w out w' l' → Inv w' (l ++ l'))
    (fuel : ℕ) {w w' : PoolViews} {l : List CTxOutPoint} (hw : Inv w l)
    (h : invalidateLoop E nFuel fuel w l = some w') : Inv w' [] := by
  fun_induction invalidateLoop E nFuel fuel w l with
  | case1 => rwa [← Option.some.inj h]
  | case2 | case4 | case5 | case6 => cases h
  | case3 _ w out l _ hnone ih =>
    refine ih ?_ h
    have hdrop : w.txView.getSpent out = 0 ∨ ¬w.txView.Linked (w.txView.getSpent out) := by
      split_ifs at hnone with h0
      · exact Or.inl h0
      · exact Or.inr (CTxPoolView.get_eq_none.1 hnone)
    simpa using step w out l _ _ hw (.drop hdrop)
  | case7 _ w out l _ link hlink t ht view hset _ _ h0 _ _ h1 ok mapTx inv hadd ih =>
    split_ifs at hlink with hspent
    refine ih ?_ h
    rw [List.append_assoc]
    have hstep := step w out l _ _ hw (.leave hspent hlink ht hset hadd)
    rwa [h0, h1] at hstep

theorem invalidateSpent_rule {E : Env} {fuel : ℕ} (Inv : PoolViews → Prop)
    (step : ∀ w out w' l', Inv w → InvalidateStep E fuel w out w' l' → Inv w') {w w' : PoolViews}
    {out : CTxOutPoint} (hw : Inv w) (h : w.invalidateSpent E fuel out = some w') : Inv w' :=
  invalidateLoop_rule (fun w _ => Inv w) (fun w out _ w' l' => step w out w' l') fuel hw h

theorem setTxLinkIndex_leaveOutput (view : CTxPoolView) (out : CTxOutPoint) :
    (leaveOutput view out).1.setTxLinkIndex = view.setTxLinkIndex := by
  unfold leaveOutput
  split_ifs <;> rfl

end PoolViews

/-! ## AddNew and Push -/

/-- What `AddNew` has checked about a transaction that it inserts, and the data it keeps with it. -/
structure Admitted (E : Env) (s : CBlockBase) (w : PoolViews) (tx : CTransaction)
    (nForkHeight hashLastBlock : ℕ) (destIn : CDestination) (nValueIn : ℤ) : Prop where
  unspent : ∀ o ∈ tx.vInput, w.txView.getSpent o = 0
  found : ∀ o ∈ tx.vInput, (CTxPool.prevOutput s w.txView o).isNull = false
  verified : verifyTransaction E s w.mapTx tx (tx.vInput.map (CTxPool.prevOutput s w.txView)) nForkHeight
    hashLastBlock s.hashFork = some .OK
  destIn_eq : destIn = ((tx.vInput.map (CTxPool.prevOutput s w.txView)).head?.map CTxOut.destTo).getD CDestination.null
  nValueIn_eq : nValueIn =
    (tx.vInput.map (CTxPool.prevOutput s w.txView)).foldl (fun n output => wrap64 (n + output.nAmount)) 0

namespace CTxPool

variable {E : Env} {fuel : ℕ} {s : CBlockBase}

variable {w w' : PoolViews} {n n' txid : ℕ} {tx : CTransaction} {err : Errno} {pool pool' : CTxPool}

theorem insertTx_cases {destIn : CDestination} {nValueIn : ℤ}
    {ok : Bool} (h : insertTx E fuel w n txid tx destIn nValueIn = some (ok, w', n')) :
    ∃ mapTx mapTx' view', mapTx = w.mapTx.upsert txid
        (fun t => t.getD (CPooledTx.ofTx tx (getSequenceNumber w.mapTx n).1 destIn nValueIn)) ∧
      w.txView.addNew E fuel mapTx txid txid = some (ok, mapTx', view') ∧
      w' = { w with mapTx := mapTx', txView := view', fAdded := w.fAdded && ok } ∧
      n' = (getSequenceNumber w.mapTx n).2 := by
  unfold insertTx at h
  dsimp only at h
  split at h
  · simp at h
  · rename_i ok1 mapTx' view' hadd
    simp only [Option.some.injEq, Prod.mk.injEq] at h
    rw [h.1] at hadd
    exact ⟨_, mapTx', view', rfl, hadd, by rw [← h.2.1, h.1], h.2.2.symm⟩

theorem addNew_cases {nForkHeight hashLastBlock : ℕ}
    (h : addNew E fuel s w n txid tx nForkHeight hashLastBlock = some (err, w', n')) :
    (err ≠ .OK ∧ w' = w ∧ n' = n) ∨
      ∃ ok destIn nValueIn, Admitted E s w tx nForkHeight hashLastBlock destIn nValueIn ∧
        insertTx E fuel w n txid tx destIn nValueIn = some (ok, w', n') ∧ (err = .OK ↔ ok = true) := by
  unfold addNew at h
  dsimp only at h
  split_ifs at h with hspent hnull
  · obtain ⟨rfl, rfl, rfl⟩ := by simpa using h
    exact Or.inl ⟨by decide, rfl, rfl⟩
  · obtain ⟨rfl, rfl, rfl⟩ := by simpa using h
    exact Or.inl ⟨by decide, rfl, rfl⟩
  · split at h
    · simp at h
    · rename_i hverify
      right
      have hadmitted : Admitted E s w tx nForkHeight hashLastBlock _ _ :=
        ⟨by simpa [CTxPoolView.isSpent] using hspent, by simpa using hnull, hverify, rfl, rfl⟩
      split at h
      · simp at h
      · rename_i w1 n1 hins
        obtain ⟨rfl, rfl, rfl⟩ := by simpa using h
        exact ⟨true, _, _, hadmitted, hins, by simp⟩
      · rename_i w1 n1 hins
        obtain ⟨rfl, rfl, rfl⟩ := by simpa using h
        exact ⟨false, _, _, hadmitted, hins, by simp⟩
    · rename_i err' hne hverify
      obtain ⟨rfl, rfl, rfl⟩ := by simpa using h
      exact Or.inl ⟨fun heq => hne (by rw [heq]), rfl, rfl⟩

/-- **What `Push` does**: nothing, or it inserts a transaction that is new and admitted. -/
theorem push_cases {r : Option (CDestination × ℤ)}
    (h : pool.push E fuel s tx = some (err, r, pool')) :
    (err ≠ .OK ∧ pool' = pool) ∨
      ∃ last l ok destIn nValueIn w n, s.pIndexLast = last :: l ∧ pool.mapTx.find? (tx.getHash E) = none ∧
        tx.isMintTx = false ∧ Admitted E s pool.views tx last.nHeight last.hashBlock destIn nValueIn ∧
        insertTx E fuel pool.views pool.nLastSequenceNumber (tx.getHash E) tx destIn nValueIn = some (ok, w, n) ∧
        (err = .OK ↔ ok = true ∧ w.txView.Linked (tx.getHash E)) ∧
        pool' = { pool.withViews w with nLastSequenceNumber := n } := by
  have hself : ∀ pool : CTxPool, { pool.withViews pool.views with nLastSequenceNumber := pool.nLastSequenceNumber }
      = pool := fun _ => rfl
  unfold push at h
  dsimp only at h
  split_ifs at h with hhave hmint
  · obtain ⟨rfl, rfl, rfl⟩ := by simpa using h
    exact Or.inl ⟨by decide, rfl⟩
  · obtain ⟨rfl, rfl, rfl⟩ := by simpa using h
    exact Or.inl ⟨by decide, rfl⟩
  · split at h
    · obtain ⟨rfl, rfl, rfl⟩ := by simpa using h
      exact Or.inl ⟨by decide, rfl⟩
    · rename_i last l hlast
      have hnew : pool.mapTx.find? (tx.getHash E) = none := by simpa using hhave
      split at h
      · simp at h
      · rename_i w n hadd
        obtain ⟨hne, -⟩ | ⟨ok, destIn, nValueIn, hadmitted, hins, hok⟩ := addNew_cases hadd
        · exact absurd rfl hne
        · refine Or.inr ⟨last, l, ok, destIn, nValueIn, w, n, hlast, hnew, by simpa using hmint, hadmitted, hins, ?_⟩
          split at h
          · rename_i hget
            obtain ⟨rfl, -, rfl⟩ := by simpa using h
            exact ⟨⟨fun herr => absurd herr (by decide), fun hin => absurd hin.2 (CTxPoolView.get_eq_none.1 hget)⟩, rfl⟩
          · rename_i link hlink
            split at h
            · simp at h
            · simp only [Option.some.injEq, Prod.mk.injEq] at h
              exact ⟨⟨fun _ => ⟨hok.1 rfl, CTxPoolView.get_isSome.1 (Option.isSome_of_mem hlink)⟩, fun _ => h.1.symm⟩,
                h.2.2.symm⟩
      · rename_i err' w n hne hadd
        obtain ⟨rfl, rfl, rfl⟩ := by simpa using h
        obtain ⟨hne', rfl, rfl⟩ | ⟨ok, destIn, nValueIn, hadmitted, hins, hok⟩ := addNew_cases hadd
        · exact Or.inl ⟨hne', hself pool⟩
        · exact Or.inr ⟨last, l, ok, destIn, nValueIn, w, n, hlast, hnew, by simpa using hmint, hadmitted, hins,
            ⟨fun herr => absurd herr hne, fun hin => hok.2 hin.1⟩, rfl⟩

theorem pop_cases (h : pool.pop E fuel txid = some pool') :
    (pool.mapTx.find? txid = none ∧ pool' = pool) ∨
      ∃ t view w1 w, pool.mapTx.find? txid = some t ∧ pool.txView.remove pool.mapTx txid = some view ∧
        PoolViews.invalidateSpent E fuel { pool.views with txView := view } ⟨txid, 0⟩ = some w1 ∧
        w1.invalidateSpent E fuel ⟨txid, 1⟩ = some w ∧ pool' = pool.withViews (eraseInvolved w) := by
  unfold pop at h
  split at h
  · rename_i hnone
    exact Or.inl ⟨hnone, (Option.some.inj h).symm⟩
  · rename_i t ht
    split at h
    · simp at h
    · rename_i view hview
      split at h
      · simp at h
      · rename_i w1 hw1
        split at h
        · simp at h
        · rename_i w hw
          exact Or.inr ⟨t, view, w1, w, ht, hview, hw1, hw, (Option.some.inj h).symm⟩

/-! ## SynchronizeBlockChain -/

/-- A transaction that is put back, with the marks of its outputs restored. -/
def restored (w w' : PoolViews) (txid : ℕ) : PoolViews :=
  let spent0 := w.txView.getSpent ⟨txid, 0⟩
  let spent1 := w.txView.getSpent ⟨txid, 1⟩
  { w' with txView := restoreSpent (restoreSpent w'.txView ⟨txid, 0⟩ spent0) ⟨txid, 1⟩ spent1 }

theorem setTxLinkIndex_restored (w w' : PoolViews) (txid : ℕ) :
    (restored w w' txid).txView.setTxLinkIndex = w'.txView.setTxLinkIndex := by
  have hlinks : ∀ (view : CTxPoolView) (out : CTxOutPoint) (n : ℕ),
      (restoreSpent view out n).setTxLinkIndex = view.setTxLinkIndex := fun view out n => by
    unfold restoreSpent
    split_ifs <;> rfl
  unfold restored
  dsimp only
  rw [hlinks, hlinks]

/-- The transactions of a list that are put back when their block is removed. -/
def backOf (E : Env) (setTxUpdate : List ℕ) (vtx : List CTransaction) : List CTransaction :=
  vtx.filter fun tx => !tx.isMintTx && tx.getHash E ∉ setTxUpdate

/-- Those of all removed blocks, as `SynchronizeBlockChain` comes to them. -/
def backTxs (E : Env) (update : CBlockChainUpdate) : List CTransaction :=
  backOf E update.setTxUpdate (update.vBlockRemove.reverse.flatMap fun b => b.block.vtx)

/-- A transaction loses an input, one is mined, one is put back. The list has those still to be put back. -/
structure SyncRule (E : Env) (fuel : ℕ) (s : CBlockBase) (update : CBlockChainUpdate)
    (Inv : List CTransaction → PoolViews → ℕ → Prop) : Prop where
  invalidate : ∀ {R w n out w'}, Inv R w n → w.invalidateSpent E fuel out = some w' → Inv R w' n
  mined : ∀ {R w n txid view}, Inv R w n → w.txView.Linked txid → w.txView.remove w.mapTx txid = some view →
    Inv R { w with txView := view, mapTx := w.mapTx.erase txid } n
  back : ∀ {tx R w n err w' n'}, Inv (tx :: R) w n →
    addNew E fuel s w n (tx.getHash E) tx update.nLastBlockHeight update.hashLastBlock = some (err, w', n') →
    Inv R (if err = .OK then restored w w' (tx.getHash E) else w') n'

namespace SyncRule

variable {update : CBlockChainUpdate} {Inv : List CTransaction → PoolViews → ℕ → Prop}
  {R : List CTransaction}

theorem invalidateInputs (rule : SyncRule E fuel s update Inv) {l : List CTxOutPoint} (hw : Inv R w n)
    (h : CTxPool.invalidateInputs E fuel l w = some w') : Inv R w' n := by
  fun_induction CTxPool.invalidateInputs E fuel l w with
  | case1 => rwa [← Option.some.inj h]
  | case2 => cases h
  | case3 _ _ _ _ hw1 ih => exact ih (rule.invalidate hw hw1) h

variable {x x' : PoolViews × CTxSetChange} {setTxUpdate : List ℕ}

section

variable (rule : SyncRule E fuel s update Inv)

include rule

theorem connectTx {nBlockHeight : ℕ} {txContxt : CTxContxt} (hw : Inv R x.1 n)
    (h : CTxPool.connectTx E fuel setTxUpdate nBlockHeight tx txContxt x = some x') : Inv R x'.1 n := by
  unfold CTxPool.connectTx at h
  dsimp only at h
  split_ifs at h with hupdate hget
  · rw [← Option.some.inj h]
    exact hw
  · split at h
    · simp at h
    · rename_i view hview
      rw [← Option.some.inj h]
      exact rule.mined hw (CTxPoolView.get_isSome.1 hget) hview
  · split at h
    · simp at h
    · rename_i w1 hw1
      rw [← Option.some.inj h]
      exact rule.invalidateInputs hw hw1

theorem connectTxs {nBlockHeight : ℕ} {l : List (CTransaction × CTxContxt)} (hw : Inv R x.1 n)
    (h : CTxPool.connectTxs E fuel setTxUpdate nBlockHeight l x = some x') : Inv R x'.1 n := by
  fun_induction CTxPool.connectTxs E fuel setTxUpdate nBlockHeight l x with
  | case1 => rwa [← Option.some.inj h]
  | case2 => cases h
  | case3 _ _ _ _ _ hx1 ih => exact ih (rule.connectTx hw hx1) h

theorem connectBlocks {l : List CBlockEx} (hw : Inv R x.1 n)
    (h : CTxPool.connectBlocks E fuel setTxUpdate l x = some x') : Inv R x'.1 n := by
  fun_induction CTxPool.connectBlocks E fuel setTxUpdate l x with
  | case1 => rwa [← Option.some.inj h]
  | case2 => cases h
  | case3 b _ x x1 hx1 ih =>
    refine ih ?_ h
    unfold CTxPool.connectBlock at hx1
    dsimp only at hx1
    have hmint : ∀ change : CTxSetChange, CTxPool.connectTxs E fuel setTxUpdate b.block.getBlockHeight
        (b.block.vtx.zip b.vTxContxt) (x.1, change) = some x1 → Inv R x1.1 n :=
      fun change hx => rule.connectTxs (x := (x.1, change)) hw hx
    split_ifs at hx1 <;> exact hmint _ hx1

variable {x x' : Disconnect}

theorem disconnectTx (hw : Inv (backOf E update.setTxUpdate [tx] ++ R) x.w x.nLast)
    (h : CTxPool.disconnectTx E fuel s update tx x = some x') : Inv R x'.w x'.nLast := by
  unfold CTxPool.disconnectTx at h
  dsimp only at h
  split_ifs at h with hmint hupdate
  · rw [backOf, List.filter_cons_of_neg (by simp [hmint]), List.filter_nil] at hw
    split at h
    · simp at h
    · rename_i w1 hw1
      rw [← Option.some.inj h]
      exact rule.invalidate hw hw1
  · rw [backOf, List.filter_cons_of_neg (by simp [hupdate]), List.filter_nil] at hw
    rw [← Option.some.inj h]
    exact hw
  · rw [backOf, List.filter_cons_of_pos (by simp [hmint, hupdate]), List.filter_nil] at hw
    split at h
    · simp at h
    · rename_i w1 n1 hadd
      have hback := rule.back hw hadd
      rw [if_pos rfl] at hback
      rw [← Option.some.inj h]
      exact hback
    · rename_i err w1 n1 hne hadd
      have hw1 : Inv R w1 n1 := by
        have := rule.back hw hadd
        rwa [if_neg (fun heq => hne (by rw [heq]))] at this
      split at h
      · simp at h
      · rename_i w2 hw2
        split at h
        · simp at h
        · rename_i w3 hw3
          rw [← Option.some.inj h]
          exact rule.invalidate (rule.invalidate hw1 hw2) hw3

theorem disconnectTxs {l : List CTransaction}
    (hw : Inv (backOf E update.setTxUpdate l ++ R) x.w x.nLast)
    (h : CTxPool.disconnectTxs E fuel s update l x = some x') : Inv R x'.w x'.nLast := by
  fun_induction CTxPool.disconnectTxs E fuel s update l x with
  | case1 => rwa [← Option.some.inj h]
  | case2 => cases h
  | case3 _ l _ _ hx1 ih =>
    refine ih (rule.disconnectTx (R := backOf E update.setTxUpdate l ++ R) ?_ hx1) h
    rwa [← List.append_assoc, backOf, backOf, ← List.filter_append]

theorem disconnectBlock {b : CBlockEx}
    (hw : Inv (backOf E update.setTxUpdate b.block.vtx ++ R) x.w x.nLast)
    (h : CTxPool.disconnectBlock E fuel s update b x = some x') : Inv R x'.w x'.nLast := by
  unfold CTxPool.disconnectBlock at h
  split at h
  · simp at h
  · rename_i x1 hx1
    have hw1 := rule.disconnectTxs hw hx1
    dsimp only at h
    split_ifs at h with hmint
    · split at h
      · simp at h
      · rename_i w2 hw2
        rw [← Option.some.inj h]
        exact rule.invalidate hw1 hw2
    · rwa [← Option.some.inj h]

theorem disconnectBlocks {l : List CBlockEx}
    (hw : Inv (backOf E update.setTxUpdate (l.flatMap fun b => b.block.vtx)) x.w x.nLast)
    (h : CTxPool.disconnectBlocks E fuel s update l x = some x') : Inv [] x'.w x'.nLast := by
  fun_induction CTxPool.disconnectBlocks E fuel s update l x with
  | case1 => rwa [← Option.some.inj h]
  | case2 => cases h
  | case3 _ _ _ _ hx1 ih =>
    refine ih (rule.disconnectBlock ?_ hx1) h
    rwa [backOf, backOf, ← List.filter_append]

end

end SyncRule

/-- **The rule for `SynchronizeBlockChain`**: the main view of a state with the invariant, and the map without the
involved transactions. -/
theorem sync_rule {update : CBlockChainUpdate} {Inv : List CTransaction → PoolViews → ℕ → Prop}
    (rule : SyncRule E fuel s update Inv) {change : CTxSetChange}
    (hw : Inv (backTxs E update) pool.views pool.nLastSequenceNumber)
    (h : pool.synchronizeBlockChain E fuel s update = some (change, pool')) :
    ∃ w, Inv [] w pool'.nLastSequenceNumber ∧ pool'.mapTx = (eraseInvolved w).mapTx ∧ pool'.txView = w.txView ∧
      pool'.fAdded = w.fAdded := by
  unfold synchronizeBlockChain at h
  split at h
  · simp at h
  · rename_i w change1 hconnect
    split at h
    · simp at h
    · rename_i x hdisconnect
      have hw1 : Inv (backTxs E update) w pool.nLastSequenceNumber :=
        rule.connectBlocks (x := (pool.views, {})) hw hconnect
      have hx := rule.disconnectBlocks (x := ⟨w, pool.nLastSequenceNumber, change1, []⟩) hw1 hdisconnect
      dsimp only at h
      split at h
      · simp at h
      · split at h
        · simp at h
        · simp only [Option.some.injEq, Prod.mk.injEq] at h
          rw [← h.2]
          exact ⟨x.w, hx, rfl, rfl, rfl⟩

end CTxPool

end Minemon
