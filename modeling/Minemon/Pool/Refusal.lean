import Minemon.Pool.Sequence

/-!
# Refused transactions

`Push` refuses most transactions before it has touched the pool. The last refusal comes later: the transaction
is in `mapTx` by then, and the view may have lost links while it looked for numbers. Nothing is put back.

* `CTxPool.Offers`: the pool has a number for a transaction, by its links and the marks of its outputs.
* `push_refused_unchanged`: **when a refused transaction leaves the pool unchanged**, by the pool before the call.
* `refused_unchanged`: after an orderly run it does.
-/

namespace Minemon

open CTxPoolView

/-! ## The number of a new transaction -/

namespace CTxPoolView

variable {E : Env} {mapTx mapTx' : MapTx} {view view' : CTxPoolView} {txid : ℕ}

/-- `n` is free for a new transaction: `nNew` if no pooled transaction spends it, else the next number of the gap of its
lowest spender, or one below the spender where the gap has no top. -/
def Offers (mapTx : MapTx) (view : CTxPoolView) (nNew txid n : ℕ) : Prop :=
  view.getSeq n = none ∧
    match lowest mapTx view txid with
    | none => n = nNew
    | some m =>
      match gapTop mapTx view m with
      | some r => n = r.2.nextNumber
      | none => m.2.nSequenceNumber / SEQUENCE_GAP * SEQUENCE_GAP < n ∧ n < m.2.nSequenceNumber

theorem Offers.congr (h : ∀ j, view.Linked j → mapTx'.find? j = mapTx.find? j) (nNew n : ℕ) :
    Offers mapTx' view nNew txid n ↔ Offers mapTx view nNew txid n := by
  have hlinked : linkedTx mapTx' view = linkedTx mapTx view := by
    funext id
    unfold linkedTx
    cases hget : view.get id with
    | none => rfl
    | some link => rw [h id (get_isSome.1 (by rw [hget]; rfl))]
  unfold Offers lowest spenders gapTop
  rw [hlinked]

end CTxPoolView

/-! ## Push -/

section

variable {E : Env} {fuel : ℕ} {s : CBlockBase} {pool : CTxPool} {tx : CTransaction}

variable {destIn : CDestination}

namespace CTxPool

/-- The number `n` is free for a transaction that is new to the pool. -/
def Offers (pool : CTxPool) (txid n : ℕ) : Prop :=
  CTxPoolView.Offers pool.mapTx pool.txView (getSequenceNumber pool.mapTx pool.nLastSequenceNumber).1 txid n

/-- A refused transaction leaves the pool as it was. -/
def RefusedUnchanged (E : Env) (fuel : ℕ) (s : CBlockBase) (pool : CTxPool) (tx : CTransaction) : Prop :=
  ∀ err r pool', pool.push E fuel s tx = some (err, r, pool') → err ≠ .OK →
    pool'.mapTx = pool.mapTx ∧ pool'.txView = pool.txView

theorem refusedUnchanged_of_taken
    (h : ∀ last l destIn nValueIn ok w n, s.pIndexLast = last :: l → pool.mapTx.find? (tx.getHash E) = none →
      tx.isMintTx = false → Admitted E s pool.views tx last.nHeight last.hashBlock destIn nValueIn →
      insertTx E fuel pool.views pool.nLastSequenceNumber (tx.getHash E) tx destIn nValueIn = some (ok, w, n) →
      ok = true ∧ ViewsOK E pool.views) : pool.RefusedUnchanged E fuel s tx := by
  intro err r pool' hpush herr
  obtain ⟨-, rfl⟩ | ⟨last, l, ok, destIn, nValueIn, w, n, hlast, hnew, hmint, hadmitted, hins, hok, rfl⟩ :=
    push_cases hpush
  · exact ⟨rfl, rfl⟩
  · obtain ⟨rfl, hviews⟩ := h last l destIn nValueIn ok w n hlast hnew hmint hadmitted hins
    obtain ⟨-, -, hlinked, -⟩ := hviews.insertTx hins rfl (fun t ht => by simp [views, hnew] at ht)
      (by simp [views, CTxPoolView.Linked])
    exact absurd (hok.2 ⟨rfl, (hlinked rfl _).2 (Or.inr rfl)⟩) herr

theorem OrderInv.refusedUnchanged {rank : ℕ → ℕ} (h : pool.OrderInv E rank)
    (hP : Orderly E rank pool fuel (.push s tx)) : pool.RefusedUnchanged E fuel s tx := by
  obtain ⟨hranked, -, hroom, hnlast⟩ := hP
  have hB := hroom.1
  refine refusedUnchanged_of_taken fun last l destIn nValueIn ok w n _ hnew _ hadmitted hins => ⟨?_, h.viewsOK⟩
  exact (InOrder.insertTx (B := 0) (w := pool.views) (by rw [Nat.zero_add]; exact h.1.room hroom) hnlast (by omega) hins
    hnew hranked hadmitted.unspent).1

end CTxPool

/-- A transaction that spends what the grandchild spends. -/
def toyRivalTx : CTransaction := toyCoinTx 5 [toyOutput toyChild] 500000

/-- **A refused transaction changes nothing** after an orderly run. -/
theorem refused_unchanged {rank : ℕ → ℕ} (run : PoolRun E (Orderly E rank) pool)
    (hP : Orderly E rank pool fuel (.push s tx)) : ∀ err r pool', pool.push E fuel s tx = some (err, r, pool') →
      err ≠ .OK → pool'.mapTx = pool.mapTx ∧ pool'.txView = pool.txView := run.orderInv.refusedUnchanged hP

end

/-- The second spender is refused when the child has come back, and the pool keeps its two transactions. -/
theorem refused_unchanged_toy :
    ∃ pool r, PoolRun toyEnv (Orderly toyEnv id) pool ∧
      pool.push toyEnv 10 (toyStore [toyOutput toyChild]) toyRivalTx = some r ∧ r.1 ≠ .OK ∧
      r.2.2.mapTx = pool.mapTx ∧ r.2.2.txView = pool.txView ∧ pool.mapTx.keys.length = 2 := by
  obtain ⟨pool, run, hP, hpush, hsize⟩ := PoolRun.exists_calls (Orderly toyEnv id) toyBackCalls (P := fun pool =>
    Orderly toyEnv id pool 10 (.push (toyStore [toyOutput toyChild]) toyRivalTx) ∧
      ((pool.push toyEnv 10 (toyStore [toyOutput toyChild]) toyRivalTx).any fun r => r.1 ≠ .OK) = true ∧
      pool.mapTx.keys.length = 2) (by decide +kernel)
  obtain ⟨r, hpush, herr⟩ := exists_some_of_any hpush
  obtain ⟨hmap, hview⟩ := refused_unchanged run hP _ _ _ hpush herr
  exact ⟨pool, r, run, hpush, herr, hmap, hview, hsize⟩

end Minemon
