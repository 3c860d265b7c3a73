import Minemon.Pool.Refusal
import Minemon.Signing.Answered

/-!
# Transactions from other nodes

The dispatcher hands a transaction that passed `ValidateTransaction` to `Push`. This module says when `Push` has an
answer, on every chain and on every pool whose links are right and in which no transaction is its own ancestor.

* `CTxPool.push_answered_iff`: a transaction without inputs has no answer unless it is refused before its
  inputs are read.
-/

namespace Minemon

/-! ## Walks over ancestors -/

/-- The turns of a walk over all ancestors up to `k` generations back, one for each path. -/
def walkTurns (parents : ℕ → List ℕ) : ℕ → ℕ → ℕ
  | 0, _ => 1
  | k + 1, id => 1 + ((parents id).map (walkTurns parents k)).sum

section

variable {parents : ℕ → List ℕ} {rank : ℕ → ℕ}

theorem walkTurns_pos (k id : ℕ) : 0 < walkTurns parents k id := by
  cases k <;> simp only [walkTurns] <;> omega

theorem walkTurns_succ_le (k id : ℕ) : walkTurns parents k id ≤ walkTurns parents (k + 1) id := by
  induction k generalizing id with
  | zero => simp only [walkTurns]; omega
  | succ k ih =>
    rw [walkTurns, walkTurns]
    exact Nat.add_le_add_left (List.sum_le_sum fun p _ => ih p) 1

theorem walkTurns_rank (h : ∀ id, ∀ p ∈ parents id, rank p < rank id) (id : ℕ) :
    1 + ((parents id).map fun p => walkTurns parents (rank p) p).sum ≤ walkTurns parents (rank id) id := by
  have hmono : ∀ {k l : ℕ} (p : ℕ), k ≤ l → walkTurns parents k p ≤ walkTurns parents l p := fun p hkl =>
    monotone_nat_of_le_succ (f := fun k => walkTurns parents k p) (fun k => walkTurns_succ_le k p) hkl
  cases hr : rank id with
  | zero =>
    have hnil : parents id = [] := List.eq_nil_iff_forall_not_mem.2 fun p hp => by
      have := h id p hp
      omega
    rw [hnil]
    exact Nat.le_refl 1
  | succ k =>
    rw [walkTurns]
    refine Nat.add_le_add_left (List.sum_le_sum fun p hp => hmono p ?_) 1
    have := h id p hp
    omega

end

/-! ## Adding a transaction -/

def MapTx.parents (mapTx : MapTx) (id : ℕ) : List ℕ :=
  ((mapTx.find? id).map fun t => t.tx.vInput.map CTxOutPoint.hash).getD []

/-- No entry is its own ancestor: there is a rank that goes down from an entry to what it spends. -/
def MapTx.Descends (rank : ℕ → ℕ) (mapTx : MapTx) : Prop := ∀ id, ∀ p ∈ mapTx.parents id, rank p < rank id

theorem Renumbered.parents {S : ℕ → Prop} {mapTx mapTx' : MapTx} (h : Renumbered S mapTx mapTx') (id : ℕ) :
    mapTx'.parents id = mapTx.parents id := by
  have hcontent : ∀ m : MapTx, m.parents id =
      (((m.find? id).map CPooledTx.content).map fun c => c.1.vInput.map CTxOutPoint.hash).getD [] := by
    intro m
    unfold MapTx.parents
    cases m.find? id <;> rfl
  rw [hcontent, hcontent, h.content]

namespace CTxPoolView

variable {E : Env} {mapTx : MapTx} {view : CTxPoolView} {txid key : ℕ}

/-- **The loop over the ancestors ends.** Each entry on the list is worth the turns of a walk over its ancestors. -/
theorem addNewLoop_ends {parents : ℕ → List ℕ} (turns : ℕ → ℕ) (hpos : ∀ id, 0 < turns id)
    (hturns : ∀ id, 1 + ((parents id).map turns).sum ≤ turns id) (fuel : ℕ) {vPrevTxid : List (ℕ × ℕ)}
    (hl : LinkIds E mapTx view) (hparents : ∀ id, mapTx.parents id = parents id)
    (hfuel : (vPrevTxid.map fun e => turns e.1).sum ≤ fuel) : addNewLoop E fuel mapTx view vPrevTxid ≠ none := by
  fun_induction addNewLoop E fuel mapTx view vPrevTxid with
  | case1 => simp
  | case2 _ _ e l =>
    simp only [List.map_cons, List.sum_cons] at hfuel
    have := hpos e.1
    omega
  | case3 _ _ _ txidPrev _ _ _ ih =>
    simp only [List.map_cons, List.sum_cons] at hfuel
    have := hpos txidPrev
    exact ih hl hparents (by omega)
  | case4 _ _ _ _ _ _ _ hget hnone =>
    obtain ⟨hptx, t, ht, -⟩ := hl.find hget
    rw [hptx, ht] at hnone
    cases hnone
  | case5 _ _ _ _ _ _ _ hget _ _ _ hadd =>
    obtain ⟨hptx, t, ht, hid⟩ := hl.find hget
    obtain ⟨r, hr, -⟩ := addTxIndex_spec hl ht hid
    rw [hptx, hr] at hadd
    cases hadd
  | case6 => simp
  | case7 _ _ _ _ _ _ link hget _ ht _ _ _ hadd hnone =>
    obtain ⟨hf, -⟩ := reindex_frame hl hget hadd
    have hstay := hf.entries.isSome (k := link.ptx)
    rw [hnone, ht] at hstay
    cases hstay
  | case8 _ mapTx _ txidPrev _ l _ hget _ _ _ m1 _ hadd t' ht' ih =>
    obtain ⟨hf, -⟩ := reindex_frame hl hget hadd
    obtain ⟨hptx, t, ht, -⟩ := hl.find hget
    refine ih hf.links (fun id => (hf.entries.parents id).trans (hparents id)) ?_
    -- the parents of `txidPrev` are worth less than it was
    have hp : (t'.tx.vInput.map fun prevout => turns prevout.hash).sum = ((parents txidPrev).map turns).sum := by
      rw [← hparents, ← hf.entries.parents, MapTx.parents, ← hptx, ht']
      simp [Function.comp_def]
    have := hturns txidPrev
    simp only [List.map_cons, List.sum_cons] at hfuel
    rw [List.map_append, List.sum_append, List.map_map]
    show (l.map fun e => turns e.1).sum + (t'.tx.vInput.map fun prevout => turns prevout.hash).sum ≤ _
    rw [hp]
    omega
  | case9 _ _ _ txidPrev _ _ _ _ _ _ _ ih =>
    simp only [List.map_cons, List.sum_cons] at hfuel
    have := hpos txidPrev
    exact ih hl hparents (by omega)

/-- **The insertion ends**, after a number of turns that the entries decide. -/
theorem addNew_ends {rank : ℕ → ℕ} (hl : LinkIds E mapTx view) {t : CPooledTx} (ht : mapTx.find? txid = some t)
    (hid : t.tx.getHash E = txid) (hrank : mapTx.Descends rank) :
    ∃ N, ∀ fuel ≥ N, view.addNew E fuel mapTx txid txid ≠ none := by
  refine ⟨((mapTx.parents txid).map fun p => walkTurns mapTx.parents (rank p) p).sum, fun fuel hfuel => ?_⟩
  unfold addNew
  obtain ⟨⟨ok, mapTx', view'⟩, hadd, -⟩ := addTxIndex_spec hl ht hid
  rw [hadd]
  cases ok with
  | false => simp
  | true =>
    obtain ⟨hf, -⟩ := addTxIndex_frame hl ht hid hadd
    obtain ⟨t', ht', hc⟩ := hf.entries.find ht
    simp only [ht']
    refine addNewLoop_ends (fun p => walkTurns mapTx.parents (rank p) p) (fun id => walkTurns_pos _ id)
      (walkTurns_rank hrank) fuel (hf.links.congr (setTxLinkIndex_spendTx _ _ _)) hf.entries.parents ?_
    rw [MapTx.parents, ht] at hfuel
    rw [CPooledTx.tx_of_content hc, List.map_map]
    simpa [Function.comp_def] using hfuel

end CTxPoolView

/-! ## Push -/

namespace CTxPool

variable {E : Env} {rank : ℕ → ℕ} {tx : CTransaction} {w : PoolViews} {s : CBlockBase} {fuel : ℕ} {pool : CTxPool}

/-- An output that `AddNew` refuses: spent in the pool, or known neither there nor to the chain. -/
def NotAvailable (s : CBlockBase) (view : CTxPoolView) (o : CTxOutPoint) : Prop :=
  view.isSpent o = true ∨ (prevOutput s view o).isNull = true

theorem not_any_of_available {view : CTxPoolView} (h : ¬ ∃ o ∈ tx.vInput, NotAvailable s view o) :
    ¬ tx.vInput.any view.isSpent = true ∧ ¬ (tx.vInput.map (prevOutput s view)).any CTxOut.isNull = true := by
  refine ⟨fun hspent => h ?_, fun hnull => h ?_⟩
  · have ⟨o, ho, hout⟩ := List.any_eq_true.1 hspent
    exact ⟨o, ho, Or.inl hout⟩
  · have ⟨o, ho, hout⟩ : ∃ o ∈ tx.vInput, (prevOutput s view o).isNull = true := by simpa using hnull
    exact ⟨o, ho, Or.inr hout⟩

section

variable (hl : LinkIds E w.mapTx w.txView) (hrank : w.mapTx.Descends rank)
  (htx : ∀ o ∈ tx.vInput, rank o.hash < rank (tx.getHash E)) (hnew : w.mapTx.find? (tx.getHash E) = none)

include hl hrank htx hnew

theorem insertTx_ends (n : ℕ) (destIn : CDestination) (nValueIn : ℤ) :
    ∃ N, ∀ fuel ≥ N, ∃ ok w' n', insertTx E fuel w n (tx.getHash E) tx destIn nValueIn = some (ok, w', n') ∧
      LinkIds E w'.mapTx w'.txView := by
  unfold insertTx
  dsimp only
  generalize hmap : w.mapTx.upsert (tx.getHash E) _ = mapTx
  obtain ⟨hfind, -, hsame⟩ := hl.newEntry hnew hmap
  have hentry := hfind (tx.getHash E)
  rw [if_pos rfl] at hentry
  have hlinks := hl.entries hsame
  have hdescends : MapTx.Descends rank mapTx := by
    intro id p hp
    unfold MapTx.parents at hp
    rw [hfind] at hp
    split_ifs at hp with hid
    · obtain ⟨o, ho, rfl⟩ := List.mem_map.1 (show p ∈ tx.vInput.map CTxOutPoint.hash from hp)
      rw [hid]
      exact htx o ho
    · exact hrank id p hp
  obtain ⟨N, hN⟩ := CTxPoolView.addNew_ends hlinks hentry rfl hdescends
  refine ⟨N, fun fuel hfuel => ?_⟩
  cases hadd : w.txView.addNew E fuel mapTx (tx.getHash E) (tx.getHash E) with
  | none => exact absurd hadd (hN fuel hfuel)
  | some r =>
    obtain ⟨hf, -⟩ := CTxPoolView.addNew_frame fuel hlinks hentry rfl hadd
    exact ⟨_, _, _, rfl, hf.links⟩

/-- **AddNew is answered** if an input is refused or `VerifyTransaction` is answered. -/
theorem addNew_answered (n : ℕ) {nForkHeight hashLastBlock : ℕ}
    (h : (∃ o ∈ tx.vInput, NotAvailable s w.txView o) ∨
      verifyTransaction E s w.mapTx tx (tx.vInput.map (prevOutput s w.txView)) nForkHeight hashLastBlock s.hashFork
        ≠ none) :
    ∃ N, ∀ fuel ≥ N, ∃ err w' n', addNew E fuel s w n (tx.getHash E) tx nForkHeight hashLastBlock
      = some (err, w', n') ∧ (err = .OK → LinkIds E w'.mapTx w'.txView) := by
  by_cases hspent : tx.vInput.any w.txView.isSpent = true
  · exact ⟨0, fun fuel _ => ⟨_, _, _, by unfold addNew; rw [if_pos hspent], by simp⟩⟩
  by_cases hnull : (tx.vInput.map (prevOutput s w.txView)).any CTxOut.isNull = true
  · exact ⟨0, fun fuel _ => ⟨_, _, _, by unfold addNew; dsimp only; rw [if_neg hspent, if_pos hnull], by simp⟩⟩
  have hverify := h.resolve_left fun hout => by
    obtain ⟨o, ho, hout | hout⟩ := hout
    · exact hspent (List.any_eq_true.2 ⟨o, ho, hout⟩)
    · exact hnull (by simpa using ⟨o, ho, hout⟩)
  unfold addNew
  simp only [if_neg hspent, if_neg hnull]
  obtain ⟨err, herr⟩ := Option.ne_none_iff_exists'.1 hverify
  rw [herr]
  by_cases hok : err = .OK
  · subst hok
    obtain ⟨N, hN⟩ := insertTx_ends hl hrank htx hnew n
      (((tx.vInput.map (prevOutput s w.txView)).head?.map CTxOut.destTo).getD CDestination.null)
      ((tx.vInput.map (prevOutput s w.txView)).foldl (fun n output => wrap64 (n + output.nAmount)) 0)
    refine ⟨N, fun fuel hfuel => ?_⟩
    obtain ⟨ok, w', n', hins, hlinks⟩ := hN fuel hfuel
    dsimp only
    rw [hins]
    cases ok with
    | true => exact ⟨_, _, _, rfl, fun _ => hlinks⟩
    | false => exact ⟨_, _, _, rfl, by simp⟩
  · refine ⟨0, fun fuel _ => ⟨err, w, n, ?_, fun h => absurd h hok⟩⟩
    cases err <;> first | exact absurd rfl hok | rfl

end

section

variable {last : CBlockIndex} {l : List CBlockIndex} (hnew : ¬ (pool.mapTx.find? (tx.getHash E)).isSome = true)
  (hmint : tx.isMintTx = false) (hlast : s.pIndexLast = last :: l)

include hnew hmint hlast

theorem push_of_addNew {err : Errno} {n : ℕ}
    (hadd : addNew E fuel s pool.views pool.nLastSequenceNumber (tx.getHash E) tx last.nHeight last.hashBlock
      = some (err, w, n)) (hlinks : err = .OK → LinkIds E w.mapTx w.txView) :
    ∃ err r pool', pool.push E fuel s tx = some (err, r, pool') := by
  unfold push
  simp only [if_neg hnew, hmint, Bool.false_eq_true, if_false, hlast, hadd]
  by_cases hok : err = .OK
  · subst hok
    dsimp only
    cases hget : (pool.withViews w).txView.get (tx.getHash E) with
    | none => exact ⟨_, _, _, rfl⟩
    | some link =>
      obtain ⟨hptx, t, ht, -⟩ := (hlinks rfl).find hget
      rw [← hptx] at ht
      dsimp only
      rw [show OrdMap.find? (pool.withViews w).mapTx link.ptx = some t from ht]
      exact ⟨_, _, _, rfl⟩
  · cases err <;> first | exact absurd rfl hok | exact ⟨_, _, _, rfl⟩

end

/-- `Push` has an answer, whatever the number of turns its loops take. A transaction without inputs is refused. -/
def Answered (E : Env) (s : CBlockBase) (pool : CTxPool) (tx : CTransaction) : Prop :=
  ∃ N, ∀ fuel ≥ N, ∃ err r pool', pool.push E fuel s tx = some (err, r, pool') ∧ (tx.vInput = [] → err ≠ .OK)

/-- **Push and VerifyTransaction are answered** exactly if there is an output to read: for a transaction that passed
`ValidateTransaction`, it is refused before its inputs are read, or it has inputs and, if they are all available
and its values pass, the reads stay in its signature. -/
theorem push_answered_iff {s : CBlockBase} {pool : CTxPool} (hvalid : validateTransaction tx = .OK)
    (hl : LinkIds E pool.mapTx pool.txView) (hrank : pool.mapTx.Descends rank)
    (htx : ∀ o ∈ tx.vInput, rank o.hash < rank (tx.getHash E)) :
    (∀ mapTx vPrevOutput nForkHeight hashLastBlock fork,
      verifyTransaction E s mapTx tx vPrevOutput nForkHeight hashLastBlock fork ≠ none ↔
        vPrevOutput ≠ [] ∧ SignatureFits E s mapTx tx vPrevOutput nForkHeight fork) ∧
    (pool.Answered E s tx ↔
      (pool.mapTx.find? (tx.getHash E)).isSome = true ∨ s.pIndexLast = [] ∨
        tx.vInput ≠ [] ∧ ((∃ o ∈ tx.vInput, NotAvailable s pool.txView o) ∨
          ∀ last ∈ s.pIndexLast.head?, SignatureFits E s pool.mapTx tx
            (tx.vInput.map (prevOutput s pool.txView)) last.nHeight s.hashFork)) := by
  have hv := validateTransaction_ok hvalid
  have hlen : tx.vchSig.length < 2 ^ 63 := by
    have hsize := hv.size
    have hmax : MAX_TX_SIZE = 100000 := rfl
    unfold CTransaction.getSerializeSize streamBytesSize at hsize
    omega
  refine ⟨fun mapTx vPrevOutput nForkHeight hashLastBlock fork => verifyTransaction_ne_none_iff hlen, ?_⟩
  by_cases hhave : (pool.mapTx.find? (tx.getHash E)).isSome = true
  · refine ⟨fun _ => Or.inl hhave, fun _ => ⟨0, fun fuel _ => ⟨.ERR_ALREADY_HAVE, none, pool, ?_, by simp⟩⟩⟩
    unfold push
    dsimp only
    rw [if_pos hhave]
  cases hlast : s.pIndexLast with
  | nil =>
    refine ⟨fun _ => Or.inr (Or.inl rfl),
      fun _ => ⟨0, fun fuel _ => ⟨.ERR_TRANSACTION_INVALID, none, pool, ?_, by simp⟩⟩⟩
    unfold push
    dsimp only
    rw [if_neg hhave, hv.not_mint, hlast]
    rfl
  | cons last l =>
    simp only [hhave, Bool.false_eq_true, reduceCtorEq, false_or, List.head?_cons, Option.mem_def, Option.some.injEq,
      forall_eq']
    constructor
    · rintro ⟨N, hN⟩
      obtain ⟨err, r, pool', hpush, -⟩ := hN N le_rfl
      have hadd :
          addNew E N s pool.views pool.nLastSequenceNumber (tx.getHash E) tx last.nHeight last.hashBlock ≠ none :=
        fun hadd => by simp [push, hhave, hv.not_mint, hlast, hadd] at hpush
      by_cases havailable : ∃ o ∈ tx.vInput, NotAvailable s pool.txView o
      · obtain ⟨o, ho, hout⟩ := havailable
        exact ⟨List.ne_nil_of_mem ho, Or.inl ⟨o, ho, hout⟩⟩
      · obtain ⟨hspent, hnull⟩ := not_any_of_available havailable
        have hsome : verifyTransaction E s pool.mapTx tx (tx.vInput.map (prevOutput s pool.txView)) last.nHeight
            last.hashBlock s.hashFork ≠ none := fun hnone => hadd (by
          simp only [addNew, views, if_neg hspent, if_neg hnull, hnone])
        have hverify := (verifyTransaction_ne_none_iff hlen).1 hsome
        exact ⟨by simpa using hverify.1, Or.inr hverify.2⟩
    · rintro ⟨hne, h⟩
      have hnone : pool.mapTx.find? (tx.getHash E) = none := by simpa using hhave
      obtain ⟨N, hN⟩ := addNew_answered (w := pool.views) hl hrank htx hnone pool.nLastSequenceNumber
        (h.imp_right fun hfits => (verifyTransaction_ne_none_iff hlen).2 ⟨by simpa using hne, hfits⟩)
      refine ⟨N, fun fuel hfuel => ?_⟩
      obtain ⟨err, w', n', hadd, hlinks⟩ := hN fuel hfuel
      obtain ⟨err, r, pool', hpush⟩ := push_of_addNew hhave hv.not_mint hlast hadd hlinks
      exact ⟨err, r, pool', hpush, fun h => absurd h hne⟩

theorem descends_of_all {mapTx : MapTx}
    (h : mapTx.toList.all (fun e => e.2.tx.vInput.all fun o => o.hash < e.1) = true) : mapTx.Descends id := by
  intro txid p hp
  cases ht : mapTx.find? txid with
  | none => simp [MapTx.parents, ht] at hp
  | some t =>
    simp only [MapTx.parents, ht, Option.map_some, Option.getD_some] at hp
    obtain ⟨o, ho, rfl⟩ := List.mem_map.1 hp
    exact of_decide_eq_true (List.all_eq_true.1 (List.all_eq_true.1 h _ (OrdMap.find?_eq_some.1 ht)) o ho)

/-- A child of a pooled transaction, which passes `VerifyTransaction`. -/
theorem push_answered_toy :
    ∃ pool, (pool.mapTx.find? (toyGrandparent.getHash toyEnv)).isSome = true ∧
      validateTransaction toyParent2 = .OK ∧ Answered toyEnv (toyStore [⟨1, 0⟩]) pool toyParent2 := by
  have hvalid : validateTransaction toyParent2 = .OK := by decide +kernel
  obtain ⟨pool, run, hentry, hall, hverify⟩ := PoolRun.exists_calls (Orderly toyEnv id)
    [.push (toyStore [⟨1, 0⟩]) toyGrandparent] (P := fun pool =>
      (pool.mapTx.find? (toyGrandparent.getHash toyEnv)).isSome = true ∧
      pool.mapTx.toList.all (fun e => e.2.tx.vInput.all fun o => o.hash < e.1) = true ∧
      ∀ last ∈ (toyStore [⟨1, 0⟩]).pIndexLast.head?, (verifyTransaction toyEnv (toyStore [⟨1, 0⟩]) pool.mapTx toyParent2
        (toyParent2.vInput.map (prevOutput (toyStore [⟨1, 0⟩]) pool.txView)) last.nHeight last.hashBlock
        (toyStore [⟨1, 0⟩]).hashFork).isSome = true) (by decide +kernel)
  have htx : ∀ o ∈ toyParent2.vInput, id o.hash < id (toyParent2.getHash toyEnv) := by decide +kernel
  obtain ⟨hanswer, hiff⟩ := push_answered_iff (s := toyStore [⟨1, 0⟩]) hvalid run.orderInv.viewsOK.main
    (descends_of_all hall) htx
  refine ⟨pool, hentry, hvalid, hiff.2 (Or.inr (Or.inr ⟨by decide, Or.inr fun last hlast => ?_⟩))⟩
  exact ((hanswer _ _ _ last.hashBlock _).1 (Option.isSome_iff_ne_none.1 (hverify last hlast))).2

/-- A transaction without inputs passes `ValidateTransaction`, and `VerifyTransaction` reads the first element of
an empty vector. -/
theorem push_without_inputs :
    validateTransaction (toyCoinTx 1 [] 900000) = .OK ∧
      (∀ fuel, push toyEnv fuel (toyStore []) {} (toyCoinTx 1 [] 900000) = none) ∧
      ¬ Answered toyEnv (toyStore []) {} (toyCoinTx 1 [] 900000) := by
  have hnone : ∀ fuel, push toyEnv fuel (toyStore []) {} (toyCoinTx 1 [] 900000) = none := fun _ => rfl
  refine ⟨by decide, hnone, ?_⟩
  rintro ⟨N, hN⟩
  have ⟨err, r, pool, h, _⟩ := hN N le_rfl
  rw [hnone N] at h
  cases h

end CTxPool

end Minemon
