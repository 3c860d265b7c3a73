import Minemon.Pool.Order
import Minemon.Pool.Views
import Minemon.Service.Work

/-!
# The order over whole runs

The calls of the pool keep its own view numbered, marked and in order, as long as no transaction comes back
with a number from an earlier time, and the gaps do not run out.

* `InOrder`, with `InOrder.leave` for a transaction that goes and `InOrder.insertTx` for one that comes.
* `pool_topological`: the sequence numbers are a topological order after every call.
-/

namespace Minemon

open GapNumbers CTxPoolView

/-! ## One view -/

variable {E : Env} {rank : ℕ → ℕ} {B L fuel n n' txid : ℕ} {mapTx mapTx' : MapTx} {view view' : CTxPoolView}
  {w w' : PoolViews} {tx : CTransaction} {pool pool' : CTxPool}

theorem Numbered.congr {M : ℕ} (h : Numbered E rank B M mapTx view)
    (hlinks : view'.setTxLinkIndex = view.setTxLinkIndex)
    (hentries : ∀ j, view.Linked j → mapTx'.find? j = mapTx.find? j) :
    (∀ c o, Spends mapTx' view' c o ↔ Spends mapTx view c o) ∧ num mapTx' view' = num mapTx view ∧
      Numbered E rank B M mapTx' view' := by
  have hlinked : ∀ j, view'.Linked j ↔ view.Linked j := fun j => by rw [CTxPoolView.Linked, CTxPoolView.Linked, hlinks]
  have hspends : ∀ c o, Spends mapTx' view' c o ↔ Spends mapTx view c o := fun c o => by
    rw [Spends, Spends, hlinked]
    exact and_congr_right fun hc => by rw [hentries c hc]
  have hnums := nums_congr hlinked hentries
  refine ⟨hspends, ?_, (h.links.congr hlinks).entries fun j hj => hentries j ((hlinked j).1 hj),
    h.seqs.congr hlinks fun j hj => by rw [hentries j hj], by rw [hnums]; exact h.gaps,
    fun hc => h.ranked ((hspends _ _).1 hc), fun hc => h.nonzero ((hlinked _).1 hc)⟩
  funext j
  rw [num, num, hnums]

/-- A view that is numbered up to `L` gaps, marked and in order. -/
structure InOrder (E : Env) (rank : ℕ → ℕ) (B L : ℕ) (mapTx : MapTx) (view : CTxPoolView) : Prop where
  numbered : Numbered E rank B (L * SEQUENCE_GAP) mapTx view
  marks : Marks (Spends mapTx view) view.getSpent fun _ => True
  ordered : Ordered (Spends mapTx view) (num mapTx view) []

namespace InOrder

theorem empty (E : Env) (rank : ℕ → ℕ) (mapTx : MapTx) : InOrder E rank 0 0 mapTx {} := by
  have hlinked : ∀ j, ¬CTxPoolView.Linked {} j := fun j => by simp [CTxPoolView.Linked]
  refine ⟨⟨LinkIds.empty E mapTx, LinkSeqs.empty mapTx, (GapOK.empty _ _ _).sub fun j a hj => ?_,
    fun hc => absurd hc.1 (hlinked _), fun hc => absurd hc (hlinked _)⟩,
    ⟨fun hc => absurd hc.1 (hlinked _), fun ho => absurd rfl ho⟩, fun c o n m hc => absurd hc.1 (hlinked c)⟩
  rw [nums_eq_none (hlinked j)] at hj
  exact absurd hj (by simp)

section

variable (h : InOrder E rank B L mapTx view)

include h

theorem mono {B' : ℕ} (hB : B' ≤ B) : InOrder E rank B' L mapTx view :=
  ⟨⟨h.numbered.links, h.numbered.seqs, h.numbered.gaps.mono hB le_rfl, h.numbered.ranked, h.numbered.nonzero⟩,
    h.marks, h.ordered⟩

theorem congr (hlinks : view'.setTxLinkIndex = view.setTxLinkIndex)
    (hmark : ∀ o, view'.getSpent o = view.getSpent o)
    (hentries : ∀ j, view.Linked j → mapTx'.find? j = mapTx.find? j) : InOrder E rank B L mapTx' view' := by
  obtain ⟨hspends, hnum, hnumbered⟩ := h.numbered.congr hlinks hentries
  refine ⟨hnumbered, h.marks.congr hspends hmark, ?_⟩
  rw [hnum]
  exact fun c o n m hc => h.ordered c o n m ((hspends c o).1 hc)

theorem leave {id : ℕ} {t : CPooledTx} (hid : view.Linked id)
    (ht : mapTx.find? id = some t) (hlinks : view'.setTxLinkIndex = (view.eraseLink id).setTxLinkIndex)
    (hmark : ∀ o, view'.getSpent o = if o ∈ t.tx.vInput then 0 else view.getSpent o) :
    InOrder E rank B L mapTx view' := by
  have hlinked : ∀ j, view'.Linked j ↔ view.Linked j ∧ j ≠ id := fun j => by
    rw [← linked_eraseLink, CTxPoolView.Linked, CTxPoolView.Linked, hlinks]
  have hspends : ∀ c o, Spends mapTx view' c o ↔ Spends mapTx view c o ∧ c ≠ id := fun c o => by
    rw [Spends, Spends, hlinked, and_right_comm]
  have hin : ∀ o, Spends mapTx view id o ↔ o ∈ t.tx.vInput := fun o => by simp [Spends, hid, ht]
  have hnums : ∀ j a, nums mapTx view' j = some a → nums mapTx view j = some a := fun j a hj => by
    obtain ⟨hl, u, hu, rfl⟩ := nums_eq_some.1 hj
    exact nums_of_linked ((hlinked j).1 hl).1 hu
  have hnum : ∀ j n, num mapTx view' j = some n → num mapTx view j = some n := fun j n hj => by
    obtain ⟨hl, u, hu, rfl⟩ := num_eq_some.1 hj
    exact num_eq_some.2 ⟨((hlinked j).1 hl).1, u, hu, rfl⟩
  refine ⟨⟨(h.numbered.links.eraseLink id).congr hlinks, h.numbered.seqs.eraseLink.congr hlinks fun _ _ => rfl,
    h.numbered.gaps.sub hnums, fun hc => h.numbered.ranked ((hspends _ _).1 hc).1,
    fun hc => h.numbered.nonzero ((hlinked _).1 hc).1⟩, h.marks.leave hspends hin hmark, ?_⟩
  exact fun c o n m hc ho hn hm => h.ordered c o n m ((hspends c o).1 hc).1 ho (hnum _ _ hn) (hnum _ _ hm)

theorem remove (hview : view.remove mapTx txid = some view') : InOrder E rank B L mapTx view' := by
  by_cases htxid : view.Linked txid
  · obtain ⟨link, hget⟩ := Option.isSome_iff_exists.1 (get_isSome.2 htxid)
    obtain ⟨hptx, t, ht, -⟩ := h.numbered.links.find hget
    refine h.leave htxid ht (remove_links hview) fun o => ?_
    simp only [CTxPoolView.remove, hget, hptx, ht] at hview
    obtain ⟨v, hv, rfl⟩ := Option.map_eq_some_iff.1 hview
    exact getSpent_setUnspents hv o
  · rw [CTxPoolView.remove, get_eq_none.2 htxid, Option.some.injEq] at hview
    rwa [← hview]

end

end InOrder

/-- A transaction is above what it spends, and its id is not 0. -/
def CTransaction.Ranked (E : Env) (rank : ℕ → ℕ) (tx : CTransaction) : Prop :=
  tx.getHash E ≠ 0 ∧ ∀ o ∈ tx.vInput, rank o.hash < rank (tx.getHash E)

theorem CTxPool.getSequenceNumber_eq (mapTx : MapTx) {n : ℕ} (hn : n + 1 < 2 ^ 40) :
    ∃ L, CTxPool.getSequenceNumber mapTx n = (L * SEQUENCE_GAP, L) ∧ 0 < L ∧ L ≤ n + 1 ∧
      (mapTx.toList = [] ∨ L = n + 1) := by
  have hK : SEQUENCE_GAP = 16777216 := rfl
  unfold CTxPool.getSequenceNumber
  dsimp only
  split_ifs with hempty
  · refine ⟨1, ?_, by omega, by omega, Or.inl (by simpa using hempty)⟩
    norm_num [hK]
  · have hlt : (n + 1) % 2 ^ 64 = n + 1 := by omega
    refine ⟨n + 1, ?_, by omega, le_rfl, Or.inr rfl⟩
    rw [hlt, hK, Nat.mod_eq_of_lt (by omega)]

namespace InOrder

/-- **A new transaction comes in**: `view` is the view after it, in which the marks of its outputs are kept. -/
theorem insertTx {destIn : CDestination} {nValueIn : ℤ} {ok : Bool}
    (h : InOrder E rank (B + fuel + 1) n w.mapTx w.txView) (hn : n + 1 < 2 ^ 40) (hB : B + fuel + 1 < SEQUENCE_GAP)
    (hins : CTxPool.insertTx E fuel w n (tx.getHash E) tx destIn nValueIn = some (ok, w', n'))
    (hnew : w.mapTx.find? (tx.getHash E) = none) (htx : tx.Ranked E rank)
    (hunspent : ∀ o ∈ tx.vInput, w.txView.getSpent o = 0) :
    ok = true ∧ n' ≤ n + 1 ∧ ∃ u : CPooledTx, u.tx = tx ∧
      w'.txView.mapSpent = (w.txView.spendTx (tx.getHash E) u).mapSpent ∧
      ∀ view : CTxPoolView, view.setTxLinkIndex = w'.txView.setTxLinkIndex →
        (∀ o, view.getSpent o = if o ∈ tx.vInput then tx.getHash E else w.txView.getSpent o) →
        InOrder E rank B n' w'.mapTx view := by
  obtain ⟨hzero, hrank⟩ := htx
  obtain ⟨mapTx, mapTx', view', hmap, hadd, rfl, hn'⟩ := CTxPool.insertTx_cases hins
  obtain ⟨L, hseq, hpos, hle, hempty⟩ := CTxPool.getSequenceNumber_eq w.mapTx hn
  rw [hseq] at hmap hn'
  dsimp only at hmap hn'
  subst hn'
  -- the map with the new entry
  obtain ⟨hfind, hlinked, hother⟩ := h.numbered.links.newEntry hnew hmap.symm
  have hu := hfind (tx.getHash E)
  rw [if_pos rfl] at hu
  have h1 : InOrder E rank (B + fuel + 1) n mapTx w.txView := h.congr rfl (fun _ => rfl) hother
  -- the numbers so far are a gap below the new one
  have hgap : ∀ j b, nums mapTx w.txView j = some b → b.num + SEQUENCE_GAP ≤ n' * SEQUENCE_GAP := by
    intro j b hj
    rcases hempty with hnil | rfl
    · obtain ⟨hl, t, ht, -⟩ := nums_eq_some.1 hj
      rw [hother j hl, OrdMap.find?_eq_some, hnil] at ht
      exact absurd ht (by simp)
    · have := h1.numbered.gaps.le hj
      rw [Nat.add_mul, Nat.one_mul]
      omega
  have hg : GapOK SEQUENCE_GAP (B + fuel + 1) (n' * SEQUENCE_GAP) (nums mapTx w.txView) :=
    h1.numbered.gaps.bound fun j b hj => (Nat.le_add_right _ _).trans (hgap j b hj)
  have hM : n' * SEQUENCE_GAP < 2 ^ 64 := by
    rw [show SEQUENCE_GAP = 16777216 from rfl]
    omega
  have hfresh : GapOK SEQUENCE_GAP (B + fuel) (n' * SEQUENCE_GAP) (Function.update (nums mapTx w.txView) (tx.getHash E)
      (some ⟨n' * SEQUENCE_GAP, 0⟩)) :=
    (hg.mono (Nat.le_succ _) le_rfl).insertFresh (Nat.dvd_mul_left _ _) (Nat.mul_pos hpos (Nat.two_pow_pos 24))
      hB hgap
  obtain ⟨hok, hnumbered, hordered, hspends⟩ := addNew_ok
    ⟨h1.numbered.links, h1.numbered.seqs, hg, h1.numbered.ranked, h1.numbered.nonzero⟩ hM h1.marks h1.ordered hu rfl
    hlinked hzero hrank hunspent (fun _ => hfresh) hadd
  have hmark := (addNew_frame fuel h1.numbered.links hu rfl hadd).2 hok
  refine ⟨hok, hle, _, rfl, hmark, fun view hlinks hview => ?_⟩
  obtain ⟨hspends', hnum', hnumbered'⟩ := hnumbered.congr hlinks fun _ _ => rfl
  have hspends0 : ∀ c o, Spends mapTx' view c o ↔
      Spends mapTx w.txView c o ∨ (c = tx.getHash E ∧ o ∈ tx.vInput) := fun c o =>
    (hspends' c o).trans (hspends c o)
  refine ⟨hnumbered', h1.marks.enter hspends0 hunspent (fun c o hc => h1.numbered.nonzero hc.1)
    (fun o _ => hview o) fun o => Or.inr (hview o), ?_⟩
  rw [hnum']
  exact fun c o n m hc => hordered c o n m ((hspends' c o).1 hc)

theorem invalidateStep (h : InOrder E rank B n w.mapTx w.txView) (hw : ViewsOK E w) {out : CTxOutPoint}
    {l : List CTxOutPoint} (hs : PoolViews.InvalidateStep E fuel w out w' l) :
    InOrder E rank B n w'.mapTx w'.txView ∧ ∀ j, (w'.mapTx.find? j).isSome = (w.mapTx.find? j).isSome := by
  cases hs with
  | drop hspent =>
    refine ⟨h.congr rfl (fun o => ?_) fun _ _ => rfl, fun _ => rfl⟩
    -- a marked output has a pooled spender
    have h0 : w.txView.getSpent out = 0 := by
      by_contra hne
      exact (hspent.resolve_left hne) (h.marks.spender hne).1
    rw [getSpent_eraseSpent]
    split_ifs with ho
    · rw [ho, h0]
    · rfl
  | leave hne hget ht hset hadd =>
    rename_i link t view inv mapTx ok
    obtain ⟨hmem, hid⟩ := get_eq_some hget
    have hlinked : w.txView.Linked (w.txView.getSpent out) := ⟨link, hmem, hid⟩
    obtain ⟨hptx, -⟩ := hw.main.find hget
    rw [hptx] at ht
    have hlinks : view.setTxLinkIndex = w.txView.setTxLinkIndex := setUnspents_links hset
    obtain ⟨hw', hr, hlinked', -⟩ := hw.leave hget hlinks hadd
    set out0 := PoolViews.leaveOutput view ⟨w.txView.getSpent out, 0⟩ with hout0
    set out1 := PoolViews.leaveOutput out0.1 ⟨w.txView.getSpent out, 1⟩ with hout1
    have hlinks1 : out1.1.setTxLinkIndex = w.txView.setTxLinkIndex := by
      rw [hout1, PoolViews.setTxLinkIndex_leaveOutput, hout0, PoolViews.setTxLinkIndex_leaveOutput, hlinks]
    have hleave : InOrder E rank B n w.mapTx (out1.1.eraseLink (w.txView.getSpent out)) := by
      refine h.leave hlinked ht ?_ fun o => ?_
      · rw [eraseLink, eraseLink, hlinks1]
      · show out1.1.getSpent o = _
        rw [hout1, PoolViews.getSpent_leaveOutput, hout0, PoolViews.getSpent_leaveOutput,
          getSpent_setUnspents hset]
    refine ⟨hleave.congr rfl (fun _ => rfl) fun j hj => hr.same j ?_, fun j => hr.isSome⟩
    have hj' : w.txView.Linked j ∧ j ≠ w.txView.getSpent out := by
      rw [← linked_eraseLink]
      rwa [CTxPoolView.Linked, eraseLink, hlinks1] at hj
    rintro (heq | hin)
    · exact hj'.2 heq
    · exact hw.disjoint j hj'.1 hin

end InOrder

/-! ## Runs -/

/-- The sequence numbers are a topological order of the pooled transactions. -/
structure CTxPool.Topological (pool : CTxPool) : Prop where
  distinct : pool.txView.setTxLinkIndex.Pairwise fun a b => a.nSequenceNumber ≠ b.nSequenceNumber
  parent_lt : ∀ p ∈ pool.txView.setTxLinkIndex, ∀ c ∈ pool.txView.setTxLinkIndex, ∀ t, pool.mapTx.find? c.ptx = some t →
    ∀ o ∈ t.tx.vInput, o.hash = p.hashTX → o.n < 2 → p.nSequenceNumber < c.nSequenceNumber
  stored : ∀ l ∈ pool.txView.setTxLinkIndex, ∃ t, pool.mapTx.find? l.ptx = some t ∧
    t.nSequenceNumber = l.nSequenceNumber

/-- Every gap has more than `B` numbers left: below the countdown of its top, or below the numbers in use. -/
def CTxPool.Room (pool : CTxPool) (B : ℕ) : Prop :=
  B + 1 < SEQUENCE_GAP ∧ ∀ l ∈ pool.txView.setTxLinkIndex, ∀ t ∈ pool.mapTx.find? l.hashTX,
    B < (if t.nSequenceNumber % SEQUENCE_GAP = 0 then t.numbers.ctr else t.nSequenceNumber) % SEQUENCE_GAP

/-- A transaction that comes in is above what it spends and gets a new entry; one that is pushed has no pooled
spender. There are numbers left for every turn of `AddNew`. -/
def Orderly (E : Env) (rank : ℕ → ℕ) (pool : CTxPool) (fuel : ℕ) : PoolCall → Prop
  | .push _ tx => tx.Ranked E rank ∧ (∀ i < 2, pool.txView.getSpent ⟨tx.getHash E, i⟩ = 0) ∧
      pool.Room (fuel + 1) ∧ pool.nLastSequenceNumber + 1 < 2 ^ 40
  | .pop _ => True
  | .sync _ update =>
      let vtx := CTxPool.backTxs E update
      (vtx.map (CTransaction.getHash E)).Nodup ∧
      (∀ tx ∈ vtx, tx.Ranked E rank ∧ pool.mapTx.find? (tx.getHash E) = none) ∧
      pool.Room (vtx.length * (fuel + 1)) ∧ pool.nLastSequenceNumber + vtx.length < 2 ^ 40
  | .load _ _ => False

instance (pool : CTxPool) (B : ℕ) : Decidable (pool.Room B) := by
  unfold CTxPool.Room
  infer_instance

instance (E : Env) (rank : ℕ → ℕ) (tx : CTransaction) : Decidable (tx.Ranked E rank) := by
  unfold CTransaction.Ranked
  infer_instance

instance (E : Env) (rank : ℕ → ℕ) (pool : CTxPool) (fuel : ℕ) (x : PoolCall) :
    Decidable (Orderly E rank pool fuel x) := by
  cases x <;> unfold Orderly <;> infer_instance

theorem InOrder.room (h : InOrder E rank 0 L pool.mapTx pool.txView) (hroom : pool.Room B) :
    InOrder E rank B L pool.mapTx pool.txView := by
  have hK : SEQUENCE_GAP = 16777216 := rfl
  have hg := h.numbered.gaps
  have hleft : ∀ {j a}, nums pool.mapTx pool.txView j = some a →
      B < (if a.num % SEQUENCE_GAP = 0 then a.ctr else a.num) % SEQUENCE_GAP := fun hj => by
    obtain ⟨⟨l, hl, rfl⟩, t, ht, rfl⟩ := nums_eq_some.1 hj
    exact hroom.2 l hl t ht
  refine ⟨⟨h.numbered.links, h.numbered.seqs, ⟨hg.inj, hg.pos, hg.le, fun {j a base} hj hbase h1 h2 => ?_,
    fun {j a} hj hdvd => ?_, hg.above⟩, h.numbered.ranked, h.numbered.nonzero⟩, h.marks, h.ordered⟩
  · have := hleft hj
    obtain ⟨q, rfl⟩ := hbase
    rw [hK] at *
    split_ifs at this with h0 <;> omega
  · have := hleft hj
    obtain ⟨h1, h2⟩ := hg.top hj hdvd
    rw [if_pos (Nat.mod_eq_zero_of_dvd hdvd)] at this
    obtain ⟨q, hq⟩ := hdvd
    rw [hK] at *
    omega

/-- The state of `SynchronizeBlockChain` while the transactions `R` are still to be put back. -/
structure SyncOrder (E : Env) (rank : ℕ → ℕ) (fuel : ℕ) (R : List CTransaction) (w : PoolViews) (n : ℕ) : Prop where
  views : ViewsOK E w
  order : InOrder E rank (R.length * (fuel + 1)) n w.mapTx w.txView
  room : R.length * (fuel + 1) + 1 < SEQUENCE_GAP
  numbers : n + R.length < 2 ^ 40
  ids : (R.map (CTransaction.getHash E)).Nodup
  new : ∀ tx ∈ R, tx.Ranked E rank ∧ w.mapTx.find? (tx.getHash E) = none

namespace SyncOrder

variable {R : List CTransaction}

theorem invalidateStep (h : SyncOrder E rank fuel R w n) {out : CTxOutPoint} {l : List CTxOutPoint}
    (hs : PoolViews.InvalidateStep E fuel w out w' l) : SyncOrder E rank fuel R w' n := by
  obtain ⟨horder, hsome⟩ := h.order.invalidateStep h.views hs
  refine ⟨h.views.invalidateStep hs, horder, h.room, h.numbers, h.ids, fun tx htx => ⟨(h.new tx htx).1, ?_⟩⟩
  rw [← Option.isNone_iff_eq_none, ← Option.not_isSome, hsome, (h.new tx htx).2]
  rfl

theorem mined (h : SyncOrder E rank fuel R w n) (htxid : w.txView.Linked txid)
    (hview : w.txView.remove w.mapTx txid = some view) :
    SyncOrder E rank fuel R { w with txView := view, mapTx := w.mapTx.erase txid } n := by
  obtain ⟨hviews, hlinked⟩ := h.views.mined htxid hview
  refine ⟨hviews, (h.order.remove hview).congr rfl (fun _ => rfl) fun j hj => ?_, h.room, h.numbers, h.ids,
    fun tx htx => ⟨(h.new tx htx).1, ?_⟩⟩
  · rw [OrdMap.find?_erase, if_neg ((hlinked j).1 hj).2]
  · rw [OrdMap.find?_erase, (h.new tx htx).2, ite_self]

theorem back {s : CBlockBase} {err : Errno} {nForkHeight hashLastBlock : ℕ}
    (h : SyncOrder E rank fuel (tx :: R) w n)
    (hadd : CTxPool.addNew E fuel s w n (tx.getHash E) tx nForkHeight hashLastBlock = some (err, w', n')) :
    SyncOrder E rank fuel R (if err = .OK then CTxPool.restored w w' (tx.getHash E) else w') n' := by
  have hlen : (tx :: R).length * (fuel + 1) = R.length * (fuel + 1) + fuel + 1 := by
    rw [List.length_cons, Nat.succ_mul]
    rfl
  obtain ⟨hviews, horder, hroom, hnumbers, hids, hnew⟩ := h
  rw [hlen] at horder hroom
  rw [List.length_cons] at hnumbers
  rw [List.map_cons, List.nodup_cons] at hids
  obtain ⟨hranked, hnone⟩ := hnew tx List.mem_cons_self
  have hnew' : ∀ tx' ∈ R, tx'.Ranked E rank ∧ w.mapTx.find? (tx'.getHash E) = none := fun tx' htx' =>
    hnew tx' (List.mem_cons_of_mem tx htx')
  obtain ⟨herr, rfl, rfl⟩ | ⟨ok, destIn, nValueIn, hadmitted, hins, hok⟩ := CTxPool.addNew_cases hadd
  · rw [if_neg herr]
    exact ⟨hviews, horder.mono (by omega), by omega, by omega, hids.2, hnew'⟩
  · obtain ⟨htrue, hle, u, hu, hspent, hdone⟩ :=
      horder.insertTx (by omega) (by omega) hins hnone hranked hadmitted.unspent
    obtain ⟨hviews', hsome, -, -⟩ := hviews.insertTx hins rfl (fun t ht => by simp [hnone] at ht) fun hl => by
      obtain ⟨t, ht, -⟩ := hviews.involved.find_linked hl
      simp [hnone] at ht
    rw [if_pos (hok.2 htrue)]
    refine ⟨hviews'.congr rfl (CTxPool.setTxLinkIndex_restored w w' _) rfl, ?_, by omega, by omega, hids.2,
      fun tx' htx' => ⟨(hnew' tx' htx').1, ?_⟩⟩
    · refine hdone _ (CTxPool.setTxLinkIndex_restored w w' _) fun o => ?_
      rw [CTxPool.getSpent_restored hspent (fun o ho heq => ?_), hu]
      rw [hu] at ho
      have := hranked.2 o ho
      rw [heq] at this
      exact lt_irrefl _ this
    · show w'.mapTx.find? (tx'.getHash E) = none
      rw [← Option.isNone_iff_eq_none, ← Option.not_isSome, Bool.not_eq_true', ← Bool.not_eq_true, hsome,
        (hnew' tx' htx').2]
      rintro (h0 | heq)
      · exact absurd h0 (by simp)
      · exact hids.1 (by rw [← heq]; exact List.mem_map_of_mem htx')

theorem invalidateSpent (h : SyncOrder E rank fuel R w n) {out : CTxOutPoint}
    (hw : w.invalidateSpent E fuel out = some w') : SyncOrder E rank fuel R w' n :=
  PoolViews.invalidateSpent_rule (SyncOrder E rank fuel R · n) (fun _ _ _ _ h hs => h.invalidateStep hs) h hw

theorem syncRule (E : Env) (rank : ℕ → ℕ) (fuel : ℕ) (s : CBlockBase) (update : CBlockChainUpdate) :
    CTxPool.SyncRule E fuel s update (SyncOrder E rank fuel) :=
  ⟨fun h hw => h.invalidateSpent hw, fun h htxid hview => h.mined htxid hview, fun h hadd => h.back hadd⟩

theorem done (h : SyncOrder E rank fuel [] w n) :
    InOrder E rank 0 n (CTxPool.eraseInvolved w).mapTx w.txView ∧ n < 2 ^ 40 := by
  have horder := h.order
  rw [List.length_nil, Nat.zero_mul] at horder
  refine ⟨horder.congr rfl (fun _ => rfl) fun j hj => ?_, h.numbers⟩
  unfold CTxPool.eraseInvolved
  dsimp only
  rw [OrdMap.find?_foldl_erase, if_neg]
  intro hin
  obtain ⟨l, hl, rfl⟩ := List.mem_map.1 hin
  exact h.views.disjoint _ hj ⟨l, hl, rfl⟩

end SyncOrder

namespace CTxPool

/-- What the order needs from the pool between two calls. -/
def OrderInv (E : Env) (rank : ℕ → ℕ) (pool : CTxPool) : Prop :=
  InOrder E rank 0 pool.nLastSequenceNumber pool.mapTx pool.txView ∧ pool.nLastSequenceNumber < 2 ^ 40

section

variable {s : CBlockBase} {update : CBlockChainUpdate} (h : OrderInv E rank pool)

include h

theorem OrderInv.viewsOK : ViewsOK E pool.views :=
  ⟨h.1.numbered.links, LinkIds.empty E _, by simp [views, CTxPoolView.Linked]⟩

theorem OrderInv.syncOrder (hP : Orderly E rank pool fuel (.sync s update)) :
    SyncOrder E rank fuel (backTxs E update) pool.views pool.nLastSequenceNumber := by
  obtain ⟨hids, hnew, hroom, hnlast⟩ := hP
  exact ⟨h.viewsOK, h.1.room hroom, hroom.1, hnlast, hids, hnew⟩

theorem OrderInv.popOrder (hview : pool.txView.remove pool.mapTx txid = some view) :
    SyncOrder E rank fuel [] { pool.views with txView := view } pool.nLastSequenceNumber := by
  have horder := h.1.remove hview
  refine ⟨⟨horder.numbered.links, LinkIds.empty E _, by simp [views, CTxPoolView.Linked]⟩, ?_, ?_, h.2,
    by simp, by simp⟩
  · rw [List.length_nil, Nat.zero_mul]
    exact horder
  · rw [List.length_nil, Nat.zero_mul]
    decide

theorem orderInv_push (hP : Orderly E rank pool fuel (.push s tx))
    (hcall : pool.call E fuel (.push s tx) = some pool') : OrderInv E rank pool' := by
  obtain ⟨hranked, hspent, hroom, hnlast⟩ := hP
  obtain ⟨⟨err, r, pool1⟩, hpush, rfl⟩ := Option.map_eq_some_iff.1 hcall
  obtain ⟨-, hsame⟩ | ⟨last, l, ok, destIn, nValueIn, w, n, -, hnone, -, hadmitted, hins, -, hpool⟩ := push_cases hpush
  · dsimp only
    rwa [hsame]
  · have hB := hroom.1
    obtain ⟨htrue, hle, u, hu, hmark, hdone⟩ := InOrder.insertTx (B := 0) (w := pool.views)
      (by rw [Nat.zero_add]; exact h.1.room hroom) hnlast (by omega) hins hnone hranked hadmitted.unspent
    dsimp only
    rw [hpool]
    refine ⟨hdone w.txView rfl fun o => ?_, by show n < 2 ^ 40; omega⟩
    rw [getSpent_congr hmark, getSpent_spendTx, hu]
    split_ifs with hout hin hin
    · exact absurd (hranked.2 o hin) (by rw [hout.1]; exact lt_irrefl _)
    · rw [show o = ⟨tx.getHash E, o.n⟩ by rw [← hout.1]]
      exact (hspent o.n hout.2.1).symm
    · rfl
    · rfl

theorem orderInv_pop (hcall : pool.call E fuel (.pop txid) = some pool') : OrderInv E rank pool' := by
  obtain ⟨-, rfl⟩ | ⟨t, view, w1, w, ht, hview, hw1, hw, rfl⟩ := pop_cases hcall
  · exact h
  · exact (((h.popOrder hview).invalidateSpent hw1).invalidateSpent hw).done

theorem orderInv_sync (hP : Orderly E rank pool fuel (.sync s update))
    (hcall : pool.call E fuel (.sync s update) = some pool') : OrderInv E rank pool' := by
  obtain ⟨⟨change, pool1⟩, hsync, rfl⟩ := Option.map_eq_some_iff.1 hcall
  obtain ⟨w, hw, hmap, hview, -⟩ := sync_rule (SyncOrder.syncRule E rank fuel s update) (h.syncOrder hP) hsync
  rw [OrderInv, hmap, hview]
  exact hw.done

theorem OrderInv.topological : pool.Topological := by
  obtain ⟨hlinks, hseqs, -, -, -⟩ := h.1.numbered
  have hnum : ∀ l ∈ pool.txView.setTxLinkIndex, num pool.mapTx pool.txView l.hashTX = some l.nSequenceNumber := by
    intro l hl
    obtain ⟨-, t, ht, -⟩ := hlinks.node l hl
    exact num_eq_some.2 ⟨⟨l, hl, rfl⟩, t, ht, (hseqs.seq l hl t ht).symm⟩
  refine ⟨hseqs.sorted.imp fun hlt => hlt.ne, fun p hp c hc t ht o ho hop hn => ?_, fun l hl => ?_⟩
  · rw [(hlinks.node c hc).1] at ht
    refine (h.1.ordered c.hashTX o _ _ ⟨⟨c, hc, rfl⟩, t, ht, ho⟩ hn (hnum c hc) ?_).resolve_right (by simp)
    rw [hop]
    exact hnum p hp
  · obtain ⟨hptx, t, ht, -⟩ := hlinks.node l hl
    exact ⟨t, by rw [hptx, ht], (hseqs.seq l hl t ht).symm⟩

end

end CTxPool

theorem PoolRun.orderInv (run : PoolRun E (Orderly E rank) pool) : pool.OrderInv E rank := by
  induction run with
  | empty => exact ⟨InOrder.empty E rank _, by decide⟩
  | call run hP hcall ih =>
    rename_i x
    cases x with
    | push s tx => exact CTxPool.orderInv_push ih hP hcall
    | pop txid => exact CTxPool.orderInv_pop ih hcall
    | sync s update => exact CTxPool.orderInv_sync ih hP hcall
    | load s vTx => exact absurd hP id

/-- **The sequence numbers are a topological order**: they differ, a parent has a lower one than its spenders,
and the links have those of the entries. -/
theorem pool_topological {E : Env} {rank : ℕ → ℕ} {pool : CTxPool} (run : PoolRun E (Orderly E rank) pool) :
    pool.Topological := run.orderInv.topological

/-! ## A toy pool -/

/-- A coin that the key of the toy miner sends to itself. -/
def toyCoinTx (nSeconds : ℕ) (vInput : List CTxOutPoint) (nAmount : ℤ) : CTransaction where
  nTimeStamp := GENESIS_TIME + nSeconds
  vInput := vInput
  sendTo := toyMiner.destSpent
  nAmount := nAmount
  nTxFee := MIN_TX_FEE
  vchSig := List.replicate 64 0

/-- A chain on which these outputs are unspent. -/
def toyStore (vUnspent : List CTxOutPoint) : CBlockBase :=
  { (genesisChain toyEnv).cntrBlock with
    dbUnspent := fun o => if o ∈ vUnspent then some ⟨toyMiner.destSpent, 1000000, GENESIS_TIME, 0⟩ else none }

/-- One block with `vAddNew` comes, one with `vRemove` goes. -/
def toyUpdate (vAddNew vRemove : List CTransaction) : CBlockChainUpdate where
  hashLastBlock := 0
  nLastBlockHeight := 0
  setTxUpdate := []
  vBlockAddNew := [⟨{ nTimeStamp := GENESIS_TIME + 60, vtx := vAddNew }, vAddNew.map fun _ => {}⟩]
  vBlockRemove := [⟨{ vtx := vRemove }, []⟩]

def toyOutput (tx : CTransaction) : CTxOutPoint := ⟨tx.getHash toyEnv, 0⟩

def toyGrandparent : CTransaction := toyCoinTx 1 [⟨1, 0⟩] 900000
def toyParent1 : CTransaction := toyCoinTx 2 [⟨2, 0⟩] 900000
def toyParent2 : CTransaction := toyCoinTx 2 [toyOutput toyGrandparent] 800000
def toyChild : CTransaction := toyCoinTx 3 [toyOutput toyParent1, toyOutput toyParent2] 700000
def toyGrandchild : CTransaction := toyCoinTx 4 [toyOutput toyChild] 600000

/-- The grandchild is pushed, and its parent comes back under it. -/
def toyBackCalls : List PoolCall :=
  [.push (toyStore [toyOutput toyChild]) toyGrandchild,
    .sync (toyStore [toyOutput toyParent1, toyOutput toyParent2]) (toyUpdate [] [toyChild])]

/-- How many transactions of the toy family lead to a transaction. -/
def toyRank (id : ℕ) : ℕ :=
  if id = toyGrandchild.getHash toyEnv then 2 else if id = toyChild.getHash toyEnv then 1 else 0

theorem PoolRun.exists_calls (Q : CTxPool → ℕ → PoolCall → Prop) [∀ pool fuel x, Decidable (Q pool fuel x)]
    (l : List PoolCall) {P : CTxPool → Prop} [DecidablePred P]
    (h : (CTxPool.calls toyEnv Q 10 l {}).any (fun pool => decide (P pool)) = true) :
    ∃ pool, PoolRun toyEnv Q pool ∧ P pool := by
  obtain ⟨pool, hpool, hP⟩ := exists_some_of_any h
  exact ⟨pool, PoolRun.empty.calls hpool, hP⟩

theorem pool_topological_toy :
    ∃ pool, PoolRun toyEnv (Orderly toyEnv toyRank) pool ∧ pool.Topological ∧
      pool.txView.setTxLinkIndex.map CPooledTxLink.hashTX =
        [toyChild.getHash toyEnv, toyGrandchild.getHash toyEnv] := by
  obtain ⟨pool, run, hids⟩ := PoolRun.exists_calls (Orderly toyEnv toyRank) toyBackCalls (P := fun pool =>
    pool.txView.setTxLinkIndex.map CPooledTxLink.hashTX =
      [toyChild.getHash toyEnv, toyGrandchild.getHash toyEnv]) (by decide +kernel)
  exact ⟨pool, run, pool_topological run, hids⟩

/-- **The pool spends no output twice**, and an output is marked with the pooled transaction that spends it. -/
theorem pool_spends_once {E : Env} {rank : ℕ → ℕ} {pool : CTxPool} (run : PoolRun E (Orderly E rank) pool) :
    (∀ c c' o, Spends pool.mapTx pool.txView c o → Spends pool.mapTx pool.txView c' o → c = c') ∧
      ∀ c o, c ≠ 0 → (pool.txView.getSpent o = c ↔ Spends pool.mapTx pool.txView c o) := by
  have hmarks := run.orderInv.1.marks
  refine ⟨fun c c' o h h' => (hmarks.spent h trivial).symm.trans (hmarks.spent h' trivial), fun c o hc => ?_⟩
  constructor
  · rintro rfl
    exact hmarks.spender hc
  · exact fun h => hmarks.spent h trivial

theorem pool_spends_once_toy :
    ∃ pool, PoolRun toyEnv (Orderly toyEnv toyRank) pool ∧
      Spends pool.mapTx pool.txView (toyGrandchild.getHash toyEnv) (toyOutput toyChild) := by
  obtain ⟨pool, run, hid, hspent⟩ := PoolRun.exists_calls (Orderly toyEnv toyRank) toyBackCalls (P := fun pool =>
    toyGrandchild.getHash toyEnv ≠ 0 ∧ pool.txView.getSpent (toyOutput toyChild) = toyGrandchild.getHash toyEnv)
    (by decide +kernel)
  exact ⟨pool, run, ((pool_spends_once run).2 _ _ hid).1 hspent⟩

/-- The grandchild is popped, the parents of the child come back below it, and one of them is mined. Then the
grandchild comes back with the entry that `Pop` has left, and after it the parent of the other one. -/
def toyStaleCalls : List PoolCall :=
  toyBackCalls ++ [.pop (toyGrandchild.getHash toyEnv),
    .sync (toyStore [⟨2, 0⟩, toyOutput toyGrandparent]) (toyUpdate [] [toyParent1, toyParent2]),
    .sync (toyStore [⟨1, 0⟩]) (toyUpdate [toyParent1] [toyGrandchild, toyGrandparent])]

/-- Whether a parent stands behind its spender. -/
def CTxPool.misplaced (pool : CTxPool) : Bool :=
  pool.txView.setTxLinkIndex.any fun p => pool.txView.setTxLinkIndex.any fun c =>
    (pool.mapTx.find? c.ptx).any fun t => t.tx.vInput.any fun o =>
      o.hash = p.hashTX && o.n < 2 && c.nSequenceNumber ≤ p.nSequenceNumber

theorem CTxPool.not_topological (h : pool.misplaced = true) : ¬pool.Topological := by
  intro ht
  simp only [misplaced, List.any_eq_true, Option.any_eq_true, Bool.and_eq_true, decide_eq_true_eq] at h
  obtain ⟨p, hp, c, hc, t, hct, o, ho, ⟨hop, hn⟩, hle⟩ := h
  exact absurd (ht.parent_lt p hp c hc t hct o ho hop hn) (by omega)

/-- **A parent behind its child**: every `AddNew` of the run has succeeded. -/
theorem pool_not_topological :
    ∃ pool, PoolRun toyEnv (fun _ _ x => x.isLoad = false) pool ∧ pool.fAdded = true ∧ ¬pool.Topological := by
  obtain ⟨pool, run, hadded, hmisplaced⟩ :=
    PoolRun.exists_calls (fun _ _ x => x.isLoad = false) toyStaleCalls (P := fun pool =>
    pool.fAdded = true ∧ pool.misplaced = true) (by decide +kernel)
  exact ⟨pool, run, hadded, CTxPool.not_topological hmisplaced⟩

end Minemon
