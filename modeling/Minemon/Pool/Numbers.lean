import Minemon.Lib.GapNumbers
import Minemon.Pool.Frames

/-!
# Sequence numbers

`AddTxIndex` gives the numbers of a view from gaps. While every gap has numbers left it does not fail, and the
number it gives is below those of the transactions that spend an output.

* `CTxPoolView.addTxIndex_ok`: the index of a transaction that is spent in the view.
* `CTxPoolView.addTxIndex_unspent`: the index of one that is not.
-/

namespace Minemon

open GapNumbers

def CPooledTx.numbers (t : CPooledTx) : Slot := ⟨t.nSequenceNumber, t.nNextSequenceNumber⟩

def CTxPoolView.nums (mapTx : MapTx) (view : CTxPoolView) (id : ℕ) : Option Slot :=
  if (view.get id).isSome then (mapTx.find? id).map CPooledTx.numbers else none

/-- The links stand in the order of their numbers, and the entries have the same ones. -/
structure LinkSeqs (mapTx : MapTx) (view : CTxPoolView) : Prop where
  sorted : view.setTxLinkIndex.Pairwise fun a b => a.nSequenceNumber < b.nSequenceNumber
  seq : ∀ l ∈ view.setTxLinkIndex, ∀ t, mapTx.find? l.hashTX = some t → l.nSequenceNumber = t.nSequenceNumber

variable {E : Env} {mapTx mapTx' : MapTx} {view view' : CTxPoolView} {id txid B M : ℕ} {t : CPooledTx}

namespace CTxPoolView

theorem nums_eq_some {a : Slot} :
    nums mapTx view id = some a ↔ view.Linked id ∧ ∃ t, mapTx.find? id = some t ∧ t.numbers = a := by
  rw [nums, ← get_isSome]
  split_ifs with h
  · simp [h]
  · simp [h]

theorem nums_of_linked (hl : view.Linked id) (ht : mapTx.find? id = some t) :
    nums mapTx view id = some t.numbers := nums_eq_some.2 ⟨hl, t, ht, rfl⟩

theorem nums_eq_none (hl : ¬view.Linked id) : nums mapTx view id = none := by
  rw [nums, if_neg (fun h => hl (get_isSome.1 h))]

theorem nums_congr (hlinked : ∀ j, view'.Linked j ↔ view.Linked j)
    (hentries : ∀ j, view.Linked j → mapTx'.find? j = mapTx.find? j) : nums mapTx' view' = nums mapTx view := by
  funext j
  by_cases hj : view.Linked j
  · rw [nums, nums, if_pos (get_isSome.2 ((hlinked j).2 hj)), if_pos (get_isSome.2 hj), hentries j hj]
  · rw [nums_eq_none hj, nums_eq_none (fun h => hj ((hlinked j).1 h))]

theorem nums_insert {key : ℕ} (hkey : view.Linked key) :
    nums (mapTx.insert key t) view = Function.update (nums mapTx view) key (some t.numbers) := by
  funext j
  by_cases hj : j = key
  · subst hj
    rw [Function.update_self]
    exact nums_of_linked hkey (by rw [OrdMap.find?_insert, if_pos rfl])
  · rw [Function.update_of_ne hj, nums, nums, OrdMap.find?_insert, if_neg hj]

theorem nums_eraseLink (j : ℕ) : nums mapTx (view.eraseLink txid) j = if j = txid then none else nums mapTx view j := by
  split_ifs with hj
  · exact nums_eq_none fun h => (linked_eraseLink.1 h).2 hj
  · by_cases hl : view.Linked j
    · rw [nums, nums, if_pos (get_isSome.2 (linked_eraseLink.2 ⟨hl, hj⟩)), if_pos (get_isSome.2 hl)]
    · rw [nums_eq_none hl, nums_eq_none (fun h => hl (linked_eraseLink.1 h).1)]

def num (mapTx : MapTx) (view : CTxPoolView) (id : ℕ) : Option ℕ := (nums mapTx view id).map Slot.num

theorem num_eq_some {n : ℕ} :
    num mapTx view id = some n ↔ view.Linked id ∧ ∃ t, mapTx.find? id = some t ∧ t.nSequenceNumber = n := by
  rw [num, Option.map_eq_some_iff]
  constructor
  · rintro ⟨a, ha, rfl⟩
    obtain ⟨hl, t, ht, rfl⟩ := nums_eq_some.1 ha
    exact ⟨hl, t, ht, rfl⟩
  · rintro ⟨hl, t, ht, rfl⟩
    exact ⟨_, nums_of_linked hl ht, rfl⟩

theorem num_congr (hlinked : ∀ j, view'.Linked j ↔ view.Linked j)
    (hseq : ∀ j, view.Linked j → (mapTx'.find? j).map CPooledTx.nSequenceNumber =
      (mapTx.find? j).map CPooledTx.nSequenceNumber) (j : ℕ) : num mapTx' view' j = num mapTx view j := by
  have hnum : ∀ (m : MapTx) (v : CTxPoolView), v.Linked j →
      num m v j = (m.find? j).map CPooledTx.nSequenceNumber := fun m v hv => by
    rw [num, nums, if_pos (get_isSome.2 hv), Option.map_map]
    rfl
  by_cases hj : view.Linked j
  · rw [hnum mapTx' view' ((hlinked j).2 hj), hnum mapTx view hj, hseq j hj]
  · rw [num, num, nums_eq_none hj, nums_eq_none fun h => hj ((hlinked j).1 h)]

end CTxPoolView

namespace LinkSeqs

theorem empty (mapTx : MapTx) : LinkSeqs mapTx {} := ⟨List.Pairwise.nil, by simp⟩

theorem eraseLink (h : LinkSeqs mapTx view) : LinkSeqs mapTx (view.eraseLink txid) :=
  ⟨h.sorted.sublist List.filter_sublist, fun l hl => h.seq l (CTxPoolView.mem_eraseLink.1 hl).1⟩

theorem congr (h : LinkSeqs mapTx view) (hlinks : view'.setTxLinkIndex = view.setTxLinkIndex)
    (hseq : ∀ j, view.Linked j → (mapTx'.find? j).map CPooledTx.nSequenceNumber =
      (mapTx.find? j).map CPooledTx.nSequenceNumber) : LinkSeqs mapTx' view' := by
  refine ⟨by rw [hlinks]; exact h.sorted, fun l hl t' ht' => ?_⟩
  rw [hlinks] at hl
  have heq := hseq l.hashTX ⟨l, hl, rfl⟩
  rw [ht', Option.map_some] at heq
  obtain ⟨t, ht, ht''⟩ := Option.map_eq_some_iff.1 heq.symm
  rw [h.seq l hl t ht, ht'']

theorem getSeq_eq_none (h : LinkSeqs mapTx view) (hl : LinkIds E mapTx view) {n : ℕ} :
    view.getSeq n = none ↔ ∀ j a, CTxPoolView.nums mapTx view j = some a → a.num ≠ n := by
  rw [CTxPoolView.getSeq_eq_none]
  constructor
  · intro hn j a hj
    obtain ⟨⟨l, hmem, rfl⟩, t, ht, rfl⟩ := CTxPoolView.nums_eq_some.1 hj
    rw [show t.numbers.num = l.nSequenceNumber from (h.seq l hmem t ht).symm]
    exact hn l hmem
  · intro hn l hmem
    obtain ⟨-, t, ht, -⟩ := hl.node l hmem
    rw [h.seq l hmem t ht]
    exact hn _ _ (CTxPoolView.nums_of_linked ⟨l, hmem, rfl⟩ ht)

end LinkSeqs

namespace CTxPoolView

/-! ## Links -/

theorem pairwise_orderedInsert {l : List CPooledTxLink} {x : CPooledTxLink}
    (h : l.Pairwise fun a b => a.nSequenceNumber < b.nSequenceNumber)
    (hx : ∀ y ∈ l, y.nSequenceNumber ≠ x.nSequenceNumber) :
    (l.orderedInsert (fun a b => a.nSequenceNumber < b.nSequenceNumber) x).Pairwise
      fun a b => a.nSequenceNumber < b.nSequenceNumber := by
  induction l with
  | nil => simp
  | cons y l ih =>
    rw [List.pairwise_cons] at h
    rw [List.orderedInsert_cons]
    split_ifs with hlt
    · refine List.pairwise_cons.2 ⟨fun z hz => ?_, List.pairwise_cons.2 h⟩
      rcases List.mem_cons.1 hz with rfl | hz
      · exact hlt
      · exact hlt.trans (h.1 z hz)
    · refine List.pairwise_cons.2 ⟨fun z hz => ?_, ih h.2 fun z hz => hx z (List.mem_cons_of_mem y hz)⟩
      rcases (List.mem_orderedInsert _).1 hz with rfl | hz
      · have := hx y List.mem_cons_self
        omega
      · exact h.1 z hz

/-- A link of the number that the entry has, where it is idle. -/
theorem linkAt_ok (hl : LinkIds E mapTx view) (hs : LinkSeqs mapTx view)
    (ht : mapTx.find? txid = some t) (hid : t.tx.getHash E = txid) (hnew : ¬view.Linked txid)
    (hidle : view.getSeq t.nSequenceNumber = none) :
    LinkSeqs mapTx (view.linkAt txid t.nSequenceNumber) ∧
      nums mapTx (view.linkAt txid t.nSequenceNumber) = Function.update (nums mapTx view) txid (some t.numbers) := by
  obtain ⟨-, hlinked⟩ := linkIds_linkAt hl ht hid hnew t.nSequenceNumber
  refine ⟨?_, funext fun j => ?_⟩
  · rw [linkAt, hidle]
    refine ⟨pairwise_orderedInsert hs.sorted (getSeq_eq_none.1 hidle), fun l hmem t' ht' => ?_⟩
    rcases (List.mem_orderedInsert _).1 hmem with rfl | hmem
    · rw [ht, Option.some.injEq] at ht'
      rw [ht']
    · exact hs.seq l hmem t' ht'
  · by_cases hj : j = txid
    · subst hj
      rw [Function.update_self]
      exact nums_of_linked ((hlinked j).2 (Or.inr ⟨by rw [hidle]; rfl, rfl⟩)) ht
    · rw [Function.update_of_ne hj]
      by_cases hv : view.Linked j
      · rw [nums, nums, if_pos (get_isSome.2 ((hlinked j).2 (Or.inl hv))), if_pos (get_isSome.2 hv)]
      · rw [nums_eq_none hv, nums_eq_none]
        rintro h
        rcases (hlinked j).1 h with h | ⟨-, h⟩
        · exact hv h
        · exact hj h

/-! ## The next number -/

theorem idleLoop_some {nBase n k : ℕ} (h : idleLoop view nBase n = some k) :
    nBase < k ∧ k ≤ nBase + n ∧ view.getSeq k = none ∧ ∀ j, k < j → j ≤ nBase + n → view.getSeq j ≠ none := by
  induction n with
  | zero => simp [idleLoop] at h
  | succ n ih =>
    rw [idleLoop] at h
    split_ifs at h with hnone
    · obtain rfl := Option.some.inj h
      exact ⟨by omega, le_rfl, by simpa using hnone, fun j h1 h2 => by omega⟩
    · obtain ⟨h1, h2, h3, h4⟩ := ih h
      refine ⟨h1, by omega, h3, fun j hj hle => ?_⟩
      rcases hle.eq_or_lt with rfl | hlt
      · simpa using hnone
      · exact h4 j hj (by omega)

theorem idleLoop_isSome {nBase n k : ℕ} (hk : nBase < k) (hle : k ≤ nBase + n) (hidle : view.getSeq k = none) :
    ∃ m, idleLoop view nBase n = some m := by
  induction n with
  | zero => omega
  | succ n ih =>
    rw [idleLoop]
    split_ifs with hnone
    · exact ⟨_, rfl⟩
    · refine ih ?_
      by_contra hlt
      obtain rfl : k = nBase + (n + 1) := by omega
      rw [hidle] at hnone
      exact hnone rfl

section

variable (hl : LinkIds E mapTx view) (hs : LinkSeqs mapTx view)
  (hg : GapOK SEQUENCE_GAP (B + 1) M (nums mapTx view)) (hM : M < 2 ^ 64)

include hl hs hg hM

theorem gapTop_cases {m : ℕ × CPooledTx} (hm : view.Linked m.1 ∧ mapTx.find? m.1 = some m.2) :
    (∃ key r, gapTop mapTx view m = some (key, r) ∧ view.Linked key ∧ mapTx.find? key = some r ∧
        SEQUENCE_GAP ∣ r.nSequenceNumber ∧ m.2.nSequenceNumber ≤ r.nSequenceNumber ∧
        r.nSequenceNumber < m.2.nSequenceNumber + SEQUENCE_GAP) ∨
      (gapTop mapTx view m = none ∧ m.2.nSequenceNumber % SEQUENCE_GAP ≠ 0 ∧
        ∀ j a, nums mapTx view j = some a →
          a.num ≠ m.2.nSequenceNumber / SEQUENCE_GAP * SEQUENCE_GAP + SEQUENCE_GAP) := by
  have hK : SEQUENCE_GAP = 16777216 := rfl
  have hle : m.2.nSequenceNumber ≤ M := hg.le (nums_of_linked hm.1 hm.2)
  unfold gapTop
  split_ifs with hroot
  · exact Or.inl ⟨m.1, m.2, rfl, hm.1, hm.2, Nat.dvd_of_mod_eq_zero hroot, le_rfl, by omega⟩
  · cases hget : view.getSeq ((m.2.nSequenceNumber / SEQUENCE_GAP + 1) * SEQUENCE_GAP % 2 ^ 64) with
    | none =>
      refine Or.inr ⟨rfl, hroot, fun j a hj heq => ?_⟩
      have hja := hg.le hj
      refine (hs.getSeq_eq_none hl).1 hget j a hj ?_
      rw [Nat.mod_eq_of_lt] <;> rw [hK] at * <;> omega
    | some link =>
      obtain ⟨hmem, hseq⟩ := getSeq_eq_some hget
      have hlinked : view.Linked link.hashTX := ⟨link, hmem, rfl⟩
      obtain ⟨-, r, -, -, hr, htx⟩ := linkedTx_of_linked hl hlinked
      have hnum := hs.seq link hmem r hr
      have hpos : 0 < r.nSequenceNumber := hg.pos (nums_of_linked hlinked hr)
      have htop : r.nSequenceNumber = (m.2.nSequenceNumber / SEQUENCE_GAP + 1) * SEQUENCE_GAP := by
        rw [hK] at *
        omega
      refine Or.inl ⟨_, r, htx, hlinked, hr, ⟨_, htop.trans (Nat.mul_comm _ _)⟩, ?_⟩
      rw [hK] at hroot
      rw [htop, hK]
      omega

/-- **The next number** is idle, below that of `m`, and leaves the other numbers in order. -/
theorem numberBelow_ok {m : ℕ × CPooledTx} (hm : view.Linked m.1 ∧ mapTx.find? m.1 = some m.2) (id next : ℕ) :
    ∃ n mapTx', numberBelow mapTx view m = some (n, mapTx') ∧ n < m.2.nSequenceNumber ∧
      GapOK SEQUENCE_GAP B M (Function.update (nums mapTx' view) id (some ⟨n, next⟩)) ∧ view.getSeq n = none := by
  have hK : SEQUENCE_GAP = 16777216 := rfl
  have hmnum := nums_of_linked hm.1 hm.2
  unfold numberBelow
  rcases gapTop_cases hl hs hg hM hm with ⟨key, r, hroot, hkey, hr, htop, hle, hlt⟩ | ⟨hroot, hnot, htop⟩
  · rw [hroot]
    have hrnum := nums_of_linked hkey hr
    have hrle : r.nSequenceNumber ≤ M := hg.le hrnum
    have hrpos : 0 < r.nSequenceNumber := hg.pos hrnum
    obtain ⟨hctr, hroom⟩ := hg.top hrnum htop
    change r.numbers.ctr < r.nSequenceNumber at hctr
    change r.nSequenceNumber + (B + 1) < r.numbers.ctr + SEQUENCE_GAP at hroom
    have hn : r.nextNumber = r.numbers.ctr := by
      show _ = if r.nNextSequenceNumber = 0 then r.nSequenceNumber - 1 else r.nNextSequenceNumber
      unfold CPooledTx.nextNumber
      split_ifs with h0
      · omega
      · rfl
    have hKle := Nat.le_of_dvd hrpos htop
    have hnext : (r.numbers.ctr + (2 ^ 64 - 1)) % 2 ^ 64 = r.numbers.ctr - 1 := by omega
    refine ⟨_, _, rfl, ?_, ?_, ?_⟩
    · rw [hn]
      exact hg.ctr_lt hrnum htop hmnum hle hlt
    · have hupdate : nums (mapTx.insert key r.countDown) view =
          Function.update (nums mapTx view) key (some ⟨r.numbers.num, r.numbers.ctr - 1⟩) := by
        rw [nums_insert hkey, CPooledTx.countDown, hn, hnext]
        rfl
      rw [hupdate, hn]
      exact hg.draw hrnum htop
    · rw [hn]
      exact (hs.getSeq_eq_none hl).2 fun j a hj => hg.ctr_unused hrnum htop hj
  · rw [hroot]
    set b := m.2.nSequenceNumber with hb
    have hbase : SEQUENCE_GAP ∣ b / SEQUENCE_GAP * SEQUENCE_GAP := Dvd.intro_left _ rfl
    have hlow : b / SEQUENCE_GAP * SEQUENCE_GAP + 1 < b := by
      have := hg.room hmnum hbase (by show _ < b; rw [hK] at *; omega) (by show b < _; rw [hK] at *; omega)
      change _ < b at this
      omega
    obtain ⟨n, hn⟩ := idleLoop_isSome (n := b % SEQUENCE_GAP - 1) (Nat.lt_succ_self _)
      (by rw [hK] at *; omega) ((hs.getSeq_eq_none hl).2 fun j a => hg.base_unused (by decide) hbase)
    obtain ⟨h1, h2, hidle, hused⟩ := idleLoop_some hn
    have hnb : n < b := by
      rw [hK] at *
      omega
    refine ⟨n, mapTx, by dsimp only; rw [hn]; rfl, hnb, ?_, hidle⟩
    refine hg.idle hmnum hbase (by show b < _; rw [hK] at *; omega) h1 hnb htop
      ((hs.getSeq_eq_none hl).1 hidle) fun k hk hkb => ?_
    have hkused := hused k hk (by change k < b at hkb; rw [hK] at *; omega)
    rw [Ne, hs.getSeq_eq_none hl] at hkused
    push Not at hkused
    exact hkused

/-! ## AddTxIndex -/

/-- **The index of a transaction that is spent in the view**: it gets a number below its spenders. -/
theorem addTxIndex_ok (ht : mapTx.find? txid = some t) (hid : t.tx.getHash E = txid)
    (hspender : ∀ i ∈ [0, 1], view.getSpent ⟨txid, i⟩ ≠ 0 →
      view.Linked (view.getSpent ⟨txid, i⟩) ∧ view.getSpent ⟨txid, i⟩ ≠ txid)
    (hspent : ∃ i ∈ [0, 1], view.getSpent ⟨txid, i⟩ ≠ 0) :
    ∃ mapTx' view', addTxIndex E mapTx view txid txid = some (true, mapTx', view') ∧
      GapOK SEQUENCE_GAP B M (nums mapTx' view') ∧ LinkSeqs mapTx' view' ∧
      (∀ j, j ≠ txid → num mapTx' view' j = num mapTx view j) ∧
      ∃ n, num mapTx' view' txid = some n ∧
        ∀ i ∈ [0, 1], ∀ k, num mapTx view (view.getSpent ⟨txid, i⟩) = some k → view.getSpent ⟨txid, i⟩ ≠ 0 → n < k := by
  have hl0 := hl.eraseLink txid
  have hs0 : LinkSeqs mapTx (view.eraseLink txid) := hs.eraseLink
  have hg0 : GapOK SEQUENCE_GAP (B + 1) M (nums mapTx (view.eraseLink txid)) := hg.sub fun j a hj => by
    rw [nums_eraseLink] at hj
    split_ifs at hj
    exact hj
  have hlinked0 : (view.eraseLink txid).SpendersLinked txid := fun i hi hne => linked_eraseLink.2 (hspender i hi hne)
  have hnew : ¬(view.eraseLink txid).Linked txid := fun h => (linked_eraseLink.1 h).2 rfl
  have hleast := fun i (hi : i ∈ [0, 1]) (hne : view.getSpent ⟨txid, i⟩ ≠ 0) => lowest_le hl0 hlinked0 hi hne
  obtain ⟨i0, hi0, hne0⟩ := hspent
  obtain ⟨m, -, hlow, -⟩ := hleast i0 hi0 hne0
  have hm := lowest_eq_some hlow
  obtain ⟨n, mapTx1, hnext, hlt, hg1, hidle⟩ := numberBelow_ok hl0 hs0 hg0 hM hm txid t.nNextSequenceNumber
  obtain ⟨hr1, hold⟩ := numberBelow_frame hm hnext
  have ht1 : mapTx1.find? txid = some t := by rw [hr1.same txid hnew, ht]
  -- the entry with its new number
  set mapTx2 := mapTx1.insert txid { t with nSequenceNumber := n } with hmapTx2
  have ht2 : mapTx2.find? txid = some { t with nSequenceNumber := n } := by
    rw [hmapTx2, OrdMap.find?_insert, if_pos rfl]
  have hsame : ∀ j, (view.eraseLink txid).Linked j → mapTx2.find? j = mapTx1.find? j := fun j hj => by
    rw [hmapTx2, OrdMap.find?_insert, if_neg (linked_eraseLink.1 hj).2]
  have hseq2 : ∀ j, (view.eraseLink txid).Linked j → (mapTx2.find? j).map CPooledTx.nSequenceNumber =
      (mapTx.find? j).map CPooledTx.nSequenceNumber := fun j hj => by rw [hsame j hj, hold j]
  have hl2 : LinkIds E mapTx2 (view.eraseLink txid) :=
    (hl0.renumbered hr1).renumbered (Renumbered.insert (S := fun k => k = txid) ht1 rfl rfl)
  obtain ⟨hs', hnums⟩ := linkAt_ok hl2 (hs0.congr rfl hseq2) ht2 hid hnew hidle
  rw [nums_congr (fun _ => Iff.rfl) hsame] at hnums
  refine ⟨mapTx2, (view.eraseLink txid).linkAt txid n, ?_, ?_, hs', fun j hj => ?_, n, ?_, fun i hi k hk hne => ?_⟩
  · obtain ⟨r, hr, hindexed⟩ := addTxIndex_spec hl ht hid
    rw [hr]
    cases hindexed with
    | unlinked h => exact absurd hlinked0 h
    | unspent _ h => cases h.symm.trans hlow
    | full _ h h' =>
      obtain rfl := Option.some.inj (h.symm.trans hlow)
      cases h'.symm.trans hnext
    | drawn _ h h' =>
      obtain rfl := Option.some.inj (h.symm.trans hlow)
      obtain ⟨rfl, rfl⟩ := Prod.mk.inj (Option.some.inj (h'.symm.trans hnext))
      rw [hidle]
      rfl
  · rw [hnums]
    exact hg1
  · rw [num, hnums, Function.update_of_ne hj]
    refine (num_congr (fun _ => Iff.rfl) (fun j _ => hold j) j).trans ?_
    rw [num, num, nums_eraseLink, if_neg hj]
  · rw [num, hnums, Function.update_self]
    rfl
  · obtain ⟨m', c, hlow', hc, hle⟩ := hleast i hi hne
    obtain rfl := Option.some.inj (hlow'.symm.trans hlow)
    obtain ⟨-, c', hc', rfl⟩ := num_eq_some.1 hk
    obtain rfl := Option.some.inj (hc.symm.trans hc')
    omega

end

/-- **The index of a transaction that is not spent**: it keeps the number of its entry. -/
theorem addTxIndex_unspent (hl : LinkIds E mapTx view) (hs : LinkSeqs mapTx view)
    (ht : mapTx.find? txid = some t) (hid : t.tx.getHash E = txid)
    (hspent : ∀ i ∈ [0, 1], view.getSpent ⟨txid, i⟩ = 0)
    (hidle : ∀ j a, j ≠ txid → nums mapTx view j = some a → a.num ≠ t.nSequenceNumber) :
    ∃ view', addTxIndex E mapTx view txid txid = some (true, mapTx, view') ∧ LinkSeqs mapTx view' ∧
      nums mapTx view' = Function.update (nums mapTx view) txid (some t.numbers) := by
  have hl0 := hl.eraseLink txid
  have hs0 : LinkSeqs mapTx (view.eraseLink txid) := hs.eraseLink
  have hnew : ¬(view.eraseLink txid).Linked txid := fun h => (linked_eraseLink.1 h).2 rfl
  have hlow : lowest mapTx (view.eraseLink txid) txid = none := by
    rw [lowest, List.argmin_eq_none, spenders, List.filterMap_eq_nil_iff]
    intro next hmem
    obtain ⟨i, hi, rfl⟩ := List.mem_map.1 hmem
    exact if_pos (hspent i hi)
  have hidle0 := (hs0.getSeq_eq_none hl0).2 fun j a hj => by
    rw [nums_eraseLink] at hj
    split_ifs at hj with hne
    exact hidle j a hne hj
  obtain ⟨hs', hnums⟩ := linkAt_ok hl0 hs0 ht hid hnew hidle0
  refine ⟨(view.eraseLink txid).linkAt txid t.nSequenceNumber, ?_, hs', ?_⟩
  · obtain ⟨r, hr, hindexed⟩ := addTxIndex_spec hl ht hid
    rw [hr]
    cases hindexed with
    | unlinked h => exact absurd (fun i hi hne => absurd (hspent i hi) hne) h
    | unspent => rw [hidle0]; rfl
    | full _ h | drawn _ h => cases h.symm.trans hlow
  · rw [hnums]
    funext j
    by_cases hj : j = txid
    · rw [hj, Function.update_self, Function.update_self]
    · rw [Function.update_of_ne hj, Function.update_of_ne hj, nums_eraseLink, if_neg hj]

end CTxPoolView

end Minemon
