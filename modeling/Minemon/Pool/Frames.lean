import Minemon.Pool.TxPool

/-!
# What the operations of a view leave alone

A view numbers its transactions anew, but it changes nothing else about them, and it touches no entry that it
has no link to.

* `CTxPoolView.Linked`, `LinkIds`: the ids of a view, and links that point to the entry of their own id.
* `addTxIndex_frame`, `addNewLoop_frame`, `addNew_frame`: the frame of each operation.
-/

namespace Minemon

/-! ## Entries -/

/-- What a pooled transaction keeps when it is numbered anew. -/
def CPooledTx.content (t : CPooledTx) : CTransaction × CDestination × ℤ × ℕ :=
  (t.tx, t.destIn, t.nValueIn, t.nSerializeSize)

variable {t t' : CPooledTx}

theorem CPooledTx.tx_of_content (h : t'.content = t.content) : t'.tx = t.tx :=
  congrArg Prod.fst h

/-- The entries are the same up to their numbers, and outside `S` altogether. -/
structure Renumbered (S : ℕ → Prop) (m m' : MapTx) : Prop where
  content : ∀ k, (m'.find? k).map CPooledTx.content = (m.find? k).map CPooledTx.content
  same : ∀ k, ¬S k → m'.find? k = m.find? k

namespace Renumbered

variable {S S' : ℕ → Prop} {m m' m'' : MapTx} {k : ℕ}

theorem refl (S : ℕ → Prop) (m : MapTx) : Renumbered S m m := ⟨fun _ => rfl, fun _ _ => rfl⟩

theorem mono (h : Renumbered S m m') (hS : ∀ k, S k → S' k) : Renumbered S' m m' :=
  ⟨h.content, fun k hk => h.same k fun hs => hk (hS k hs)⟩

theorem trans (h : Renumbered S m m') (h' : Renumbered S m' m'') : Renumbered S m m'' :=
  ⟨fun k => (h'.content k).trans (h.content k), fun k hk => (h'.same k hk).trans (h.same k hk)⟩

theorem insert (ht : m.find? k = some t) (hc : t'.content = t.content) (hk : S k) : Renumbered S m (m.insert k t') := by
  refine ⟨fun j => ?_, fun j hj => ?_⟩
  · rw [OrdMap.find?_insert]
    split_ifs with h
    · rw [h, ht, Option.map_some, Option.map_some, hc]
    · rfl
  · rw [OrdMap.find?_insert, if_neg fun h => hj (by rwa [h])]

theorem find (h : Renumbered S m m') (ht : m.find? k = some t) :
    ∃ t', m'.find? k = some t' ∧ t'.content = t.content := by
  have hk := h.content k
  rw [ht, Option.map_some] at hk
  obtain ⟨t', ht', hc⟩ := Option.map_eq_some_iff.1 hk
  exact ⟨t', ht', hc⟩

theorem isSome (h : Renumbered S m m') : (m'.find? k).isSome = (m.find? k).isSome := by
  have hk := congrArg Option.isSome (h.content k)
  simpa using hk

end Renumbered

/-! ## Links -/

variable {E : Env} {mapTx mapTx' : MapTx} {view view' : CTxPoolView} {id txid nSeq : ℕ} {link : CPooledTxLink}
  {ok : Bool}

namespace CTxPoolView

def Linked (view : CTxPoolView) (id : ℕ) : Prop := ∃ l ∈ view.setTxLinkIndex, l.hashTX = id

theorem get_eq_some (h : view.get id = some link) : link ∈ view.setTxLinkIndex ∧ link.hashTX = id :=
  ⟨List.mem_of_find?_eq_some h, by simpa using List.find?_some h⟩

theorem get_eq_none : view.get id = none ↔ ¬view.Linked id := by
  simp [get, Linked]

theorem get_isSome : (view.get id).isSome = true ↔ view.Linked id := by
  rw [Option.isSome_iff_ne_none, ne_eq, get_eq_none, not_not]

theorem getSeq_eq_some (h : view.getSeq nSeq = some link) : link ∈ view.setTxLinkIndex ∧ link.nSequenceNumber = nSeq :=
  ⟨List.mem_of_find?_eq_some h, by simpa using List.find?_some h⟩

theorem getSeq_eq_none : view.getSeq nSeq = none ↔ ∀ l ∈ view.setTxLinkIndex, l.nSequenceNumber ≠ nSeq := by
  simp [getSeq]

theorem mem_eraseLink {l : CPooledTxLink} :
    l ∈ (view.eraseLink txid).setTxLinkIndex ↔ l ∈ view.setTxLinkIndex ∧ l.hashTX ≠ txid := by
  simp [eraseLink]

theorem linked_eraseLink : (view.eraseLink txid).Linked id ↔ view.Linked id ∧ id ≠ txid := by
  constructor
  · rintro ⟨l, hl, rfl⟩
    rw [mem_eraseLink] at hl
    exact ⟨⟨l, hl.1, rfl⟩, hl.2⟩
  · rintro ⟨⟨l, hl, rfl⟩, hne⟩
    exact ⟨l, mem_eraseLink.2 ⟨hl, hne⟩, rfl⟩

theorem eraseLink_of_not_linked (h : ¬view.Linked txid) : view.eraseLink txid = view := by
  have hfilter : view.setTxLinkIndex.filter (fun l => l.hashTX ≠ txid) = view.setTxLinkIndex := by
    rw [List.filter_eq_self]
    intro l hl
    simpa using fun heq => h ⟨l, hl, heq⟩
  unfold eraseLink
  rw [hfilter]

end CTxPoolView

/-- The links of a view: one for each id, to the entry of that id, whose transaction has it. -/
structure LinkIds (E : Env) (mapTx : MapTx) (view : CTxPoolView) : Prop where
  ids : (view.setTxLinkIndex.map CPooledTxLink.hashTX).Nodup
  node : ∀ l ∈ view.setTxLinkIndex, l.ptx = l.hashTX ∧
    ∃ t, mapTx.find? l.hashTX = some t ∧ t.tx.getHash E = l.hashTX

namespace LinkIds

theorem empty (E : Env) (mapTx : MapTx) : LinkIds E mapTx {} := ⟨List.nodup_nil, by simp⟩

section

variable (h : LinkIds E mapTx view)

include h

theorem find (hl : view.get id = some link) : link.ptx = id ∧ ∃ t, mapTx.find? id = some t ∧ t.tx.getHash E = id := by
  obtain ⟨hmem, rfl⟩ := CTxPoolView.get_eq_some hl
  exact h.node link hmem

theorem find_linked (hl : view.Linked id) : ∃ t, mapTx.find? id = some t ∧ t.tx.getHash E = id := by
  obtain ⟨l, hmem, rfl⟩ := hl
  exact (h.node l hmem).2

theorem renumbered {S : ℕ → Prop} (hr : Renumbered S mapTx mapTx') : LinkIds E mapTx' view := by
  refine ⟨h.ids, fun l hl => ?_⟩
  obtain ⟨hptx, t, ht, hid⟩ := h.node l hl
  obtain ⟨t', ht', hc⟩ := hr.find ht
  exact ⟨hptx, t', ht', by rw [CPooledTx.tx_of_content hc, hid]⟩

theorem entries (hsame : ∀ j, view.Linked j → mapTx'.find? j = mapTx.find? j) : LinkIds E mapTx' view :=
  ⟨h.ids, fun l hl => by rw [hsame l.hashTX ⟨l, hl, rfl⟩]; exact h.node l hl⟩

/-- An entry for a new id is not linked, and the others are as before. -/
theorem newEntry {txid : ℕ} {t : CPooledTx} (hnew : mapTx.find? txid = none)
    (hmap : mapTx.upsert txid (fun o => o.getD t) = mapTx') :
    (∀ j, mapTx'.find? j = if j = txid then some t else mapTx.find? j) ∧ ¬view.Linked txid ∧
      ∀ j, view.Linked j → mapTx'.find? j = mapTx.find? j := by
  have hfind : ∀ j, mapTx'.find? j = if j = txid then some t else mapTx.find? j := fun j => by
    rw [← hmap, OrdMap.find?_upsert, hnew, Option.getD_none]
  have hlinked : ¬view.Linked txid := fun hlinked => by
    obtain ⟨u, hu, -⟩ := h.find_linked hlinked
    rw [hnew] at hu
    cases hu
  refine ⟨hfind, hlinked, fun j hj => ?_⟩
  rw [hfind, if_neg (by rintro rfl; exact hlinked hj)]

theorem eraseLink (txid : ℕ) : LinkIds E mapTx (view.eraseLink txid) :=
  ⟨h.ids.sublist (List.filter_sublist.map _), fun l hl => h.node l (CTxPoolView.mem_eraseLink.1 hl).1⟩

theorem congr (hl : view'.setTxLinkIndex = view.setTxLinkIndex) : LinkIds E mapTx view' := by
  obtain ⟨hids, hnode⟩ := h
  rw [← hl] at hids hnode
  exact ⟨hids, hnode⟩

theorem insert {n : ℕ} (ht : mapTx.find? id = some t)
    (hid : t.tx.getHash E = id) (hnew : ¬view.Linked id)
    (hl : view'.setTxLinkIndex =
      view.setTxLinkIndex.orderedInsert (fun a b => a.nSequenceNumber < b.nSequenceNumber) ⟨id, n, id⟩) :
    LinkIds E mapTx view' ∧ ∀ j, view'.Linked j ↔ view.Linked j ∨ j = id := by
  have hmem : ∀ l, l ∈ view'.setTxLinkIndex ↔ l = ⟨id, n, id⟩ ∨ l ∈ view.setTxLinkIndex := by
    intro l
    rw [hl, List.mem_orderedInsert]
  refine ⟨⟨?_, fun l hl' => ?_⟩, fun j => ?_⟩
  · rw [hl]
    have hperm := (List.perm_orderedInsert (fun a b : CPooledTxLink => a.nSequenceNumber < b.nSequenceNumber)
      ⟨id, n, id⟩ view.setTxLinkIndex).map CPooledTxLink.hashTX
    rw [hperm.nodup_iff, List.map_cons, List.nodup_cons]
    refine ⟨fun hin => ?_, h.ids⟩
    obtain ⟨l, hmem', heq⟩ := List.mem_map.1 hin
    exact hnew ⟨l, hmem', heq⟩
  · rcases (hmem l).1 hl' with rfl | hold
    · exact ⟨rfl, t, ht, hid⟩
    · exact h.node l hold
  · constructor
    · rintro ⟨l, hl', rfl⟩
      rcases (hmem l).1 hl' with rfl | hold
      · exact Or.inr rfl
      · exact Or.inl ⟨l, hold, rfl⟩
    · rintro (⟨l, hold, rfl⟩ | rfl)
      · exact ⟨l, (hmem l).2 (Or.inr hold), rfl⟩
      · exact ⟨_, (hmem _).2 (Or.inl rfl), rfl⟩

end

end LinkIds

/-! ## The number of a transaction -/

/-- The number that the top of a gap gives away next. -/
def CPooledTx.nextNumber (t : CPooledTx) : ℕ :=
  if t.nNextSequenceNumber = 0 then (t.nSequenceNumber + (2 ^ 64 - 1)) % 2 ^ 64 else t.nNextSequenceNumber

/-- The entry after it has given that number away. -/
def CPooledTx.countDown (t : CPooledTx) : CPooledTx :=
  { t with nNextSequenceNumber := (t.nextNumber + (2 ^ 64 - 1)) % 2 ^ 64 }

theorem CPooledTx.content_countDown (t : CPooledTx) : t.countDown.content = t.content := by
  unfold countDown content
  rfl

theorem CPooledTx.nSequenceNumber_countDown (t : CPooledTx) : t.countDown.nSequenceNumber = t.nSequenceNumber := by
  unfold countDown
  rfl

namespace CTxPoolView

section

variable (mapTx : MapTx) (view : CTxPoolView)

def linkedTx (id : ℕ) : Option (ℕ × CPooledTx) := (view.get id).bind fun _ => (mapTx.find? id).map fun t => (id, t)

def spenders (txid : ℕ) (l : List ℕ) : List (ℕ × CPooledTx) :=
  (l.map fun i => view.getSpent ⟨txid, i⟩).filterMap fun next => if next = 0 then none else linkedTx mapTx view next

/-- The pooled spender of a transaction that has the least number. -/
def lowest (txid : ℕ) : Option (ℕ × CPooledTx) := (spenders mapTx view txid [0, 1]).argmin fun m => m.2.nSequenceNumber

/-- The pooled transaction at the top of the gap that `m` is in. -/
def gapTop (m : ℕ × CPooledTx) : Option (ℕ × CPooledTx) :=
  if m.2.nSequenceNumber % SEQUENCE_GAP = 0 then some m
  else (view.getSeq ((m.2.nSequenceNumber / SEQUENCE_GAP + 1) * SEQUENCE_GAP % 2 ^ 64)).bind fun link =>
    linkedTx mapTx view link.hashTX

/-- What the spender `m` leaves for a parent: a number, and the entries that have given it away. -/
def numberBelow (m : ℕ × CPooledTx) : Option (ℕ × MapTx) :=
  match gapTop mapTx view m with
  | some r => some (r.2.nextNumber, mapTx.insert r.1 r.2.countDown)
  | none => (idleLoop view (m.2.nSequenceNumber / SEQUENCE_GAP * SEQUENCE_GAP)
      (m.2.nSequenceNumber % SEQUENCE_GAP - 1)).map fun n => (n, mapTx)

/-- Every spender that the marks of a transaction name has a link. -/
def SpendersLinked (txid : ℕ) : Prop :=
  ∀ i ∈ [0, 1], view.getSpent ⟨txid, i⟩ ≠ 0 → view.Linked (view.getSpent ⟨txid, i⟩)

/-- The view with a link of the number `n`, if that is idle. -/
def linkAt (txid n : ℕ) : CTxPoolView :=
  if (view.getSeq n).isNone then
    ⟨view.setTxLinkIndex.orderedInsert (fun a b => a.nSequenceNumber < b.nSequenceNumber) ⟨txid, n, txid⟩,
      view.mapSpent⟩
  else view

/-- What `AddTxIndex` makes of the entry `t`, which has no link in the view. -/
inductive Indexed (txid : ℕ) (t : CPooledTx) : Bool × MapTx × CTxPoolView → Prop
  | unlinked (h : ¬view.SpendersLinked txid) : Indexed txid t (false, mapTx, view)
  | unspent (h : view.SpendersLinked txid) (hlow : lowest mapTx view txid = none) :
    Indexed txid t ((view.getSeq t.nSequenceNumber).isNone, mapTx, view.linkAt txid t.nSequenceNumber)
  | full (h : view.SpendersLinked txid) {m : ℕ × CPooledTx} (hlow : lowest mapTx view txid = some m)
    (hnext : numberBelow mapTx view m = none) : Indexed txid t (false, mapTx, view)
  | drawn (h : view.SpendersLinked txid) {m : ℕ × CPooledTx} (hlow : lowest mapTx view txid = some m) {n : ℕ}
    {mapTx' : MapTx} (hnext : numberBelow mapTx view m = some (n, mapTx')) :
    Indexed txid t ((view.getSeq n).isNone, mapTx'.insert txid { t with nSequenceNumber := n }, view.linkAt txid n)

end

theorem linkedTx_eq_some {m : ℕ × CPooledTx} (h : linkedTx mapTx view id = some m) :
    view.Linked m.1 ∧ mapTx.find? m.1 = some m.2 := by
  obtain ⟨link, hget, hrest⟩ := Option.bind_eq_some_iff.1 h
  obtain ⟨t, ht, rfl⟩ := Option.map_eq_some_iff.1 hrest
  exact ⟨get_isSome.1 (by rw [hget]; rfl), ht⟩

theorem lowest_eq_some {m : ℕ × CPooledTx} (h : lowest mapTx view txid = some m) :
    view.Linked m.1 ∧ mapTx.find? m.1 = some m.2 := by
  obtain ⟨next, -, hnext⟩ := List.mem_filterMap.1 (List.argmin_mem h)
  split_ifs at hnext
  exact linkedTx_eq_some hnext

theorem numberBelow_frame {m : ℕ × CPooledTx} {n : ℕ} (hm : view.Linked m.1 ∧ mapTx.find? m.1 = some m.2)
    (h : numberBelow mapTx view m = some (n, mapTx')) :
    Renumbered view.Linked mapTx mapTx' ∧ ∀ j, (mapTx'.find? j).map CPooledTx.nSequenceNumber =
      (mapTx.find? j).map CPooledTx.nSequenceNumber := by
  unfold numberBelow at h
  split at h
  · rename_i r htop
    obtain ⟨hlinked, hr⟩ : view.Linked r.1 ∧ mapTx.find? r.1 = some r.2 := by
      unfold gapTop at htop
      split_ifs at htop
      · rwa [← Option.some.inj htop]
      · obtain ⟨link, -, hlink⟩ := Option.bind_eq_some_iff.1 htop
        exact linkedTx_eq_some hlink
    rw [← (Prod.mk.inj (Option.some.inj h)).2]
    refine ⟨Renumbered.insert hr r.2.content_countDown hlinked, fun j => ?_⟩
    rw [OrdMap.find?_insert]
    split_ifs with hj
    · rw [hj, hr, Option.map_some, Option.map_some, CPooledTx.nSequenceNumber_countDown]
    · rfl
  · obtain ⟨_, -, heq⟩ := Option.map_eq_some_iff.1 h
    obtain ⟨-, rfl⟩ := Prod.mk.inj heq
    exact ⟨Renumbered.refl _ _, fun _ => rfl⟩

section

variable (hl : LinkIds E mapTx view)

include hl

theorem linkedTx_of_linked (hid : view.Linked id) :
    ∃ link t, view.get id = some link ∧ link.ptx = id ∧ mapTx.find? id = some t ∧
      linkedTx mapTx view id = some (id, t) := by
  obtain ⟨link, hget⟩ := Option.isSome_iff_exists.1 (get_isSome.2 hid)
  obtain ⟨hptx, t, ht, -⟩ := hl.find hget
  exact ⟨link, t, hget, hptx, ht, by rw [linkedTx, hget, ht]; rfl⟩

/-- **The least spender**: no other spender has a lower number. -/
theorem lowest_le (h : view.SpendersLinked txid) {i : ℕ} (hi : i ∈ [0, 1]) (hne : view.getSpent ⟨txid, i⟩ ≠ 0) :
    ∃ m c, lowest mapTx view txid = some m ∧ mapTx.find? (view.getSpent ⟨txid, i⟩) = some c ∧
      m.2.nSequenceNumber ≤ c.nSequenceNumber := by
  obtain ⟨-, c, -, -, hc, hlinked⟩ := linkedTx_of_linked hl (h i hi hne)
  have hmem : (view.getSpent ⟨txid, i⟩, c) ∈ spenders mapTx view txid [0, 1] :=
    List.mem_filterMap.2 ⟨_, List.mem_map_of_mem hi, by rw [if_neg hne, hlinked]⟩
  cases hlow : lowest mapTx view txid with
  | none =>
    rw [lowest, List.argmin_eq_none] at hlow
    rw [hlow] at hmem
    cases hmem
  | some m => exact ⟨m, c, rfl, hc, List.le_of_mem_argmin (f := fun m => m.2.nSequenceNumber) hmem hlow⟩

theorem minNext_eq (txid : ℕ) (l : List ℕ) (pMin : Option (ℕ × CPooledTx)) :
    minNext mapTx view txid l pMin = some
      (if (∀ i ∈ l, view.getSpent ⟨txid, i⟩ ≠ 0 → (view.get (view.getSpent ⟨txid, i⟩)).isSome = true) then
        some ((spenders mapTx view txid l).foldl
          (List.argAux fun a b => a.2.nSequenceNumber < b.2.nSequenceNumber) pMin)
      else none) := by
  induction l generalizing pMin with
  | nil => simp [minNext, spenders]
  | cons i l ih =>
    rw [minNext, spenders, List.map_cons, List.filterMap_cons]
    by_cases h0 : view.getSpent ⟨txid, i⟩ = 0
    · simp only [h0, if_true, List.forall_mem_cons, ne_eq, not_true_eq_false, false_implies, true_and]
      exact ih pMin
    by_cases hi : view.Linked (view.getSpent ⟨txid, i⟩)
    · obtain ⟨link, t, hget, hptx, ht, htx⟩ := linkedTx_of_linked hl hi
      simp only [if_neg h0, hget, hptx, ht, htx, List.foldl_cons, List.forall_mem_cons, Option.isSome_some,
        implies_true, true_and]
      cases pMin with
      | none => exact ih _
      | some m => exact ih _
    · simp only [get_eq_none.2 hi, List.forall_mem_cons, ne_eq, h0, not_false_eq_true, Option.isSome_none,
        Bool.false_eq_true, imp_false, not_true_eq_false, false_and, if_false]

theorem nextNumber_eq (m : ℕ × CPooledTx) : nextNumber mapTx view m = some (numberBelow mapTx view m) := by
  have hroot : rootOf mapTx view m = some (gapTop mapTx view m) := by
    unfold rootOf gapTop
    split_ifs
    · rfl
    · cases hseq : view.getSeq ((m.2.nSequenceNumber / SEQUENCE_GAP + 1) * SEQUENCE_GAP % 2 ^ 64) with
      | none => rfl
      | some link =>
        have hmem := (getSeq_eq_some hseq).1
        obtain ⟨-, t, -, -, ht, htx⟩ := linkedTx_of_linked hl ⟨link, hmem, rfl⟩
        simp only [(hl.node link hmem).1, ht, Option.bind_some, htx]
  unfold nextNumber numberBelow
  rw [hroot]
  cases gapTop mapTx view m <;> rfl

end

theorem linkTx_eq (ht : mapTx.find? txid = some t) (hid : t.tx.getHash E = txid) (hnew : ¬view.Linked txid) :
    linkTx E mapTx view txid =
      some ((view.getSeq t.nSequenceNumber).isNone, mapTx, view.linkAt txid t.nSequenceNumber) := by
  rw [linkTx, ht]
  dsimp only
  unfold linkAt
  cases hseq : view.getSeq t.nSequenceNumber with
  | some link => rfl
  | none =>
    rw [hid, insertLink, get_eq_none.2 hnew]
    rfl

/-- **What `AddTxIndex` does**, by the links and the marks of the view without the old link. -/
theorem addTxIndex_spec (hl : LinkIds E mapTx view) (ht : mapTx.find? txid = some t) (hid : t.tx.getHash E = txid) :
    ∃ r, addTxIndex E mapTx view txid txid = some r ∧ Indexed mapTx (view.eraseLink txid) txid t r := by
  have hnew : ¬(view.eraseLink txid).Linked txid := fun hin => (linked_eraseLink.1 hin).2 rfl
  have hl0 := hl.eraseLink txid
  have hmin := minNext_eq hl0 txid [0, 1] none
  unfold addTxIndex
  dsimp only
  generalize view.eraseLink txid = view at *
  have hiff : view.SpendersLinked txid ↔ ∀ i ∈ [0, 1], view.getSpent ⟨txid, i⟩ ≠ 0 →
      (view.get (view.getSpent ⟨txid, i⟩)).isSome = true :=
    forall₃_congr fun _ _ _ => get_isSome.symm
  by_cases h : view.SpendersLinked txid
  swap
  · rw [hmin, if_neg (mt hiff.2 h)]
    exact ⟨_, rfl, .unlinked h⟩
  replace hmin : minNext mapTx view txid [0, 1] none = some (some (lowest mapTx view txid)) := by
    rw [hmin, if_pos (hiff.1 h)]
    rfl
  rw [hmin]
  cases hlow : lowest mapTx view txid with
  | none => exact ⟨_, linkTx_eq ht hid hnew, .unspent h hlow⟩
  | some m =>
    dsimp only
    rw [nextNumber_eq hl0]
    cases hnext : numberBelow mapTx view m with
    | none => exact ⟨_, rfl, .full h hlow hnext⟩
    | some r =>
      have ht' : r.2.find? txid = some t := by
        rw [(numberBelow_frame (lowest_eq_some hlow) hnext).1.same txid hnew, ht]
      dsimp only
      rw [ht']
      exact ⟨_, linkTx_eq (t := { t with nSequenceNumber := r.1 }) (by rw [OrdMap.find?_insert, if_pos rfl]) hid hnew,
        .drawn h hlow hnext⟩

/-! ## Adding a transaction -/

/-- A link of the view at a number that was idle. -/
theorem linkIds_linkAt (hl : LinkIds E mapTx view) (ht : mapTx.find? txid = some t) (hid : t.tx.getHash E = txid)
    (hnew : ¬view.Linked txid) (n : ℕ) : LinkIds E mapTx (view.linkAt txid n) ∧
      ∀ j, (view.linkAt txid n).Linked j ↔ view.Linked j ∨ ((view.getSeq n).isNone = true ∧ j = txid) := by
  unfold CTxPoolView.linkAt
  split_ifs with h
  · simpa [h] using hl.insert ht hid hnew rfl
  · exact ⟨hl, by simp [h]⟩

section

variable (hl : LinkIds E mapTx view)

include hl

structure AddFrame (E : Env) (mapTx : MapTx) (view : CTxPoolView) (txid : ℕ) (ok : Bool) (mapTx' : MapTx)
    (view' : CTxPoolView) : Prop where
  entries : Renumbered (fun k => k = txid ∨ view.Linked k) mapTx mapTx'
  links : LinkIds E mapTx' view'
  sub : ∀ j, view'.Linked j → view.Linked j ∨ j = txid
  linked : ok = true → ∀ j, view'.Linked j ↔ view.Linked j ∨ j = txid

theorem addTxIndex_frame (ht : mapTx.find? txid = some t)
    (hid : t.tx.getHash E = txid) (h : addTxIndex E mapTx view txid txid = some (ok, mapTx', view')) :
    AddFrame E mapTx view txid ok mapTx' view' ∧ view'.mapSpent = view.mapSpent := by
  have hl0 := hl.eraseLink txid
  have hnew : ¬(view.eraseLink txid).Linked txid := fun hin => (linked_eraseLink.1 hin).2 rfl
  have hlost : ∀ j, (view.eraseLink txid).Linked j → view.Linked j ∨ j = txid := fun j hj =>
    Or.inl (linked_eraseLink.1 hj).1
  -- a view that has lost the link of `txid`, and one that has it again
  have hnone : AddFrame E mapTx view txid false mapTx (view.eraseLink txid) :=
    ⟨Renumbered.refl _ _, hl0, hlost, by simp⟩
  have hback : ∀ {m : MapTx} {u : CPooledTx} (n : ℕ), Renumbered (fun k => k = txid ∨ view.Linked k) mapTx m →
      m.find? txid = some u → u.tx.getHash E = txid →
        AddFrame E mapTx view txid ((view.eraseLink txid).getSeq n).isNone m ((view.eraseLink txid).linkAt txid n) := by
    intro m u n hr hu hid'
    obtain ⟨hids, hlinked⟩ := linkIds_linkAt (hl0.renumbered hr) hu hid' hnew n
    refine ⟨hr, hids, fun j hj => ?_, fun hok j => ?_⟩
    · rcases (hlinked j).1 hj with hj | ⟨-, rfl⟩
      · exact hlost j hj
      · exact Or.inr rfl
    · rw [hlinked, hok, linked_eraseLink]
      by_cases hj : j = txid <;> simp [hj]
  have hspent : ∀ n, ((view.eraseLink txid).linkAt txid n).mapSpent = view.mapSpent := by
    intro n
    unfold linkAt
    split_ifs <;> rfl
  obtain ⟨r, hr, hindexed⟩ := addTxIndex_spec hl ht hid
  obtain rfl := Option.some.inj (hr.symm.trans h)
  cases hindexed with
  | unlinked | full => exact ⟨hnone, rfl⟩
  | unspent => exact ⟨hback _ (Renumbered.refl _ _) ht hid, hspent _⟩
  | @drawn _ _ hlow n _ hnext =>
    obtain ⟨hr1, -⟩ := numberBelow_frame (lowest_eq_some hlow) hnext
    have ht1 := (hr1.same txid hnew).trans ht
    exact ⟨hback _ ((hr1.mono fun k hk => (hlost k hk).symm).trans (Renumbered.insert ht1 rfl (Or.inl rfl)))
      (u := { t with nSequenceNumber := n }) (by rw [OrdMap.find?_insert, if_pos rfl]) hid, hspent _⟩

theorem reindex_frame (hget : view.get txid = some link)
    (h : addTxIndex E mapTx view txid link.ptx = some (ok, mapTx', view')) :
    AddFrame E mapTx view txid ok mapTx' view' ∧ view'.mapSpent = view.mapSpent ∧
      ∀ k, k = txid ∨ view.Linked k ↔ view.Linked k := by
  obtain ⟨hptx, t, ht, hid⟩ := hl.find hget
  rw [hptx] at h
  obtain ⟨hf, hspent⟩ := addTxIndex_frame hl ht hid h
  refine ⟨hf, hspent, fun k => or_iff_right_of_imp ?_⟩
  rintro rfl
  exact get_isSome.1 (by rw [hget]; rfl)

end

theorem addNewLoop_frame (fuel : ℕ) {vPrevTxid : List (ℕ × ℕ)} (hl : LinkIds E mapTx view)
    (h : addNewLoop E fuel mapTx view vPrevTxid = some (ok, mapTx', view')) :
    Renumbered view.Linked mapTx mapTx' ∧ LinkIds E mapTx' view' ∧ view'.mapSpent = view.mapSpent ∧
      (∀ j, view'.Linked j → view.Linked j) ∧ (ok = true → ∀ j, view'.Linked j ↔ view.Linked j) := by
  fun_induction addNewLoop E fuel mapTx view vPrevTxid with
  | case1 =>
    obtain ⟨rfl, rfl, rfl⟩ := by simpa using h
    exact ⟨Renumbered.refl _ _, hl, rfl, fun _ => id, fun _ _ => Iff.rfl⟩
  | case2 | case4 | case5 | case7 => cases h
  | case3 _ _ _ _ _ _ _ ih => exact ih hl h
  | case9 _ _ _ _ _ _ _ _ _ _ _ ih => exact ih hl h
  | case6 _ _ _ _ _ _ _ hget _ _ _ _ _ hadd =>
    obtain ⟨rfl, rfl, rfl⟩ := by simpa using h
    obtain ⟨hf, hspent, hin⟩ := reindex_frame hl hget hadd
    exact ⟨hf.entries.mono fun k => (hin k).1, hf.links, hspent, fun j hj => (hin j).1 (hf.sub j hj).symm, by simp⟩
  | case8 _ _ view _ _ _ _ hget _ _ _ _ v1 hadd _ _ ih =>
    obtain ⟨hf, hspent, hin⟩ := reindex_frame hl hget hadd
    obtain ⟨hr, hids, hspent', hsub, hiff⟩ := ih hf.links h
    have hlinked : ∀ j, v1.Linked j ↔ view.Linked j := fun j => (hf.linked rfl j).trans (or_comm.trans (hin j))
    exact ⟨(hf.entries.mono fun k => (hin k).1).trans (hr.mono fun k => (hlinked k).1), hids, hspent'.trans hspent,
      fun j hj => (hlinked j).1 (hsub j hj), fun hok j => (hiff hok j).trans (hlinked j)⟩

/-! ### Marks -/

theorem getOutput_of_content (h : t'.content = t.content) (n : ℕ) : t'.getOutput n = t.getOutput n := by
  simp only [CPooledTx.content, Prod.mk.injEq] at h
  match n with
  | 0 => simp [CPooledTx.getOutput, h]
  | 1 => simp [CPooledTx.getOutput, h]
  | _ + 2 => rfl

theorem setTxLinkIndex_spendTx (view : CTxPoolView) (txid : ℕ) (t : CPooledTx) :
    (view.spendTx txid t).setTxLinkIndex = view.setTxLinkIndex := by
  have hin : ∀ (l : List CTxOutPoint) (v : CTxPoolView),
      (l.foldl (fun v prevout => v.setSpent prevout txid) v).setTxLinkIndex = v.setTxLinkIndex := by
    intro l
    induction l with
    | nil => exact fun _ => rfl
    | cons o l ih => exact fun v => ih _
  unfold spendTx
  simp only [List.foldl_cons, List.foldl_nil]
  split_ifs <;> exact hin _ _

theorem mapSpent_spendTx_congr (ht : t'.content = t.content)
    (hv : view'.mapSpent = view.mapSpent) : (view'.spendTx txid t').mapSpent = (view.spendTx txid t).mapSpent := by
  have hin : ∀ (l : List CTxOutPoint) (v v' : CTxPoolView), v'.mapSpent = v.mapSpent →
      (l.foldl (fun v prevout => v.setSpent prevout txid) v').mapSpent =
        (l.foldl (fun v prevout => v.setSpent prevout txid) v).mapSpent := by
    intro l
    induction l with
    | nil => exact fun _ _ h => h
    | cons o l ih =>
      intro v v' h
      refine ih _ _ ?_
      show v'.mapSpent.insert o _ = v.mapSpent.insert o _
      rw [h]
  unfold spendTx
  simp only [List.foldl_cons, List.foldl_nil, getOutput_of_content ht, CPooledTx.tx_of_content ht]
  split_ifs <;> simp only [hin t.tx.vInput view view' hv]

/-- **The frame of `AddNew`**, and what it writes to `mapSpent` when it succeeds. -/
theorem addNew_frame (fuel : ℕ) (hl : LinkIds E mapTx view) (ht : mapTx.find? txid = some t)
    (hid : t.tx.getHash E = txid)
    (h : view.addNew E fuel mapTx txid txid = some (ok, mapTx', view')) :
    AddFrame E mapTx view txid ok mapTx' view' ∧ (ok = true → view'.mapSpent = (view.spendTx txid t).mapSpent) := by
  unfold addNew at h
  split at h
  · simp at h
  · rename_i m1 v1 hadd
    obtain ⟨rfl, rfl, rfl⟩ := by simpa using h
    exact ⟨(addTxIndex_frame hl ht hid hadd).1, by simp⟩
  · rename_i m1 v1 hadd
    obtain ⟨hf, hspent⟩ := addTxIndex_frame hl ht hid hadd
    obtain ⟨t1, ht1, hc1⟩ := hf.entries.find ht
    rw [ht1] at h
    have hl1 := hf.links.congr (setTxLinkIndex_spendTx v1 txid t1)
    have hin : ∀ j, (v1.spendTx txid t1).Linked j ↔ view.Linked j ∨ j = txid := by
      intro j
      unfold Linked
      rw [setTxLinkIndex_spendTx]
      exact hf.linked rfl j
    obtain ⟨hr, hids, hspent', hsub, hiff⟩ := addNewLoop_frame fuel hl1 h
    refine ⟨⟨hf.entries.trans (hr.mono fun k hk => ((hin k).1 hk).symm), hids, fun j hj => (hin j).1 (hsub j hj),
      fun hok j => (hiff hok j).trans (hin j)⟩, fun _ => ?_⟩
    exact hspent'.trans (mapSpent_spendTx_congr hc1 hspent)

/-! ## Removing a transaction -/

theorem setUnspent_cases {out : CTxOutPoint} (h : view.setUnspent mapTx out = some view') :
    view' = view.eraseSpent out ∨
      ∃ output, view' = { view with mapSpent := view.mapSpent.insert out (CSpent.ofUnspent output) } := by
  unfold setUnspent at h
  split at h
  · exact Or.inl (Option.some.inj h).symm
  · split at h
    · cases h
    · exact Or.inr ⟨_, (Option.some.inj h).symm⟩

theorem setUnspents_links {l : List CTxOutPoint} (h : setUnspents mapTx l view = some view') :
    view'.setTxLinkIndex = view.setTxLinkIndex := by
  fun_induction setUnspents mapTx l view with
  | case1 => rw [← Option.some.inj h]
  | case2 => cases h
  | case3 _ _ _ _ hv ih =>
    rw [ih h]
    obtain rfl | ⟨_, rfl⟩ := setUnspent_cases hv <;> rfl

theorem remove_links (h : remove mapTx view txid = some view') :
    view'.setTxLinkIndex = (view.eraseLink txid).setTxLinkIndex := by
  unfold remove at h
  split at h
  · rename_i hget
    rw [← Option.some.inj h, eraseLink_of_not_linked (get_eq_none.1 hget)]
  · split at h
    · simp at h
    · obtain ⟨v, hv, rfl⟩ := Option.map_eq_some_iff.1 h
      unfold eraseLink
      rw [setUnspents_links hv]

end CTxPoolView

end Minemon
