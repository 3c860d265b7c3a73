import Minemon.Pool.Marks
import Minemon.Pool.Numbers

/-!
# The order of the pool

A pooled transaction stands before those that spend it. `AddNew` gives a new transaction its number and then
goes up through the pooled parents whose numbers are too high.

* `Ordered`: every spender is higher, but for the pairs that the loop of `AddNew` has on its list.
* `CTxPoolView.addNew_ok`: with numbers left `AddNew` succeeds, and the view is in order again.
-/

namespace Minemon

open GapNumbers CTxPoolView

/-- A spender has a higher number than what it spends, or the pair is pending. -/
def Ordered (spends : ℕ → CTxOutPoint → Prop) (num : ℕ → Option ℕ) (pending : List (ℕ × ℕ)) : Prop :=
  ∀ c o n m, spends c o → o.n < 2 → num c = some n → num o.hash = some m → m < n ∨ (o.hash, n) ∈ pending

/-- The order after a transaction `p` got the number `k`: it is below its spenders, and its inputs are pending. -/
theorem Ordered.renumber {spends spends' : ℕ → CTxOutPoint → Prop} {num num' : ℕ → Option ℕ}
    {pending pending' : List (ℕ × ℕ)} {p k : ℕ} (h : Ordered spends num pending)
    (hspends : ∀ c o, c ≠ p → spends' c o → spends c o) (hother : ∀ j, j ≠ p → num' j = num j)
    (hp : num' p = some k) (hbelow : ∀ c o n, spends c o → o.hash = p → o.n < 2 → num c = some n → k < n)
    (hin : ∀ o, spends' p o → (o.hash, k) ∈ pending') (hpending : ∀ x ∈ pending, x.1 ≠ p → x ∈ pending') :
    Ordered spends' num' pending' := by
  intro c o n m hc ho hn hm
  by_cases hcp : c = p
  · subst hcp
    obtain rfl : k = n := Option.some.inj (hp.symm.trans hn)
    exact Or.inr (hin o hc)
  · have hc0 := hspends c o hcp hc
    rw [hother c hcp] at hn
    by_cases hop : o.hash = p
    · rw [hop, hp, Option.some.injEq] at hm
      rw [← hm]
      exact Or.inl (hbelow c o n hc0 hop ho hn)
    · rw [hother _ hop] at hm
      exact (h c o n m hc0 ho hn hm).imp_right fun hmem => hpending _ hmem hop

/-- The transactions of a view have their numbers, with room for `B` more, and no one is its own ancestor. -/
structure Numbered (E : Env) (rank : ℕ → ℕ) (B M : ℕ) (mapTx : MapTx) (view : CTxPoolView) : Prop where
  links : LinkIds E mapTx view
  seqs : LinkSeqs mapTx view
  gaps : GapOK SEQUENCE_GAP B M (nums mapTx view)
  ranked : ∀ {c o}, Spends mapTx view c o → rank o.hash < rank c
  nonzero : ∀ {c}, view.Linked c → c ≠ 0

namespace CTxPoolView

variable {E : Env} {rank : ℕ → ℕ} {mapTx mapTx' : MapTx} {view view' : CTxPoolView} {txid B M : ℕ}

theorem num_inj (h : Numbered E rank B M mapTx view) {i j n : ℕ}
    (hi : num mapTx view i = some n) (hj : num mapTx view j = some n) : i = j := by
  obtain ⟨a, ha, rfl⟩ := Option.map_eq_some_iff.1 hi
  obtain ⟨b, hb, hab⟩ := Option.map_eq_some_iff.1 hj
  exact h.gaps.inj ha hb hab.symm

section

variable {P : CTxOutPoint → Prop} (h : Numbered E rank (B + 1) M mapTx view) (hM : M < 2 ^ 64)
  (hmarks : Marks (Spends mapTx view) view.getSpent P)

include h hM hmarks

theorem index_ok {t : CPooledTx} (hP : ∀ i, P ⟨txid, i⟩) (ht : mapTx.find? txid = some t)
    (hid : t.tx.getHash E = txid) (hother : ∀ o, o.hash = txid → ¬Spends mapTx view txid o)
    (hfresh : (∀ i ∈ [0, 1], view.getSpent ⟨txid, i⟩ = 0) →
      GapOK SEQUENCE_GAP B M (Function.update (nums mapTx view) txid (some t.numbers))) :
    ∃ mapTx' view', addTxIndex E mapTx view txid txid = some (true, mapTx', view') ∧
      GapOK SEQUENCE_GAP B M (nums mapTx' view') ∧ LinkSeqs mapTx' view' ∧
      (∀ j, j ≠ txid → num mapTx' view' j = num mapTx view j) ∧
      ∃ n, num mapTx' view' txid = some n ∧
        ∀ c o k, Spends mapTx view c o → o.hash = txid → o.n < 2 → num mapTx view c = some k → n < k := by
  have hmem : ∀ i, i ∈ [0, 1] ↔ i < 2 := fun i => by simp; omega
  have hspender : ∀ i ∈ [0, 1], view.getSpent ⟨txid, i⟩ ≠ 0 →
      view.Linked (view.getSpent ⟨txid, i⟩) ∧ view.getSpent ⟨txid, i⟩ ≠ txid := fun i _ hne => by
    have hs := hmarks.spender hne
    exact ⟨hs.1, fun heq => hother _ rfl (by rwa [heq] at hs)⟩
  by_cases hspent : ∃ i ∈ [0, 1], view.getSpent ⟨txid, i⟩ ≠ 0
  · obtain ⟨m, v, hadd, hg, hs, hother, n, hn, hlt⟩ :=
      addTxIndex_ok h.links h.seqs h.gaps hM ht hid hspender hspent
    refine ⟨m, v, hadd, hg, hs, hother, n, hn, ?_⟩
    rintro c ⟨_, i⟩ k hc rfl hi hk
    have hmark := hmarks.spent hc (hP i)
    refine hlt i ((hmem i).2 hi) k (by rw [hmark]; exact hk) ?_
    rw [hmark]
    exact h.nonzero hc.1
  · push Not at hspent
    have hg := hfresh hspent
    obtain ⟨v, hadd, hs, hnums⟩ := addTxIndex_unspent h.links h.seqs ht hid hspent fun j a hj ha heq =>
      hj (hg.inj (by rw [Function.update_of_ne hj]; exact ha) (Function.update_self _ _ _) heq)
    refine ⟨mapTx, v, hadd, by rw [hnums]; exact hg, hs, fun j hj => ?_, t.nSequenceNumber, ?_, ?_⟩
    · rw [num, num, hnums, Function.update_of_ne hj]
    · rw [num, hnums, Function.update_self]
      rfl
    · rintro c ⟨_, i⟩ k hc rfl hi hk
      have hmark := hmarks.spent hc (hP i)
      rw [hspent i ((hmem i).2 hi)] at hmark
      exact absurd hmark.symm (h.nonzero hc.1)

/-- **One turn of the loop**: the index of a transaction of the view goes below its spenders. -/
theorem reindex_ok {p : ℕ} (hp : view.Linked p) (hP : ∀ i, P ⟨p, i⟩) :
    ∃ mapTx' view', addTxIndex E mapTx view p p = some (true, mapTx', view') ∧
      Numbered E rank B M mapTx' view' ∧ (∀ c o, Spends mapTx' view' c o ↔ Spends mapTx view c o) ∧
      (∀ j, view'.Linked j ↔ view.Linked j) ∧ view'.mapSpent = view.mapSpent ∧
      (∀ j, j ≠ p → num mapTx' view' j = num mapTx view j) ∧
      ∃ n, num mapTx' view' p = some n ∧
        ∀ c o k, Spends mapTx view c o → o.hash = p → o.n < 2 → num mapTx view c = some k → n < k := by
  obtain ⟨t, ht, hid⟩ := h.links.find_linked hp
  obtain ⟨m, v, hadd, hg, hs, hother, hbelow⟩ := index_ok h hM hmarks hP ht hid
    (fun o ho hc => lt_irrefl _ (ho ▸ h.ranked hc)) fun _ => by
      rw [← nums_of_linked hp ht, Function.update_eq_self]
      exact h.gaps.mono (Nat.le_succ B) le_rfl
  obtain ⟨hf, hspent⟩ := addTxIndex_frame h.links ht hid hadd
  have hlinked : ∀ j, v.Linked j ↔ view.Linked j := fun j => by
    rw [hf.linked rfl, or_iff_left_of_imp]
    rintro rfl
    exact hp
  have hspends := spends_congr hf.entries hlinked
  exact ⟨m, v, hadd, ⟨hf.links, hs, hg, fun hc => h.ranked ((hspends _ _).1 hc), fun hc =>
    h.nonzero ((hlinked _).1 hc)⟩, hspends, hlinked, hspent, hother, hbelow⟩

end

theorem numbered_mono {B' : ℕ} (h : Numbered E rank B' M mapTx view) (hB : B ≤ B') : Numbered E rank B M mapTx view :=
  ⟨h.links, h.seqs, h.gaps.mono hB le_rfl, h.ranked, h.nonzero⟩

theorem ordered_drop {p nSeq : ℕ} {l : List (ℕ × ℕ)}
    (hord : Ordered (Spends mapTx view) (num mapTx view) ((p, nSeq) :: l)) (h : Numbered E rank B M mapTx view)
    (hle : ∀ m, num mapTx view p = some m → m ≤ nSeq) : Ordered (Spends mapTx view) (num mapTx view) l := by
  intro c o n m hc ho hn hm
  rcases hord c o n m hc ho hn hm with hlt | hmem
  · exact Or.inl hlt
  · rcases List.mem_cons.1 hmem with heq | hmem
    · obtain ⟨hop, rfl⟩ := Prod.mk.inj heq
      refine Or.inl (lt_of_le_of_ne (hle m (by rw [← hop, hm])) fun hmn => ?_)
      rw [hmn] at hm
      have hlt := h.ranked hc
      rw [num_inj h hm hn] at hlt
      exact lt_irrefl _ hlt
    · exact Or.inr hmem

/-- **The loop of `AddNew`** puts the pending pairs in order. They are below `R`, where the marks are exact. -/
theorem addNewLoop_ok {R : ℕ} (hM : M < 2 ^ 64) (fuel : ℕ) {vPrevTxid : List (ℕ × ℕ)} {ok : Bool}
    (h : Numbered E rank (B + fuel) M mapTx view)
    (hmarks : Marks (Spends mapTx view) view.getSpent fun o => rank o.hash < R)
    (hord : Ordered (Spends mapTx view) (num mapTx view) vPrevTxid) (hrank : ∀ x ∈ vPrevTxid, rank x.1 < R)
    (hrun : addNewLoop E fuel mapTx view vPrevTxid = some (ok, mapTx', view')) :
    ok = true ∧ Numbered E rank B M mapTx' view' ∧ Ordered (Spends mapTx' view') (num mapTx' view') [] := by
  fun_induction addNewLoop E fuel mapTx view vPrevTxid with
  | case1 =>
    simp only [Option.some.injEq, Prod.mk.injEq] at hrun
    rw [← hrun.2.1, ← hrun.2.2]
    exact ⟨hrun.1.symm, numbered_mono h (Nat.le_add_right _ _), hord⟩
  | case2 | case4 | case5 | case7 => cases hrun
  | case6 fuel mapTx view p nSeq l link hget t ht hlt m1 v1 hadd =>
    obtain ⟨_, _, hadd', -⟩ := reindex_ok h hM hmarks (get_isSome.1 (by rw [hget]; rfl))
      fun _ => hrank (p, nSeq) List.mem_cons_self
    rw [(h.links.find hget).1, hadd'] at hadd
    cases hadd
  | case3 fuel mapTx view p nSeq l hget ih =>
    refine ih (numbered_mono h (Nat.le_succ _)) hmarks (ordered_drop hord h fun m hm => ?_)
      (List.forall_mem_cons.1 hrank).2 hrun
    exact absurd (num_eq_some.1 hm).1 (get_eq_none.1 hget)
  | case9 fuel mapTx view p nSeq l link hget t ht hle ih =>
    obtain ⟨hptx, -⟩ := h.links.find hget
    refine ih (numbered_mono h (Nat.le_succ _)) hmarks (ordered_drop hord h fun m hm => ?_)
      (List.forall_mem_cons.1 hrank).2 hrun
    obtain ⟨-, u, hu, rfl⟩ := num_eq_some.1 hm
    rw [← hptx, ht, Option.some.injEq] at hu
    rw [← hu]
    omega
  | case8 fuel mapTx view p nSeq l link hget t ht hlt m1 v1 hadd t1 ht1 ih =>
    have hpR : rank p < R := hrank (p, nSeq) List.mem_cons_self
    obtain ⟨hptx, t, ht, hid⟩ := h.links.find hget
    have hp : view.Linked p := get_isSome.1 (by rw [hget]; rfl)
    rw [hptx] at hadd ht1
    obtain ⟨m1', v1', hadd', hnum1, hspends1, -, hmap1, hother1, n1, hn1, hbelow⟩ :=
      reindex_ok h hM hmarks hp fun _ => hpR
    obtain ⟨rfl, rfl⟩ : m1 = m1' ∧ v1 = v1' := by simpa [hadd] using hadd'
    have htx1 : t1.tx = t.tx := by
      obtain ⟨u, hu, hc⟩ := (addTxIndex_frame h.links ht hid hadd).1.entries.find ht
      rw [Option.some.inj (ht1.symm.trans hu), CPooledTx.tx_of_content hc]
    have hseq1 : t1.nSequenceNumber = n1 := by
      obtain ⟨-, u, hu, hseq⟩ := num_eq_some.1 hn1
      rw [Option.some.inj (ht1.symm.trans hu), hseq]
    rw [hseq1, htx1] at ih hrun
    refine ih hnum1 (hmarks.congr hspends1 fun o => getSpent_congr hmap1 o) ?_ ?_ hrun
    · refine hord.renumber (fun c o _ hc => (hspends1 c o).1 hc) hother1 hn1 hbelow (fun o hc => ?_) fun x hx hne => ?_
      · obtain ⟨-, u, hu, ho⟩ := (hspends1 p o).1 hc
        obtain rfl := Option.some.inj (ht.symm.trans hu)
        exact List.mem_append_right _ (List.mem_map.2 ⟨o, ho, rfl⟩)
      · exact List.mem_append_left _ ((List.mem_cons.1 hx).resolve_left fun heq => hne (congrArg Prod.fst heq))
    · intro x hx
      rcases List.mem_append.1 hx with hx | hx
      · exact (List.forall_mem_cons.1 hrank).2 x hx
      · obtain ⟨o, ho, rfl⟩ := List.mem_map.1 hx
        exact (h.ranked ⟨hp, t, ht, ho⟩).trans hpR

/-! ## A new transaction -/

/-- **`AddNew` keeps the order** with numbers left and unspent inputs. -/
theorem addNew_ok {t : CPooledTx} {fuel : ℕ} {ok : Bool} (h : Numbered E rank (B + fuel + 1) M mapTx view)
    (hM : M < 2 ^ 64) (hmarks : Marks (Spends mapTx view) view.getSpent fun _ => True)
    (hord : Ordered (Spends mapTx view) (num mapTx view) []) (ht : mapTx.find? txid = some t)
    (hid : t.tx.getHash E = txid) (hnew : ¬view.Linked txid) (hzero : txid ≠ 0)
    (hrank : ∀ o ∈ t.tx.vInput, rank o.hash < rank txid) (hunspent : ∀ o ∈ t.tx.vInput, view.getSpent o = 0)
    (hfresh : (∀ i ∈ [0, 1], view.getSpent ⟨txid, i⟩ = 0) →
      GapOK SEQUENCE_GAP (B + fuel) M (Function.update (nums mapTx view) txid (some t.numbers)))
    (hrun : view.addNew E fuel mapTx txid txid = some (ok, mapTx', view')) :
    ok = true ∧ Numbered E rank B M mapTx' view' ∧ Ordered (Spends mapTx' view') (num mapTx' view') [] ∧
      ∀ c o, Spends mapTx' view' c o ↔ Spends mapTx view c o ∨ (c = txid ∧ o ∈ t.tx.vInput) := by
  obtain ⟨m1, v1, hadd, hg1, hs1, hother1, n1, hn1, hbelow⟩ := index_ok h hM hmarks (fun _ => trivial) ht hid
    (fun _ _ hc => hnew hc.1) hfresh
  obtain ⟨hf1, hmap1⟩ := addTxIndex_frame h.links ht hid hadd
  obtain ⟨t1, ht1, hc1⟩ := hf1.entries.find ht
  have htx1 := CPooledTx.tx_of_content hc1
  have hseq1 : t1.nSequenceNumber = n1 := by
    obtain ⟨-, u, hu, hseq⟩ := num_eq_some.1 hn1
    rw [ht1, Option.some.injEq] at hu
    rw [hu, hseq]
  rw [addNew, hadd] at hrun
  simp only [ht1, hseq1, htx1] at hrun
  -- the view in which the inputs are marked
  set v2 := v1.spendTx txid t1 with hv2
  have hlinks2 : v2.setTxLinkIndex = v1.setTxLinkIndex := setTxLinkIndex_spendTx v1 txid t1
  have hlinked2 : ∀ j, v2.Linked j ↔ view.Linked j ∨ j = txid := fun j => by
    unfold CTxPoolView.Linked
    rw [hlinks2]
    exact hf1.linked rfl j
  have hnums2 : nums m1 v2 = nums m1 v1 :=
    nums_congr (fun j => by rw [hlinked2, hf1.linked rfl]) fun _ _ => rfl
  have hspends2 : ∀ c o, Spends m1 v2 c o ↔ Spends mapTx view c o ∨ (c = txid ∧ o ∈ t.tx.vInput) := fun c o => by
    rw [spends_congr hf1.entries fun _ => Iff.rfl, Spends, Spends, hlinked2]
    by_cases hc : c = txid
    · subst hc
      simp [hnew, ht]
    · simp [hc]
  have hnumbered2 : Numbered E rank (B + fuel) M m1 v2 := by
    refine ⟨hf1.links.congr hlinks2, hs1.congr hlinks2 fun _ _ => rfl, by rw [hnums2]; exact hg1, fun {c o} hc => ?_,
      fun {c} hc => ?_⟩
    · rcases (hspends2 c o).1 hc with hc | ⟨rfl, ho⟩
      · exact h.ranked hc
      · exact hrank o ho
    · rcases (hlinked2 c).1 hc with hc | rfl
      · exact h.nonzero hc
      · exact hzero
  have hmark2 : ∀ o, v2.getSpent o = if o.hash = txid ∧ o.n < 2 ∧ (t1.getOutput o.n).isNull = false then 0
      else if o ∈ t.tx.vInput then txid else view.getSpent o := fun o => by
    rw [hv2, getSpent_spendTx, htx1, getSpent_congr hmap1]
  have hmarks2 : Marks (Spends m1 v2) v2.getSpent fun o => rank o.hash < rank txid := by
    refine hmarks.enter hspends2 hunspent (fun c o hc => h.nonzero hc.1) (fun o hR => ?_) fun o => ?_
    · rw [hmark2, if_neg (fun hout => by rw [hout.1] at hR; exact lt_irrefl _ hR)]
    · rw [hmark2]
      split_ifs <;> simp
  have hord2 : Ordered (Spends m1 v2) (num m1 v2) (t.tx.vInput.map fun prevout => (prevout.hash, n1)) := by
    rw [show num m1 v2 = num m1 v1 from funext fun j => by rw [num, num, hnums2]]
    refine hord.renumber (fun c o hne hc => ((hspends2 c o).1 hc).resolve_right fun h => hne h.1) hother1 hn1 hbelow
      (fun o hc => ?_) (by simp)
    exact List.mem_map.2 ⟨o, (((hspends2 txid o).1 hc).resolve_left fun h => hnew h.1).2, rfl⟩
  obtain ⟨hok, hnumbered, hord'⟩ := addNewLoop_ok hM fuel hnumbered2 hmarks2 hord2 (fun x hx => by
    obtain ⟨o, ho, rfl⟩ := List.mem_map.1 hx
    exact hrank o ho) hrun
  obtain ⟨hr, -, -, -, hiff⟩ := addNewLoop_frame fuel hnumbered2.links hrun
  exact ⟨hok, hnumbered, hord', fun c o => (spends_congr hr (hiff hok) c o).trans (hspends2 c o)⟩

end CTxPoolView

end Minemon
