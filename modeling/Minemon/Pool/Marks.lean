import Minemon.Pool.Calls

/-!
# Marks

`mapSpent` marks an output with the pooled transaction that spends it.

* `getSpent_setUnspents`, `getSpent_spendTx`, `getSpent_restored`: what each operation does to the marks.
* `Marks`: the marks are those of the inputs, and nothing else is marked; `Marks.leave` and `Marks.enter` say
  that this survives a transaction that goes or comes.
-/

namespace Minemon

namespace CTxPoolView

def Spends (mapTx : MapTx) (view : CTxPoolView) (c : ℕ) (o : CTxOutPoint) : Prop :=
  view.Linked c ∧ ∃ t, mapTx.find? c = some t ∧ o ∈ t.tx.vInput

/-! ## The mark of an output -/

section

variable {mapTx mapTx' : MapTx} {view view' : CTxPoolView} {txid : ℕ} {out : CTxOutPoint}

theorem getSpent_congr (h : view'.mapSpent = view.mapSpent) (o : CTxOutPoint) : view'.getSpent o = view.getSpent o := by
  rw [getSpent, getSpent, h]

theorem getSpent_eraseSpent (o : CTxOutPoint) :
    (view.eraseSpent out).getSpent o = if o = out then 0 else view.getSpent o := by
  unfold getSpent eraseSpent
  dsimp only
  rw [OrdMap.find?_erase]
  split_ifs <;> rfl

theorem getSpent_insert {c : CSpent} (o : CTxOutPoint) :
    getSpent { view with mapSpent := view.mapSpent.insert out c } o =
      if o = out then c.txidNextTx else view.getSpent o := by
  unfold getSpent
  dsimp only
  rw [OrdMap.find?_insert]
  split_ifs <;> rfl

theorem getSpent_setUnspents {l : List CTxOutPoint} (h : setUnspents mapTx l view = some view') (o : CTxOutPoint) :
    view'.getSpent o = if o ∈ l then 0 else view.getSpent o := by
  fun_induction setUnspents mapTx l view with
  | case1 => rw [← Option.some.inj h, if_neg (by simp)]
  | case2 => cases h
  | case3 out l view v hv ih =>
    have hstep : v.getSpent o = if o = out then 0 else view.getSpent o := by
      obtain rfl | ⟨_, rfl⟩ := setUnspent_cases hv
      · exact getSpent_eraseSpent o
      · exact getSpent_insert o
    rw [ih h, hstep]
    by_cases hl : o ∈ l <;> simp [hl]

theorem getSpent_spendTx {t : CPooledTx} (o : CTxOutPoint) :
    (view.spendTx txid t).getSpent o =
      if o.hash = txid ∧ o.n < 2 ∧ (t.getOutput o.n).isNull = false then 0
      else if o ∈ t.tx.vInput then txid else view.getSpent o := by
  have hin : ∀ (l : List CTxOutPoint) (v : CTxPoolView),
      (l.foldl (fun v prevout => v.setSpent prevout txid) v).getSpent o = if o ∈ l then txid else v.getSpent o := by
    intro l
    induction l with
    | nil => simp
    | cons p l ih =>
      intro v
      rw [List.foldl_cons, ih, setSpent, getSpent_insert]
      by_cases hl : o ∈ l <;> simp [hl, CSpent.ofSpent]
  have hout : ∀ (i : ℕ) (v : CTxPoolView), getSpent (if (t.getOutput i).isNull then v
      else { v with mapSpent := v.mapSpent.insert ⟨txid, i⟩ (CSpent.ofUnspent (t.getOutput i)) }) o =
        if o = ⟨txid, i⟩ ∧ (t.getOutput i).isNull = false then 0 else v.getSpent o := by
    intro i v
    by_cases hnull : (t.getOutput i).isNull = true
    · simp [hnull]
    · rw [if_neg hnull, getSpent_insert]
      simp [hnull, CSpent.ofUnspent]
  unfold spendTx
  rw [List.foldl_cons, List.foldl_cons, List.foldl_nil, hout, hout, hin]
  obtain ⟨hash, n⟩ := o
  rcases n with _ | _ | n
  · by_cases hhash : hash = txid <;> simp [hhash]
  · by_cases hhash : hash = txid <;> simp [hhash]
  · simp

end

end CTxPoolView

theorem PoolViews.getSpent_leaveOutput {view : CTxPoolView} {out : CTxOutPoint} (o : CTxOutPoint) :
    (leaveOutput view out).1.getSpent o = view.getSpent o := by
  unfold leaveOutput
  split_ifs with hspent
  · rfl
  · rw [CTxPoolView.getSpent_eraseSpent]
    split_ifs with ho
    · have h0 : view.getSpent out = 0 := by simpa [CTxPoolView.isSpent] using hspent
      rw [ho, h0]
    · rfl

theorem CTxPool.getSpent_restoreSpent {view : CTxPoolView} {out : CTxOutPoint} {txidNextTx : ℕ} (o : CTxOutPoint) :
    (restoreSpent view out txidNextTx).getSpent o =
      if o = out ∧ txidNextTx ≠ 0 then txidNextTx else view.getSpent o := by
  unfold restoreSpent
  split_ifs with h0 ho ho
  · rw [CTxPoolView.setSpent, CTxPoolView.getSpent_insert, if_pos ho.1]
    rfl
  · rw [CTxPoolView.setSpent, CTxPoolView.getSpent_insert, if_neg (fun h => ho ⟨h, h0⟩)]
  · exact absurd ho.2 h0
  · rfl

theorem CTxPool.getSpent_restored {w w' : PoolViews} {txid : ℕ} {t : CPooledTx}
    (hspent : w'.txView.mapSpent = (w.txView.spendTx txid t).mapSpent) (hself : ∀ o ∈ t.tx.vInput, o.hash ≠ txid)
    (o : CTxOutPoint) :
    (restored w w' txid).txView.getSpent o = if o ∈ t.tx.vInput then txid else w.txView.getSpent o := by
  unfold restored
  dsimp only
  rw [getSpent_restoreSpent, getSpent_restoreSpent, CTxPoolView.getSpent_congr hspent, CTxPoolView.getSpent_spendTx]
  by_cases hin : o ∈ t.tx.vInput
  · have hne := hself o hin
    rw [if_neg (fun h => hne (by rw [h.1])), if_neg (fun h => hne (by rw [h.1])), if_neg (fun h => hne h.1),
      if_pos hin]
  · rw [if_neg hin]
    split_ifs with h1 h0 hout
    · rw [h1.1]
    · rw [h0.1]
    · obtain ⟨hash, n⟩ := o
      obtain ⟨rfl, hn, -⟩ := hout
      dsimp only at hn
      interval_cases n
      · have hzero : w.txView.getSpent ⟨hash, 0⟩ = 0 := by simpa using h0
        exact hzero.symm
      · have hzero : w.txView.getSpent ⟨hash, 1⟩ = 0 := by simpa using h1
        exact hzero.symm
    · rfl

/-! ## Exact marks -/

/-- The marks of the outputs in `P` are their spenders, and what is marked is spent. -/
structure Marks (spends : ℕ → CTxOutPoint → Prop) (mark : CTxOutPoint → ℕ) (P : CTxOutPoint → Prop) : Prop where
  spent : ∀ {c o}, spends c o → P o → mark o = c
  spender : ∀ {o}, mark o ≠ 0 → spends (mark o) o

namespace Marks

variable {spends spends' : ℕ → CTxOutPoint → Prop} {mark mark' : CTxOutPoint → ℕ} {P P' : CTxOutPoint → Prop}

theorem congr (h : Marks spends mark P) (hspends : ∀ c o, spends' c o ↔ spends c o)
    (hmark : ∀ o, mark' o = mark o) : Marks spends' mark' P := by
  obtain rfl : mark' = mark := funext hmark
  exact ⟨fun hc => h.spent ((hspends _ _).1 hc), fun ho => (hspends _ _).2 (h.spender ho)⟩

/-- The transaction `id` goes, and with it the marks of its inputs. -/
theorem leave (h : Marks spends mark P) {id : ℕ} {l : List CTxOutPoint}
    (hspends : ∀ c o, spends' c o ↔ spends c o ∧ c ≠ id) (hin : ∀ o, spends id o ↔ o ∈ l)
    (hmark : ∀ o, mark' o = if o ∈ l then 0 else mark o) : Marks spends' mark' P := by
  refine ⟨fun {c o} hc hP => ?_, fun {o} ho => ?_⟩
  · obtain ⟨hc, hne⟩ := (hspends c o).1 hc
    have hold := h.spent hc hP
    rw [hmark, if_neg fun hl => hne ((h.spent ((hin o).2 hl) hP).symm.trans hold).symm, hold]
  · rw [hmark] at ho ⊢
    split_ifs at ho ⊢ with hl
    · exact absurd rfl ho
    · exact (hspends _ o).2 ⟨h.spender ho, fun heq => hl ((hin o).1 (heq ▸ h.spender ho))⟩

/-- The transaction `id` comes: its inputs were not spent, and the marks in `P'` are not lost. -/
theorem enter (h : Marks spends mark fun _ => True) {id : ℕ} {l : List CTxOutPoint}
    (hspends : ∀ c o, spends' c o ↔ spends c o ∨ (c = id ∧ o ∈ l)) (hunspent : ∀ o ∈ l, mark o = 0)
    (hnonzero : ∀ c o, spends c o → c ≠ 0) (hmark : ∀ o, P' o → mark' o = if o ∈ l then id else mark o)
    (hlost : ∀ o, mark' o = 0 ∨ mark' o = if o ∈ l then id else mark o) : Marks spends' mark' P' := by
  refine ⟨fun {c o} hc hP => ?_, fun {o} ho => ?_⟩
  · rw [hmark o hP]
    rcases (hspends c o).1 hc with hc | ⟨rfl, hl⟩
    · have hold := h.spent hc trivial
      rw [if_neg fun hl => hnonzero c o hc (hold.symm.trans (hunspent o hl)), hold]
    · rw [if_pos hl]
  · have heq := (hlost o).resolve_left ho
    rw [heq] at ho ⊢
    split_ifs at ho ⊢ with hl
    · exact (hspends id o).2 (Or.inr ⟨rfl, hl⟩)
    · exact (hspends _ o).2 (Or.inl (h.spender ho))

end Marks

namespace CTxPoolView

variable {mapTx mapTx' : MapTx} {view view' : CTxPoolView}

section

variable {S : ℕ → Prop} (hr : Renumbered S mapTx mapTx')

include hr

theorem spends_congr (hlinked : ∀ j, view'.Linked j ↔ view.Linked j)
    (c : ℕ) (o : CTxOutPoint) : Spends mapTx' view' c o ↔ Spends mapTx view c o := by
  have htx : ∀ {m m' : MapTx}, (∀ k, (m'.find? k).map CPooledTx.content = (m.find? k).map CPooledTx.content) →
      (∃ t, m.find? c = some t ∧ o ∈ t.tx.vInput) → ∃ t, m'.find? c = some t ∧ o ∈ t.tx.vInput := by
    rintro m m' hcontent ⟨t, ht, ho⟩
    have hc := hcontent c
    rw [ht, Option.map_some] at hc
    obtain ⟨t', ht', heq⟩ := Option.map_eq_some_iff.1 hc
    exact ⟨t', ht', by rwa [CPooledTx.tx_of_content heq]⟩
  unfold Spends
  rw [hlinked]
  exact and_congr_right fun _ => ⟨htx fun k => (hr.content k).symm, htx hr.content⟩

end

end CTxPoolView

end Minemon
