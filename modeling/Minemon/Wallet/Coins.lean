import Minemon.Lib.Postings
import Minemon.Wallet.Wallet

/-!
# Coins as a book

The coins of a wallet by output and amount, without the pointers: a book in which each transaction is at most
two postings.

* `WalletOK`: each coin points to the transaction that `mapWalletTx` has, and each transaction counts the coins
  that point to it.
* `CAssembledTx.postings`, `WalletOK.updateTx`: **a transaction is its postings**.
-/

namespace Minemon

/-! ## The book of a wallet -/

def CTxOut.value (o : CTxOut) : Option ℤ := if o.isNull then none else some o.nAmount

/-- A transaction without what changes while the wallet has it. -/
def CWalletTx.core (wtx : CWalletTx) : CWalletTx :=
  { wtx with nBlockHeight := 0, fIsMine := false, fFromMe := false, nRefCount := 0 }

namespace CWalletTx

variable {wtx wtx' : CWalletTx}

theorem txid_of_core (h : wtx.core = wtx'.core) : wtx.txid = wtx'.txid := congrArg (fun t => t.txid) h

theorem getOutput_core (wtx : CWalletTx) : wtx.core.getOutput = wtx.getOutput := by
  funext n
  match n with
  | 0 => rfl
  | 1 => rfl
  | _ + 2 => rfl

theorem getOutput_of_core (h : wtx.core = wtx'.core) : wtx.getOutput = wtx'.getOutput := by
  rw [← getOutput_core, h, getOutput_core]

theorem getAmount_of_core (h : wtx.core = wtx'.core) (n : ℕ) : wtx.getAmount n = wtx'.getAmount n :=
  congrArg (fun t => t.getAmount n) h

theorem le_one_of_not_isNull {n : ℕ} (h : (wtx.getOutput n).isNull = false) : n = 0 ∨ n = 1 := by
  match n with
  | 0 => exact Or.inl rfl
  | 1 => exact Or.inr rfl
  | _ + 2 => cases h

theorem getAmount_eq {n : ℕ} (h : (wtx.getOutput n).isNull = false) : wtx.getAmount n = (wtx.getOutput n).nAmount := by
  rcases le_one_of_not_isNull h with rfl | rfl <;> rfl

end CWalletTx

namespace CWallet

section

variable (w : CWallet)

def coinKey (c : ℕ × ℕ) : CTxOutPoint × ℤ := (⟨(w.heap c.1).txid, c.2⟩, (w.heap c.1).getAmount c.2)

def coinSet (dest : CDestination) : Finset (CTxOutPoint × ℤ) := (w.mapWalletUnspent dest).setCoins.image w.coinKey

def book : Book CTxOutPoint CDestination ℤ := ⟨w.setWalletTxOut, w.coinSet⟩

/-- Output `n` of the transaction at `p` is a coin. -/
def HasCoin (p n : ℕ) : Prop := (p, n) ∈ (w.mapWalletUnspent ((w.heap p).getOutput n).destTo).setCoins

instance (p n : ℕ) : Decidable (w.HasCoin p n) := inferInstanceAs (Decidable (_ ∈ _))

def refs (p : ℕ) : ℤ := (if w.HasCoin p 0 then 1 else 0) + if w.HasCoin p 1 then 1 else 0

end

end CWallet

/-- Coins point to the transactions of `mapWalletTx`, which count them. -/
structure WalletOK (w : CWallet) : Prop where
  place : ∀ id p, w.mapWalletTx id = some p → p < w.nHeap ∧ (w.heap p).txid = id
  coin : ∀ d c, c ∈ (w.mapWalletUnspent d).setCoins → w.mapWalletTx (w.heap c.1).txid = some c.1 ∧
    ((w.heap c.1).getOutput c.2).isNull = false ∧ ((w.heap c.1).getOutput c.2).destTo = d
  count : ∀ id p, w.mapWalletTx id = some p → (w.heap p).nRefCount = w.refs p
  total : ∀ d, (w.mapWalletUnspent d).nTotalValue =
    wrap64 (∑ c ∈ (w.mapWalletUnspent d).setCoins, (w.heap c.1).getAmount c.2)

structure CoinFrame (w w' : CWallet) : Prop where
  core : ∀ p, (w'.heap p).core = (w.heap p).core
  flags : ∀ p, (w'.heap p).fIsMine = (w.heap p).fIsMine ∧ (w'.heap p).fFromMe = (w.heap p).fFromMe ∧
    (w'.heap p).nBlockHeight = (w.heap p).nBlockHeight
  nHeap : w'.nHeap = w.nHeap
  txOut : w'.setWalletTxOut = w.setWalletTxOut
  db : w'.dbWallet = w.dbWallet

section

variable {w w' w'' : CWallet} {d : CDestination} {p n id : ℕ}

theorem CoinFrame.refl (w : CWallet) : CoinFrame w w := ⟨fun _ => rfl, fun _ => ⟨rfl, rfl, rfl⟩, rfl, rfl, rfl⟩

theorem CoinFrame.trans (h : CoinFrame w w') (h' : CoinFrame w' w'') : CoinFrame w w'' where
  core p := (h'.core p).trans (h.core p)
  flags p := ⟨(h'.flags p).1.trans (h.flags p).1, (h'.flags p).2.1.trans (h.flags p).2.1,
    (h'.flags p).2.2.trans (h.flags p).2.2⟩
  nHeap := h'.nHeap.trans h.nHeap
  txOut := h'.txOut.trans h.txOut
  db := h'.db.trans h.db

theorem refs_congr (h : ∀ n, w'.HasCoin p n ↔ w.HasCoin p n) : w'.refs p = w.refs p := by
  unfold CWallet.refs
  simp only [h]

namespace WalletOK

theorem eq_of_txid (h : WalletOK w) {c : ℕ × ℕ} (hc : c ∈ (w.mapWalletUnspent d).setCoins)
    (hp : w.mapWalletTx id = some p) (hid : (w.heap c.1).txid = id) : c.1 = p := by
  have := (h.coin d c hc).1
  rw [hid, hp, Option.some.injEq] at this
  exact this.symm

theorem mem_coinSet {e : CTxOutPoint × ℤ} :
    e ∈ w.coinSet d ↔ ∃ c ∈ (w.mapWalletUnspent d).setCoins, w.coinKey c = e := Finset.mem_image

theorem coinKey_inj (h : WalletOK w) : Set.InjOn w.coinKey (w.mapWalletUnspent d).setCoins := by
  intro c hc c' hc' heq
  have hid : (w.heap c.1).txid = (w.heap c'.1).txid := congrArg (fun e => e.1.hash) heq
  refine Prod.ext (h.eq_of_txid hc (h.coin d c' hc').1 hid) ?_
  exact congrArg (fun e => e.1.n) heq

/-- **The total of an address is that of its coins**, in a word. -/
theorem nTotalValue_eq (h : WalletOK w) (d : CDestination) :
    (w.mapWalletUnspent d).nTotalValue = wrap64 (∑ e ∈ w.coinSet d, e.2) := by
  rw [h.total, CWallet.coinSet, Finset.sum_image h.coinKey_inj]
  rfl

theorem take_of_none (h : WalletOK w) {out : CTxOutPoint} (hout : w.mapWalletTx out.hash = none) (d : CDestination) :
    Book.take (w.coinSet d) [out] = w.coinSet d := by
  ext e
  rw [Book.mem_take, List.mem_singleton, and_iff_left_iff_imp]
  rintro he rfl
  obtain ⟨c, hc, rfl⟩ := mem_coinSet.1 he
  exact absurd (h.coin d c hc).1 (by rw [show (w.heap c.1).txid = (w.coinKey c).1.hash from rfl, hout]; simp)

end WalletOK

/-! ## Pushing and popping -/

theorem addRef_frame (w : CWallet) (p : ℕ) (k : ℤ) : CoinFrame w (w.addRef p k) := by
  have hheap : ∀ q, (w.addRef p k).heap q = if q = p then { w.heap p with nRefCount := (w.heap p).nRefCount + k }
      else w.heap q := fun q => Function.update_apply ..
  refine ⟨fun q => ?_, fun q => ?_, rfl, rfl, rfl⟩
  · rw [hheap]
    split_ifs with hq
    · rw [hq]
      rfl
    · rfl
  · rw [hheap]
    split_ifs with hq
    · rw [hq]
      exact ⟨rfl, rfl, rfl⟩
    · exact ⟨rfl, rfl, rfl⟩

/-- The wallet with other coins at an address, `k` more of which point to `p`. -/
def CWallet.setCoins (w : CWallet) (d : CDestination) (p : ℕ) (k : ℤ) (coins : CWalletCoins) : CWallet :=
  { w.addRef p k with mapWalletUnspent := Function.update w.mapWalletUnspent d coins }

theorem setCoins_frame (w : CWallet) (d : CDestination) (p : ℕ) (k : ℤ) (coins : CWalletCoins) :
    CoinFrame w (w.setCoins d p k coins) :=
  ⟨(addRef_frame w p k).core, (addRef_frame w p k).flags, rfl, rfl, rfl⟩

theorem coinKey_of_frame (h : CoinFrame w w') : w'.coinKey = w.coinKey := by
  funext c
  unfold CWallet.coinKey
  rw [CWalletTx.txid_of_core (h.core c.1), CWalletTx.getAmount_of_core (h.core c.1)]

theorem coinSet_setCoins (w : CWallet) (d : CDestination) (p : ℕ) (k : ℤ) (coins : CWalletCoins) :
    (w.setCoins d p k coins).coinSet = Function.update w.coinSet d (coins.setCoins.image w.coinKey) := by
  funext d'
  unfold CWallet.coinSet
  rw [coinKey_of_frame (setCoins_frame w d p k coins)]
  by_cases hd : d' = d
  · subst hd
    rw [Function.update_self]
    exact congrArg (fun c : CWalletCoins => c.setCoins.image w.coinKey) (Function.update_self ..)
  · rw [Function.update_of_ne hd]
    exact congrArg (fun c : CWalletCoins => c.setCoins.image w.coinKey) (Function.update_of_ne hd ..)

theorem nRefCount_setCoins (w : CWallet) (d : CDestination) (p q : ℕ) (k : ℤ) (coins : CWalletCoins) :
    ((w.setCoins d p k coins).heap q).nRefCount = (w.heap q).nRefCount + if q = p then k else 0 := by
  show ((Function.update w.heap p _) q).nRefCount = _
  by_cases hq : q = p
  · subst hq
    rw [Function.update_self, if_pos rfl]
  · rw [Function.update_of_ne hq, if_neg hq, add_zero]

/-- The coins of one address change by `(p, n)` alone, and so does the count of `p`. -/
theorem WalletOK.setCoins (h : WalletOK w) (hp : w.mapWalletTx (w.heap p).txid = some p)
    (hnull : ((w.heap p).getOutput n).isNull = false) (hd : ((w.heap p).getOutput n).destTo = d) {k : ℤ}
    {coins : CWalletCoins}
    (hother : ∀ c, c ≠ (p, n) → (c ∈ coins.setCoins ↔ c ∈ (w.mapWalletUnspent d).setCoins))
    (hk : (if (p, n) ∈ coins.setCoins then 1 else 0) = (if w.HasCoin p n then 1 else 0) + k)
    (htotal : coins.nTotalValue = wrap64 (∑ c ∈ coins.setCoins, (w.heap c.1).getAmount c.2)) :
    WalletOK (w.setCoins d p k coins) := by
  have hf := setCoins_frame w d p k coins
  have hout : ∀ q, ((w.setCoins d p k coins).heap q).getOutput = (w.heap q).getOutput :=
    fun q => CWalletTx.getOutput_of_core (hf.core q)
  have hid : ∀ q, ((w.setCoins d p k coins).heap q).txid = (w.heap q).txid :=
    fun q => CWalletTx.txid_of_core (hf.core q)
  have hunspent : (w.setCoins d p k coins).mapWalletUnspent = Function.update w.mapWalletUnspent d coins := rfl
  have hhas : ∀ q m, (q, m) ≠ (p, n) → ((w.setCoins d p k coins).HasCoin q m ↔ w.HasCoin q m) := by
    intro q m hne
    unfold CWallet.HasCoin
    rw [hout, hunspent]
    by_cases hq : ((w.heap q).getOutput m).destTo = d
    · rw [hq, Function.update_self]
      exact hother _ hne
    · rw [Function.update_of_ne hq]
  have hself : (w.setCoins d p k coins).HasCoin p n ↔ (p, n) ∈ coins.setCoins := by
    unfold CWallet.HasCoin
    rw [hout, hunspent, hd, Function.update_self]
  refine ⟨fun id q hq => ⟨(h.place id q hq).1, (hid q).trans (h.place id q hq).2⟩, fun d' c hc => ?_,
    fun id q hq => ?_, fun d' => ?_⟩
  · rw [hid, hout]
    by_cases hd' : d' = d
    · rw [hunspent, hd', Function.update_self] at hc
      by_cases hpn : c = (p, n)
      · rw [hpn, hd']
        exact ⟨hp, hnull, hd⟩
      · rw [hd']
        exact h.coin d c ((hother c hpn).1 hc)
    · rw [hunspent, Function.update_of_ne hd'] at hc
      exact h.coin d' c hc
  · rw [nRefCount_setCoins, h.count id q hq]
    by_cases hqp : q = p
    · subst hqp
      unfold CWallet.refs
      rw [if_pos rfl]
      rcases CWalletTx.le_one_of_not_isNull hnull with rfl | rfl
      · simp only [hhas q 1 (by simp), hself]
        omega
      · simp only [hhas q 0 (by simp), hself]
        omega
    · unfold CWallet.refs
      have hne : ∀ m, (q, m) ≠ (p, n) := fun m hm => hqp (congrArg Prod.fst hm)
      simp only [hhas q _ (hne _), if_neg hqp, add_zero]
  · have hamount : ∀ c : ℕ × ℕ, ((w.setCoins d p k coins).heap c.1).getAmount c.2 = (w.heap c.1).getAmount c.2 :=
      fun c => CWalletTx.getAmount_of_core (hf.core c.1) c.2
    simp only [hamount]
    by_cases hd' : d' = d
    · rw [hunspent, hd', Function.update_self]
      exact htotal
    · rw [hunspent, Function.update_of_ne hd']
      exact h.total d'

theorem pushCoin_frame (w : CWallet) (d : CDestination) (p n : ℕ) :
    CoinFrame w (w.pushCoin d p n) ∧ (w.pushCoin d p n).mapWalletTx = w.mapWalletTx := by
  unfold CWallet.pushCoin
  dsimp only
  split_ifs
  · exact ⟨.refl w, rfl⟩
  · exact ⟨.refl w, rfl⟩
  · exact ⟨setCoins_frame w d p 1 _, rfl⟩

theorem popCoin_frame (w : CWallet) (d : CDestination) (p n : ℕ) :
    CoinFrame w (w.popCoin d p n) ∧ (w.popCoin d p n).mapWalletTx = w.mapWalletTx := by
  unfold CWallet.popCoin
  dsimp only
  split_ifs
  · exact ⟨.refl w, rfl⟩
  · exact ⟨setCoins_frame w d p (-1) _, rfl⟩
  · exact ⟨.refl w, rfl⟩

theorem WalletOK.pushCoin (h : WalletOK w) (hp : w.mapWalletTx (w.heap p).txid = some p)
    (hd : ((w.heap p).getOutput n).isNull = false → ((w.heap p).getOutput n).destTo = d) :
    WalletOK (w.pushCoin d p n) ∧ (w.pushCoin d p n).coinSet = Function.update w.coinSet d
      (Book.give (w.coinSet d) ⟨(w.heap p).txid, n⟩ ((w.heap p).getOutput n).value) := by
  have hkey : w.coinKey (p, n) = (⟨(w.heap p).txid, n⟩, (w.heap p).getAmount n) := rfl
  unfold CWallet.pushCoin
  dsimp only
  by_cases hnull : ((w.heap p).getOutput n).isNull = true
  · rw [if_pos hnull, CTxOut.value, if_pos hnull, Book.give, Function.update_eq_self]
    exact ⟨h, rfl⟩
  · have hnot : ((w.heap p).getOutput n).isNull = false := Bool.eq_false_iff.2 hnull
    rw [if_neg hnull, CTxOut.value, if_neg hnull, Book.give, ← CWalletTx.getAmount_eq hnot, ← hkey]
    by_cases hmem : (p, n) ∈ (w.mapWalletUnspent d).setCoins
    · rw [if_pos hmem,
        Finset.insert_eq_of_mem (show w.coinKey (p, n) ∈ w.coinSet d from Finset.mem_image_of_mem _ hmem),
        Function.update_eq_self]
      exact ⟨h, rfl⟩
    · rw [if_neg hmem]
      have hhas : ¬ w.HasCoin p n := by
        unfold CWallet.HasCoin
        rwa [hd hnot]
      refine ⟨h.setCoins hp hnot (hd hnot) (fun c hc => ?_) ?_ ?_, ?_⟩
      · rw [Finset.mem_insert, or_iff_right hc]
      · rw [if_pos (Finset.mem_insert_self ..), if_neg hhas]
        rfl
      · rw [Finset.sum_insert hmem, h.total d, wrap64_add_left, add_comm]
      · refine (coinSet_setCoins w d p 1 _).trans ?_
        rw [Finset.image_insert]
        rfl

theorem WalletOK.popCoin (h : WalletOK w) (hp : w.mapWalletTx (w.heap p).txid = some p) :
    WalletOK (w.popCoin d p n) ∧ (w.popCoin d p n).coinSet =
      Function.update w.coinSet d (Book.take (w.coinSet d) [⟨(w.heap p).txid, n⟩]) := by
  -- the key of a coin names its pointer
  have hkey : ∀ c ∈ (w.mapWalletUnspent d).setCoins, (w.coinKey c).1 = ⟨(w.heap p).txid, n⟩ → c = (p, n) :=
    fun c hc heq => Prod.ext (h.eq_of_txid hc hp (congrArg CTxOutPoint.hash heq)) (congrArg CTxOutPoint.n heq)
  have hsame : (p, n) ∉ (w.mapWalletUnspent d).setCoins →
      w.coinSet = Function.update w.coinSet d (Book.take (w.coinSet d) [⟨(w.heap p).txid, n⟩]) := by
    intro hmem
    rw [eq_comm, Function.update_eq_self_iff]
    ext e
    rw [Book.mem_take, List.mem_singleton, and_iff_left_iff_imp]
    intro he heq
    obtain ⟨c, hc, rfl⟩ := WalletOK.mem_coinSet.1 he
    exact hmem (hkey c hc heq ▸ hc)
  unfold CWallet.popCoin
  dsimp only
  by_cases hnull : ((w.heap p).getOutput n).isNull = true
  · rw [if_pos hnull]
    refine ⟨h, hsame fun hmem => ?_⟩
    have := (h.coin d _ hmem).2.1
    rw [hnull] at this
    cases this
  · have hnot : ((w.heap p).getOutput n).isNull = false := Bool.eq_false_iff.2 hnull
    rw [if_neg hnull]
    by_cases hmem : (p, n) ∈ (w.mapWalletUnspent d).setCoins
    · rw [if_pos hmem]
      have hd := (h.coin d _ hmem).2.2
      have hhas : w.HasCoin p n := by
        unfold CWallet.HasCoin
        rwa [hd]
      refine ⟨h.setCoins hp hnot hd (fun c hc => ?_) ?_ ?_, ?_⟩
      · rw [Finset.mem_erase, and_iff_right hc]
      · rw [if_neg (Finset.notMem_erase (p, n) _), if_pos hhas]
        rfl
      · rw [h.total d, wrap64_sub_left, ← Finset.add_sum_erase _ _ hmem, add_sub_cancel_left]
      · refine (coinSet_setCoins w d p (-1) _).trans ?_
        congr 1
        ext e
        rw [Finset.mem_image, Book.mem_take, List.mem_singleton, WalletOK.mem_coinSet]
        constructor
        · rintro ⟨c, hc, rfl⟩
          obtain ⟨hne, hc⟩ := Finset.mem_erase.1 hc
          exact ⟨⟨c, hc, rfl⟩, fun heq => hne (hkey c hc heq)⟩
        · rintro ⟨⟨c, hc, rfl⟩, hne⟩
          refine ⟨c, Finset.mem_erase.2 ⟨?_, hc⟩, rfl⟩
          rintro rfl
          exact hne rfl
    · rw [if_neg hmem]
      exact ⟨h, hsame hmem⟩

/-! ## Transactions without coins -/

theorem WalletOK.refs_eq_zero (h : WalletOK w) (hrefs : w.refs p = 0) (d : CDestination) (n : ℕ) :
    (p, n) ∉ (w.mapWalletUnspent d).setCoins := by
  intro hmem
  have hcoin := (h.coin d _ hmem).2
  have hhas : w.HasCoin p n := by
    unfold CWallet.HasCoin
    rwa [hcoin.2]
  unfold CWallet.refs at hrefs
  rcases CWalletTx.le_one_of_not_isNull hcoin.1 with rfl | rfl
  · rw [if_pos hhas] at hrefs
    split_ifs at hrefs <;> omega
  · rw [if_pos hhas] at hrefs
    split_ifs at hrefs <;> omega

/-- Some ids may leave memory, and no other. -/
structure Drops (S : ℕ → Prop) (w w' : CWallet) : Prop where
  sub : ∀ i q, w'.mapWalletTx i = some q → w.mapWalletTx i = some q
  others : ∀ i, ¬ S i → w'.mapWalletTx i = w.mapWalletTx i

theorem Drops.of_eq {S : ℕ → Prop} (h : w'.mapWalletTx = w.mapWalletTx) : Drops S w w' :=
  ⟨fun i q hq => by rwa [h] at hq, fun i _ => congrFun h i⟩

theorem Drops.trans {S S' S'' : ℕ → Prop} (h : Drops S w w') (h' : Drops S' w' w'') (hS : ∀ i, S i ∨ S' i → S'' i) :
    Drops S'' w w'' where
  sub i q hq := h.sub i q (h'.sub i q hq)
  others i hi := (h'.others i fun h => hi (hS i (Or.inr h))).trans (h.others i fun h => hi (hS i (Or.inl h)))

theorem eraseTx_drops (w : CWallet) (id : ℕ) : Drops (· = id) w (w.eraseTx id) := by
  refine ⟨fun i q hq => ?_, fun i hi => Function.update_of_ne hi ..⟩
  by_cases hi : i = id
  · rw [hi, show (w.eraseTx id).mapWalletTx id = none from Function.update_self ..] at hq
    cases hq
  · rwa [show (w.eraseTx id).mapWalletTx i = w.mapWalletTx i from Function.update_of_ne hi ..] at hq

theorem eraseIdle_frame (w : CWallet) (id p : ℕ) :
    CoinFrame w (w.eraseIdle id p) ∧ Drops (· = id) w (w.eraseIdle id p) := by
  unfold CWallet.eraseIdle
  split_ifs
  · exact ⟨⟨fun _ => rfl, fun _ => ⟨rfl, rfl, rfl⟩, rfl, rfl, rfl⟩, eraseTx_drops w id⟩
  · exact ⟨.refl w, .of_eq rfl⟩

theorem WalletOK.eraseTx (h : WalletOK w) (hid : w.mapWalletTx id = some p)
    (hno : ∀ d n, (p, n) ∉ (w.mapWalletUnspent d).setCoins) : WalletOK (w.eraseTx id) := by
  have hmap := (eraseTx_drops w id).sub
  refine ⟨fun i q hq => h.place i q (hmap i q hq), fun d c hc => ⟨?_, (h.coin d c hc).2⟩,
    fun i q hq => h.count i q (hmap i q hq), h.total⟩
  have hne : (w.heap c.1).txid ≠ id := by
    intro heq
    have hcp : c.1 = p := h.eq_of_txid hc hid heq
    exact hno d c.2 (hcp ▸ hc)
  exact (Function.update_of_ne hne ..).trans (h.coin d c hc).1

theorem WalletOK.eraseIdle (h : WalletOK w) (hid : w.mapWalletTx id = some p) :
    WalletOK (w.eraseIdle id p) ∧ (w.eraseIdle id p).coinSet = w.coinSet := by
  unfold CWallet.eraseIdle
  split_ifs with hcount
  · rw [h.count id p hid] at hcount
    exact ⟨h.eraseTx hid (h.refs_eq_zero hcount), rfl⟩
  · exact ⟨h, rfl⟩

/-! ## Inputs -/

theorem popInput_frame (w : CWallet) (d : CDestination) (out : CTxOutPoint) :
    CoinFrame w (w.popInput d out) ∧ Drops (· = out.hash) w (w.popInput d out) := by
  unfold CWallet.popInput
  cases hp : w.mapWalletTx out.hash with
  | none => exact ⟨.refl w, .of_eq rfl⟩
  | some p =>
    have h1 := popCoin_frame w d p out.n
    have h2 := eraseIdle_frame (w.popCoin d p out.n) out.hash p
    exact ⟨h1.1.trans h2.1, (Drops.of_eq h1.2 : Drops (fun _ => False) _ _).trans h2.2 fun _ hi => hi.resolve_left id⟩

theorem WalletOK.popInput (h : WalletOK w) (d : CDestination) (out : CTxOutPoint) :
    WalletOK (w.popInput d out) ∧
      (w.popInput d out).coinSet = Function.update w.coinSet d (Book.take (w.coinSet d) [out]) := by
  unfold CWallet.popInput
  cases hp : w.mapWalletTx out.hash with
  | none => exact ⟨h, by rw [h.take_of_none hp, Function.update_eq_self]⟩
  | some p =>
    have hid := (h.place _ _ hp).2
    have hpop := h.popCoin (n := out.n) (d := d) (hid.symm ▸ hp)
    have hmap : (w.popCoin d p out.n).mapWalletTx out.hash = some p := by
      rw [(popCoin_frame w d p out.n).2, hp]
    have hidle := hpop.1.eraseIdle hmap
    rw [hid] at hpop
    exact ⟨hidle.1, hidle.2.trans hpop.2⟩

theorem popInputs_frame (d : CDestination) (l : List CTxOutPoint) (w : CWallet) :
    CoinFrame w (l.foldl (fun w out => w.popInput d out) w) ∧
      Drops (fun i => ∃ out ∈ l, out.hash = i) w (l.foldl (fun w out => w.popInput d out) w) := by
  induction l generalizing w with
  | nil => exact ⟨.refl w, .of_eq rfl⟩
  | cons out l ih =>
    have h1 := popInput_frame w d out
    have h2 := ih (w.popInput d out)
    refine ⟨h1.1.trans h2.1, h1.2.trans h2.2 fun i hi => ?_⟩
    rcases hi with rfl | ⟨o, ho, rfl⟩
    · exact ⟨out, List.mem_cons_self, rfl⟩
    · exact ⟨o, List.mem_cons_of_mem _ ho, rfl⟩

theorem WalletOK.popInputs (h : WalletOK w) (d : CDestination) (l : List CTxOutPoint) :
    WalletOK (l.foldl (fun w out => w.popInput d out) w) ∧
      (l.foldl (fun w out => w.popInput d out) w).coinSet =
        Function.update w.coinSet d (Book.take (w.coinSet d) l) := by
  induction l generalizing w with
  | nil => exact ⟨h, by rw [Book.take_nil, Function.update_eq_self]; rfl⟩
  | cons out l ih =>
    have h1 := h.popInput d out
    have h2 := ih h1.1
    refine ⟨h2.1, h2.2.trans ?_⟩
    rw [h1.2, Function.update_idem, Function.update_self, Book.take_take]
    rfl

/-! ## One transaction -/

def CWalletTx.fromPostings (wtx : CWalletTx) : List (Posting CTxOutPoint CDestination ℤ) :=
  if wtx.fFromMe then [⟨⟨wtx.txid, 1⟩, wtx.destIn, (wtx.getOutput 1).value, wtx.vInput⟩] else []

def CWalletTx.minePostings (wtx : CWalletTx) : List (Posting CTxOutPoint CDestination ℤ) :=
  if wtx.fIsMine then [⟨⟨wtx.txid, 0⟩, wtx.sendTo, (wtx.getOutput 0).value, []⟩] else []

def CWalletTx.postings (wtx : CWalletTx) : List (Posting CTxOutPoint CDestination ℤ) :=
  wtx.fromPostings ++ wtx.minePostings

structure AddFrame (p : ℕ) (w w' : CWallet) : Prop where
  core : ∀ q, (w'.heap q).core = (w.heap q).core
  flags : ∀ q, (w'.heap q).fIsMine = (w.heap q).fIsMine ∧ (w'.heap q).fFromMe = (w.heap q).fFromMe ∧
    (w'.heap q).nBlockHeight = (w.heap q).nBlockHeight
  nHeap : w'.nHeap = w.nHeap
  db : w'.dbWallet = w.dbWallet
  drops : Drops (fun i => ∃ out ∈ (w.heap p).vInput, out.hash = i) w w'

theorem AddFrame.of_coinFrame (h : CoinFrame w w') (hmap : w'.mapWalletTx = w.mapWalletTx) : AddFrame p w w' :=
  ⟨h.core, h.flags, h.nHeap, h.db, .of_eq hmap⟩

theorem AddFrame.vInput (h : AddFrame p w w') (q : ℕ) : (w'.heap q).vInput = (w.heap q).vInput :=
  congrArg (fun t => t.vInput) (h.core q)

theorem AddFrame.trans (h : AddFrame p w w') (h' : AddFrame p w' w'') : AddFrame p w w'' where
  core q := (h'.core q).trans (h.core q)
  flags q := ⟨(h'.flags q).1.trans (h.flags q).1, (h'.flags q).2.1.trans (h.flags q).2.1,
    (h'.flags q).2.2.trans (h.flags q).2.2⟩
  nHeap := h'.nHeap.trans h.nHeap
  db := h'.db.trans h.db
  drops := h.drops.trans h'.drops fun _ hi => hi.elim id fun ⟨out, hout, hi⟩ => ⟨out, h.vInput p ▸ hout, hi⟩

theorem WalletOK.addTxOut (h : WalletOK w) (out : CTxOutPoint) : WalletOK (w.addTxOut out) :=
  ⟨h.place, h.coin, h.count, h.total⟩

theorem addFromMe_frame (w : CWallet) (p : ℕ) : AddFrame p w (w.addFromMe p) := by
  unfold CWallet.addFromMe
  dsimp only
  generalize hwtx : w.heap p = wtx
  split_ifs
  · exact .of_coinFrame (.refl w) rfl
  · have h1 := popInputs_frame wtx.destIn wtx.vInput (w.addTxOut ⟨wtx.txid, 1⟩)
    have h2 := pushCoin_frame (wtx.vInput.foldl (fun w out => w.popInput wtx.destIn out)
      (w.addTxOut ⟨wtx.txid, 1⟩)) wtx.destIn p 1
    have h := h1.1.trans h2.1
    refine ⟨h.core, h.flags, h.nHeap, h.db, ?_⟩
    rw [hwtx]
    have hd := h1.2.trans (Drops.of_eq h2.2 : Drops (fun _ => False) _ _) fun _ hi => hi.resolve_right id
    exact ⟨hd.sub, hd.others⟩
  · exact .of_coinFrame (.refl w) rfl

theorem addIsMine_frame (w : CWallet) (p : ℕ) : AddFrame p w (w.addIsMine p) := by
  unfold CWallet.addIsMine
  dsimp only
  split_ifs
  · exact .of_coinFrame (.refl w) rfl
  · have h := pushCoin_frame (w.addTxOut ⟨(w.heap p).txid, 0⟩) (w.heap p).sendTo p 0
    exact ⟨h.1.core, h.1.flags, h.1.nHeap, h.1.db, .of_eq h.2⟩
  · exact .of_coinFrame (.refl w) rfl

theorem addNewWalletTx_frame (w : CWallet) (p : ℕ) : AddFrame p w (w.addNewWalletTx p) :=
  (addFromMe_frame w p).trans (addIsMine_frame _ p)

/-- A transaction spends none of its own outputs. -/
def CWalletTx.Selfless (wtx : CWalletTx) : Prop := ∀ out ∈ wtx.vInput, out.hash ≠ wtx.txid

section

variable (h : WalletOK w) (hp : w.mapWalletTx (w.heap p).txid = some p)

include h hp

theorem WalletOK.addFromMe
    (hself : (w.heap p).Selfless) :
    WalletOK (w.addFromMe p) ∧ (w.addFromMe p).book = w.book.posts (w.heap p).fromPostings := by
  unfold CWallet.addFromMe CWalletTx.fromPostings
  dsimp only
  generalize hwtx : w.heap p = wtx at *
  by_cases hfrom : wtx.fFromMe = true
  · rw [if_pos hfrom, if_pos hfrom]
    by_cases hseen : (⟨wtx.txid, 1⟩ : CTxOutPoint) ∈ w.setWalletTxOut
    · rw [if_pos hseen]
      exact ⟨h, (Book.post_of_seen hseen).symm⟩
    · rw [if_neg hseen]
      have hf := popInputs_frame wtx.destIn wtx.vInput (w.addTxOut ⟨wtx.txid, 1⟩)
      have hpop := (h.addTxOut ⟨wtx.txid, 1⟩).popInputs wtx.destIn wtx.vInput
      generalize wtx.vInput.foldl (fun w out => w.popInput wtx.destIn out) (w.addTxOut ⟨wtx.txid, 1⟩) = w2 at *
      have hcore : (w2.heap p).core = wtx.core := (hf.1.core p).trans (congrArg CWalletTx.core hwtx)
      have hid := CWalletTx.txid_of_core hcore
      have hout := CWalletTx.getOutput_of_core hcore
      have hmap : w2.mapWalletTx (w2.heap p).txid = some p := by
        rw [hid, hf.2.others _ fun ⟨out, hout, heq⟩ => hself out hout heq]
        exact hp
      have hpush := hpop.1.pushCoin (n := 1) (d := wtx.destIn) hmap fun _ => by rw [hout]; rfl
      refine ⟨hpush.1, Eq.trans ?_ (Book.post_of_new hseen).symm⟩
      refine Book.ext ((pushCoin_frame w2 wtx.destIn p 1).1.txOut.trans hf.1.txOut) ?_
      show (w2.pushCoin wtx.destIn p 1).coinSet = _
      rw [hpush.2, hid, hout, hpop.2, Function.update_idem, Function.update_self]
      rfl
  · rw [if_neg hfrom, if_neg hfrom]
    exact ⟨h, rfl⟩

theorem WalletOK.addIsMine :
    WalletOK (w.addIsMine p) ∧ (w.addIsMine p).book = w.book.posts (w.heap p).minePostings := by
  unfold CWallet.addIsMine CWalletTx.minePostings
  dsimp only
  by_cases hmine : (w.heap p).fIsMine = true
  · rw [if_pos hmine, if_pos hmine]
    by_cases hseen : (⟨(w.heap p).txid, 0⟩ : CTxOutPoint) ∈ w.setWalletTxOut
    · rw [if_pos hseen]
      exact ⟨h, (Book.post_of_seen hseen).symm⟩
    · rw [if_neg hseen]
      have hpush := (h.addTxOut ⟨(w.heap p).txid, 0⟩).pushCoin (n := 0) (d := (w.heap p).sendTo) hp fun _ => rfl
      refine ⟨hpush.1, Eq.trans ?_ (Book.post_of_new hseen).symm⟩
      refine Book.ext (pushCoin_frame (w.addTxOut _) (w.heap p).sendTo p 0).1.txOut ?_
      rw [Book.take_nil]
      exact hpush.2
  · rw [if_neg hmine, if_neg hmine]
    exact ⟨h, rfl⟩

/-- **A transaction is added to the coins by its postings.** -/
theorem WalletOK.addNewWalletTx
    (hself : (w.heap p).Selfless) :
    WalletOK (w.addNewWalletTx p) ∧ (w.addNewWalletTx p).book = w.book.posts (w.heap p).postings := by
  have hf := addFromMe_frame w p
  obtain ⟨hok, hbook⟩ := h.addFromMe hp hself
  have hid := CWalletTx.txid_of_core (hf.core p)
  have hmap : (w.addFromMe p).mapWalletTx ((w.addFromMe p).heap p).txid = some p := by
    rw [hid, hf.drops.others _ fun ⟨out, hout, heq⟩ => hself out hout heq, hp]
  obtain ⟨hok', hbook'⟩ := hok.addIsMine hmap
  refine ⟨hok', hbook'.trans ?_⟩
  have hmine : ((w.addFromMe p).heap p).minePostings = (w.heap p).minePostings := by
    unfold CWalletTx.minePostings
    rw [(hf.flags p).1, hid, CWalletTx.getOutput_of_core (hf.core p),
      show ((w.addFromMe p).heap p).sendTo = (w.heap p).sendTo from congrArg (fun t => t.sendTo) (hf.core p)]
  rw [hbook, hmine, CWalletTx.postings, Book.posts_append]

end

/-! ## Insertion -/

section

variable {t : CAssembledTx} {fIsMine fFromMe : Bool}

theorem WalletOK.sameCoins (h : WalletOK w) (hcoins : w'.mapWalletUnspent = w.mapWalletUnspent)
    (hcore : ∀ q < w.nHeap, (w'.heap q).core = (w.heap q).core)
    (hstay : ∀ i q, w.mapWalletTx i = some q → w'.mapWalletTx i = some q)
    (hplace : ∀ i q, w'.mapWalletTx i = some q →
      (q < w'.nHeap ∧ (w'.heap q).txid = i) ∧ (w'.heap q).nRefCount = w.refs q) :
    WalletOK w' ∧ w'.coinSet = w.coinSet := by
  have hsame : ∀ {d c}, c ∈ (w.mapWalletUnspent d).setCoins → (w'.heap c.1).core = (w.heap c.1).core :=
    fun hc => hcore _ (h.place _ _ (h.coin _ _ hc).1).1
  have hhas : ∀ q n, w'.HasCoin q n ↔ w.HasCoin q n := by
    intro q n
    unfold CWallet.HasCoin
    rw [hcoins]
    constructor
    · intro hc
      rwa [CWalletTx.getOutput_of_core (hsame hc)] at hc
    · intro hc
      rwa [CWalletTx.getOutput_of_core (hsame hc)]
  refine ⟨⟨fun i q hq => (hplace i q hq).1, fun d c hc => ?_, fun i q hq => ?_, fun d => ?_⟩, ?_⟩
  · rw [hcoins] at hc
    rw [CWalletTx.txid_of_core (hsame hc), CWalletTx.getOutput_of_core (hsame hc)]
    exact ⟨hstay _ _ (h.coin d c hc).1, (h.coin d c hc).2⟩
  · exact (hplace i q hq).2.trans (refs_congr (hhas q)).symm
  · rw [hcoins, h.total d]
    congr 1
    exact Finset.sum_congr rfl fun c hc => (CWalletTx.getAmount_of_core (hsame hc) c.2).symm
  · funext d
    unfold CWallet.coinSet
    rw [hcoins]
    refine Finset.image_congr fun c hc => ?_
    unfold CWallet.coinKey
    rw [CWalletTx.txid_of_core (hsame hc), CWalletTx.getAmount_of_core (hsame hc)]

theorem WalletOK.newTx (h : WalletOK w) {wtx : CWalletTx} (hnew : w.mapWalletTx wtx.txid = none)
    (hcount : wtx.nRefCount = 0) : WalletOK (w.newTx wtx) ∧ (w.newTx wtx).coinSet = w.coinSet := by
  have hmap : ∀ i, i ≠ wtx.txid → (w.newTx wtx).mapWalletTx i = w.mapWalletTx i :=
    fun i hi => Function.update_of_ne hi ..
  have hheap : ∀ q < w.nHeap, (w.newTx wtx).heap q = w.heap q := fun q hq => Function.update_of_ne hq.ne ..
  refine h.sameCoins rfl (fun q hq => congrArg CWalletTx.core (hheap q hq)) (fun i q hq => ?_) fun i q hq => ?_
  · rw [hmap, hq]
    rintro rfl
    simp [hnew] at hq
  · by_cases hi : i = wtx.txid
    · rw [hi, show (w.newTx wtx).mapWalletTx wtx.txid = some w.nHeap from Function.update_self ..,
        Option.some.injEq] at hq
      rw [← hq, show (w.newTx wtx).heap w.nHeap = wtx from Function.update_self ..]
      have hno : ∀ n, ¬ w.HasCoin w.nHeap n := fun n hc => (h.place _ _ (h.coin _ _ hc).1).1.ne rfl
      refine ⟨⟨Nat.lt_succ_self _, hi.symm⟩, ?_⟩
      rw [hcount, CWallet.refs, if_neg (hno 0), if_neg (hno 1)]
      rfl
    · rw [hmap i hi] at hq
      obtain ⟨hlt, hid⟩ := h.place i q hq
      rw [hheap q hlt]
      exact ⟨⟨hlt.trans (Nat.lt_succ_self _), hid⟩, h.count i q hq⟩

theorem WalletOK.setTx (h : WalletOK w) {wtx : CWalletTx} (hcore : wtx.core = (w.heap p).core)
    (hcount : wtx.nRefCount = (w.heap p).nRefCount) :
    WalletOK { w with heap := Function.update w.heap p wtx } ∧
      ({ w with heap := Function.update w.heap p wtx } : CWallet).coinSet = w.coinSet := by
  have hall : ∀ q, (Function.update w.heap p wtx q).core = (w.heap q).core ∧
      (Function.update w.heap p wtx q).nRefCount = (w.heap q).nRefCount := by
    intro q
    by_cases hq : q = p
    · rw [hq, Function.update_self]
      exact ⟨hcore, hcount⟩
    · rw [Function.update_of_ne hq]
      exact ⟨rfl, rfl⟩
  refine h.sameCoins rfl (fun q _ => (hall q).1) (fun _ _ hq => hq) fun i q hq => ?_
  obtain ⟨hlt, hid⟩ := h.place i q hq
  exact ⟨⟨hlt, (CWalletTx.txid_of_core (hall q).1).trans hid⟩, (hall q).2.trans (h.count i q hq)⟩

end

/-! ## Known transactions -/

def CWallet.Knows (E : Env) (T : CAssembledTx → Prop) (w : CWallet) : Prop :=
  ∀ id p, w.mapWalletTx id = some p →
    ∃ t, T t ∧ t.tx.getHash E = id ∧ (w.heap p).core = (CWalletTx.ofTx id t false false).core

/-- Transactions with one id differ at most in their heights. -/
def SameIds (E : Env) (T : CAssembledTx → Prop) : Prop :=
  ∀ t t', T t → T t' → t.tx.getHash E = t'.tx.getHash E →
    t.tx = t'.tx ∧ t.destIn = t'.destIn ∧ t.nValueIn = t'.nValueIn

/-- A transaction spends none of its own outputs. -/
def CAssembledTx.Selfless (E : Env) (t : CAssembledTx) : Prop := ∀ out ∈ t.tx.vInput, out.hash ≠ t.tx.getHash E

def CAssembledTx.walletTx (E : Env) (keys : CWalletKeys) (t : CAssembledTx) : CWalletTx :=
  CWalletTx.ofTx (t.tx.getHash E) t (keys.isMine t.tx.sendTo) (keys.isMine t.destIn)

def CAssembledTx.postings (E : Env) (keys : CWalletKeys) (t : CAssembledTx) :
    List (Posting CTxOutPoint CDestination ℤ) := (t.walletTx E keys).postings

section

variable {E : Env} {keys : CWalletKeys} {T : CAssembledTx → Prop} {t : CAssembledTx}

theorem SameIds.core (hT : SameIds E T) {t' : CAssembledTx} (ht : T t) (ht' : T t')
    (h : t.tx.getHash E = t'.tx.getHash E) (id : ℕ) (m f m' f' : Bool) :
    (CWalletTx.ofTx id t m f).core = (CWalletTx.ofTx id t' m' f').core := by
  obtain ⟨h1, h2, h3⟩ := hT t t' ht ht' h
  unfold CWalletTx.ofTx CWalletTx.core
  rw [h1, h2, h3]

theorem CWalletTx.postings_congr {wtx wtx' : CWalletTx} (h : wtx.core = wtx'.core)
    (hm : wtx.fIsMine = wtx'.fIsMine) (hf : wtx.fFromMe = wtx'.fFromMe) : wtx.postings = wtx'.postings := by
  unfold CWalletTx.postings CWalletTx.fromPostings CWalletTx.minePostings
  rw [hm, hf, CWalletTx.txid_of_core h, CWalletTx.getOutput_of_core h,
    show wtx.destIn = wtx'.destIn from congrArg (fun t => t.destIn) h,
    show wtx.sendTo = wtx'.sendTo from congrArg (fun t => t.sendTo) h,
    show wtx.vInput = wtx'.vInput from congrArg (fun t => t.vInput) h]

/-- The wallet has the transaction `t` at `p`, with its height and flags. -/
structure HasTx (E : Env) (keys : CWalletKeys) (w : CWallet) (t : CAssembledTx) (p : ℕ) : Prop where
  place : w.mapWalletTx (t.tx.getHash E) = some p
  core : (w.heap p).core = (t.walletTx E keys).core
  isMine : (w.heap p).fIsMine = keys.isMine t.tx.sendTo
  fromMe : (w.heap p).fFromMe = keys.isMine t.destIn
  height : (w.heap p).nBlockHeight = t.nBlockHeight

theorem HasTx.txid (h : HasTx E keys w t p) : (w.heap p).txid = t.tx.getHash E := CWalletTx.txid_of_core h.core

theorem HasTx.postings (h : HasTx E keys w t p) : (w.heap p).postings = t.postings E keys :=
  CWalletTx.postings_congr h.core h.isMine h.fromMe

theorem HasTx.selfless (h : HasTx E keys w t p) (hself : t.Selfless E) : (w.heap p).Selfless := by
  have hin : (w.heap p).vInput = t.tx.vInput := congrArg (fun t => t.vInput) h.core
  intro out hout
  rw [h.txid]
  exact hself out (hin ▸ hout)

theorem WalletOK.insertWalletTx (h : WalletOK w) (hk : w.Knows E T) (hT : SameIds E T) (ht : T t)
    {r : ℕ × CWallet}
    (hr : w.insertWalletTx (t.tx.getHash E) t (keys.isMine t.tx.sendTo) (keys.isMine t.destIn) = r) :
    WalletOK r.2 ∧ r.2.book = w.book ∧ r.2.Knows E T ∧ HasTx E keys r.2 t r.1 ∧ r.2.dbWallet = w.dbWallet := by
  unfold CWallet.insertWalletTx at hr
  cases hp : w.mapWalletTx (t.tx.getHash E) with
  | none =>
    rw [hp] at hr
    replace hr : (w.nHeap, w.newTx (t.walletTx E keys)) = r := hr
    subst hr
    have hnew := h.newTx (show w.mapWalletTx (t.walletTx E keys).txid = none from hp) rfl
    have hmapNew : (w.newTx (t.walletTx E keys)).mapWalletTx (t.tx.getHash E) = some w.nHeap := Function.update_self ..
    have hheapNew : (w.newTx (t.walletTx E keys)).heap w.nHeap = t.walletTx E keys := Function.update_self ..
    refine ⟨hnew.1, Book.ext rfl hnew.2, fun i q hq => ?_, ⟨hmapNew, ?_, ?_, ?_, ?_⟩, rfl⟩
    · by_cases hi : i = t.tx.getHash E
      · rw [hi] at hq
        obtain rfl : w.nHeap = q := Option.some.inj (hmapNew.symm.trans hq)
        refine ⟨t, ht, hi.symm, ?_⟩
        rw [hi]
        exact (congrArg CWalletTx.core hheapNew).trans rfl
      · have hq' : w.mapWalletTx i = some q := (Function.update_of_ne hi ..).symm.trans hq
        obtain ⟨t', ht', hid, hcore⟩ := hk i q hq'
        refine ⟨t', ht', hid, ?_⟩
        rw [← hcore]
        exact congrArg CWalletTx.core (Function.update_of_ne (h.place i q hq').1.ne ..)
    all_goals rw [hheapNew]
    all_goals rfl
  | some p =>
    rw [hp] at hr
    replace hr : (p, ({ w with heap := Function.update w.heap p { w.heap p with
      nBlockHeight := t.nBlockHeight, fIsMine := keys.isMine t.tx.sendTo,
      fFromMe := keys.isMine t.destIn } } : CWallet)) = r := hr
    subst hr
    obtain ⟨t', ht', hid, hcore⟩ := hk _ _ hp
    have hset := h.setTx (p := p) (show ({ w.heap p with
      nBlockHeight := t.nBlockHeight, fIsMine := keys.isMine t.tx.sendTo,
      fFromMe := keys.isMine t.destIn } : CWalletTx).core = (w.heap p).core from rfl) rfl
    refine ⟨hset.1, Book.ext rfl hset.2, fun i q hq => ?_, ⟨hp, ?_, ?_, ?_, ?_⟩, rfl⟩
    · obtain ⟨t'', ht'', hid', hcore'⟩ := hk i q hq
      refine ⟨t'', ht'', hid', ?_⟩
      rw [← hcore']
      dsimp only
      by_cases hqp : q = p
      · rw [hqp, Function.update_self]
        rfl
      · rw [Function.update_of_ne hqp]
    all_goals dsimp only; rw [Function.update_self]
    exact hcore.trans (hT.core ht' ht hid _ _ _ _ _)

theorem Drops.knows {S : ℕ → Prop} (h : Drops S w w') (hcore : ∀ q, (w'.heap q).core = (w.heap q).core)
    (hk : w.Knows E T) : w'.Knows E T := by
  intro i q hq
  obtain ⟨t, ht, hid, ht'⟩ := hk i q (h.sub i q hq)
  exact ⟨t, ht, hid, (hcore q).trans ht'⟩

theorem HasTx.added (h : HasTx E keys w t p) (hself : t.Selfless E) (hf : AddFrame p w w') : HasTx E keys w' t p where
  place := by
    refine (hf.drops.others _ fun ⟨out, hout, heq⟩ => ?_).trans h.place
    exact h.selfless hself out hout (heq.trans h.txid.symm)
  core := (hf.core p).trans h.core
  isMine := (hf.flags p).1.trans h.isMine
  fromMe := (hf.flags p).2.1.trans h.fromMe
  height := (hf.flags p).2.2.trans h.height

theorem postings_of_foreign (h : (keys.isMine t.destIn || keys.isMine t.tx.sendTo) = false) :
    t.postings E keys = [] := by
  rw [Bool.or_eq_false_iff] at h
  show (if keys.isMine t.destIn then _ else []) ++ (if keys.isMine t.tx.sendTo then _ else []) = []
  rw [h.1, h.2]
  rfl

variable (keys) in
theorem WalletOK.updateTx (h : WalletOK w) (hk : w.Knows E T) (hT : SameIds E T) (ht : T t) (hself : t.Selfless E) :
    WalletOK (CWallet.updateTx E keys w t) ∧ (CWallet.updateTx E keys w t).Knows E T ∧
      (CWallet.updateTx E keys w t).book = w.book.posts (t.postings E keys) := by
  unfold CWallet.updateTx
  dsimp only
  cases hown : keys.isMine t.destIn || keys.isMine t.tx.sendTo with
  | false =>
    rw [postings_of_foreign hown]
    exact ⟨h, hk, rfl⟩
  | true =>
    rw [if_pos rfl]
    cases hr : w.insertWalletTx (t.tx.getHash E) t (keys.isMine t.tx.sendTo) (keys.isMine t.destIn) with
    | mk p w1 =>
      obtain ⟨hok, hbook, hknows, hhas, -⟩ := h.insertWalletTx hk hT ht hr
      have hadd := addNewWalletTx_frame w1 p
      obtain ⟨hok1, hbook1⟩ := hok.addNewWalletTx (hhas.txid.symm ▸ hhas.place) (hhas.selfless hself)
      obtain ⟨hok', hcoins⟩ := hok1.eraseIdle (hhas.added hself hadd).place
      have hf := eraseIdle_frame (w1.addNewWalletTx p) (t.tx.getHash E) p
      refine ⟨⟨hok'.place, hok'.coin, hok'.count, hok'.total⟩,
        hf.2.knows hf.1.core (hadd.drops.knows hadd.core hknows), ?_⟩
      rw [← hhas.postings, ← hbook, ← hbook1]
      exact Book.ext hf.1.txOut hcoins

end

end

end Minemon
