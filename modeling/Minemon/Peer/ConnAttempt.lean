import Mathlib.Algebra.BigOperators.Fin
import Mathlib.Algebra.Group.Fin.Basic
import Mathlib.Tactic.Ring

/-!
# Inbound attempts

`CConnAttempt` of `xengine/peernet/epmngr.cpp`: eight counters of ten seconds each, used in a ring.

* `CConnAttempt.Window`: what the counters say about the times of the calls.
* `CConnAttempt.attempt_limits`: **the answers follow a window that is between 70 and 80 seconds long**.
-/

namespace Minemon

/-- The counters are integers without bounds: none of them exceeds the number of calls (`Window.counters_le`). -/
structure CConnAttempt where
  arrayAttempt : Fin 8 → ℤ := fun _ => 0
  nAttempts : ℤ := 0
  nStartIndex : Fin 8 := 0
  nStartTime : ℤ := 0

namespace CConnAttempt

def ATTEMPT_LIMIT : ℤ := 8

def COUNTER_INTERVAL : ℤ := 10

def COUNTER_NUM : ℤ := 8

/-- `n & COUNTER_MASK`, for a negative `n` too. -/
def mask (n : ℤ) : Fin 8 := Fin.ofNat 8 (n % 8).toNat

/-- One turn of the loop of `Attempt`: the oldest counter becomes the newest. -/
def rotate (c : CConnAttempt) : CConnAttempt where
  arrayAttempt := Function.update c.arrayAttempt c.nStartIndex 0
  nAttempts := c.nAttempts - c.arrayAttempt c.nStartIndex
  nStartIndex := c.nStartIndex + 1
  nStartTime := c.nStartTime + COUNTER_INTERVAL

def count (c : CConnAttempt) (nIndex : Fin 8) : CConnAttempt :=
  { c with arrayAttempt := Function.update c.arrayAttempt nIndex (c.arrayAttempt nIndex + 1)
           nAttempts := c.nAttempts + 1 }

/-- `Attempt`; the loop ends when `offset` has come down to 7. -/
def attempt (c : CConnAttempt) (ts : ℤ) : Bool × CConnAttempt :=
  let offset := (ts - c.nStartTime).tdiv COUNTER_INTERVAL
  if offset ≥ COUNTER_NUM * 2 then (true, ⟨fun i => if i = 0 then 1 else 0, 1, 0, ts⟩)
  else
    let turns := (offset - (COUNTER_NUM - 1)).toNat
    let c := rotate^[turns] c
    let c := c.count (mask (c.nStartIndex.val + (offset - turns)))
    (decide (c.nAttempts ≤ ATTEMPT_LIMIT), c)

def attemptAll (times : List ℤ) : CConnAttempt := times.foldl (fun c ts => (c.attempt ts).2) {}

/-! ## The window -/

def callsIn (past : List ℤ) (a b : ℤ) : ℕ := past.countP fun t => a ≤ t && t < b

/-- The counters hold the calls of 80 seconds, ten each, and none came later. -/
structure Window (c : CConnAttempt) (past : List ℤ) : Prop where
  before : ∀ t ∈ past, t < c.nStartTime + 80
  counter : ∀ k : Fin 8, c.arrayAttempt (c.nStartIndex + k) =
    callsIn past (c.nStartTime + 10 * k.val) (c.nStartTime + 10 * k.val + 10)
  attempts : c.nAttempts = callsIn past c.nStartTime (c.nStartTime + 80)
  sum : c.nAttempts = ∑ i, c.arrayAttempt i

variable {c : CConnAttempt} {past : List ℤ} {ts : ℤ}

theorem mask_add (i : Fin 8) {n : ℤ} (hn : 0 ≤ n) : mask (i.val + n) = i + Fin.ofNat 8 n.toNat := by
  apply Fin.ext
  rw [mask, Fin.val_add, Fin.val_ofNat, Fin.val_ofNat]
  omega

theorem Window.counters_le (h : Window c past) : c.nAttempts ≤ past.length ∧ ∀ i, c.arrayAttempt i ≤ past.length := by
  refine ⟨?_, fun i => ?_⟩
  · rw [h.attempts]
    exact_mod_cast List.countP_le_length
  · obtain ⟨k, rfl⟩ : ∃ k, i = c.nStartIndex + k := ⟨i - c.nStartIndex, (add_sub_cancel _ i).symm⟩
    rw [h.counter k]
    exact_mod_cast List.countP_le_length

theorem callsIn_split (past : List ℤ) {a b c : ℤ} (hab : a ≤ b) (hbc : b ≤ c) :
    callsIn past a c = callsIn past a b + callsIn past b c := by
  unfold callsIn
  induction past with
  | nil => rfl
  | cons t past ih =>
    simp only [List.countP_cons, ih, Bool.and_eq_true, decide_eq_true_eq]
    split_ifs <;> omega

theorem callsIn_later {a : ℤ} (h : ∀ t ∈ past, t < a) (b : ℤ) : callsIn past a b = 0 := by
  refine List.countP_eq_zero.2 fun t ht => ?_
  simp [h t ht]

theorem callsIn_concat (past : List ℤ) (ts a b : ℤ) :
    callsIn (past ++ [ts]) a b = callsIn past a b + if a ≤ ts ∧ ts < b then 1 else 0 := by
  simp [callsIn, List.countP_append, List.countP_singleton]

theorem sum_update (f : Fin 8 → ℤ) (i : Fin 8) (x : ℤ) : ∑ j, Function.update f i x j = ∑ j, f j - f i + x := by
  rw [Finset.sum_update_of_mem (Finset.mem_univ i), ← Finset.sum_sdiff (Finset.subset_univ {i}), Finset.sum_singleton]
  ring

theorem Window.fresh (h : ∀ t ∈ past, t < ts) : Window { nStartTime := ts } past where
  before t ht := (h t ht).trans (by simp)
  counter k := by
    rw [callsIn_later fun t ht => (h t ht).trans_le (by dsimp only; omega)]
    rfl
  attempts := by
    rw [callsIn_later h]
    rfl
  sum := by simp

theorem Window.rotate (h : Window c past) : Window c.rotate past where
  before t ht := (h.before t ht).trans (by simp [CConnAttempt.rotate, COUNTER_INTERVAL])
  counter k := by
    have hlast : ∀ i : Fin 8, i + 1 + Fin.last 7 = i := by decide
    have hnext : ∀ (i : Fin 8) (j : Fin 7), i + 1 + j.castSucc = i + j.succ ∧ i + j.succ ≠ i := by decide
    simp only [CConnAttempt.rotate, COUNTER_INTERVAL]
    cases k using Fin.lastCases with
    | last =>
      rw [hlast, Function.update_self, callsIn_later fun t ht => (h.before t ht).trans_le (by rw [Fin.val_last]; omega)]
      rfl
    | cast j =>
      rw [(hnext _ j).1, Function.update_of_ne (hnext _ j).2, h.counter, Fin.val_succ, Fin.val_castSucc]
      push_cast
      ring_nf
  attempts := by
    have hfirst := h.counter 0
    have hlate := callsIn_later h.before (c.nStartTime + 90)
    have hold := callsIn_split past (show c.nStartTime ≤ c.nStartTime + 10 by omega)
      (show c.nStartTime + 10 ≤ c.nStartTime + 80 by omega)
    have hnew := callsIn_split past (show c.nStartTime + 10 ≤ c.nStartTime + 80 by omega)
      (show c.nStartTime + 80 ≤ c.nStartTime + 90 by omega)
    simp only [add_zero, Fin.val_zero, Nat.cast_zero, mul_zero] at hfirst
    simp only [CConnAttempt.rotate, COUNTER_INTERVAL, h.attempts, hfirst, add_assoc, Int.reduceAdd]
    omega
  sum := by
    simp only [CConnAttempt.rotate, sum_update, h.sum]
    ring

theorem Window.iterate (h : Window c past) (n : ℕ) :
    Window (CConnAttempt.rotate^[n] c) past ∧ (CConnAttempt.rotate^[n] c).nStartTime = c.nStartTime + 10 * n := by
  induction n with
  | zero => exact ⟨h, by simp⟩
  | succ n ih =>
    rw [Function.iterate_succ_apply']
    refine ⟨ih.1.rotate, ?_⟩
    rw [CConnAttempt.rotate, ih.2, COUNTER_INTERVAL]
    push_cast
    ring

theorem Window.count (h : Window c past) {k : Fin 8} (hlo : c.nStartTime + 10 * k.val ≤ ts)
    (hhi : ts < c.nStartTime + 10 * k.val + 10) : Window (c.count (c.nStartIndex + k)) (past ++ [ts]) where
  before := by
    simp only [List.forall_mem_append, List.forall_mem_singleton, CConnAttempt.count]
    exact ⟨h.before, by omega⟩
  counter j := by
    have hmem : (c.nStartTime + 10 * j.val ≤ ts ∧ ts < c.nStartTime + 10 * j.val + 10) ↔ j = k := by
      rw [Fin.ext_iff]
      omega
    have hindex : c.nStartIndex + j = c.nStartIndex + k ↔ j = k := add_right_inj _
    simp only [CConnAttempt.count, callsIn_concat, hmem, Function.update_apply, hindex]
    split_ifs with hj
    · rw [← hj, h.counter, Nat.cast_add, Nat.cast_one]
    · rw [h.counter, Nat.add_zero]
  attempts := by
    simp only [CConnAttempt.count, callsIn_concat, h.attempts]
    rw [if_pos ⟨by omega, by omega⟩, Nat.cast_add, Nat.cast_one]
  sum := by
    simp only [CConnAttempt.count, sum_update, h.sum]
    ring

/-! ## The answers -/

/-- A window seen from the time `ts`: what it has lost is more than 70 seconds old. -/
structure Follows (c : CConnAttempt) (past : List ℤ) (ts : ℤ) : Prop extends Window c past where
  start : c.nStartTime ≤ ts
  lost : ∀ t ∈ past, t < c.nStartTime → t + 70 < ts

/-- **One call**: the answer says whether the window, which has no call 80 seconds old, holds more than the limit. -/
theorem Follows.attempt (h : Follows c past ts) :
    Follows (c.attempt ts).2 (past ++ [ts]) ts ∧ ts < (c.attempt ts).2.nStartTime + 80 ∧
      ((c.attempt ts).1 = true ↔ (c.attempt ts).2.nAttempts ≤ ATTEMPT_LIMIT) := by
  have hstart := h.start
  have hdiv : (ts - c.nStartTime).tdiv COUNTER_INTERVAL = (ts - c.nStartTime) / 10 :=
    Int.tdiv_eq_ediv_of_nonneg (by omega)
  unfold CConnAttempt.attempt
  simp only [hdiv, COUNTER_NUM, Int.reduceSub]
  split_ifs with hreset
  · have hold : ∀ t ∈ past, t + 80 < ts := fun t ht => by
      have := h.before t ht
      omega
    have hone : (⟨fun i => if i = 0 then 1 else 0, 1, 0, ts⟩ : CConnAttempt) = count { nStartTime := ts } (0 + 0) := by
      simp [CConnAttempt.count, funext_iff, Function.update_apply]
    have hnew : Window (count { nStartTime := ts } (0 + 0)) (past ++ [ts]) :=
      (Window.fresh fun t ht => by have := hold t ht; omega).count (by simp) (by simp)
    rw [hone]
    refine ⟨⟨hnew, le_rfl, ?_⟩, by simp [CConnAttempt.count], by simp [CConnAttempt.count, ATTEMPT_LIMIT]⟩
    simp only [List.forall_mem_append, List.forall_mem_singleton, CConnAttempt.count]
    exact ⟨fun t ht _ => by have := hold t ht; omega, fun hlt => absurd hlt (lt_irrefl _)⟩
  · set offset := (ts - c.nStartTime) / 10 with hoffset
    obtain ⟨hwindow, htime⟩ := h.toWindow.iterate (offset - 7).toNat
    have hk : ((Fin.ofNat 8 (offset - (offset - 7).toNat).toNat).val : ℤ) = offset - (offset - 7).toNat := by
      rw [Fin.val_ofNat]
      omega
    have hcount := hwindow.count (by rw [hk, htime]; omega) (by rw [hk, htime]; omega : ts < _)
    rw [mask_add _ (by omega)]
    refine ⟨⟨hcount, ?_, ?_⟩, ?_, decide_eq_true_iff⟩
    · simp only [CConnAttempt.count, htime]
      omega
    · -- a call was lost before, or by the turns, which end when this one is 70 seconds behind the start
      simp only [List.forall_mem_append, List.forall_mem_singleton, CConnAttempt.count, htime]
      refine ⟨fun t ht hlt => ?_, fun hlt => by omega⟩
      have := h.lost t ht
      omega
    · simp only [CConnAttempt.count, htime]
      omega

theorem follows_attemptAll {times : List ℤ} (hpos : ∀ t ∈ times, 0 ≤ t) (hmono : times.Pairwise (· ≤ ·)) (h0 : 0 ≤ ts)
    (hts : ∀ t ∈ times, t ≤ ts) : Follows (attemptAll times) times ts := by
  induction times using List.reverseRecOn generalizing ts with
  | nil => exact ⟨Window.fresh (by simp), h0, by simp⟩
  | append_singleton times t ih =>
    simp only [List.forall_mem_append, List.forall_mem_singleton, List.pairwise_append] at hpos hmono hts
    obtain ⟨hnew, -, -⟩ := (ih hpos.1 hmono.1 hpos.2 hmono.2.2).attempt
    rw [attemptAll, List.foldl_append]
    exact ⟨hnew.toWindow, hnew.start.trans hts.2, fun x hx hlt => (hnew.lost x hx hlt).trans_le hts.2⟩

/-- **Inbound attempts are limited over a sliding window**: the next call is refused if more than the limit of all
calls are at most 70 seconds old, and granted if at most that many are less than 80 seconds old. -/
theorem attempt_limits (times : List ℤ) (ts : ℤ) (hpos : ∀ t ∈ times ++ [ts], 0 ≤ t)
    (hmono : (times ++ [ts]).Pairwise (· ≤ ·)) :
    (attemptAll times).nAttempts = ∑ i, (attemptAll times).arrayAttempt i ∧
      (ATTEMPT_LIMIT < (times ++ [ts]).countP (fun t => ts - t ≤ 70) → ((attemptAll times).attempt ts).1 = false) ∧
      ((times ++ [ts]).countP (fun t => ts - t < 80) ≤ ATTEMPT_LIMIT → ((attemptAll times).attempt ts).1 = true) := by
  simp only [List.forall_mem_append, List.forall_mem_singleton, List.pairwise_append] at hpos hmono
  have hold := follows_attemptAll hpos.1 hmono.1 hpos.2 hmono.2.2
  refine ⟨hold.sum, ?_⟩
  obtain ⟨hnew, hlate, hanswer⟩ := hold.attempt
  generalize (attemptAll times).attempt ts = r at *
  constructor
  · intro hmany
    have hle : (times ++ [ts]).countP (fun t => ts - t ≤ 70) ≤
        callsIn (times ++ [ts]) r.2.nStartTime (r.2.nStartTime + 80) := by
      refine List.countP_mono_left fun t ht hrecent => ?_
      have := hnew.lost t ht
      have := hnew.before t ht
      simp only [Bool.and_eq_true, decide_eq_true_eq] at hrecent ⊢
      omega
    rw [← Bool.not_eq_true, hanswer, hnew.attempts]
    omega
  · intro hfew
    have hle : callsIn (times ++ [ts]) r.2.nStartTime (r.2.nStartTime + 80) ≤
        (times ++ [ts]).countP fun t => ts - t < 80 := by
      refine List.countP_mono_left fun t ht hcounted => ?_
      simp only [Bool.and_eq_true, decide_eq_true_eq] at hcounted ⊢
      omega
    rw [hanswer, hnew.attempts]
    omega

/-- Of nine calls in one second the last is refused. -/
theorem attempt_limits_ninth : ((attemptAll (List.replicate 8 0)).attempt 0).1 = false :=
  (attempt_limits (List.replicate 8 0) 0 (by decide) (by decide)).2.1 (by decide)

end CConnAttempt

end Minemon
