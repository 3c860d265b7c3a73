import Minemon.Net.Inventory

/-!
# The orphan index

An object that was received and waits for others stands in the index once for each of them.

* `COrphan.removeBranch_spec`: **`RemoveBranch` finds exactly what is below the root**, and erases the pairs whose
  missing object is the root or below it.
* `CSchedule.orphans_wait_iff`: **the index refers only to waiting objects**, exactly in the runs where three kinds
  of calls meet a condition.
-/

namespace Minemon

namespace COrphan

variable {o : COrphan} {root h : ℕ}

/-- What waits for the root, or for something that does. -/
inductive Below (o : COrphan) (root : ℕ) : ℕ → Prop
  | next {hash : ℕ} : (root, hash) ∈ o → Below o root hash
  | step {prev hash : ℕ} : Below o root prev → (prev, hash) ∈ o → Below o root hash

/-! ## RemoveBranch -/

theorem mem_getNext {prev : ℕ} : h ∈ o.getNext prev ↔ (prev, h) ∈ o := by
  unfold getNext
  simp

theorem mem_takeNew_set (l : List ℕ) (setHash : OrdSet ℕ) : h ∈ (takeNew l setHash).2 ↔ h ∈ l ∨ h ∈ setHash := by
  induction l generalizing setHash with
  | nil => simp [takeNew]
  | cons a l ih =>
    rw [takeNew]
    split_ifs with ha
    · rw [ih, List.mem_cons, or_assoc]
      exact ⟨Or.inr, fun hh => hh.elim (fun heq => Or.inr (heq ▸ ha)) id⟩
    · dsimp only
      rw [ih, OrdSet.mem_add, List.mem_cons]
      tauto

theorem mem_takeNew_list (l : List ℕ) (setHash : OrdSet ℕ) : h ∈ (takeNew l setHash).1 ↔ h ∈ l ∧ h ∉ setHash := by
  induction l generalizing setHash with
  | nil => simp [takeNew]
  | cons a l ih =>
    rw [takeNew]
    split_ifs with ha
    · rw [ih, List.mem_cons]
      refine and_congr_left fun hh => (or_iff_right ?_).symm
      rintro rfl
      exact hh ha
    · dsimp only
      rw [List.mem_cons, ih, OrdSet.mem_add, List.mem_cons]
      by_cases heq : h = a
      · simp [heq, ha]
      · simp [heq]

theorem length_takeNew_le (l : List ℕ) (setHash : OrdSet ℕ) : (takeNew l setHash).1.length ≤ l.length := by
  induction l generalizing setHash with
  | nil => exact le_rfl
  | cons a l ih =>
    rw [takeNew]
    split_ifs
    · exact (ih setHash).trans (Nat.le_succ _)
    · exact Nat.succ_le_succ (ih _)

theorem length_getNextNew_add_le (o : COrphan) (prev : ℕ) (setHash : OrdSet ℕ) :
    (o.getNextNew prev setHash).1.length + (o.removeNext prev).length ≤ o.length := by
  have hnext : (o.getNext prev).length = (o.filter fun e => decide (e.1 = prev)).length := List.length_map _
  have hsplit := List.length_eq_length_filter_add (fun e : ℕ × ℕ => decide (e.1 = prev)) (l := o)
  have hle := length_takeNew_le (o.getNext prev) setHash
  have hrest : (o.removeNext prev).length = (o.filter fun e => !decide (e.1 = prev)).length := by
    unfold removeNext
    simp only [decide_not]
  unfold getNextNew
  omega

/-- The state of the loop of `RemoveBranch`: the hashes behind its position are done, the others pending. -/
structure BranchState (o : COrphan) (root : ℕ) (cur : COrphan) (done pending : List ℕ) (setBranch : OrdSet ℕ) :
    Prop where
  cur_eq : cur = o.filter fun e => decide (e.1 ≠ root ∧ e.1 ∉ done)
  mem_set : ∀ h, h ∈ setBranch ↔ h ∈ done ∨ h ∈ pending
  below : ∀ h ∈ setBranch, o.Below root h
  closed : ∀ e ∈ o, e.1 = root ∨ e.1 ∈ done → e.2 ∈ setBranch

theorem BranchState.start (o : COrphan) (root : ℕ) :
    BranchState o root (o.removeNext root) [] (o.getNextNew root OrdMap.empty).1
      (o.getNextNew root OrdMap.empty).2 := by
  refine ⟨by simp [removeNext], fun h => ?_, fun h hh => ?_, fun e he hprev => ?_⟩
  · simp [getNextNew, mem_takeNew_set, mem_takeNew_list]
  · rw [getNextNew, mem_takeNew_set, mem_getNext] at hh
    exact Below.next (hh.resolve_right OrdMap.not_mem_empty)
  · obtain rfl : e.1 = root := by simpa using hprev
    rw [getNextNew, mem_takeNew_set, mem_getNext]
    exact Or.inl he

theorem BranchState.turn {cur : COrphan} {done pending : List ℕ} {setBranch : OrdSet ℕ} {hash : ℕ}
    (b : BranchState o root cur done (hash :: pending) setBranch) :
    BranchState o root (cur.removeNext hash) (done ++ [hash]) (pending ++ (cur.getNextNew hash setBranch).1)
      (cur.getNextNew hash setBranch).2 := by
  have hcur : ∀ e, e ∈ cur ↔ e ∈ o ∧ e.1 ≠ root ∧ e.1 ∉ done := fun e => by rw [b.cur_eq]; simp
  have hhash : hash ∈ setBranch := (b.mem_set hash).2 (Or.inr List.mem_cons_self)
  refine ⟨?_, fun h => ?_, fun h hh => ?_, fun e he hprev => ?_⟩
  · rw [removeNext, b.cur_eq, List.filter_filter]
    refine List.filter_congr fun e _ => ?_
    simp only [← Bool.decide_and, decide_eq_decide, List.mem_append, List.mem_singleton]
    tauto
  · rw [getNextNew, mem_takeNew_set, List.mem_append, List.mem_append, mem_takeNew_list, b.mem_set,
      List.mem_cons, List.mem_singleton]
    tauto
  · rw [getNextNew, mem_takeNew_set, mem_getNext] at hh
    rcases hh with hnew | hold
    · exact Below.step (b.below hash hhash) ((hcur _).1 hnew).1
    · exact b.below h hold
  · rw [getNextNew, mem_takeNew_set]
    by_cases hdone : e.1 = root ∨ e.1 ∈ done
    · exact Or.inr (b.closed e he hdone)
    · rw [not_or] at hdone
      have heq : e.1 = hash := by simpa [hdone] using hprev
      exact Or.inl (mem_getNext.2 (heq ▸ (hcur e).2 ⟨he, hdone⟩))

theorem BranchState.loop {turns : ℕ} {cur : COrphan} {done pending : List ℕ} {setBranch : OrdSet ℕ}
    (b : BranchState o root cur done pending setBranch) (hturns : pending.length + cur.length ≤ turns) :
    ∃ setEnd, BranchState o root (removeBranchLoop turns cur pending setBranch).1
      (done ++ (removeBranchLoop turns cur pending setBranch).2) [] setEnd := by
  induction turns generalizing cur done pending setBranch with
  | zero =>
    obtain rfl : pending = [] := List.eq_nil_of_length_eq_zero (by omega)
    refine ⟨setBranch, ?_⟩
    rw [removeBranchLoop, List.append_nil]
    exact b
  | succ turns ih =>
    cases pending with
    | nil =>
      refine ⟨setBranch, ?_⟩
      rw [removeBranchLoop, List.append_nil]
      exact b
    | cons hash pending =>
      have hle := length_getNextNew_add_le cur hash setBranch
      obtain ⟨setEnd, hend⟩ := ih b.turn (by
        simp only [List.length_append, List.length_cons] at hturns ⊢
        omega)
      refine ⟨setEnd, ?_⟩
      rw [removeBranchLoop]
      rw [List.append_assoc] at hend
      exact hend

/-- **`RemoveBranch` finds what is below the root** and erases the pairs whose missing object is the root or below. -/
theorem removeBranch_spec (o : COrphan) (root : ℕ) :
    (∀ h, h ∈ (o.removeBranch root).2 ↔ o.Below root h) ∧
      (o.removeBranch root).1 = o.filter fun e => decide (e.1 ≠ root ∧ e.1 ∉ (o.removeBranch root).2) := by
  obtain ⟨setEnd, hend⟩ := (BranchState.start o root).loop (length_getNextNew_add_le o root OrdMap.empty)
  rw [List.nil_append] at hend
  refine ⟨fun h => ⟨fun hh => hend.below h ((hend.mem_set h).2 (Or.inl hh)), fun hbelow => ?_⟩, hend.cur_eq⟩
  have hset : ∀ h, h ∈ setEnd → h ∈ (o.removeBranch root).2 := fun h hh =>
    ((hend.mem_set h).1 hh).resolve_right List.not_mem_nil
  induction hbelow with
  | next hpair => exact hset _ (hend.closed _ hpair (Or.inl rfl))
  | step _ hpair ih => exact hset _ (hend.closed _ hpair (Or.inr ih))

/-- What waits below the root waits for nothing else. -/
def Enclosed (o : COrphan) (root : ℕ) : Prop :=
  ∀ prev hash, (prev, hash) ∈ o → o.Below root hash → prev = root ∨ o.Below root prev

end COrphan

namespace CSchedule

variable {s s' : CSchedule} {inv : CInv} {state : CInvState} {p : ℕ}

/-- The index refers only to waiting objects. -/
structure OrphansWait (s : CSchedule) : Prop where
  received : ∀ type, ∀ e ∈ s.orphans type, s.received ⟨type, e.2⟩ = true
  nodup : ∀ type, (s.orphans type).Nodup

/-! ## Calls that keep the pairs or take some away -/

theorem OrphansWait.shrink (h : s.OrphansWait) (hsub : ∀ type, (s'.orphans type).Sublist (s.orphans type))
    (hrec : ∀ type, ∀ e ∈ s'.orphans type, s.received ⟨type, e.2⟩ = true → s'.received ⟨type, e.2⟩ = true) :
    s'.OrphansWait :=
  ⟨fun type e he => hrec type e he (h.received type e ((hsub type).subset he)),
    fun type => (h.nodup type).sublist (hsub type)⟩

theorem OrphansWait.keep (h : s.OrphansWait) (horphans : ∀ type, s'.orphans type = s.orphans type)
    (hrec : ∀ j, s.received j = true → s'.received j = true) : s'.OrphansWait :=
  h.shrink (fun type => by rw [horphans]) fun _ _ _ => hrec _

theorem received_of_find? (hstate : s.mapState.find? inv = some state) : s.received inv = state.isReceived := by
  rw [CSchedule.received, hstate]
  rfl

theorem received_congr (h : s'.mapState = s.mapState) (j : CInv) : s'.received j = s.received j := by
  rw [CSchedule.received, h]
  rfl

@[simp] theorem orphans_setState (s : CSchedule) (inv : CInv) (state : CInvState) (type : InvType) :
    (s.setState inv state).orphans type = s.orphans type := by
  cases type <;> rfl

@[simp] theorem orphans_modifyPeer (s : CSchedule) (p : ℕ) (f : CInvPeer → CInvPeer) (type : InvType) :
    (s.modifyPeer p f).orphans type = s.orphans type := by
  cases type <;> rfl

@[simp] theorem orphans_eraseState (s : CSchedule) (inv : CInv) (type : InvType) :
    (s.eraseState inv).orphans type = s.orphans type := by
  cases type <;> rfl

theorem orphans_removeOrphan (s : CSchedule) (inv : CInv) (type : InvType) :
    (s.removeOrphan inv).orphans type = (s.orphans type).filter fun e => decide (CInv.mk type e.2 ≠ inv) := by
  obtain ⟨t, hash⟩ := inv
  cases t <;> cases type <;> simp [removeOrphan, orphans, COrphan.remove]

@[simp] theorem orphans_removeFromPeers (s : CSchedule) (inv : CInv) (state : CInvState) (type : InvType) :
    (s.removeFromPeers inv state).orphans type = s.orphans type :=
  congrFun (mapState_foldl_modifyPeer _ _ s).2 type

section

variable (h : s.OrphansWait)

include h

theorem OrphansWait.setState (hrec : s.received inv = true → state.isReceived = true) :
    (s.setState inv state).OrphansWait := by
  refine h.keep (fun type => orphans_setState s inv state type) fun j hj => ?_
  unfold CSchedule.received CSchedule.setState
  rw [OrdMap.find?_insert]
  split_ifs with heq
  · exact hrec (heq ▸ hj)
  · exact hj

theorem OrphansWait.modifyPeer (p : ℕ) (f : CInvPeer → CInvPeer) : (s.modifyPeer p f).OrphansWait :=
  h.keep (fun type => orphans_modifyPeer s p f type) fun _ => id

theorem OrphansWait.missPrev (setMissPrevTxInv : OrdSet CInv) :
    OrphansWait { s with setMissPrevTxInv := setMissPrevTxInv } :=
  h.keep (fun type => by cases type <;> rfl) fun _ => id

theorem OrphansWait.checkPrevTxInv (inv : CInv) : (s.checkPrevTxInv inv).2.OrphansWait := by
  unfold CSchedule.checkPrevTxInv
  split
  · dsimp only
    split_ifs
    · exact h
    · exact h.missPrev _
  · exact h.missPrev _

theorem OrphansWait.checkAddInvIdleLocation (p : ℕ) (type : InvType) :
    (s.checkAddInvIdleLocation p type).2.OrphansWait := by
  unfold CSchedule.checkAddInvIdleLocation
  split_ifs
  · exact h.modifyPeer p id
  · exact h

theorem OrphansWait.addNewInv (now : ℤ) (inv : CInv) (p : ℕ) : (s.addNewInv now inv p).2.OrphansWait := by
  have hidle := h.checkAddInvIdleLocation p inv.nType
  unfold CSchedule.addNewInv
  split
  · rename_i s1 heq
    rwa [heq] at hidle
  · rename_i s1 heq
    rw [heq] at hidle
    dsimp only at hidle ⊢
    refine (hidle.setState fun hrec => ?_).modifyPeer p _
    cases hstate : s1.mapState.find? inv with
    | none => simp [CSchedule.received, hstate] at hrec
    | some state => rwa [received_of_find? hstate] at hrec

theorem OrphansWait.receive (now : ℤ) (p : ℕ) (inv : CInv) {obj : CInvObject}
    (hobj : CInvState.isReceived { objReceived := obj } = true) : (s.receive now p inv obj).2.OrphansWait := by
  unfold CSchedule.receive
  split
  · exact h
  · split_ifs
    · dsimp only
      refine (h.setState fun _ => ?_).modifyPeer p _
      exact hobj
    · exact h

theorem OrphansWait.receiveTx (now : ℤ) (p txid : ℕ) (tx : CTransaction) :
    (s.receiveTx now p txid tx).2.OrphansWait := by
  have hreceive : (s.receive now p ⟨.MSG_TX, txid⟩ (.tx tx)).2.OrphansWait := h.receive now p _ rfl
  unfold CSchedule.receiveTx
  split
  · rename_i heq
    rwa [heq] at hreceive
  · rename_i heq
    rw [heq] at hreceive
    exact hreceive.missPrev _

theorem OrphansWait.leave (inv : CInv) : ((s.removeOrphan inv).eraseState inv).OrphansWait := by
  have horphans : ∀ type, ((s.removeOrphan inv).eraseState inv).orphans type =
      (s.orphans type).filter fun e => decide (CInv.mk type e.2 ≠ inv) := fun type => by
    rw [orphans_eraseState, orphans_removeOrphan]
  refine h.shrink (fun type => ?_) fun type e he hrec => ?_
  · rw [horphans]
    exact List.filter_sublist
  · rw [horphans, List.mem_filter, decide_eq_true_eq] at he
    rw [CSchedule.received, mapState_eraseState, mapState_removeOrphan, OrdMap.find?_erase, if_neg he.2]
    exact hrec

theorem OrphansWait.cancelAssignedInv (p : ℕ) (inv : CInv) : (s.cancelAssignedInv p inv).2.OrphansWait := by
  unfold CSchedule.cancelAssignedInv
  cases hstate : s.mapState.find? inv with
  | none => exact h
  | some state =>
    dsimp only
    by_cases hholder : state.nAssigned = p
    · rw [if_neg (not_not.2 hholder)]
      have hstep : (if state.isReceived then s
          else
            if (state.setKnownPeer.erase p).toList.isEmpty then (s.removeOrphan inv).eraseState inv
            else s.setState inv
              { state with nAssigned := 0, setKnownPeer := state.setKnownPeer.erase p }).OrphansWait := by
        split_ifs with hrec
        · exact h
        · exact h.leave inv
        · refine h.setState fun hreceived => ?_
          rw [received_of_find? hstate] at hreceived
          exact absurd hreceived hrec
      split
      · exact hstep
      · exact hstep.modifyPeer p fun peer => peer.removeInv inv
    · rw [if_pos hholder]
      exact h

theorem OrphansWait.setRepeatBlock (now : ℤ) (p hash : ℕ) : (s.setRepeatBlock now p hash).2.OrphansWait := by
  unfold CSchedule.setRepeatBlock
  dsimp only
  refine OrphansWait.modifyPeer ?_ p _
  split
  · exact h
  · rename_i state hstate
    exact h.setState fun hrec => by rwa [received_of_find? hstate] at hrec

theorem OrphansWait.setDelayedClear (now : ℤ) (inv : CInv) (nDelayedTime : ℤ) :
    (s.setDelayedClear now inv nDelayedTime).2.OrphansWait := by
  unfold CSchedule.setDelayedClear
  split
  · exact h
  · rename_i state hstate
    exact h.setState fun hrec => by rwa [received_of_find? hstate] at hrec

end

/-! ### RemoveInv -/

theorem orphansWait_removeInv (hnodup : ∀ type, (s.orphans type).Nodup) (inv : CInv) :
    (s.removeInv inv).2.OrphansWait ↔ s.OrphansWait := by
  unfold CSchedule.removeInv
  split
  · exact Iff.rfl
  · rename_i state hstate
    dsimp only
    have hpeers : ∀ j, (s.removeFromPeers inv state).received j = s.received j :=
      received_congr (mapState_removeFromPeers s inv state)
    have hother : ∀ j, j ≠ inv → ∀ s1 : CSchedule, s1.mapState = s.mapState →
        (s1.eraseState inv).received j = s.received j := fun j hj s1 hs1 => by
      rw [CSchedule.received, mapState_eraseState, OrdMap.find?_erase, if_neg hj, hs1]
      rfl
    split_ifs with hrec
    · refine ⟨fun h => ⟨fun type e he => ?_, hnodup⟩, fun h => ?_⟩
      · by_cases heq : CInv.mk type e.2 = inv
        · rw [heq, received_of_find? hstate, hrec]
        · rw [← hother _ heq ((s.removeFromPeers inv state).removeOrphan inv) (by simp)]
          refine h.received type e ?_
          rw [orphans_eraseState, orphans_removeOrphan, orphans_removeFromPeers, List.mem_filter, decide_eq_true_eq]
          exact ⟨he, heq⟩
      · refine OrphansWait.leave (h.keep (fun type => ?_) fun j hj => ?_) inv
        · exact orphans_removeFromPeers s inv state type
        · rwa [hpeers]
    · have hnone : (s.removeFromPeers inv state |>.eraseState inv).received inv = false := by
        rw [CSchedule.received, mapState_eraseState, OrdMap.find?_erase, if_pos rfl]
        rfl
      refine ⟨fun h => ⟨fun type e he => ?_, hnodup⟩, fun h => ?_⟩
      · have hgone := h.received type e (by rw [orphans_eraseState, orphans_removeFromPeers]; exact he)
        rw [← hother _ (fun heq => ?_) (s.removeFromPeers inv state) (by simp)]
        · exact hgone
        · rw [heq, hnone] at hgone
          cases hgone
      · refine h.shrink (fun type => ?_) fun type e he hreceived => ?_
        · rw [orphans_eraseState, orphans_removeFromPeers]
        · rw [hother _ (fun heq => ?_) _ (by simp)]
          · exact hreceived
          · rw [heq, received_of_find? hstate] at hreceived
            exact hrec hreceived

theorem OrphansWait.removeInv (h : s.OrphansWait) (inv : CInv) : (s.removeInv inv).2.OrphansWait :=
  (orphansWait_removeInv h.nodup inv).2 h

theorem OrphansWait.foldl_removeInv (h : s.OrphansWait) (l : List CInv) :
    (l.foldl (fun s inv => (s.removeInv inv).2) s).OrphansWait := by
  induction l generalizing s with
  | nil => exact h
  | cons inv l ih => exact ih (h.removeInv inv)

/-! ### ScheduleBlockInv and ScheduleTxInv -/

theorem OrphansWait.loopRule (p : ℕ) : LoopRule p OrphansWait where
  miss setMissPrevTxInv h := h.missPrev setMissPrevTxInv
  assign := by
    intro s inv state h _ hstate _
    refine (h.setState fun hrec => ?_).modifyPeer p _
    rwa [received_of_find? hstate] at hrec

theorem OrphansWait.scheduleKnownInv (h : s.OrphansWait) (now : ℤ) (p : ℕ) (type : InvType) (nMaxCount : ℕ) :
    (CSchedule.scheduleKnownInv now s p (s.peer p) type nMaxCount).2.OrphansWait := by
  have hloops := (knownLoops_rule (OrphansWait.loopRule p) now nMaxCount type h).1
  unfold CSchedule.scheduleKnownInv
  dsimp only
  generalize (knownLoops now s p (s.peer p) type nMaxCount).setRemovePeerInv.keys = gone
  have hremoved := hloops.foldl_removeInv (knownLoops now s p (s.peer p) type nMaxCount).setRemoveInv.keys
  revert hremoved
  generalize List.foldl _ (knownLoops now s p (s.peer p) type nMaxCount).s _ = s1
  intro hremoved
  induction gone generalizing s1 with
  | nil => exact hremoved
  | cons inv gone ih => exact ih _ (hremoved.modifyPeer p _)

theorem OrphansWait.scheduleStep (h : s.OrphansWait) {now : ℤ} {nMaxCount : ℕ}
    (hs : ScheduleStep now s p nMaxCount s') : s'.OrphansWait := by
  cases hs with
  | rest => exact h
  | known type => exact h.scheduleKnownInv now p type nMaxCount
  | idle type => exact (h.scheduleKnownInv now p type nMaxCount).checkAddInvIdleLocation p type

/-! ## RemovePeer -/

theorem orphans_removePeerInv (s : CSchedule) (p : ℕ) (inv : CInv) (type : InvType) :
    (s.removePeerInv p inv).orphans type = (s.orphans type).filter fun e =>
      decide ¬(CInv.mk type e.2 = inv ∧ (s.mapState.find? inv).bind (leavePeer p) = none) := by
  unfold removePeerInv leavePeer
  cases hstate : s.mapState.find? inv with
  | none =>
    have hempty : ((OrdMap.empty : OrdSet ℕ).erase p).toList.isEmpty = true := rfl
    simp [hempty, orphans_removeOrphan]
  | some state =>
    simp only [Option.getD_some, Option.bind_some]
    split_ifs with h1 h2
    · simp [orphans_removeOrphan]
    · simp
    · simp

theorem orphans_foldl_removePeerInv (hp : p ≠ 0) (l : List CInv) (s : CSchedule) (type : InvType) :
    (l.foldl (fun s inv => s.removePeerInv p inv) s).orphans type = (s.orphans type).filter fun e =>
      decide ¬(CInv.mk type e.2 ∈ l ∧ (s.mapState.find? ⟨type, e.2⟩).bind (leavePeer p) = none) := by
  induction l generalizing s with
  | nil => simp
  | cons inv l ih =>
    rw [List.foldl_cons, ih, orphans_removePeerInv, List.filter_filter]
    refine List.filter_congr fun e _ => ?_
    rw [← Bool.decide_and, decide_eq_decide, find?_removePeerInv, List.mem_cons]
    by_cases heq : CInv.mk type e.2 = inv
    · rw [if_pos heq, heq]
      have hagain : ((s.mapState.find? inv).bind (leavePeer p)).bind (leavePeer p) =
          (s.mapState.find? inv).bind (leavePeer p) := by
        cases s.mapState.find? inv with
        | none => rfl
        | some state => exact leavePeer_again hp state
      rw [hagain]
      tauto
    · simp [heq]

/-- An object that was received from the peer and waits is known to no other peer. -/
def OnlyWaiter (s : CSchedule) (p : ℕ) : Prop :=
  ∀ inv state, s.KnownTo p inv → s.mapState.find? inv = some state → state.nAssigned = p →
    (∃ q ∈ state.setKnownPeer, q ≠ p) → ∀ prev, (prev, inv.nHash) ∉ s.orphans inv.nType

/-- `RemovePeer` drops the object of an inventory that another peer knows, and leaves its pairs. -/
theorem OrphansWait.removePeer_iff (h : s.OrphansWait) (hp : p ≠ 0) :
    (s.removePeer p).OrphansWait ↔ s.OnlyWaiter p := by
  unfold CSchedule.removePeer
  cases hpeer : s.mapPeer.find? p with
  | none => exact iff_of_true h fun inv state hknown => absurd hknown (not_knownTo_of_absent hpeer)
  | some peer =>
    have hmem : ∀ j, j ∈ peer.getKnownInv ↔ s.KnownTo p j := fun j => by
      rw [CInvPeer.mem_getKnownInv, KnownTo, CSchedule.peer, hpeer, Option.getD_some]
    have hfind := (foldl_removePeerInv hp peer.getKnownInv s).2
    have horphans := orphans_foldl_removePeerInv hp peer.getKnownInv s
    dsimp only
    set s1 := peer.getKnownInv.foldl (fun s inv => s.removePeerInv p inv) s
    have hs1 : CSchedule.OrphansWait { s1 with mapPeer := s1.mapPeer.erase p } ↔ s1.OrphansWait := by
      constructor <;> exact fun h1 => h1.keep (fun type => by cases type <;> rfl) fun _ => id
    rw [hs1]
    constructor
    · intro h1 inv state hknown hstate hholder hother prev hpair
      have hsome : ∃ state', leavePeer p state = some state' := by
        refine Option.ne_none_iff_exists'.1 fun hnone => ?_
        obtain ⟨q, hq, hne⟩ := hother
        exact hne (leavePeer_eq_none.1 hnone q hq)
      obtain ⟨state', hleave⟩ := hsome
      have hkept : (prev, inv.nHash) ∈ s1.orphans inv.nType := by
        rw [horphans, List.mem_filter, decide_eq_true_eq]
        refine ⟨hpair, fun hgone => ?_⟩
        have hnone := hgone.2
        rw [hstate, Option.bind_some, hleave] at hnone
        cases hnone
      have hreceived := h1.received _ _ hkept
      have hstate' : s1.mapState.find? inv = some state' := by
        rw [hfind, if_pos ((hmem inv).2 hknown), hstate, Option.bind_some, hleave]
      rw [received_of_find? hstate', (leavePeer_eq_some hleave).2.2.2, if_pos hholder] at hreceived
      cases hreceived
    · intro honly
      refine h.shrink (fun type => ?_) fun type e he hreceived => ?_
      · rw [horphans]
        exact List.filter_sublist
      · rw [horphans, List.mem_filter, decide_eq_true_eq, not_and'] at he
        rw [CSchedule.received, hfind]
        split_ifs with hj
        · obtain ⟨state', hleave⟩ := Option.ne_none_iff_exists'.1 fun hnone => he.2 hnone hj
          obtain ⟨state, hstate, hleave'⟩ := Option.bind_eq_some_iff.1 hleave
          obtain ⟨-, hother, -, hrec⟩ := leavePeer_eq_some hleave'
          have hholder : state.nAssigned ≠ p := fun hholder =>
            honly _ state ((hmem _).1 hj) hstate hholder hother e.1 he.1
          rw [hleave, Option.any_some, hrec, if_neg hholder, ← received_of_find? hstate]
          exact hreceived
        · exact hreceived

/-! ## InvalidateBlock and InvalidateTx -/

theorem orphans_invalidateInv (s : CSchedule) (inv : CInv) (type : InvType) :
    (s.invalidateInv inv).orphans type = s.orphans type := by
  unfold CSchedule.invalidateInv
  split
  · rfl
  · dsimp only
    split
    · rw [orphans_eraseState, orphans_removeFromPeers]
    · rw [← orphans_removeFromPeers s inv]
      cases type <;> rfl

theorem mapState_invalidateInv (s : CSchedule) (inv j : CInv) :
    (s.invalidateInv inv).mapState.find? j = if j = inv then none else s.mapState.find? j := by
  unfold CSchedule.invalidateInv
  split
  · rename_i hnone
    split_ifs with heq
    · rw [heq, hnone]
    · rfl
  · dsimp only
    split
    · rw [mapState_eraseState, mapState_removeFromPeers, OrdMap.find?_erase]
    · rw [mapState_removeFromPeers, OrdMap.find?_erase]

theorem foldl_invalidateInv (type : InvType) (l : List ℕ) (s : CSchedule) :
    (∀ t, (l.foldl (fun s hash => s.invalidateInv ⟨type, hash⟩) s).orphans t = s.orphans t) ∧
      ∀ j : CInv, (l.foldl (fun s hash => s.invalidateInv ⟨type, hash⟩) s).mapState.find? j =
        if j.nType = type ∧ j.nHash ∈ l then none else s.mapState.find? j := by
  induction l generalizing s with
  | nil => exact ⟨fun _ => rfl, fun _ => by simp⟩
  | cons hash l ih =>
    obtain ⟨horphans, hfind⟩ := ih (s.invalidateInv ⟨type, hash⟩)
    refine ⟨fun t => (horphans t).trans (orphans_invalidateInv s _ t), fun j => ?_⟩
    rw [List.foldl_cons, hfind, mapState_invalidateInv]
    obtain ⟨t, hash'⟩ := j
    simp only [CInv.mk.injEq, List.mem_cons]
    split_ifs <;> simp_all

theorem OrphansWait.invalidate_iff (h : s.OrphansWait) (s' : CSchedule) (type : InvType) (root : ℕ)
    (horphans : ∀ t, s'.orphans t = if t = type then ((s.orphans type).removeBranch root).1 else s.orphans t)
    (hstates : s'.mapState = s.mapState) :
    (((((s.orphans type).removeBranch root).2.foldl (fun s hash => s.invalidateInv ⟨type, hash⟩) s').removeInv
      ⟨type, root⟩).2.OrphansWait) ↔ (s.orphans type).Enclosed root := by
  obtain ⟨hbranch, hrest⟩ := COrphan.removeBranch_spec (s.orphans type) root
  obtain ⟨hsame, hfind⟩ := foldl_invalidateInv type ((s.orphans type).removeBranch root).2 s'
  set vInvalid := ((s.orphans type).removeBranch root).2
  set s1 := vInvalid.foldl (fun s hash => s.invalidateInv ⟨type, hash⟩) s'
  have hsub : ∀ t, (s1.orphans t).Sublist (s.orphans t) := fun t => by
    rw [hsame, horphans]
    split_ifs with ht
    · rw [ht, hrest]
      exact List.filter_sublist
    · exact List.Sublist.refl _
  have hreceived : ∀ t hash, s1.received ⟨t, hash⟩ =
      if t = type ∧ hash ∈ vInvalid then false else s.received ⟨t, hash⟩ := fun t hash => by
    rw [CSchedule.received, hfind, hstates]
    split_ifs <;> rfl
  have hpair : ∀ e, e ∈ s1.orphans type ↔ e ∈ s.orphans type ∧ e.1 ≠ root ∧ e.1 ∉ vInvalid := fun e => by
    rw [hsame, horphans, if_pos rfl, hrest]
    simp
  rw [orphansWait_removeInv fun t => (h.nodup t).sublist (hsub t)]
  constructor
  · intro h1 prev hash hmem hbelow
    by_contra hout
    rw [not_or, ← hbranch] at hout
    have hrec := h1.received type (prev, hash) ((hpair _).2 ⟨hmem, hout⟩)
    rw [hreceived, if_pos ⟨rfl, (hbranch hash).2 hbelow⟩] at hrec
    cases hrec
  · intro henclosed
    refine h.shrink hsub fun t e he hrec => ?_
    rw [hreceived, if_neg]
    · exact hrec
    · rintro ⟨rfl, hin⟩
      obtain ⟨hmem, hroot, hout⟩ := (hpair e).1 he
      rcases henclosed e.1 e.2 hmem ((hbranch _).1 hin) with heq | hbelow
      · exact hroot heq
      · exact hout ((hbranch _).2 hbelow)

theorem OrphansWait.invalidateBlock_iff (h : s.OrphansWait) (hash : ℕ) :
    (s.invalidateBlock hash).OrphansWait ↔ s.orphanBlock.Enclosed hash := by
  refine h.invalidate_iff { s with orphanBlock := (s.orphanBlock.removeBranch hash).1 } .MSG_BLOCK hash
    (fun t => ?_) rfl
  cases t <;> rfl

theorem OrphansWait.invalidateTx_iff (h : s.OrphansWait) (txid : ℕ) :
    (s.invalidateTx txid).OrphansWait ↔ s.orphanTx.Enclosed txid := by
  refine h.invalidate_iff { s with orphanTx := (s.orphanTx.removeBranch txid).1 } .MSG_TX txid (fun t => ?_) rfl
  cases t <;> rfl

/-! ## Runs -/

/-- The proviso of the index: an object that is put into it was received. -/
def AddsReceived (s : CSchedule) : SchedCall → Prop
  | .addOrphanBlockPrev hash _ => s.received ⟨.MSG_BLOCK, hash⟩ = true
  | .addOrphanTxPrev txid _ => s.received ⟨.MSG_TX, txid⟩ = true
  | _ => True

/-- No pair comes twice, no peer leaves whose waiting objects others know, nothing invalidated waits for more. -/
def Tidy (s : CSchedule) : SchedCall → Prop
  | .addOrphanBlockPrev hash prev => (prev, hash) ∉ s.orphanBlock
  | .addOrphanTxPrev txid prev => (prev, txid) ∉ s.orphanTx
  | .removePeer p => s.OnlyWaiter p.1
  | .invalidateBlock hash => s.orphanBlock.Enclosed hash
  | .invalidateTx txid => s.orphanTx.Enclosed txid
  | _ => True

theorem OrphansWait.addNew_iff (h : s.OrphansWait) {type : InvType} {prev hash : ℕ}
    (hreceived : s.received ⟨type, hash⟩ = true)
    (horphans : ∀ t, s'.orphans t = if t = type then (s.orphans type).addNew prev hash else s.orphans t)
    (hstates : s'.mapState = s.mapState) : s'.OrphansWait ↔ (prev, hash) ∉ s.orphans type := by
  have hperm : ((s.orphans type).addNew prev hash).Perm ((prev, hash) :: s.orphans type) := Multimap.insert_perm _ _
  constructor
  · intro h'
    have hnodup := h'.nodup type
    rw [horphans, if_pos rfl, hperm.nodup_iff, List.nodup_cons] at hnodup
    exact hnodup.1
  · intro hnew
    refine ⟨fun t e he => ?_, fun t => ?_⟩
    · rw [received_congr hstates]
      rw [horphans] at he
      split_ifs at he with ht
      · subst ht
        rcases List.mem_cons.1 (hperm.mem_iff.1 he) with rfl | hold
        · exact hreceived
        · exact h.received _ e hold
      · exact h.received t e he
    · rw [horphans]
      split_ifs with ht
      · exact hperm.nodup_iff.2 (List.nodup_cons.2 ⟨hnew, h.nodup type⟩)
      · exact h.nodup t

theorem OrphansWait.call_iff (h : s.OrphansWait) {c : SchedCall} (hc : s.AddsReceived c) :
    (s.call c).OrphansWait ↔ s.Tidy c := by
  cases c with
  | checkPrevTxInv inv => exact iff_of_true (h.checkPrevTxInv inv) trivial
  | removePeer p => exact h.removePeer_iff p.ne_zero
  | checkAddInvIdleLocation p type => exact iff_of_true (h.checkAddInvIdleLocation p.1 type) trivial
  | addNewInv now inv p => exact iff_of_true (h.addNewInv now inv p.1) trivial
  | removeInv inv => exact iff_of_true (h.removeInv inv) trivial
  | receiveBlock now p hash block => exact iff_of_true (h.receive now p.1 ⟨.MSG_BLOCK, hash⟩ rfl) trivial
  | receiveTx now p txid tx => exact iff_of_true (h.receiveTx now p.1 txid tx) trivial
  | addOrphanBlockPrev hash prev => exact h.addNew_iff hc (fun t => by cases t <;> rfl) rfl
  | addOrphanTxPrev txid prev => exact h.addNew_iff hc (fun t => by cases t <;> rfl) rfl
  | invalidateBlock hash => exact h.invalidateBlock_iff hash
  | invalidateTx txid => exact h.invalidateTx_iff txid
  | scheduleBlockInv now p nMaxCount =>
    exact iff_of_true (h.scheduleStep (scheduleBlockInv_step s now p.1 nMaxCount)) trivial
  | scheduleTxInv now p nMaxCount fReceivedAll =>
    exact iff_of_true (h.scheduleStep (scheduleTxInv_step s now p.1 nMaxCount fReceivedAll)) trivial
  | cancelAssignedInv p inv => exact iff_of_true (h.cancelAssignedInv p.1 inv) trivial
  | setLocatorDepthHash p hashDepth =>
    exact iff_of_true (h.modifyPeer p.1 fun peer => { peer with hashGetBlockLocatorDepth := hashDepth }) trivial
  | setLocatorInvBlockHash p nHeight hashBlock hashNext =>
    exact iff_of_true (h.modifyPeer p.1 fun peer => peer.setLocatorInvBlockHash nHeight hashBlock hashNext) trivial
  | setNextGetBlocksTime now p nWaitTime =>
    exact iff_of_true (h.modifyPeer p.1 fun peer => peer.setNextGetBlocksTime now nWaitTime) trivial
  | setRepeatBlock now p hash => exact iff_of_true (h.setRepeatBlock now p.1 hash) trivial
  | setDelayedClear now inv nDelayedTime => exact iff_of_true (h.setDelayedClear now inv nDelayedTime) trivial

theorem OrphansWait.empty : OrphansWait {} := by
  have hnil : ∀ type, CSchedule.orphans {} type = [] := fun type => by cases type <;> rfl
  refine ⟨fun type e he => ?_, fun type => ?_⟩
  · rw [hnil] at he
    cases he
  · rw [hnil]
    exact List.nodup_nil

/-- **The orphan index refers only to waiting objects**, and to none twice, exactly in the runs whose calls are
tidy. -/
theorem orphans_wait_iff (l : List SchedCall)
    (hl : ∀ n c, l[n]? = some c → (Run.states CSchedule.call {} l n).AddsReceived c) :
    (∀ n, (Run.states CSchedule.call {} l n).OrphansWait) ↔
      ∀ n c, l[n]? = some c → (Run.states CSchedule.call {} l n).Tidy c :=
  @Run.good_iff CSchedule SchedCall CSchedule.call OrphansWait OrphansWait AddsReceived Tidy
    id (fun h hc => (h.call_iff hc).2) (fun h hc => (h.call_iff hc).1) {} OrphansWait.empty l hl

/-- Two peers announce a transaction; one is asked for it, sends it and goes while the transaction waits for
another. -/
def waitingRun : List SchedCall :=
  [.addNewInv 0 ⟨.MSG_TX, 7⟩ ⟨256, by decide⟩, .addNewInv 0 ⟨.MSG_TX, 7⟩ ⟨257, by decide⟩,
    .scheduleTxInv 0 ⟨256, by decide⟩ 1 false, .receiveTx 0 ⟨256, by decide⟩ 7 .null, .addOrphanTxPrev 7 5,
    .removePeer ⟨256, by decide⟩]

theorem addsReceived_waitingRun :
    ∀ n c, waitingRun[n]? = some c → (Run.states CSchedule.call {} waitingRun n).AddsReceived c := by
  intro n c hc
  rcases n with _ | _ | _ | _ | _ | _ | n
  · cases hc
    trivial
  · cases hc
    trivial
  · cases hc
    trivial
  · cases hc
    trivial
  · cases hc
    unfold AddsReceived
    decide
  · cases hc
    trivial
  · cases hc

theorem orphans_wait_waitingRun :
    (∀ n, (Run.states CSchedule.call {} waitingRun n).OrphansWait) ↔
      ∀ n c, waitingRun[n]? = some c → (Run.states CSchedule.call {} waitingRun n).Tidy c :=
  orphans_wait_iff waitingRun addsReceived_waitingRun

/-- The transaction is still in the index when it is no longer there. -/
theorem orphans_wait_peer_gone :
    (∀ n c, waitingRun[n]? = some c → (Run.states CSchedule.call {} waitingRun n).AddsReceived c) ∧
      ¬(Run.states CSchedule.call {} waitingRun 6).OrphansWait := by
  refine ⟨addsReceived_waitingRun, fun h => ?_⟩
  have hpair := h.received .MSG_TX (5, 7) (by decide)
  revert hpair
  decide

end CSchedule

end Minemon
