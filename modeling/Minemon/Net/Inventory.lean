import Minemon.Lib.Runs
import Minemon.Net.Schedule

/-!
# The books of the schedule

Which peers know an inventory is kept twice, in its state and in the lists of the peers, and which peer was asked
for it three times. This module follows one inventory through every call.

* `Booked`: the state of an inventory and the lists of the peers agree.
* `CSchedule.Consistent`: the books agree; `schedule_consistent_iff`: **they do in every state of a run exactly if no
  peer takes back an object that it has sent**.
-/

namespace Minemon

/-! ## Peers -/

namespace CInvPeer

def Knows (peer : CInvPeer) (inv : CInv) : Prop := inv.nHash ∈ peer.getKnownList inv.nType

def Asked (peer : CInvPeer) (inv : CInv) : Prop := inv.nHash ∈ peer.getAssigned inv.nType

variable {peer : CInvPeer} {inv j : CInv} {f : CInvPeerState → CInvPeerState}

theorem invKnown_setKnown (peer : CInvPeer) (type t : InvType) (f : CInvPeerState → CInvPeerState) :
    (peer.setKnown type f).invKnown t = if t = type then f (peer.invKnown type) else peer.invKnown t :=
  Function.update_apply _ _ _ _

theorem not_knows_empty : ¬({} : CInvPeer).Knows inv := by simp [Knows, getKnownList]

theorem not_asked_empty : ¬({} : CInvPeer).Asked inv := OrdMap.not_mem_empty

theorem setKnown_iff {R : CInvPeerState → ℕ → Prop} {P : Prop → Prop → Prop} (hP : ∀ r, P False r ↔ r)
    (hf : ∀ hash, R (f (peer.invKnown inv.nType)) hash ↔ P (hash = inv.nHash) (R (peer.invKnown inv.nType) hash)) :
    R ((peer.setKnown inv.nType f).invKnown j.nType) j.nHash ↔ P (j = inv) (R (peer.invKnown j.nType) j.nHash) := by
  rw [invKnown_setKnown]
  split_ifs with htype
  · have heq : (j = inv) = (j.nHash = inv.nHash) := propext ⟨fun h => by rw [h], fun h => CInv.ext htype h⟩
    rw [hf, heq, htype]
  · have hne : (j = inv) = False := eq_false fun h => htype (by rw [h])
    rw [hne, hP]

@[simp] theorem knows_addNewInv : (peer.addNewInv inv).Knows j ↔ j = inv ∨ peer.Knows j :=
  setKnown_iff (R := fun k hash => hash ∈ k.listKnown) (P := Or) (fun _ => by simp) fun hash => by
    by_cases hhash : hash = inv.nHash <;> simp [hhash]

@[simp] theorem asked_addNewInv : (peer.addNewInv inv).Asked j ↔ peer.Asked j :=
  setKnown_iff (R := fun k hash => hash ∈ k.setAssigned) (P := fun _ r => r) (fun _ => Iff.rfl) fun _ => Iff.rfl

@[simp] theorem knows_removeInv : (peer.removeInv inv).Knows j ↔ peer.Knows j ∧ j ≠ inv :=
  setKnown_iff (R := fun k hash => hash ∈ k.listKnown) (P := fun e r => r ∧ ¬e) (by simp) fun hash => by simp

@[simp] theorem asked_removeInv : (peer.removeInv inv).Asked j ↔ peer.Asked j ∧ j ≠ inv :=
  setKnown_iff (R := fun k hash => hash ∈ k.setAssigned) (P := fun e r => r ∧ ¬e) (by simp) fun _ =>
    OrdMap.mem_erase.trans and_comm

@[simp] theorem knows_assign : (peer.assign inv).Knows j ↔ peer.Knows j :=
  setKnown_iff (R := fun k hash => hash ∈ k.listKnown) (P := fun _ r => r) (fun _ => Iff.rfl) fun _ => Iff.rfl

@[simp] theorem asked_assign : (peer.assign inv).Asked j ↔ j = inv ∨ peer.Asked j :=
  setKnown_iff (R := fun k hash => hash ∈ k.setAssigned) (P := Or) (fun _ => by simp) fun _ => OrdSet.mem_add

@[simp] theorem knows_completed : (peer.completed inv).Knows j ↔ peer.Knows j :=
  setKnown_iff (R := fun k hash => hash ∈ k.listKnown) (P := fun _ r => r) (fun _ => Iff.rfl) fun _ => Iff.rfl

@[simp] theorem asked_completed : (peer.completed inv).Asked j ↔ peer.Asked j ∧ j ≠ inv :=
  setKnown_iff (R := fun k hash => hash ∈ k.setAssigned) (P := fun e r => r ∧ ¬e) (by simp) fun _ =>
    OrdMap.mem_erase.trans and_comm

theorem mem_getKnownInv : j ∈ peer.getKnownInv ↔ peer.Knows j := by
  unfold getKnownInv Knows
  obtain ⟨type, hash⟩ := j
  cases type <;> simp

/-- The lists stay when only the other data of a peer changes. -/
def SameLists (peer peer' : CInvPeer) : Prop :=
  ∀ inv, (peer'.Knows inv ↔ peer.Knows inv) ∧ (peer'.Asked inv ↔ peer.Asked inv)

theorem sameLists_setKnown {type : InvType}
    (hknown : ∀ k, (f k).listKnown = k.listKnown) (hassigned : ∀ k, (f k).setAssigned = k.setAssigned) :
    peer.SameLists (peer.setKnown type f) := by
  intro j
  unfold Knows Asked getKnownList getAssigned
  rw [invKnown_setKnown]
  split_ifs with htype
  · rw [hknown, hassigned, htype]
    exact ⟨Iff.rfl, Iff.rfl⟩
  · exact ⟨Iff.rfl, Iff.rfl⟩

theorem sameLists_addRepeatBlock (hash : ℕ) : peer.SameLists (peer.addRepeatBlock hash).2 := by
  unfold addRepeatBlock
  split_ifs
  · dsimp only
    exact sameLists_setKnown (fun _ => rfl) fun _ => rfl
  · exact fun _ => ⟨Iff.rfl, Iff.rfl⟩

theorem sameLists_setLocatorInvBlockHash (nHeight : ℤ) (hashBlock hashNext : ℕ) :
    peer.SameLists (peer.setLocatorInvBlockHash nHeight hashBlock hashNext) := by
  unfold setLocatorInvBlockHash
  split_ifs <;> exact fun _ => ⟨Iff.rfl, Iff.rfl⟩

end CInvPeer

/-! ## One inventory -/

/-- A state agrees with the peers that have the inventory in their known list and in their assigned set. -/
structure Booked (state : CInvState) (known assigned : ℕ → Prop) : Prop where
  known : ∀ p, known p ↔ p ∈ state.setKnownPeer
  assigned : ∀ p, assigned p ↔ p ≠ 0 ∧ state.nAssigned = p ∧ state.isReceived = false
  hasPeer : ∃ p, p ∈ state.setKnownPeer
  nonzero : ∀ p ∈ state.setKnownPeer, p ≠ 0
  holder : state.nAssigned ≠ 0 → state.nAssigned ∈ state.setKnownPeer
  received : state.isReceived = true → state.nAssigned ≠ 0

namespace Booked

variable {state state' : CInvState} {known known' assigned assigned' : ℕ → Prop} {p : ℕ}

section

variable (h : Booked state known assigned) (hlists : ∀ p, (known' p ↔ known p) ∧ (assigned' p ↔ assigned p))

include h

theorem mem_of_assigned (hp : assigned p) : p ∈ state.setKnownPeer := by
  obtain ⟨hp0, rfl, -⟩ := (h.assigned p).1 hp
  exact h.holder hp0

include hlists

theorem congr (hpeers : state'.setKnownPeer = state.setKnownPeer)
    (hholder : state'.nAssigned = state.nAssigned) (hreceived : state'.isReceived = state.isReceived) :
    Booked state' known' assigned' := by
  refine ⟨fun p => ?_, fun p => ?_, ?_, ?_, ?_, ?_⟩
  · rw [(hlists p).1, hpeers]
    exact h.known p
  · rw [(hlists p).2, hholder, hreceived]
    exact h.assigned p
  · rw [hpeers]
    exact h.hasPeer
  · rw [hpeers]
    exact h.nonzero
  · rw [hpeers, hholder]
    exact h.holder
  · rw [hholder, hreceived]
    exact h.received

theorem lists : Booked state known' assigned' :=
  h.congr hlists rfl rfl rfl

end

theorem first (hp : p ≠ 0) (hnone : ∀ q, ¬known q ∧ ¬assigned q)
    (hpeers : state.setKnownPeer = OrdSet.add OrdMap.empty p) (hfree : state.nAssigned = 0)
    (hreceived : state.isReceived = false) : Booked state (fun q => q = p ∨ known q) assigned := by
  refine ⟨fun q => ?_, fun q => ?_, ⟨p, ?_⟩, fun q hq => ?_, fun hne => absurd hfree hne, fun h => ?_⟩
  · simp [hpeers, (hnone q).1]
  · rw [hfree]
    exact iff_of_false (hnone q).2 fun h => h.1 h.2.1.symm
  · simp [hpeers]
  · have : q = p := by simpa [hpeers] using hq
    rwa [this]
  · rw [hreceived] at h
    cases h

section

variable (h : Booked state known assigned)

include h

theorem join (hp : p ≠ 0) (hpeers : state'.setKnownPeer = state.setKnownPeer.add p)
    (hholder : state'.nAssigned = state.nAssigned) (hreceived : state'.isReceived = state.isReceived) :
    Booked state' (fun q => q = p ∨ known q) assigned := by
  refine ⟨fun q => ?_, fun q => ?_, ⟨p, ?_⟩, fun q hq => ?_, fun hne => ?_, fun hr => ?_⟩
  · rw [hpeers, OrdSet.mem_add, h.known]
  · rw [hholder, hreceived, h.assigned]
  · simp [hpeers]
  · rw [hpeers, OrdSet.mem_add] at hq
    rcases hq with rfl | hq
    · exact hp
    · exact h.nonzero q hq
  · rw [hholder] at hne ⊢
    rw [hpeers]
    exact OrdSet.mem_add.2 (Or.inr (h.holder hne))
  · rw [hholder]
    exact h.received (hreceived ▸ hr)

theorem ask (hp : known p) (hfree : state.nAssigned = 0)
    (hpeers : state'.setKnownPeer = state.setKnownPeer) (hholder : state'.nAssigned = p)
    (hreceived : state'.isReceived = state.isReceived) : Booked state' known fun q => q = p ∨ assigned q := by
  have hmem : p ∈ state.setKnownPeer := (h.known p).1 hp
  have hnot : state.isReceived = false := by
    cases hr : state.isReceived with
    | false => rfl
    | true => exact absurd hfree (h.received hr)
  refine ⟨fun q => ?_, fun q => ?_, ?_, ?_, fun _ => ?_, fun hr => ?_⟩
  · rw [hpeers]
    exact h.known q
  · rw [hholder, hreceived, h.assigned, hfree, hnot]
    constructor
    · rintro (rfl | ⟨h0, heq, -⟩)
      · exact ⟨h.nonzero q hmem, rfl, rfl⟩
      · exact absurd heq.symm h0
    · exact fun hq => Or.inl hq.2.1.symm
  · rw [hpeers]
    exact h.hasPeer
  · rw [hpeers]
    exact h.nonzero
  · rw [hpeers, hholder]
    exact hmem
  · rw [hholder]
    exact h.nonzero p hmem

theorem complete (hp : p ≠ 0) (hasked : state.nAssigned = p)
    (hpeers : state'.setKnownPeer = state.setKnownPeer) (hholder : state'.nAssigned = state.nAssigned)
    (hreceived : state'.isReceived = true) : Booked state' known fun q => assigned q ∧ q ≠ p := by
  refine ⟨fun q => ?_, fun q => ?_, ?_, ?_, ?_, fun _ => ?_⟩
  · rw [hpeers]
    exact h.known q
  · rw [hreceived, h.assigned]
    refine iff_of_false (fun hq => hq.2 ?_) (by simp)
    rw [← hq.1.2.1, hasked]
  · rw [hpeers]
    exact h.hasPeer
  · rw [hpeers]
    exact h.nonzero
  · rw [hpeers, hholder]
    exact h.holder
  · rwa [hholder, hasked]

/-- One of the peers that know an inventory goes; if it was asked, nobody is any more. -/
theorem leave (hpeers : state'.setKnownPeer = state.setKnownPeer.erase p)
    (hsome : ∃ q, q ∈ state'.setKnownPeer)
    (hholder : state'.nAssigned = if state.nAssigned = p then 0 else state.nAssigned)
    (hreceived : state'.isReceived = if state.nAssigned = p then false else state.isReceived) :
    Booked state' (fun q => known q ∧ q ≠ p) fun q => assigned q ∧ q ≠ p := by
  refine ⟨fun q => ?_, fun q => ?_, hsome, fun q hq => ?_, fun hne => ?_, fun hr => ?_⟩
  · rw [hpeers, OrdMap.mem_erase, h.known]
    exact and_comm
  · rw [hholder, hreceived, h.assigned]
    split_ifs with hp
    · refine iff_of_false (fun hq => hq.2 ?_) fun hq => hq.1 hq.2.1.symm
      rw [← hq.1.2.1, hp]
    · refine and_iff_left_of_imp fun hq heq => hp ?_
      rw [hq.2.1, heq]
  · rw [hpeers, OrdMap.mem_erase] at hq
    exact h.nonzero q hq.2
  · rw [hholder] at hne ⊢
    split_ifs at hne ⊢ with hp
    · exact absurd rfl hne
    · rw [hpeers, OrdMap.mem_erase]
      exact ⟨hp, h.holder hne⟩
  · rw [hreceived] at hr
    rw [hholder]
    split_ifs at hr ⊢
    exact h.received hr

end

end Booked

theorem PeerNonce.ne_zero (p : PeerNonce) : p.1 ≠ 0 := fun h => absurd p.2 (by omega)

namespace CSchedule

def KnownTo (s : CSchedule) (p : ℕ) (inv : CInv) : Prop := (s.peer p).Knows inv

def AssignedTo (s : CSchedule) (p : ℕ) (inv : CInv) : Prop := (s.peer p).Asked inv

/-- The books about an inventory agree. -/
structure BookedAt (s : CSchedule) (inv : CInv) : Prop where
  booked : ∀ state, s.mapState.find? inv = some state → Booked state (s.KnownTo · inv) (s.AssignedTo · inv)
  absent : s.mapState.find? inv = none → ∀ p, ¬s.KnownTo p inv ∧ ¬s.AssignedTo p inv

variable {s s' : CSchedule} {inv j : CInv} {p q : ℕ} {state : CInvState}

theorem BookedAt.of_some (hstate : s.mapState.find? inv = some state)
    (h : Booked state (s.KnownTo · inv) (s.AssignedTo · inv)) : s.BookedAt inv := by
  refine ⟨fun st hst => ?_, fun hnone => ?_⟩
  · rwa [Option.some.inj (hst.symm.trans hstate)]
  · rw [hstate] at hnone
    cases hnone

theorem BookedAt.of_none (hstate : s.mapState.find? inv = none) (h : ∀ p, ¬s.KnownTo p inv ∧ ¬s.AssignedTo p inv) :
    s.BookedAt inv := by
  refine ⟨fun st hst => ?_, fun _ => h⟩
  rw [hstate] at hst
  cases hst

theorem BookedAt.frame (h : s.BookedAt j) (hstate : s'.mapState.find? j = s.mapState.find? j)
    (hlists : ∀ p, (s'.KnownTo p j ↔ s.KnownTo p j) ∧ (s'.AssignedTo p j ↔ s.AssignedTo p j)) : s'.BookedAt j := by
  refine ⟨fun st hst => ?_, fun hnone p => ?_⟩
  · rw [hstate] at hst
    exact (h.booked st hst).lists hlists
  · rw [hstate] at hnone
    rw [(hlists p).1, (hlists p).2]
    exact h.absent hnone p

theorem BookedAt.exists_state (h : s.BookedAt inv) (hp : s.KnownTo p inv) :
    ∃ state, s.mapState.find? inv = some state := by
  cases hstate : s.mapState.find? inv with
  | none => exact absurd hp (h.absent hstate p).1
  | some state => exact ⟨state, rfl⟩

theorem BookedAt.known_of_assigned (h : s.BookedAt inv) (hp : s.AssignedTo p inv) : s.KnownTo p inv := by
  cases hstate : s.mapState.find? inv with
  | none => exact absurd hp (h.absent hstate p).2
  | some state => exact ((h.booked state hstate).known p).2 ((h.booked state hstate).mem_of_assigned hp)

/-! ## Peers of the schedule -/

theorem peer_modifyPeer (s : CSchedule) (q p : ℕ) (f : CInvPeer → CInvPeer) :
    (s.modifyPeer q f).peer p = if p = q then f (s.peer q) else s.peer p := by
  unfold modifyPeer peer
  dsimp only
  rw [OrdMap.find?_upsert]
  split_ifs <;> rfl

variable {f : CInvPeer → CInvPeer} {P : CSchedule → Prop}

theorem BookedAt.sameLists (h : s.BookedAt j) (hf : ∀ peer : CInvPeer, peer.SameLists (f peer))
    (q : ℕ) : (s.modifyPeer q f).BookedAt j := by
  refine h.frame rfl fun p => ?_
  rw [KnownTo, AssignedTo, peer_modifyPeer]
  split_ifs with hp
  · rw [hp]
    exact hf (s.peer q) j
  · exact ⟨Iff.rfl, Iff.rfl⟩

theorem mapState_foldl_modifyPeer (l : List ℕ) (f : CInvPeer → CInvPeer) (s : CSchedule) :
    (l.foldl (fun s p => s.modifyPeer p f) s).mapState = s.mapState ∧
      (l.foldl (fun s p => s.modifyPeer p f) s).orphans = s.orphans := by
  induction l generalizing s with
  | nil => exact ⟨rfl, rfl⟩
  | cons q l ih => exact ih (s.modifyPeer q f)

theorem peer_foldl_modifyPeer {l : List ℕ} (hl : l.Nodup) (f : CInvPeer → CInvPeer) (s : CSchedule) (p : ℕ) :
    (l.foldl (fun s p => s.modifyPeer p f) s).peer p = if p ∈ l then f (s.peer p) else s.peer p := by
  induction l generalizing s with
  | nil => rfl
  | cons q l ih =>
    rw [List.nodup_cons] at hl
    rw [List.foldl_cons, ih hl.2, peer_modifyPeer]
    by_cases hpq : p = q
    · rw [if_neg (by rw [hpq]; exact hl.1), if_pos hpq, if_pos (by rw [hpq]; exact List.mem_cons_self), hpq]
    · rw [if_neg hpq]
      simp [hpq]

theorem peer_removeFromPeers (s : CSchedule) (inv : CInv) (state : CInvState) (p : ℕ) :
    (s.removeFromPeers inv state).peer p = if p ∈ state.setKnownPeer then (s.peer p).removeInv inv else s.peer p :=
  peer_foldl_modifyPeer state.setKnownPeer.keys_nodup _ s p

@[simp] theorem mapState_removeFromPeers (s : CSchedule) (inv : CInv) (state : CInvState) :
    (s.removeFromPeers inv state).mapState = s.mapState :=
  (mapState_foldl_modifyPeer _ _ s).1

/-! ## The calls -/

def Books (s : CSchedule) : Prop := ∀ inv, s.BookedAt inv

theorem Books.empty : Books {} := fun _ =>
  .of_none rfl fun _ => ⟨CInvPeer.not_knows_empty, CInvPeer.not_asked_empty⟩

theorem Books.leave (h : s.Books) (hstate : s.mapState.find? inv = some state)
    (hstates : s'.mapState = s.mapState.erase inv)
    (hpeers : ∀ p, s'.peer p = (s.removeFromPeers inv state).peer p) : s'.Books := by
  intro j
  have hbook := (h inv).booked state hstate
  have hfind : s'.mapState.find? j = if j = inv then none else s.mapState.find? j := by
    rw [hstates, OrdMap.find?_erase]
  have hlists : ∀ p, (s'.KnownTo p j ↔ s.KnownTo p j ∧ (p ∈ state.setKnownPeer → j ≠ inv)) ∧
      (s'.AssignedTo p j ↔ s.AssignedTo p j ∧ (p ∈ state.setKnownPeer → j ≠ inv)) := fun p => by
    rw [KnownTo, AssignedTo, hpeers, peer_removeFromPeers]
    split_ifs with hp <;> simp [hp, KnownTo, AssignedTo]
  by_cases hj : j = inv
  · subst hj
    refine .of_none (by rw [hfind, if_pos rfl]) fun p => ⟨fun hp => ?_, fun hp => ?_⟩
    · obtain ⟨hold, hgone⟩ := (hlists p).1.1 hp
      exact hgone ((hbook.known p).1 hold) rfl
    · obtain ⟨hold, hgone⟩ := (hlists p).2.1 hp
      exact hgone (hbook.mem_of_assigned hold) rfl
  · refine (h j).frame (by rw [hfind, if_neg hj]) fun p => ?_
    rw [(hlists p).1, (hlists p).2]
    exact ⟨and_iff_left fun _ => hj, and_iff_left fun _ => hj⟩

@[simp] theorem mapState_eraseState (s : CSchedule) (inv : CInv) : (s.eraseState inv).mapState = s.mapState.erase inv :=
  rfl

@[simp] theorem mapPeer_eraseState (s : CSchedule) (inv : CInv) : (s.eraseState inv).mapPeer = s.mapPeer := rfl

@[simp] theorem mapState_removeOrphan (s : CSchedule) (inv : CInv) : (s.removeOrphan inv).mapState = s.mapState := by
  unfold removeOrphan
  split <;> rfl

@[simp] theorem mapPeer_removeOrphan (s : CSchedule) (inv : CInv) : (s.removeOrphan inv).mapPeer = s.mapPeer := by
  unfold removeOrphan
  split <;> rfl

section

variable (h : s.Books)

include h

theorem Books.removeInv (inv : CInv) : (s.removeInv inv).2.Books := by
  unfold CSchedule.removeInv
  split
  · exact h
  · rename_i state hstate
    dsimp only
    split_ifs
    · exact h.leave hstate (by simp) fun p => by simp [peer]
    · exact h.leave hstate (by simp) fun p => by simp [peer]

theorem Books.foldl_removeInv (l : List CInv) : (l.foldl (fun s inv => (s.removeInv inv).2) s).Books := by
  induction l generalizing s with
  | nil => exact h
  | cons inv l ih => exact ih (h.removeInv inv)

theorem Books.invalidateInv (inv : CInv) : (s.invalidateInv inv).Books := by
  unfold CSchedule.invalidateInv
  split
  · exact h
  · rename_i state hstate
    dsimp only
    split
    · exact h.leave hstate (by simp) fun _ => rfl
    · exact h.leave hstate (by simp) fun _ => rfl

theorem Books.foldl_invalidateInv (type : InvType) (l : List ℕ) :
    (l.foldl (fun s hash => s.invalidateInv ⟨type, hash⟩) s).Books := by
  induction l generalizing s with
  | nil => exact h
  | cons hash l ih => exact ih (h.invalidateInv _)

/-- Neither the indices of orphans nor `setMissPrevTxInv` are part of the books. -/
theorem Books.other (hstates : s'.mapState = s.mapState) (hpeers : s'.mapPeer = s.mapPeer) : s'.Books := by
  intro j
  refine (h j).frame (by rw [hstates]) fun p => ?_
  simp only [KnownTo, AssignedTo, peer, hpeers, and_self]

theorem Books.invalidateBlock (hash : ℕ) : (s.invalidateBlock hash).Books := by
  unfold CSchedule.invalidateBlock
  dsimp only
  refine Books.removeInv (Books.foldl_invalidateInv ?_ _ _) _
  exact h.other rfl rfl

theorem Books.invalidateTx (txid : ℕ) : (s.invalidateTx txid).Books := by
  unfold CSchedule.invalidateTx
  dsimp only
  refine Books.removeInv (Books.foldl_invalidateInv ?_ _ _) _
  exact h.other rfl rfl

theorem Books.setState {state' : CInvState} (hstate : s.mapState.find? inv = some state)
    (hpeer : state'.setKnownPeer = state.setKnownPeer) (hholder : state'.nAssigned = state.nAssigned)
    (hreceived : state'.isReceived = state.isReceived) : (s.setState inv state').Books := by
  intro j
  by_cases hj : j = inv
  · subst hj
    have hfind : (s.setState j state').mapState.find? j = some state' := by
      rw [CSchedule.setState, OrdMap.find?_insert, if_pos rfl]
    exact .of_some hfind (((h j).booked state hstate).congr (fun _ => ⟨Iff.rfl, Iff.rfl⟩) hpeer hholder hreceived)
  · refine (h j).frame ?_ fun _ => ⟨Iff.rfl, Iff.rfl⟩
    rw [CSchedule.setState, OrdMap.find?_insert, if_neg hj]

theorem Books.checkAddInvIdleLocation (p : ℕ) (type : InvType) : (s.checkAddInvIdleLocation p type).2.Books := by
  unfold CSchedule.checkAddInvIdleLocation
  split_ifs
  · exact fun j => (h j).sameLists (f := id) (fun _ _ => ⟨Iff.rfl, Iff.rfl⟩) p
  · exact h

theorem Books.change {state' : CInvState} {known assigned : ℕ → Prop} (hinv : Booked state' known assigned)
    (hself : ∀ q, ((if q = p then f (s.peer p) else s.peer q).Knows inv ↔ known q) ∧
      ((if q = p then f (s.peer p) else s.peer q).Asked inv ↔ assigned q))
    (hother : ∀ (peer : CInvPeer) (j), j ≠ inv →
      ((f peer).Knows j ↔ peer.Knows j) ∧ ((f peer).Asked j ↔ peer.Asked j)) :
    ((s.setState inv state').modifyPeer p f).Books := by
  have hpeer : ∀ q, ((s.setState inv state').modifyPeer p f).peer q = if q = p then f (s.peer p) else s.peer q :=
    fun q => peer_modifyPeer (s.setState inv state') p q f
  have hfind : ∀ j, ((s.setState inv state').modifyPeer p f).mapState.find? j =
      if j = inv then some state' else s.mapState.find? j := fun j => OrdMap.find?_insert ..
  intro j
  by_cases hj : j = inv
  · subst hj
    refine .of_some ((hfind j).trans (if_pos rfl)) (hinv.lists fun q => ?_)
    rw [KnownTo, AssignedTo, hpeer]
    exact hself q
  · refine (h j).frame ((hfind j).trans (if_neg hj)) fun q => ?_
    rw [KnownTo, AssignedTo, hpeer]
    split_ifs with hq
    · rw [hq]
      exact hother _ j hj
    · exact ⟨Iff.rfl, Iff.rfl⟩

theorem Books.addNewInv (hp : p ≠ 0) (now : ℤ) (inv : CInv) : (s.addNewInv now inv p).2.Books := by
  have h1 := h.checkAddInvIdleLocation p inv.nType
  unfold CSchedule.addNewInv
  revert h1
  split
  · rename_i s1 hs1
    rw [hs1]
    exact id
  · rename_i s1 hs1
    rw [hs1]
    intro h1
    refine Books.change (f := fun peer => peer.addNewInv inv) h1
      (?_ : Booked _ (fun q => q = p ∨ s1.KnownTo q inv) (s1.AssignedTo · inv)) (fun q => ?_) fun peer j hj => ?_
    · cases hstate : s1.mapState.find? inv with
      | none => exact Booked.first hp ((h1 inv).absent hstate) rfl rfl rfl
      | some state => exact Booked.join ((h1 inv).booked state hstate) hp rfl rfl rfl
    · by_cases hq : q = p <;> simp [hq, KnownTo, AssignedTo]
    · simp [hj]

theorem Books.receive (hp : p ≠ 0) (now : ℤ) (inv : CInv) {obj : CInvObject}
    (hobj : CInvState.isReceived { objReceived := obj } = true) : (s.receive now p inv obj).2.Books := by
  unfold CSchedule.receive
  split
  · exact h
  · rename_i state hstate
    split_ifs with hasked
    · have hholder : state.nAssigned = p := by
        simp only [Bool.and_eq_true, decide_eq_true_eq] at hasked
        exact hasked.1
      refine Books.change (f := fun peer => peer.completed inv) h
        (Booked.complete ((h inv).booked state hstate) hp hholder rfl rfl hobj) (fun q => ?_) fun peer j hj => ?_
      · by_cases hq : q = p <;> simp [hq, KnownTo, AssignedTo]
      · simp [hj]
    · exact h

theorem Books.receiveTx (hp : p ≠ 0) (now : ℤ) (txid : ℕ) (tx : CTransaction) :
    (s.receiveTx now p txid tx).2.Books := by
  have hreceive : (s.receive now p ⟨.MSG_TX, txid⟩ (.tx tx)).2.Books := h.receive hp now _ rfl
  unfold CSchedule.receiveTx
  split
  · rename_i heq
    rwa [heq] at hreceive
  · rename_i heq
    rw [heq] at hreceive
    exact hreceive.other rfl rfl

theorem Books.checkPrevTxInv (inv : CInv) : (s.checkPrevTxInv inv).2.Books := by
  unfold CSchedule.checkPrevTxInv
  split
  · dsimp only
    split_ifs
    · exact h
    · exact h.other rfl rfl
  · exact h.other rfl rfl

end

/-! ### RemovePeer -/

/-- What `RemovePeer` makes of the state of an inventory that the peer knows. -/
def leavePeer (p : ℕ) (state : CInvState) : Option CInvState :=
  if (state.setKnownPeer.erase p).toList.isEmpty then none
  else if state.nAssigned = p then
    some { state with setKnownPeer := state.setKnownPeer.erase p, nAssigned := 0, objReceived := .nil }
  else some { state with setKnownPeer := state.setKnownPeer.erase p }

theorem find?_removePeerInv (s : CSchedule) (p : ℕ) (inv j : CInv) :
    (s.removePeerInv p inv).mapState.find? j =
      if j = inv then (s.mapState.find? inv).bind (leavePeer p) else s.mapState.find? j := by
  unfold removePeerInv leavePeer
  cases hstate : s.mapState.find? inv with
  | none =>
    have hempty : ((OrdMap.empty : OrdSet ℕ).erase p).toList.isEmpty = true := rfl
    simp [hempty, OrdMap.find?_erase]
  | some state =>
    simp only [Option.getD_some, Option.bind_some]
    split_ifs <;> simp_all [OrdMap.find?_erase, CSchedule.setState, OrdMap.find?_insert]

theorem mapPeer_removePeerInv (s : CSchedule) (p : ℕ) (inv : CInv) : (s.removePeerInv p inv).mapPeer = s.mapPeer := by
  unfold removePeerInv
  dsimp only
  split_ifs <;> simp [CSchedule.setState]

theorem leavePeer_again (hp : p ≠ 0) (state : CInvState) :
    (leavePeer p state).bind (leavePeer p) = leavePeer p state := by
  have herase : ∀ m : OrdSet ℕ, (m.erase p).erase p = m.erase p := fun m => OrdMap.ext_find? fun k => by
    rw [OrdMap.find?_erase, OrdMap.find?_erase]
    split_ifs <;> rfl
  unfold leavePeer
  split_ifs with hempty hholder
  · rfl
  · simpa [herase, hp.symm] using hempty
  · simpa [herase, hholder] using hempty

theorem foldl_removePeerInv (hp : p ≠ 0) (l : List CInv) (s : CSchedule) :
    (l.foldl (fun s inv => s.removePeerInv p inv) s).mapPeer = s.mapPeer ∧
      ∀ j, (l.foldl (fun s inv => s.removePeerInv p inv) s).mapState.find? j =
        if j ∈ l then (s.mapState.find? j).bind (leavePeer p) else s.mapState.find? j := by
  induction l generalizing s with
  | nil => exact ⟨rfl, fun _ => rfl⟩
  | cons inv l ih =>
    obtain ⟨hpeer, hfind⟩ := ih (s.removePeerInv p inv)
    refine ⟨hpeer.trans (mapPeer_removePeerInv s p inv), fun j => ?_⟩
    rw [List.foldl_cons, hfind, find?_removePeerInv]
    by_cases hj : j = inv
    · subst hj
      rw [if_pos rfl, if_pos List.mem_cons_self]
      split_ifs
      · cases s.mapState.find? j with
        | none => rfl
        | some state => exact leavePeer_again hp state
      · rfl
    · simp [hj]

theorem leavePeer_eq_none : leavePeer p state = none ↔ ∀ q ∈ state.setKnownPeer, q = p := by
  have hempty : (state.setKnownPeer.erase p).toList.isEmpty = true ↔ ∀ q ∈ state.setKnownPeer, q = p := by
    rw [List.isEmpty_iff, ← List.map_eq_nil_iff (f := Prod.fst), List.eq_nil_iff_forall_not_mem]
    refine forall_congr' fun q => ?_
    show q ∉ state.setKnownPeer.erase p ↔ _
    rw [OrdMap.mem_erase]
    tauto
  unfold leavePeer
  split_ifs with h1 h2 <;> simp [h1, ← hempty]

theorem leavePeer_eq_some {state' : CInvState} (h : leavePeer p state = some state') :
    state'.setKnownPeer = state.setKnownPeer.erase p ∧ (∃ q ∈ state.setKnownPeer, q ≠ p) ∧
      state'.nAssigned = (if state.nAssigned = p then 0 else state.nAssigned) ∧
      state'.isReceived = if state.nAssigned = p then false else state.isReceived := by
  have hother : ∃ q ∈ state.setKnownPeer, q ≠ p := by
    by_contra hnone
    push Not at hnone
    rw [leavePeer_eq_none.2 hnone] at h
    cases h
  unfold leavePeer at h
  split_ifs at h with h1 h2
  · obtain rfl := Option.some.inj h
    exact ⟨rfl, hother, by rw [if_pos h2], by rw [if_pos h2]; rfl⟩
  · obtain rfl := Option.some.inj h
    exact ⟨rfl, hother, by rw [if_neg h2], by rw [if_neg h2]; rfl⟩

theorem Books.removePeer (h : s.Books) (hp : p ≠ 0) : (s.removePeer p).Books := by
  unfold CSchedule.removePeer
  split
  · exact h
  · rename_i peer hpeer
    obtain ⟨hpeers, hfind⟩ := foldl_removePeerInv hp peer.getKnownInv s
    set s1 := peer.getKnownInv.foldl (fun s inv => s.removePeerInv p inv) s with hs1
    have hself : s.peer p = peer := by rw [CSchedule.peer, hpeer, Option.getD_some]
    have hpeer' : ∀ q, CSchedule.peer { s1 with mapPeer := s1.mapPeer.erase p } q = if q = p then {} else s.peer q := by
      intro q
      show ((s1.mapPeer.erase p).find? q).getD {} = _
      rw [OrdMap.find?_erase, hpeers]
      split_ifs <;> rfl
    have hlists : ∀ q j,
        (CSchedule.KnownTo { s1 with mapPeer := s1.mapPeer.erase p } q j ↔ s.KnownTo q j ∧ q ≠ p) ∧
          (CSchedule.AssignedTo { s1 with mapPeer := s1.mapPeer.erase p } q j ↔ s.AssignedTo q j ∧ q ≠ p) := by
      intro q j
      rw [KnownTo, AssignedTo, hpeer']
      split_ifs with hq <;> simp [hq, CInvPeer.not_knows_empty, CInvPeer.not_asked_empty, KnownTo, AssignedTo]
    intro j
    have hmem : j ∈ peer.getKnownInv ↔ s.KnownTo p j := by rw [CInvPeer.mem_getKnownInv, KnownTo, hself]
    by_cases hj : s.KnownTo p j
    · obtain ⟨state, hstate⟩ := (h j).exists_state hj
      have hbook := (h j).booked state hstate
      have hfind' := hfind j
      rw [if_pos (hmem.2 hj), hstate, Option.bind_some] at hfind'
      cases hleave : leavePeer p state with
      | none =>
        have hall := leavePeer_eq_none.1 hleave
        refine .of_none (hfind'.trans hleave) fun q => ⟨fun hq => ?_, fun hq => ?_⟩
        · obtain ⟨hold, hne⟩ := (hlists q j).1.1 hq
          exact hne (hall q ((hbook.known q).1 hold))
        · obtain ⟨hold, hne⟩ := (hlists q j).2.1 hq
          exact hne (hall q (hbook.mem_of_assigned hold))
      | some state' =>
        obtain ⟨hset, ⟨q, hq, hqp⟩, hholder, hreceived⟩ := leavePeer_eq_some hleave
        refine .of_some (hfind'.trans hleave) (Booked.lists ?_ (hlists · j))
        exact hbook.leave hset ⟨q, by rw [hset]; exact OrdMap.mem_erase.2 ⟨hqp, hq⟩⟩ hholder hreceived
    · refine (h j).frame ((hfind j).trans (if_neg (hmem.not.2 hj))) fun q => ?_
      rw [(hlists q j).1, (hlists q j).2]
      refine ⟨and_iff_left_of_imp fun hq heq => hj ?_, and_iff_left_of_imp fun hq heq => hj ?_⟩
      · rwa [← heq]
      · rw [← heq]
        exact (h j).known_of_assigned hq

/-! ### CancelAssignedInv -/

theorem not_knownTo_of_absent (hp : s.mapPeer.find? p = none) : ¬s.KnownTo p inv := by
  rw [KnownTo, CSchedule.peer, hp]
  exact CInvPeer.not_knows_empty

theorem cancelAssignedInv_of_holder (hstate : s.mapState.find? inv = some state) (hholder : state.nAssigned = p)
    (hfresh : state.isReceived = false) (hpeer : s.mapPeer.find? p ≠ none) :
    (s.cancelAssignedInv p inv).2 =
      (if (state.setKnownPeer.erase p).toList.isEmpty then (s.removeOrphan inv).eraseState inv
        else s.setState inv { state with nAssigned := 0, setKnownPeer := state.setKnownPeer.erase p }).modifyPeer p
          fun peer => peer.removeInv inv := by
  obtain ⟨peer, hpeer⟩ := Option.ne_none_iff_exists'.1 hpeer
  unfold CSchedule.cancelAssignedInv
  simp only [hstate, hholder, ne_eq, not_true_eq_false, if_false, hfresh, Bool.false_eq_true]
  split_ifs
  · simp only [mapPeer_eraseState, mapPeer_removeOrphan, hpeer]
  · simp only [CSchedule.setState, hpeer]

theorem Books.cancelAssignedInv (h : s.Books) (hp : p ≠ 0)
    (hcancel : ∀ state, s.mapState.find? inv = some state → state.nAssigned = p → state.isReceived = false) :
    (s.cancelAssignedInv p inv).2.Books := by
  cases hstate : s.mapState.find? inv with
  | none => simpa [CSchedule.cancelAssignedInv, hstate] using h
  | some state =>
    by_cases hholder : state.nAssigned = p
    · have hbook := (h inv).booked state hstate
      have hmem : p ∈ state.setKnownPeer := hholder ▸ hbook.holder (hholder ▸ hp)
      have hpeer : s.mapPeer.find? p ≠ none := fun hnone => not_knownTo_of_absent hnone ((hbook.known p).2 hmem)
      rw [cancelAssignedInv_of_holder hstate hholder (hcancel state hstate hholder) hpeer]
      split_ifs with hempty
      · -- the peer was the only one that knew it
        have hall : ∀ q, q ∈ state.setKnownPeer ↔ q = p := fun q =>
          ⟨fun hq => leavePeer_eq_none.1 (if_pos hempty) q hq, fun hq => hq ▸ hmem⟩
        refine h.leave hstate (by simp [modifyPeer]) fun q => ?_
        rw [peer_modifyPeer, peer_removeFromPeers]
        simp only [hall]
        split_ifs with hq
        · rw [hq]
          simp [CSchedule.peer]
        · simp [CSchedule.peer]
      · have hother : ∃ q, q ∈ state.setKnownPeer.erase p := by
          refine List.exists_mem_of_ne_nil _ fun hnil => hempty ?_
          rw [List.isEmpty_iff]
          exact List.map_eq_nil_iff.1 hnil
        refine Books.change (f := fun peer => peer.removeInv inv) h
          (hbook.leave rfl hother (if_pos hholder).symm ?_) (fun q => ?_) fun peer j hj => ?_
        · rw [if_pos hholder]
          exact hcancel state hstate hholder
        · by_cases hq : q = p <;> simp [hq, KnownTo, AssignedTo]
        · simp [hj]
    · simpa [CSchedule.cancelAssignedInv, hstate, hholder] using h

/-! ### ScheduleKnownInv -/

/-- What the loops of `ScheduleKnownInv` do to a schedule. -/
structure LoopRule (p : ℕ) (P : CSchedule → Prop) : Prop where
  miss : ∀ {s : CSchedule} (setMissPrevTxInv : OrdSet CInv), P s → P { s with setMissPrevTxInv := setMissPrevTxInv }
  assign : ∀ {s : CSchedule} {inv : CInv} {state : CInvState}, P s → s.KnownTo p inv →
    s.mapState.find? inv = some state → state.nAssigned = 0 → P (s.assignInv p inv state)

theorem missPrevLoop_rule (rule : LoopRule p P) (now : ℤ) (nMaxCount : ℕ) (l : List CInv)
    {x : KnownLoop} (hx : P x.s) :
    P (missPrevLoop now p nMaxCount l x).s ∧
      (missPrevLoop now p nMaxCount l x).setRemovePeerInv = x.setRemovePeerInv := by
  induction l generalizing x with
  | nil => exact ⟨hx, rfl⟩
  | cons inv l ih =>
    rw [missPrevLoop]
    split
    · exact ih (rule.miss _ hx)
    · rename_i state hstate
      split_ifs with hfree htimeout
      · exact ih hx
      · simp only [Bool.and_eq_true, decide_eq_true_eq, CInvPeer.knownInvExists] at hfree
        have hassign : P (x.assign p inv state).s := rule.assign hx hfree.2 hstate hfree.1
        dsimp only
        split_ifs
        · exact ⟨hassign, rfl⟩
        · exact ih hassign
      · exact ih hx

theorem listKnownLoop_rule (rule : LoopRule p P) (now : ℤ) (nMaxCount : ℕ) (l : List CInv)
    (hl : ∀ s, P s → ∀ inv ∈ l, s.KnownTo p inv) {x : KnownLoop} (hx : P x.s) :
    P (listKnownLoop now p nMaxCount l x).s ∧
      ∀ inv ∈ (listKnownLoop now p nMaxCount l x).setRemovePeerInv, inv ∈ x.setRemovePeerInv ∨
        ∃ s, P s ∧ s.KnownTo p inv ∧ s.mapState.find? inv = none := by
  induction l generalizing x with
  | nil => exact ⟨hx, fun _ => Or.inl⟩
  | cons inv l ih =>
    have hknown : x.s.KnownTo p inv := hl _ hx inv List.mem_cons_self
    have ih' := fun {y : KnownLoop} (hy : P y.s) => ih (fun s hs j hj => hl s hs j (List.mem_cons_of_mem _ hj)) hy
    rw [listKnownLoop]
    split
    · rename_i hnone
      obtain ⟨hP, hgone⟩ := ih' (y := { x with setRemovePeerInv := x.setRemovePeerInv.add inv }) hx
      refine ⟨hP, fun j hj => ?_⟩
      rcases hgone j hj with hj | hj
      · rcases OrdSet.mem_add.1 hj with rfl | hj
        · exact Or.inr ⟨x.s, hx, hknown, hnone⟩
        · exact Or.inl hj
      · exact Or.inr hj
    · rename_i state hstate
      split_ifs with hfree htimeout hreceived hclear
      · exact ih' (y := { x with setRemoveInv := x.setRemoveInv.add inv }) hx
      · have hassign : P (x.assign p inv state).s := rule.assign hx hknown hstate hfree
        dsimp only
        split_ifs
        · exact ⟨hassign, fun _ => Or.inl⟩
        · exact ih' hassign
      · exact ih' (y := { x with setRemoveInv := x.setRemoveInv.add inv }) hx
      · exact ih' (y := { x with nReceived := x.nReceived + 1 }) hx
      · exact ih' hx

theorem knownTo_assignInv (s : CSchedule) (p q : ℕ) (inv j : CInv) (state : CInvState) :
    (s.assignInv p inv state).KnownTo q j ↔ s.KnownTo q j := by
  rw [KnownTo, assignInv, peer_modifyPeer]
  split_ifs with hq
  · rw [hq, CInvPeer.knows_assign]
    rfl
  · rfl

/-- **The loops of `ScheduleKnownInv`**: what they do to a schedule, and which inventories of the peer have no state. -/
theorem knownLoops_rule (rule : LoopRule p P) (now : ℤ) (nMaxCount : ℕ) (type : InvType)
    (hs : P s) :
    P (knownLoops now s p (s.peer p) type nMaxCount).s ∧
      ∀ inv ∈ (knownLoops now s p (s.peer p) type nMaxCount).setRemovePeerInv,
        ∃ s, P s ∧ s.KnownTo p inv ∧ s.mapState.find? inv = none := by
  -- the loops leave the known lists as they are
  have rule' : LoopRule p fun s' => P s' ∧ ∀ j, s'.KnownTo p j ↔ s.KnownTo p j :=
    ⟨fun set h => ⟨rule.miss set h.1, h.2⟩, fun h hk hstate hfree => ⟨rule.assign h.1 hk hstate hfree, fun j => by
      rw [knownTo_assignInv]
      exact h.2 j⟩⟩
  have hlist : ∀ s', (P s' ∧ ∀ j, s'.KnownTo p j ↔ s.KnownTo p j) →
      ∀ inv ∈ ((s.peer p).getKnownList type).map (CInv.mk type), s'.KnownTo p inv := by
    rintro s' ⟨-, hsame⟩ inv hinv
    obtain ⟨hash, hhash, rfl⟩ := List.mem_map.1 hinv
    exact (hsame _).2 hhash
  have hstart : P s ∧ ∀ j, s.KnownTo p j ↔ s.KnownTo p j := ⟨hs, fun _ => Iff.rfl⟩
  have hdone : ∀ x : KnownLoop, (P x.s ∧ ∀ j, x.s.KnownTo p j ↔ s.KnownTo p j) → x.setRemovePeerInv = OrdMap.empty →
      P (if x.vInv.length < nMaxCount then
          listKnownLoop now p nMaxCount (((s.peer p).getKnownList type).map (CInv.mk type)) x else x).s ∧
        ∀ inv ∈ (if x.vInv.length < nMaxCount then
          listKnownLoop now p nMaxCount (((s.peer p).getKnownList type).map (CInv.mk type)) x else x).setRemovePeerInv,
            ∃ s, P s ∧ s.KnownTo p inv ∧ s.mapState.find? inv = none := by
    intro x hx hnone
    split_ifs
    · obtain ⟨hP, hgone⟩ := listKnownLoop_rule rule' now nMaxCount _ hlist hx
      refine ⟨hP.1, fun inv hinv => ?_⟩
      rcases hgone inv hinv with hin | ⟨s', hs', hrest⟩
      · rw [hnone] at hin
        exact absurd hin OrdMap.not_mem_empty
      · exact ⟨s', hs'.1, hrest⟩
    · refine ⟨hx.1, fun inv hinv => ?_⟩
      rw [hnone] at hinv
      exact absurd hinv OrdMap.not_mem_empty
  unfold knownLoops
  by_cases htype : type = .MSG_TX
  · simp only [if_pos htype]
    obtain ⟨hP, hnone⟩ := missPrevLoop_rule (x := { s := s }) rule' now nMaxCount
      s.setMissPrevTxInv.keys hstart
    exact hdone _ hP hnone
  · simp only [if_neg htype]
    exact hdone { s := s } hstart rfl

theorem Books.loopRule (p : ℕ) : LoopRule p Books where
  miss _ h := h.other rfl rfl
  assign := by
    intro s inv state h hknown hstate hfree
    refine Books.change (f := fun peer => peer.assign inv) h
      (Booked.ask ((h inv).booked state hstate) hknown hfree rfl rfl rfl) (fun q => ?_) fun peer j hj => ?_
    · by_cases hq : q = p <;> simp [hq, KnownTo, AssignedTo]
    · simp [hj]

theorem Books.scheduleKnownInv (h : s.Books) (now : ℤ) (p : ℕ) (type : InvType) (nMaxCount : ℕ) :
    (CSchedule.scheduleKnownInv now s p (s.peer p) type nMaxCount).2.Books := by
  obtain ⟨hbooks, hgone⟩ := knownLoops_rule (Books.loopRule p) now nMaxCount type h
  have hnone : (knownLoops now s p (s.peer p) type nMaxCount).setRemovePeerInv.keys = [] := by
    refine List.eq_nil_iff_forall_not_mem.2 fun inv hinv => ?_
    obtain ⟨s', hs', hknown, hstate⟩ := hgone inv hinv
    exact ((hs' inv).absent hstate p).1 hknown
  unfold CSchedule.scheduleKnownInv
  dsimp only
  rw [hnone, List.foldl_nil]
  exact hbooks.foldl_removeInv _

/-- What `ScheduleBlockInv` and `ScheduleTxInv` do to the schedule. -/
inductive ScheduleStep (now : ℤ) (s : CSchedule) (p nMaxCount : ℕ) : CSchedule → Prop
  | rest : ScheduleStep now s p nMaxCount s
  | known (type : InvType) :
      ScheduleStep now s p nMaxCount (CSchedule.scheduleKnownInv now s p (s.peer p) type nMaxCount).2
  | idle (type : InvType) : ScheduleStep now s p nMaxCount
      ((CSchedule.scheduleKnownInv now s p (s.peer p) type nMaxCount).2.checkAddInvIdleLocation p type).2

theorem scheduleBlockInv_step (s : CSchedule) (now : ℤ) (p nMaxCount : ℕ) :
    ScheduleStep now s p nMaxCount (s.scheduleBlockInv now p nMaxCount).2 := by
  unfold CSchedule.scheduleBlockInv
  split
  · exact .rest
  · rename_i peer hpeer
    rw [show peer = s.peer p by rw [CSchedule.peer, hpeer, Option.getD_some]]
    dsimp only
    split_ifs
    · exact .rest
    · exact .known .MSG_BLOCK
    · exact .idle .MSG_BLOCK
    · exact .known .MSG_BLOCK

theorem scheduleTxInv_step (s : CSchedule) (now : ℤ) (p nMaxCount : ℕ) (fReceivedAll : Bool) :
    ScheduleStep now s p nMaxCount (s.scheduleTxInv now p nMaxCount fReceivedAll).2 := by
  unfold CSchedule.scheduleTxInv
  split
  · exact .rest
  · rename_i peer hpeer
    rw [show peer = s.peer p by rw [CSchedule.peer, hpeer, Option.getD_some]]
    dsimp only
    split_ifs
    · exact .rest
    · exact .known .MSG_TX
    · exact .known .MSG_TX

theorem Books.scheduleStep (h : s.Books) {now : ℤ} {nMaxCount : ℕ} (hs : ScheduleStep now s p nMaxCount s') :
    s'.Books := by
  cases hs with
  | rest => exact h
  | known type => exact h.scheduleKnownInv now p type nMaxCount
  | idle type => exact (h.scheduleKnownInv now p type nMaxCount).checkAddInvIdleLocation p type

/-! ## Runs -/

theorem Books.sameLists (h : s.Books) (hf : ∀ peer : CInvPeer, peer.SameLists (f peer))
    (p : ℕ) : (s.modifyPeer p f).Books := fun j => (h j).sameLists hf p

theorem Books.setRepeatBlock (h : s.Books) (now : ℤ) (p hash : ℕ) : (s.setRepeatBlock now p hash).2.Books := by
  unfold CSchedule.setRepeatBlock
  dsimp only
  refine Books.sameLists ?_ (fun peer => CInvPeer.sameLists_addRepeatBlock hash) p
  split
  · exact h
  · rename_i state hstate
    exact h.setState hstate rfl rfl rfl

theorem Books.setDelayedClear (h : s.Books) (now : ℤ) (inv : CInv) (nDelayedTime : ℤ) :
    (s.setDelayedClear now inv nDelayedTime).2.Books := by
  unfold CSchedule.setDelayedClear
  split
  · exact h
  · rename_i state hstate
    exact h.setState hstate rfl rfl rfl

structure Consistent (s : CSchedule) : Prop where
  known : ∀ (p : PeerNonce) (inv : CInv),
    (∃ state, s.mapState.find? inv = some state ∧ p.1 ∈ state.setKnownPeer) ↔ s.KnownTo p.1 inv
  hasPeer : ∀ (inv : CInv) (state : CInvState), s.mapState.find? inv = some state → ∃ p, p ∈ state.setKnownPeer
  assigned : ∀ (p : PeerNonce) (inv : CInv), s.AssignedTo p.1 inv ↔
    ∃ state, s.mapState.find? inv = some state ∧ state.nAssigned = p.1 ∧ state.isReceived = false

theorem Books.consistent (h : s.Books) : s.Consistent := by
  refine ⟨fun p inv => ?_, fun inv state hstate => ((h inv).booked state hstate).hasPeer, fun p inv => ?_⟩
  · cases hstate : s.mapState.find? inv with
    | none => simpa using ((h inv).absent hstate p.1).1
    | some state => simpa using (((h inv).booked state hstate).known p.1).symm
  · cases hstate : s.mapState.find? inv with
    | none => simpa using ((h inv).absent hstate p.1).2
    | some state => simpa [PeerNonce.ne_zero] using ((h inv).booked state hstate).assigned p.1

/-- An inventory that was received from the peer is not cancelled by it. -/
def Clean (s : CSchedule) : SchedCall → Prop
  | .cancelAssignedInv p inv =>
      ∀ state, s.mapState.find? inv = some state → state.nAssigned = p.1 → state.isReceived = false
  | _ => True

theorem Books.call (h : s.Books) {c : SchedCall} (hc : s.Clean c) : (s.call c).Books := by
  cases c with
  | checkPrevTxInv inv => exact h.checkPrevTxInv inv
  | removePeer p => exact h.removePeer p.ne_zero
  | checkAddInvIdleLocation p type => exact h.checkAddInvIdleLocation p.1 type
  | addNewInv now inv p => exact h.addNewInv p.ne_zero now inv
  | removeInv inv => exact h.removeInv inv
  | receiveBlock now p hash block => exact h.receive p.ne_zero now _ rfl
  | receiveTx now p txid tx => exact h.receiveTx p.ne_zero now txid tx
  | addOrphanBlockPrev hash prev => exact h.other rfl rfl
  | addOrphanTxPrev txid prev => exact h.other rfl rfl
  | invalidateBlock hash => exact h.invalidateBlock hash
  | invalidateTx txid => exact h.invalidateTx txid
  | scheduleBlockInv now p nMaxCount => exact h.scheduleStep (scheduleBlockInv_step s now p.1 nMaxCount)
  | scheduleTxInv now p nMaxCount fReceivedAll =>
    exact h.scheduleStep (scheduleTxInv_step s now p.1 nMaxCount fReceivedAll)
  | cancelAssignedInv p inv => exact h.cancelAssignedInv p.ne_zero hc
  | setLocatorDepthHash p hashDepth =>
    exact Books.sameLists (f := fun peer => { peer with hashGetBlockLocatorDepth := hashDepth }) h
      (fun peer inv => ⟨Iff.rfl, Iff.rfl⟩) p.1
  | setLocatorInvBlockHash p nHeight hashBlock hashNext =>
    exact h.sameLists (fun peer => CInvPeer.sameLists_setLocatorInvBlockHash nHeight hashBlock hashNext) p.1
  | setNextGetBlocksTime now p nWaitTime =>
    exact Books.sameLists (f := fun peer => peer.setNextGetBlocksTime now nWaitTime) h
      (fun _ => CInvPeer.sameLists_setKnown (fun _ => rfl) fun _ => rfl) p.1
  | setRepeatBlock now p hash => exact h.setRepeatBlock now p.1 hash
  | setDelayedClear now inv nDelayedTime => exact h.setDelayedClear now inv nDelayedTime

theorem Books.clean_of_consistent (h : s.Books) {c : SchedCall} (hc : (s.call c).Consistent) : s.Clean c := by
  cases c with
  | cancelAssignedInv p inv =>
    intro state hstate hholder
    rw [← Bool.not_eq_true]
    intro hreceived
    have hbook := (h inv).booked state hstate
    have hmem : p.1 ∈ state.setKnownPeer := hholder ▸ hbook.holder (hholder ▸ p.ne_zero)
    obtain ⟨peer, hpeer⟩ := Option.ne_none_iff_exists'.1 fun hnone =>
      not_knownTo_of_absent hnone ((hbook.known p.1).2 hmem)
    have heq : s.call (.cancelAssignedInv p inv) = s.modifyPeer p.1 fun peer => peer.removeInv inv := by
      simp [CSchedule.call, CSchedule.cancelAssignedInv, hstate, hholder, hreceived, hpeer]
    have hknown := (hc.known p inv).1 ⟨state, by rw [heq]; exact hstate, hmem⟩
    rw [heq, KnownTo, peer_modifyPeer, if_pos rfl] at hknown
    simp at hknown
  | _ => trivial

/-- **The inventory bookkeeping stays consistent exactly in the runs where no peer cancels an inventory that was
received from it.** -/
theorem schedule_consistent_iff (l : List SchedCall) :
    (∀ n, (Run.states CSchedule.call {} l n).Consistent) ↔
      ∀ n c, l[n]? = some c → (Run.states CSchedule.call {} l n).Clean c := by
  exact @Run.good_iff CSchedule SchedCall CSchedule.call Books Consistent (fun _ _ => True) Clean
    Books.consistent (fun h _ hc => h.call hc) (fun h _ hc => h.clean_of_consistent hc) {} Books.empty l
    fun _ _ _ => trivial

/-- A peer announces a block, is asked for it, sends it, and an event that the block could not be had comes after. -/
theorem schedule_consistent_cancel_received :
    ∃ l : List SchedCall, ¬(Run.states CSchedule.call {} l l.length).Consistent := by
  let p : PeerNonce := ⟨256, by decide⟩
  let inv : CInv := ⟨.MSG_BLOCK, 7⟩
  refine ⟨[.addNewInv 0 inv p, .scheduleBlockInv 0 p 1, .receiveBlock 0 p 7 {}, .cancelAssignedInv p inv], fun h => ?_⟩
  have hknown := (h.known p inv).1 ⟨_, rfl, by decide⟩
  unfold KnownTo CInvPeer.Knows at hknown
  revert hknown
  decide

end CSchedule

end Minemon
