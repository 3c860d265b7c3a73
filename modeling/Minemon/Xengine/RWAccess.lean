import Mathlib.Data.Multiset.Count
import Mathlib.Data.Multiset.MapFold
import Mathlib.Logic.Relation
import Mathlib.Tactic.SplitIfs

/-!
# The read and write lock

`CRWAccess` of `xengine/rwlock.h`, used by any number of threads. What a thread does under the mutex is one step. A
`wait` leaves the mutex and falls asleep in the same step, and a notification is sent after the mutex was left.

* `CRWAccess.Step`: a section under the mutex, a notification, or a wake-up for no reason.
* `CRWAccess.OK`: the counters and flags count the threads, and who could go on is awake or will be woken.
* `CRWAccess.excludes_and_wakes`: **the lock excludes, and no waiter is forgotten**.
-/

namespace Minemon

/-- The counters are integers without bounds: they do not exceed the number of threads (`OK.counters_le`). -/
structure CRWAccess where
  nRead : ℤ := 0
  nWrite : ℤ := 0
  fExclusive : Bool := false
  fUpgraded : Bool := false

namespace CRWAccess

/-- `condRead`, `condWrite` and `condUpgrade`. -/
inductive Cond where
  | read | write | upgrade
deriving DecidableEq

/-- Where a thread is between two steps. -/
inductive Place where
  | idle
  | readWait | writeWait | upgradeWait | raiseWait
  | readWoken | writeWoken | upgradeWoken | raiseWoken
  | reading | writing | upgrading | upgraded
  | notifyRead | notifyWrite | notifyUpgrade
deriving DecidableEq

namespace Place

/-- What the thread sleeps on; `UpgradeLock` waits on the condition of the readers. -/
def cond : Place → Option Cond
  | readWait | upgradeWait => some .read
  | writeWait => some .write
  | raiseWait => some .upgrade
  | _ => none

def wake : Place → Place
  | readWait => readWoken
  | writeWait => writeWoken
  | upgradeWait => upgradeWoken
  | raiseWait => raiseWoken
  | p => p

def wakeReader (p : Place) : Place := if p.cond = some .read then p.wake else p

def pending : Place → Option Cond
  | notifyRead => some .read
  | notifyWrite => some .write
  | notifyUpgrade => some .upgrade
  | _ => none

def woken (p : Place) : Bool := p = readWoken ∨ p = writeWoken ∨ p = upgradeWoken ∨ p = raiseWoken

/-- The write lock, or the upgrade lock, which a thread keeps while it waits for the readers to leave. -/
def exclusive (p : Place) : Bool := p = writing ∨ p = upgrading ∨ p = raiseWait ∨ p = raiseWoken ∨ p = upgraded

def holds (p : Place) : Bool := p = reading ∨ p.exclusive

end Place

/-! ## The sections under the mutex -/

section

variable (a : CRWAccess)

def readLock : Place × CRWAccess :=
  if a.nWrite ≠ 0 ∨ a.fUpgraded then (.readWait, a) else (.reading, { a with nRead := a.nRead + 1 })

def readTryLock : Place × CRWAccess :=
  if a.nWrite ≠ 0 ∨ a.fUpgraded then (.idle, a) else (.reading, { a with nRead := a.nRead + 1 })

def readUnlock : Place × CRWAccess :=
  let nRead := a.nRead - 1
  (if nRead = 0 ∧ a.fExclusive then .notifyUpgrade
    else if nRead = 0 ∧ a.nWrite ≠ 0 then .notifyWrite else .idle, { a with nRead := nRead })

/-- The loop of `WriteLock`. -/
def writeLoop : Place × CRWAccess :=
  if a.nRead ≠ 0 ∨ a.fExclusive then (.writeWait, a) else (.writing, { a with fExclusive := true })

def writeLock : Place × CRWAccess := writeLoop { a with nWrite := a.nWrite + 1 }

def writeUnlock : Place × CRWAccess :=
  let nWrite := a.nWrite - 1
  (if nWrite ≠ 0 then .notifyWrite else .notifyRead, { a with nWrite := nWrite, fExclusive := false })

def upgradeLock : Place × CRWAccess :=
  if a.fExclusive then (.upgradeWait, a) else (.upgrading, { a with fExclusive := true })

/-- The loop of `UpgradeToWriteLock`. -/
def raiseLoop : Place × CRWAccess := if a.nRead ≠ 0 then (.raiseWait, a) else (.upgraded, a)

def upgradeToWriteLock : Place × CRWAccess := raiseLoop { a with fUpgraded := true }

def upgradeUnlock : Place × CRWAccess :=
  (if a.nWrite ≠ 0 ∧ (a.fUpgraded ∨ a.nRead = 0) then .notifyWrite else .notifyRead,
    { a with fExclusive := false, fUpgraded := false })

end

/-- What a thread can run next: each unlock matches its lock, and only the upgrade lock is raised. -/
def Place.sections : Place → List (CRWAccess → Place × CRWAccess)
  | idle => [readLock, readTryLock, writeLock, upgradeLock]
  | readWoken => [readLock]
  | writeWoken => [writeLoop]
  | upgradeWoken => [upgradeLock]
  | raiseWoken => [raiseLoop]
  | reading => [readUnlock]
  | writing => [writeUnlock]
  | upgrading => [upgradeToWriteLock, upgradeUnlock]
  | upgraded => [upgradeUnlock]
  | _ => []

/-- The lock and the threads that use it. -/
structure State where
  access : CRWAccess := {}
  threads : Multiset Place

inductive Step : State → State → Prop
  | run {a p ts f} (hf : f ∈ p.sections) : Step ⟨a, p ::ₘ ts⟩ ⟨(f a).2, (f a).1 ::ₘ ts⟩
  | spurious {a p ts} : Step ⟨a, p ::ₘ ts⟩ ⟨a, p.wake ::ₘ ts⟩
  | notifyAll {a ts} : Step ⟨a, .notifyRead ::ₘ ts⟩ ⟨a, .idle ::ₘ ts.map Place.wakeReader⟩
  | notifyOne {a q p ts c} (hq : q.pending = some c) (hc : c ≠ .read) (hp : p.cond = some c) :
      Step ⟨a, q ::ₘ p ::ₘ ts⟩ ⟨a, .idle ::ₘ p.wake ::ₘ ts⟩
  | notifyNone {a q ts c} (hq : q.pending = some c) (hc : ∀ p ∈ ts, p.cond ≠ some c) :
      Step ⟨a, q ::ₘ ts⟩ ⟨a, .idle ::ₘ ts⟩

/-! ## The invariant -/

def flag (b : Bool) : ℤ := if b then 1 else 0

theorem eq_true_iff {b : Bool} : b = true ↔ flag b = 1 := by cases b <;> decide

/-- The counters and the flags count the threads, the lock excludes, and whoever could go on will be woken. -/
structure OK (s : State) : Prop where
  read : s.access.nRead = s.threads.count .reading
  write : s.access.nWrite = s.threads.count .writeWait + s.threads.count .writeWoken + s.threads.count .writing
  exclusive : flag s.access.fExclusive = s.threads.count .writing + s.threads.count .upgrading +
    s.threads.count .raiseWait + s.threads.count .raiseWoken + s.threads.count .upgraded
  upgraded : flag s.access.fUpgraded =
    s.threads.count .raiseWait + s.threads.count .raiseWoken + s.threads.count .upgraded
  one : flag s.access.fExclusive ≤ 1
  alone : s.access.nRead = 0 ∨ s.threads.count .writing + s.threads.count .upgraded = 0
  wakeWrite : s.access.nRead = 0 → flag s.access.fExclusive = 0 → s.access.nWrite ≠ 0 →
    0 < s.threads.count .writeWoken + s.threads.count .notifyWrite
  wakeRead : s.access.nWrite = 0 → flag s.access.fUpgraded = 0 → 0 < s.threads.count .readWait →
    0 < s.threads.count .notifyRead
  wakeUpgrade : s.access.nWrite = 0 → flag s.access.fExclusive = 0 → 0 < s.threads.count .upgradeWait →
    0 < s.threads.count .notifyRead

theorem OK.counters_le {s : State} (h : OK s) : s.access.nRead + s.access.nWrite ≤ s.threads.card := by
  have hcount : s.threads.count .reading + s.threads.count .writeWait + s.threads.count .writeWoken +
      s.threads.count .writing ≤ s.threads.card := by
    induction s.threads using Multiset.induction_on with
    | empty => simp
    | cons p ts ih =>
      simp only [Multiset.count_cons, Multiset.card_cons]
      cases p <;> simp only [reduceCtorEq, if_false, if_true] <;> omega
  rw [h.read, h.write]
  omega

theorem OK.start (n : ℕ) : OK ⟨{}, Multiset.replicate n .idle⟩ := by
  constructor <;> simp [Multiset.count_replicate, flag]

section

variable {a : CRWAccess} {p q : Place} {ts : Multiset Place}

theorem OK.run {f : CRWAccess → Place × CRWAccess} (h : OK ⟨a, p ::ₘ ts⟩) (hf : f ∈ p.sections) :
    OK ⟨(f a).2, (f a).1 ::ₘ ts⟩ := by
  obtain ⟨read, write, exclusive, upgraded, one, alone, wakeWrite, wakeRead, wakeUpgrade⟩ := h
  cases p <;> simp only [Place.sections, List.mem_cons, List.not_mem_nil, or_false] at hf
  all_goals repeat' rcases hf with rfl | hf
  all_goals simp only [readLock, readTryLock, readUnlock, writeLock, writeLoop, writeUnlock, upgradeLock, raiseLoop,
    upgradeToWriteLock, upgradeUnlock]
  all_goals split_ifs
  -- where the thread goes, the counters go with it
  all_goals constructor
  all_goals
    simp only [Multiset.count_cons, eq_true_iff, show flag true = 1 from rfl, show flag false = 0 from rfl,
      reduceCtorEq, if_false, if_true] at *
    omega

theorem OK.wake (h : OK ⟨a, p ::ₘ ts⟩) : OK ⟨a, p.wake ::ₘ ts⟩ := by
  obtain ⟨read, write, exclusive, upgraded, one, alone, wakeWrite, wakeRead, wakeUpgrade⟩ := h
  cases p
  all_goals constructor
  all_goals
    simp only [Place.wake, Multiset.count_cons, reduceCtorEq, if_false, if_true] at *
    omega

theorem count_wakeReader (ts : Multiset Place) {p : Place} (hread : p ≠ .readWoken) (hupgrade : p ≠ .upgradeWoken) :
    (ts.map Place.wakeReader).count p = if p.cond = some .read then 0 else ts.count p := by
  induction ts using Multiset.induction_on with
  | empty => simp
  | cons q ts ih =>
    rw [Multiset.map_cons, Multiset.count_cons, ih, Multiset.count_cons]
    cases q <;> cases p <;> first | rfl | exact absurd rfl hread | exact absurd rfl hupgrade

/-- **Every step keeps the books of the lock.** -/
theorem OK.step {s s' : State} (h : OK s) (hs : Step s s') : OK s' := by
  cases hs with
  | run hf => exact h.run hf
  | spurious => exact h.wake
  | @notifyAll a ts =>
    obtain ⟨read, write, exclusive, upgraded, one, alone, wakeWrite, wakeRead, wakeUpgrade⟩ := h
    constructor
    all_goals
      simp (disch := decide) only [Multiset.count_cons, count_wakeReader, Place.cond, reduceCtorEq, Option.some.injEq,
        if_false, if_true] at *
      omega
  | @notifyOne a q p ts c hq hc hp =>
    obtain ⟨read, write, exclusive, upgraded, one, alone, wakeWrite, wakeRead, wakeUpgrade⟩ := h
    cases q <;> cases hq <;> cases p <;> cases hp
    all_goals try exact absurd rfl hc
    all_goals constructor
    all_goals
      simp only [Place.wake, Multiset.count_cons, reduceCtorEq, if_false, if_true] at *
      omega
  | @notifyNone a q ts c hq hc =>
    have hnone : ∀ p, p.cond = some c → ts.count p = 0 :=
      fun p hp => Multiset.count_eq_zero.2 fun hmem => hc p hmem hp
    have hread := hnone .readWait
    have hupgrade := hnone .upgradeWait
    have hwrite := hnone .writeWait
    obtain ⟨read, write, exclusive, upgraded, one, alone, wakeWrite, wakeRead, wakeUpgrade⟩ := h
    cases q <;> cases hq
    all_goals constructor
    all_goals
      simp only [Multiset.count_cons, Place.cond, reduceCtorEq, Option.some.injEq, forall_const, if_false, if_true] at *
      omega

theorem OK.reachable {s s' : State} (h : OK s) (hs : Relation.ReflTransGen Step s s') : OK s' := by
  induction hs with
  | refl => exact h
  | tail _ hstep ih => exact ih.step hstep

theorem OK.exclusive_alone (h : OK ⟨a, p ::ₘ ts⟩) (hp : p.exclusive = true) (hq : q ∈ ts) : q.exclusive = false := by
  have hcount := Multiset.count_pos.2 hq
  have hsum := h.exclusive
  have hone := h.one
  cases p <;> cases hp
  all_goals cases q
  all_goals first
    | rfl
    | simp only [Multiset.count_cons, reduceCtorEq, if_false, if_true] at *
      omega

theorem OK.writer_alone (h : OK ⟨a, p ::ₘ ts⟩) (hp : p = .writing ∨ p = .upgraded) (hq : q ∈ ts) : q.holds = false := by
  have hexclusive : q.exclusive = false := h.exclusive_alone (by rcases hp with rfl | rfl <;> rfl) hq
  have hreading : q ≠ .reading := by
    rintro rfl
    have hself := Multiset.count_pos.2 (Multiset.mem_cons_self p ts)
    have hcount := Multiset.count_pos.2 (Multiset.mem_cons_of_mem (b := p) hq)
    have hread := h.read
    have halone := h.alone
    dsimp only at *
    rcases hp with rfl | rfl <;> omega
  simp [Place.holds, hreading, hexclusive]

/-- With the lock free, whoever could go on is awake, or a notification for somebody asleep is on its way. -/
theorem OK.awake {s : State} (h : OK s) (hfree : ∀ q ∈ s.threads, q.holds = false) (hp : p ∈ s.threads)
    (hasleep : p.cond.isSome) : (∃ q ∈ s.threads, q.woken = true) ∨
      ∃ q ∈ s.threads, ∃ r ∈ s.threads, r.cond.isSome ∧ q.pending = r.cond := by
  have hnone : ∀ q : Place, q.holds = true → s.threads.count q = 0 := fun q hq =>
    Multiset.count_eq_zero.2 fun hmem => by simp [hfree q hmem] at hq
  have hexclusive : flag s.access.fExclusive = 0 := by
    rw [h.exclusive, hnone .writing rfl, hnone .upgrading rfl, hnone .raiseWait rfl, hnone .raiseWoken rfl,
      hnone .upgraded rfl]
    rfl
  have hupgraded : flag s.access.fUpgraded = 0 := by
    rw [h.upgraded, hnone .raiseWait rfl, hnone .raiseWoken rfl, hnone .upgraded rfl]
    rfl
  have hwrite := h.write
  by_cases hnWrite : s.access.nWrite = 0
  · right
    cases p with
    | readWait =>
      have hnotify := h.wakeRead hnWrite hupgraded (Multiset.count_pos.2 hp)
      exact ⟨.notifyRead, Multiset.count_pos.1 hnotify, .readWait, hp, rfl, rfl⟩
    | upgradeWait =>
      have hnotify := h.wakeUpgrade hnWrite hexclusive (Multiset.count_pos.2 hp)
      exact ⟨.notifyRead, Multiset.count_pos.1 hnotify, .upgradeWait, hp, rfl, rfl⟩
    | writeWait =>
      have hcount := Multiset.count_pos.2 hp
      omega
    | raiseWait => exact absurd (hfree _ hp) (by decide)
    | _ => cases hasleep
  · -- a writer waits, and no reader will be let in before it
    have hread : s.access.nRead = 0 := by rw [h.read, hnone .reading rfl]; rfl
    have hwake := h.wakeWrite hread hexclusive hnWrite
    have hwriting := hnone .writing rfl
    by_cases hwoken : 0 < s.threads.count .writeWoken
    · exact Or.inl ⟨.writeWoken, Multiset.count_pos.1 hwoken, rfl⟩
    · have hnotify : 0 < s.threads.count .notifyWrite := by omega
      have hwait : 0 < s.threads.count .writeWait := by omega
      exact Or.inr ⟨.notifyWrite, Multiset.count_pos.1 hnotify, .writeWait, Multiset.count_pos.1 hwait, rfl, rfl⟩

/-- **The lock excludes, and no waiter is forgotten**, with any number of threads, in every order of their steps and
with wake-ups for no reason. Whoever has the write lock or an upgraded lock has it alone; the write lock and the
upgrade lock are had once; and where nobody has a lock, not everybody can be asleep with no notification on its way. -/
theorem excludes_and_wakes {n : ℕ} {s : State}
    (h : Relation.ReflTransGen Step ⟨{}, Multiset.replicate n .idle⟩ s) :
    (∀ p ts, s.threads = p ::ₘ ts →
      (p = .writing ∨ p = .upgraded → ∀ q ∈ ts, q.holds = false) ∧
      (p.exclusive = true → ∀ q ∈ ts, q.exclusive = false)) ∧
    ((∀ p ∈ s.threads, p.holds = false) → (∃ p ∈ s.threads, p.cond.isSome) →
      (∃ q ∈ s.threads, q.woken = true) ∨
        ∃ q ∈ s.threads, ∃ p ∈ s.threads, p.cond.isSome ∧ q.pending = p.cond) := by
  have hOK := (OK.start n).reachable h
  refine ⟨fun p ts hts => ?_, fun hfree ⟨p, hp, hasleep⟩ => hOK.awake hfree hp hasleep⟩
  obtain ⟨a, threads⟩ := s
  subst hts
  exact ⟨fun hp q hq => hOK.writer_alone hp hq, fun hp q hq => hOK.exclusive_alone hp hq⟩

/-- One thread writes, and another sleeps until it leaves. -/
theorem excludes_and_wakes_writer :
    Place.holds .readWait = false ∧ Relation.ReflTransGen Step ⟨{}, Multiset.replicate 2 .idle⟩
      ⟨{ nWrite := 1, fExclusive := true }, .writing ::ₘ {.readWait}⟩ := by
  have hwrite : Step ⟨{}, .idle ::ₘ {.idle}⟩ ⟨_, .writing ::ₘ {.idle}⟩ :=
    .run (f := writeLock) (by simp [Place.sections])
  have hread : Step ⟨(writeLock {}).2, .idle ::ₘ {.writing}⟩ ⟨_, .readWait ::ₘ {.writing}⟩ :=
    .run (f := readLock) (by simp [Place.sections])
  rw [← Multiset.cons_zero, Multiset.cons_swap] at hread
  have h := (Relation.ReflTransGen.single hwrite).tail hread
  rw [Multiset.cons_swap] at h
  exact ⟨((excludes_and_wakes (n := 2) h).1 _ _ rfl).1 (Or.inl rfl) _ (Multiset.mem_singleton_self _), h⟩

end

end CRWAccess

end Minemon
