import Mathlib

/-!
# Runs

A run applies a list of calls to a state, one after the other.

* `Run.states`: the states that a run goes through.
* `Run.good_iff`: **what holds in every state of a run**, exactly: an invariant that each call keeps under a
  condition, when a call that breaks the condition leads to a bad state.
-/

namespace Run

variable {S C : Type*} (call : S → C → S)

def states (s : S) (l : List C) (n : ℕ) : S := (l.take n).foldl call s

@[simp] theorem states_zero (s : S) (l : List C) : states call s l 0 = s := rfl

@[simp] theorem states_cons_succ (s : S) (c : C) (l : List C) (n : ℕ) :
    states call s (c :: l) (n + 1) = states call (call s c) l n := rfl

@[simp] theorem states_nil (s : S) (n : ℕ) : states call s [] n = s := by
  unfold states
  rw [List.take_nil, List.foldl_nil]

theorem states_succ (s : S) (l : List C) (n : ℕ) :
    states call s l (n + 1) = states call s l n ∨ ∃ c, states call s l (n + 1) = call (states call s l n) c := by
  unfold states
  rw [List.take_add_one, List.foldl_append]
  cases l[n]? with
  | none => exact Or.inl rfl
  | some c => exact Or.inr ⟨c, rfl⟩

variable {call} {Inv Good : S → Prop} {Allowed Cond : S → C → Prop}

/-- **Every state of a run is good exactly if every call meets the condition**, among the runs whose calls are
allowed. -/
theorem good_iff (good : ∀ {s}, Inv s → Good s)
    (keep : ∀ {s c}, Inv s → Allowed s c → Cond s c → Inv (call s c))
    (bad : ∀ {s c}, Inv s → Allowed s c → Good (call s c) → Cond s c) {s : S} (hs : Inv s) {l : List C}
    (hl : ∀ n c, l[n]? = some c → Allowed (states call s l n) c) :
    (∀ n, Good (states call s l n)) ↔ ∀ n c, l[n]? = some c → Cond (states call s l n) c := by
  induction l generalizing s with
  | nil =>
    refine ⟨fun _ n c hc => by simp at hc, fun _ n => ?_⟩
    rw [states_nil]
    exact good hs
  | cons c l ih =>
    have hallowed : Allowed s c := hl 0 c rfl
    have hrest : ∀ n d, l[n]? = some d → Allowed (states call (call s c) l n) d := fun n d hd =>
      hl (n + 1) d (by simpa using hd)
    constructor
    · intro h n d hd
      have hcond : Cond s c := bad hs hallowed (by simpa using h 1)
      cases n with
      | zero =>
        obtain rfl : c = d := by simpa using hd
        exact hcond
      | succ n => exact (ih (keep hs hallowed hcond) hrest).1 (fun n => h (n + 1)) n d (by simpa using hd)
    · intro h n
      have hcond : Cond s c := h 0 c rfl
      cases n with
      | zero => exact good hs
      | succ n =>
        exact (ih (keep hs hallowed hcond) hrest).2 (fun n d hd => h (n + 1) d (by simpa using hd)) n

end Run
