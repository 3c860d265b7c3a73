import Mathlib

/-!
# Ledgers of transfers

A ledger maps keys to values. A transfer spends some keys and creates others, and a history is a list of transfers.
An overlay records what became of the keys that were touched on the way from one history to another.

* `Ledger.replay`, `Ledger.count`: the ledger after a history, and the balance of one key.
* `Overlay.Tracks.branch`: back along one branch and forward along another.
* `Ledger.sum_le_net`: no more is in a ledger than the transfers created on balance.
-/

structure Transfer (K V : Type*) where
  spends : List (K × V)
  creates : List (K × V)

namespace Ledger

variable {K V : Type*} [DecidableEq K]

/-! ## Histories -/

def eraseAll (m : K → Option V) (l : List K) : K → Option V := l.foldl (fun m k => Function.update m k none) m

def insertAll (m : K → Option V) (l : List (K × V)) : K → Option V :=
  l.foldl (fun m e => Function.update m e.1 (some e.2)) m

/-- The transfer as a step: the keys it spends go, those it creates come. -/
def apply (m : K → Option V) (t : Transfer K V) : K → Option V :=
  insertAll (eraseAll m (t.spends.map Prod.fst)) t.creates

def replay (X : List (Transfer K V)) : K → Option V := X.foldl apply fun _ => none

def occurs (l : List (K × V)) (k : K) : ℤ := (l.map Prod.fst).count k

def count (X : List (Transfer K V)) (k : K) : ℤ := (X.map fun t => occurs t.creates k - occurs t.spends k).sum

def created (X : List (Transfer K V)) : List (K × V) := X.flatMap Transfer.creates

structure Legal (X : List (Transfer K V)) (t : Transfer K V) : Prop where
  spends_nodup : (t.spends.map Prod.fst).Nodup
  creates_nodup : (t.creates.map Prod.fst).Nodup
  spent : ∀ e ∈ t.spends, 1 ≤ count X e.1 ∧ e ∈ created X

def Valid (X : List (Transfer K V)) : Prop := ∀ A t C, X = A ++ t :: C → Legal A t

def Unique (X : List (Transfer K V)) : Prop := ((created X).map Prod.fst).Nodup

section

variable (X Y : List (Transfer K V)) (t : Transfer K V) (k : K)

theorem replay_append : replay (X ++ Y) = Y.foldl apply (replay X) := by
  unfold replay
  rw [List.foldl_append]

theorem replay_concat : replay (X ++ [t]) = apply (replay X) t := by
  rw [replay_append]
  rfl

@[simp] theorem count_nil : count ([] : List (Transfer K V)) k = 0 := rfl

theorem count_append : count (X ++ Y) k = count X k + count Y k := by
  unfold count
  rw [List.map_append, List.sum_append]

theorem count_concat : count (X ++ [t]) k = count X k + (occurs t.creates k - occurs t.spends k) := by
  rw [count_append]
  simp [count]

omit [DecidableEq K] in
theorem created_append : created (X ++ Y) = created X ++ created Y := by
  unfold created
  rw [List.flatMap_append]

omit [DecidableEq K] in
theorem created_concat : created (X ++ [t]) = created X ++ t.creates := by
  rw [created_append]
  simp [created]

/-! ## Occurrences -/

end

variable {X Y : List (Transfer K V)} {t : Transfer K V} {l : List (K × V)} {k : K} {e : K × V} {m m' : K → Option V}

theorem occurs_nonneg (l : List (K × V)) (k : K) : 0 ≤ occurs l k := Int.natCast_nonneg _

theorem occurs_of_not_mem (h : k ∉ l.map Prod.fst) : occurs l k = 0 := by
  unfold occurs
  rw [List.count_eq_zero.2 h]
  rfl

theorem occurs_of_mem (hnd : (l.map Prod.fst).Nodup) (h : k ∈ l.map Prod.fst) : occurs l k = 1 := by
  unfold occurs
  rw [List.count_eq_one_of_mem hnd h]
  rfl

theorem occurs_append (l m : List (K × V)) (k : K) : occurs (l ++ m) k = occurs l k + occurs m k := by
  unfold occurs
  rw [List.map_append, List.count_append]
  push_cast
  rfl

theorem count_le_occurs (X : List (Transfer K V)) (k : K) : count X k ≤ occurs (created X) k := by
  induction X using List.reverseRecOn with
  | nil => exact le_rfl
  | append_singleton X t ih =>
    have := occurs_nonneg t.spends k
    rw [count_concat, created_concat, occurs_append]
    omega

/-! ## Valid histories -/

theorem Valid.nil : Valid ([] : List (Transfer K V)) := fun A t C h => by simp at h

theorem Valid.left (h : Valid (X ++ Y)) : Valid X := by
  intro A t C heq
  refine h A t (C ++ Y) ?_
  rw [heq, List.append_assoc]
  rfl

theorem Valid.legal (h : Valid (X ++ t :: Y)) : Legal X t :=
  h X t Y rfl

theorem forall_split_concat {α : Type*} {P : List α → α → Prop} {l : List α} {t : α}
    (h : ∀ A u C, l = A ++ u :: C → P A u) (ht : P l t) : ∀ A u C, l ++ [t] = A ++ u :: C → P A u := by
  intro A u C heq
  rcases List.eq_nil_or_concat C with rfl | ⟨C', w, rfl⟩
  · obtain ⟨rfl, hu⟩ := List.append_inj' heq rfl
    obtain rfl : t = u := by simpa using hu
    exact ht
  · rw [List.concat_eq_append, ← List.cons_append, ← List.append_assoc] at heq
    obtain ⟨hX, -⟩ := List.append_inj' heq rfl
    exact h A u C' hX

theorem Valid.concat (h : Valid X) (ht : Legal X t) : Valid (X ++ [t]) := forall_split_concat h ht

theorem Valid.created_of_spent (h : Valid X) (ht : t ∈ X) (he : e ∈ t.spends) : e ∈ created X := by
  obtain ⟨A, C, rfl⟩ := List.append_of_mem ht
  rw [created_append]
  exact List.mem_append_left _ ((h _ _ _ rfl).spent e he).2

theorem Legal.occurs_le (h : Legal X t) (hX : ∀ k, 0 ≤ count X k) (k : K) : occurs t.spends k ≤ count X k := by
  by_cases hk : k ∈ t.spends.map Prod.fst
  · obtain ⟨e, he, rfl⟩ := List.mem_map.1 hk
    rw [occurs_of_mem h.spends_nodup hk]
    exact (h.spent e he).1
  · rw [occurs_of_not_mem hk]
    exact hX k

/-- **The balance of a key is never negative.** -/
theorem Valid.count_nonneg (h : Valid X) (k : K) : 0 ≤ count X k := by
  induction X using List.reverseRecOn generalizing k with
  | nil => exact le_rfl
  | append_singleton X t ih =>
    have hle := (Valid.legal h).occurs_le (ih h.left) k
    have hc := occurs_nonneg t.creates k
    rw [count_concat]
    omega

omit [DecidableEq K] in
theorem Unique.left (h : Unique (X ++ Y)) : Unique X := by
  unfold Unique at h ⊢
  rw [created_append, List.map_append] at h
  exact (List.nodup_append.1 h).1

theorem Unique.count_le (h : Unique X) (k : K) : count X k ≤ 1 := by
  refine (count_le_occurs X k).trans ?_
  by_cases hk : k ∈ (created X).map Prod.fst
  · rw [occurs_of_mem h hk]
  · rw [occurs_of_not_mem hk]
    decide

theorem Unique.count_of_spent {u : Transfer K V} (h : Unique X) (hu : u ∈ X)
    (hk : k ∈ u.spends.map Prod.fst) : count X k ≤ 0 := by
  obtain ⟨A, C, rfl⟩ := List.append_of_mem hu
  have hcreated : occurs (created (A ++ u :: C)) k ≤ 1 := by
    by_cases hc : k ∈ (created (A ++ u :: C)).map Prod.fst
    · rw [occurs_of_mem h hc]
    · rw [occurs_of_not_mem hc]
      decide
  have hspent : 1 ≤ occurs u.spends k := by
    unfold occurs
    exact_mod_cast List.count_pos_iff.2 hk
  have hA := count_le_occurs A k
  have hC := count_le_occurs C k
  rw [List.append_cons, created_append, created_concat, occurs_append, occurs_append] at hcreated
  rw [List.append_cons, count_append, count_concat]
  omega

theorem Unique.count_of_mem (h : Unique (X ++ [t])) (hk : k ∈ t.creates.map Prod.fst) : count X k ≤ 0 := by
  unfold Unique at h
  rw [created_concat, List.map_append] at h
  have hnot : k ∉ (created X).map Prod.fst := fun hk' => (List.nodup_append.1 h).2.2 k hk' k hk rfl
  have hle := count_le_occurs X k
  rwa [occurs_of_not_mem hnot] at hle

/-! ## What a ledger has -/

/-- Every key of the ledger has a positive balance, and a value it was created with. -/
def Backed (X : List (Transfer K V)) (m : K → Option V) : Prop :=
  ∀ k v, m k = some v → 1 ≤ count X k ∧ (k, v) ∈ created X

/-- The keys of the ledger are those with a positive balance. -/
def Exact (X : List (Transfer K V)) (m : K → Option V) : Prop :=
  ∀ k v, m k = some v ↔ 1 ≤ count X k ∧ (k, v) ∈ created X

/-- No key has one value in the first history and another in the second. -/
def Agree (X Y : List (Transfer K V)) : Prop := ∀ e ∈ created X, ∀ e' ∈ created Y, e.1 = e'.1 → e = e'

theorem Exact.backed (h : Exact X m) : Backed X m := fun k v => (h k v).1

theorem Exact.eq (h : Exact X m) (h' : Exact X m') : m = m' := by
  funext k
  refine Option.ext fun v => ?_
  rw [h k v, h' k v]

theorem exists_created (k : K) (h : 1 ≤ count X k) : ∃ v, (k, v) ∈ created X := by
  have hmem : k ∈ (created X).map Prod.fst := by
    by_contra hnot
    have hle := count_le_occurs X k
    rw [occurs_of_not_mem hnot] at hle
    omega
  obtain ⟨⟨k', v⟩, he, rfl⟩ := List.mem_map.1 hmem
  exact ⟨v, he⟩

omit [DecidableEq K] in
theorem Unique.agree (h : Unique X) : Agree X X := fun _ he _ he' hkey =>
  List.inj_on_of_nodup_map h he he' hkey

theorem eraseAll_apply (m : K → Option V) (l : List K) (k : K) : eraseAll m l k = if k ∈ l then none else m k := by
  unfold eraseAll
  induction l generalizing m with
  | nil => simp
  | cons a l ih =>
    rw [List.foldl_cons, ih]
    by_cases hk : k = a
    · simp [hk]
    · simp only [List.mem_cons, hk, false_or, Function.update_of_ne hk]

theorem insertAll_of_not_mem (m : K → Option V) (hk : k ∉ l.map Prod.fst) : insertAll m l k = m k := by
  unfold insertAll
  induction l generalizing m with
  | nil => rfl
  | cons e l ih =>
    rw [List.map_cons, List.mem_cons, not_or] at hk
    rw [List.foldl_cons, ih _ hk.2, Function.update_of_ne hk.1]

theorem insertAll_of_mem (m : K → Option V) (hnd : (l.map Prod.fst).Nodup)
    (he : e ∈ l) : insertAll m l e.1 = some e.2 := by
  induction l generalizing m with
  | nil => simp at he
  | cons e' l ih =>
    rw [List.map_cons, List.nodup_cons] at hnd
    show insertAll (Function.update m e'.1 (some e'.2)) l e.1 = some e.2
    rcases List.mem_cons.1 he with rfl | he
    · rw [insertAll_of_not_mem _ hnd.1, Function.update_self]
    · exact ih _ hnd.2 he

/-! ## Tables -/

/-- A map holds the entries of a list, and nothing else. -/
def Holds (l : List (K × V)) (m : K → Option V) : Prop := ∀ k v, m k = some v ↔ (k, v) ∈ l

/-- **A table moves**: the second list is written, and the keys that are on the first list only are erased. -/
theorem Holds.update {base down up : List (K × V)} {del : List K}
    (h : Holds (base ++ down) m) (hnd : ((base ++ up).map Prod.fst).Nodup)
    (hdel : ∀ k ∈ del, k ∉ (base ++ up).map Prod.fst)
    (hold : ∀ k ∈ (base ++ down).map Prod.fst, k ∉ (base ++ up).map Prod.fst → k ∈ del) :
    Holds (base ++ up) (eraseAll (insertAll m up) del) := by
  intro k v
  have hkey : ∀ {l : List (K × V)} {v}, (k, v) ∈ l → k ∈ l.map Prod.fst := fun h => List.mem_map.2 ⟨_, h, rfl⟩
  rw [eraseAll_apply]
  by_cases hk : k ∈ (base ++ up).map Prod.fst
  · rw [if_neg fun hin => hdel k hin hk]
    by_cases hup : k ∈ up.map Prod.fst
    · obtain ⟨e, he, rfl⟩ := List.mem_map.1 hup
      have hupnd : (up.map Prod.fst).Nodup := (List.map_append ▸ hnd).of_append_right
      rw [insertAll_of_mem m hupnd he, Option.some.injEq]
      constructor
      · rintro rfl
        exact List.mem_append_right _ he
      · intro hv
        exact congrArg Prod.snd (List.inj_on_of_nodup_map hnd (List.mem_append_right _ he) hv rfl)
    · rw [insertAll_of_not_mem m hup, h k v]
      have hbase : ∀ {w}, (k, w) ∈ base ++ up → (k, w) ∈ base := fun hw =>
        (List.mem_append.1 hw).resolve_right fun hin => hup (hkey hin)
      constructor
      · intro hv
        obtain ⟨⟨k', w⟩, hw, rfl⟩ := List.mem_map.1 hk
        have h1 := (h _ _).2 hv
        rw [(h _ _).2 (List.mem_append_left _ (hbase hw))] at h1
        obtain rfl := Option.some.inj h1
        exact hw
      · exact fun hv => List.mem_append_left _ (hbase hv)
  · have hup : k ∉ up.map Prod.fst := fun hin =>
      hk (by rw [List.map_append]; exact List.mem_append_right _ hin)
    rw [iff_false_right fun hv => hk (hkey hv)]
    split_ifs with hin
    · simp
    · rw [insertAll_of_not_mem m hup, h k v]
      exact fun hv => hin (hold k (hkey hv) hk)

omit [DecidableEq K] in
theorem mem_created_concat {v : V} (hc : k ∉ t.creates.map Prod.fst) :
    (k, v) ∈ created (X ++ [t]) ↔ (k, v) ∈ created X := by
  rw [created_concat, List.mem_append]
  constructor
  · rintro (h | h)
    · exact h
    · exact absurd (List.mem_map_of_mem h) hc
  · exact Or.inl

theorem Backed.apply (h : Backed X m) (ht : Legal X t) (hX : ∀ k, 0 ≤ count X k) :
    Backed (X ++ [t]) (Ledger.apply m t) := by
  intro k v hk
  have hle := ht.occurs_le hX k
  unfold Ledger.apply at hk
  by_cases hc : k ∈ t.creates.map Prod.fst
  · obtain ⟨e, he, rfl⟩ := List.mem_map.1 hc
    rw [insertAll_of_mem _ ht.creates_nodup he] at hk
    obtain rfl := Option.some.inj hk
    rw [count_concat, occurs_of_mem ht.creates_nodup hc, created_concat]
    exact ⟨by omega, List.mem_append_right _ he⟩
  · rw [insertAll_of_not_mem _ hc, eraseAll_apply] at hk
    split_ifs at hk with hs
    rw [mem_created_concat hc, count_concat, occurs_of_not_mem hc, occurs_of_not_mem hs]
    simpa using h k v hk

theorem Exact.apply (h : Exact X m) (ht : Legal X t) (hX : ∀ k, 0 ≤ count X k) (hu : Unique (X ++ [t])) :
    Exact (X ++ [t]) (Ledger.apply m t) := by
  intro k v
  refine ⟨h.backed.apply ht hX k v, fun ⟨hpos, hmem⟩ => ?_⟩
  unfold Ledger.apply
  by_cases hc : k ∈ t.creates.map Prod.fst
  · obtain ⟨e, he, rfl⟩ := List.mem_map.1 hc
    have heq : e = (e.1, v) := hu.agree e (by rw [created_concat]; exact List.mem_append_right _ he) _ hmem rfl
    rw [insertAll_of_mem _ ht.creates_nodup he]
    exact congrArg some (congrArg Prod.snd heq)
  · rw [mem_created_concat hc] at hmem
    rw [count_concat, occurs_of_not_mem hc] at hpos
    have h1 := hu.left.count_le k
    have hs : k ∉ t.spends.map Prod.fst := by
      intro hs
      rw [occurs_of_mem ht.spends_nodup hs] at hpos
      omega
    rw [insertAll_of_not_mem _ hc, eraseAll_apply, if_neg hs]
    rw [occurs_of_not_mem hs] at hpos
    exact (h k v).2 ⟨by omega, hmem⟩

/-- **The ledger of a history** has keys with a positive balance only. -/
theorem replay_backed (hX : Valid X) : Backed X (replay X) := by
  induction X using List.reverseRecOn with
  | nil =>
    intro k v hk
    simp [replay] at hk
  | append_singleton X t ih =>
    rw [replay_concat]
    exact (ih hX.left).apply hX.legal hX.left.count_nonneg

/-- **The ledger of a history without repeated keys** has the keys with a positive balance. -/
theorem replay_exact (hX : Valid X) (hu : Unique X) : Exact X (replay X) := by
  induction X using List.reverseRecOn with
  | nil =>
    intro k v
    simp [replay]
  | append_singleton X t ih =>
    rw [replay_concat]
    exact (ih hX.left hu.left).apply hX.legal hX.left.count_nonneg hu

end Ledger

/-! ## Overlays -/

structure Mark (V : Type*) where
  value : V
  spent : Bool
  net : ℤ

/-- The keys touched on the way from one history to another. -/
abbrev Overlay (K V : Type*) := K → Option (Mark V)

namespace Overlay

open Ledger

variable {K V : Type*} [DecidableEq K]

def net (o : Overlay K V) (k : K) : ℤ := (o k).elim 0 Mark.net

def enable (o : Overlay K V) (e : K × V) : Overlay K V := Function.update o e.1 (some ⟨e.2, false, o.net e.1 + 1⟩)

def disable (o : Overlay K V) (e : K × V) : Overlay K V := Function.update o e.1 (some ⟨e.2, true, o.net e.1 - 1⟩)

/-- A transfer forwards: what it spends is spent, what it creates is there. -/
def add (o : Overlay K V) (t : Transfer K V) : Overlay K V := t.creates.foldl enable (t.spends.foldl disable o)

/-- A transfer backwards: what it spent is there again, what it created is gone. -/
def remove (o : Overlay K V) (t : Transfer K V) : Overlay K V := t.creates.foldl disable (t.spends.foldl enable o)

def read (o : Overlay K V) (m : K → Option V) : K → Option V := fun k =>
  match o k with
  | some u => if u.spent then none else some u.value
  | none => m k

/-- The ledger after the keys that changed on balance are written. -/
def write (o : Overlay K V) (m : K → Option V) : K → Option V := fun k =>
  match o k with
  | some u => if u.net = 0 then m k else if u.spent then none else some u.value
  | none => m k

def touch (spent : Bool) (d : ℤ) (o : Overlay K V) (e : K × V) : Overlay K V :=
  Function.update o e.1 (some ⟨e.2, spent, o.net e.1 + d⟩)

section

variable {o : Overlay K V} {l : List (K × V)} {k : K} {b : Bool} {d : ℤ}

theorem touch_foldl_of_not_mem (hk : k ∉ l.map Prod.fst) : l.foldl (touch b d) o k = o k := by
  induction l generalizing o with
  | nil => rfl
  | cons e l ih =>
    rw [List.map_cons, List.mem_cons, not_or] at hk
    rw [List.foldl_cons, ih hk.2]
    exact Function.update_of_ne hk.1 _ _

theorem touch_foldl_of_mem (hnd : (l.map Prod.fst).Nodup) {e : K × V} (he : e ∈ l) :
    l.foldl (touch b d) o e.1 = some ⟨e.2, b, o.net e.1 + d⟩ := by
  induction l generalizing o with
  | nil => simp at he
  | cons e' l ih =>
    rw [List.map_cons, List.nodup_cons] at hnd
    rw [List.foldl_cons]
    rcases List.mem_cons.1 he with rfl | he
    · rw [touch_foldl_of_not_mem hnd.1]
      exact Function.update_self _ _ _
    · have hne : e.1 ≠ e'.1 := fun heq => hnd.1 (heq ▸ List.mem_map_of_mem he)
      rw [ih hnd.2 he]
      unfold net touch
      rw [Function.update_of_ne hne]

theorem net_touch_foldl (hnd : (l.map Prod.fst).Nodup) (o : Overlay K V) (k : K) :
    net (l.foldl (touch b d) o) k = o.net k + d * occurs l k := by
  by_cases hk : k ∈ l.map Prod.fst
  · obtain ⟨e, he, rfl⟩ := List.mem_map.1 hk
    rw [occurs_of_mem hnd hk, net, touch_foldl_of_mem hnd he, mul_one]
    rfl
  · rw [occurs_of_not_mem hk, net, touch_foldl_of_not_mem hk, mul_zero, add_zero]
    rfl

end

theorem touch_cases {X : List (Transfer K V)} {t : Transfer K V} (ht : Legal X t) (b : Bool) (c d : ℤ)
    (o : Overlay K V) (k : K) :
    (∃ e ∈ t.creates, k = e.1 ∧ ∃ n,
        t.creates.foldl (touch b c) (t.spends.foldl (touch (!b) d) o) k = some ⟨e.2, b, n⟩) ∨
    k ∉ t.creates.map Prod.fst ∧
      ((∃ e ∈ t.spends, k = e.1 ∧ ∃ n,
        t.creates.foldl (touch b c) (t.spends.foldl (touch (!b) d) o) k = some ⟨e.2, !b, n⟩) ∨
      k ∉ t.spends.map Prod.fst ∧ t.creates.foldl (touch b c) (t.spends.foldl (touch (!b) d) o) k = o k) := by
  by_cases hc : k ∈ t.creates.map Prod.fst
  · obtain ⟨e, he, rfl⟩ := List.mem_map.1 hc
    exact Or.inl ⟨e, he, rfl, _, touch_foldl_of_mem ht.creates_nodup he⟩
  · rw [touch_foldl_of_not_mem hc]
    refine Or.inr ⟨hc, ?_⟩
    by_cases hs : k ∈ t.spends.map Prod.fst
    · obtain ⟨e, he, rfl⟩ := List.mem_map.1 hs
      exact Or.inl ⟨e, he, rfl, _, touch_foldl_of_mem ht.spends_nodup he⟩
    · exact Or.inr ⟨hs, touch_foldl_of_not_mem hs⟩

/-! ## Overlays that track a history -/

/-- The overlay leads from the history `B` to the history `X`. -/
structure Tracks (B X : List (Transfer K V)) (o : Overlay K V) : Prop where
  net : ∀ k, o.net k = count X k - count B k
  live : ∀ k u, o k = some u → u.spent = false → 1 ≤ count X k ∧ (k, u.value) ∈ created X
  same : ∀ k v, o k = none → (k, v) ∈ created B → (k, v) ∈ created X

/-- A key that is marked as spent is not there: histories without repeated keys only. -/
def Dead (X : List (Transfer K V)) (o : Overlay K V) : Prop :=
  ∀ k u, o k = some u → u.spent = true → count X k ≤ 0

section

variable {B X : List (Transfer K V)} {o : Overlay K V} {t : Transfer K V}

theorem Tracks.refl (B : List (Transfer K V)) : Tracks B B fun _ => none :=
  ⟨fun k => (sub_self _).symm, fun k u hu => by simp at hu, fun k v _ h => h⟩

theorem Dead.refl (X : List (Transfer K V)) : Dead X (fun _ => none : Overlay K V) :=
  fun k u hu => by simp at hu

/-- **One transfer forwards.** -/
theorem Tracks.add (h : Tracks B X o) (ht : Legal X t) (hX : ∀ k, 0 ≤ count X k) : Tracks B (X ++ [t]) (o.add t) := by
  have hcases := touch_cases ht false 1 (-1) o
  refine ⟨fun k => ?_, fun k u hu hspent => ?_, fun k v hk hv => ?_⟩
  · change Overlay.net (t.creates.foldl (touch false 1) (t.spends.foldl (touch true (-1)) o)) k = _
    rw [net_touch_foldl ht.creates_nodup, net_touch_foldl ht.spends_nodup, h.net k, count_concat]
    omega
  · have hle := ht.occurs_le hX k
    rcases hcases k with ⟨e, he, rfl, n, heq⟩ | ⟨hc, ⟨e, -, -, n, heq⟩ | ⟨hs, heq⟩⟩
    · obtain rfl := Option.some.inj (heq.symm.trans hu)
      rw [count_concat, occurs_of_mem ht.creates_nodup (List.mem_map_of_mem he), created_concat]
      exact ⟨by omega, List.mem_append_right _ he⟩
    · obtain rfl := Option.some.inj (heq.symm.trans hu)
      exact absurd hspent (by simp)
    · rw [mem_created_concat hc, count_concat, occurs_of_not_mem hc, occurs_of_not_mem hs]
      simpa using h.live k u (heq.symm.trans hu) hspent
  · rcases hcases k with ⟨e, -, -, n, heq⟩ | ⟨hc, ⟨e, -, -, n, heq⟩ | ⟨hs, heq⟩⟩
    · exact absurd (heq.symm.trans hk) (by simp)
    · exact absurd (heq.symm.trans hk) (by simp)
    · exact (mem_created_concat hc).2 (h.same k v (heq.symm.trans hk) hv)

/-- **One transfer backwards.** -/
theorem Tracks.remove (h : Tracks B (X ++ [t]) o) (ht : Legal X t) (hX : ∀ k, 0 ≤ count (X ++ [t]) k) :
    Tracks B X (o.remove t) := by
  have hcases := touch_cases ht true (-1) 1 o
  refine ⟨fun k => ?_, fun k u hu hspent => ?_, fun k v hk hv => ?_⟩
  · change Overlay.net (t.creates.foldl (touch true (-1)) (t.spends.foldl (touch false 1) o)) k = _
    rw [net_touch_foldl ht.creates_nodup, net_touch_foldl ht.spends_nodup, h.net k, count_concat]
    omega
  · have h0 := hX k
    rw [count_concat] at h0
    rcases hcases k with ⟨e, -, -, n, heq⟩ | ⟨hc, ⟨e, he, rfl, n, heq⟩ | ⟨hs, heq⟩⟩
    · obtain rfl := Option.some.inj (heq.symm.trans hu)
      exact absurd hspent (by simp)
    · obtain rfl := Option.some.inj (heq.symm.trans hu)
      rw [occurs_of_not_mem hc, occurs_of_mem ht.spends_nodup (List.mem_map_of_mem he)] at h0
      exact ⟨by omega, (ht.spent e he).2⟩
    · have hlive := h.live k u (heq.symm.trans hu) hspent
      rw [mem_created_concat hc, count_concat, occurs_of_not_mem hc, occurs_of_not_mem hs] at hlive
      simpa using hlive
  · rcases hcases k with ⟨e, -, -, n, heq⟩ | ⟨hc, ⟨e, -, -, n, heq⟩ | ⟨hs, heq⟩⟩
    · exact absurd (heq.symm.trans hk) (by simp)
    · exact absurd (heq.symm.trans hk) (by simp)
    · exact (mem_created_concat hc).1 (h.same k v (heq.symm.trans hk) hv)

theorem Dead.add (h : Dead X o) (ht : Legal X t) (hu : ∀ k, count X k ≤ 1) : Dead (X ++ [t]) (o.add t) := by
  intro k u hk hspent
  have h1 := hu k
  rw [count_concat]
  rcases touch_cases ht false 1 (-1) o k with ⟨e, -, -, n, heq⟩ | ⟨hc, ⟨e, he, rfl, -⟩ | ⟨hs, heq⟩⟩
  · obtain rfl := Option.some.inj (heq.symm.trans hk)
    exact absurd hspent (by simp)
  · rw [occurs_of_not_mem hc, occurs_of_mem ht.spends_nodup (List.mem_map_of_mem he)]
    omega
  · have := h k u (heq.symm.trans hk) hspent
    rw [occurs_of_not_mem hc, occurs_of_not_mem hs]
    omega

theorem Dead.remove (h : Dead (X ++ [t]) o) (ht : Legal X t) (hu : Unique (X ++ [t])) : Dead X (o.remove t) := by
  intro k u hk hspent
  rcases touch_cases ht true (-1) 1 o k with ⟨e, he, rfl, -⟩ | ⟨hc, ⟨e, -, -, n, heq⟩ | ⟨hs, heq⟩⟩
  · exact hu.count_of_mem (List.mem_map_of_mem he)
  · obtain rfl := Option.some.inj (heq.symm.trans hk)
    exact absurd hspent (by simp)
  · have := h k u (heq.symm.trans hk) hspent
    rw [count_concat, occurs_of_not_mem hc, occurs_of_not_mem hs] at this
    omega

/-! ## Whole branches -/

variable {A R : List (Transfer K V)}

section

variable {Q : List (Transfer K V) → Prop} {P : List (Transfer K V) → Overlay K V → Prop}
  (hleft : ∀ X Y, Q (X ++ Y) → Q X)

include hleft

theorem addAll_rule (hadd : ∀ X t o, Q (X ++ [t]) → P X o → P (X ++ [t]) (o.add t)) (hA : Q (X ++ A)) (h : P X o) :
    P (X ++ A) (A.foldl Overlay.add o) := by
  induction A using List.reverseRecOn with
  | nil => rwa [List.append_nil]
  | append_singleton A t ih =>
    rw [← List.append_assoc] at hA ⊢
    rw [List.foldl_append]
    exact hadd _ _ _ hA (ih (hleft _ _ hA))

theorem removeAll_rule (hremove : ∀ X t o, Q (X ++ [t]) → P (X ++ [t]) o → P X (o.remove t)) (hR : Q (X ++ R))
    (h : P (X ++ R) o) : P X (R.reverse.foldl Overlay.remove o) := by
  induction R using List.reverseRecOn generalizing o with
  | nil => rwa [List.append_nil] at h
  | append_singleton R t ih =>
    rw [← List.append_assoc] at h hR
    rw [List.reverse_concat, List.foldl_cons]
    exact ih (hleft _ _ hR) (hremove _ _ _ hR h)

end

theorem Tracks.addAll (h : Tracks B X o) (hv : Valid (X ++ A)) : Tracks B (X ++ A) (A.foldl Overlay.add o) :=
  addAll_rule (fun _ _ hv => hv.left) (fun _ _ _ hv h => h.add hv.legal hv.left.count_nonneg) hv h

theorem Dead.addAll (h : Dead X o) (hv : Valid (X ++ A)) (hu : Unique (X ++ A)) :
    Dead (X ++ A) (A.foldl Overlay.add o) :=
  addAll_rule (Q := fun X => Valid X ∧ Unique X) (fun _ _ hv => ⟨hv.1.left, hv.2.left⟩)
    (fun _ _ _ hv h => h.add hv.1.legal hv.2.left.count_le) ⟨hv, hu⟩ h

/-- **From one branch to another**: the transfers of the first backwards, those of the second forwards. -/
theorem Tracks.branch (hR : Valid (X ++ R)) (hA : Valid (X ++ A)) :
    Tracks (X ++ R) (X ++ A) (A.foldl Overlay.add (R.reverse.foldl Overlay.remove fun _ => none)) :=
  (removeAll_rule (fun _ _ hv => hv.left) (fun _ _ _ hv h => h.remove hv.legal hv.count_nonneg) hR
    (Tracks.refl (X ++ R))).addAll hA

theorem Dead.branch (hR : Valid (X ++ R)) (hA : Valid (X ++ A)) (huR : Unique (X ++ R)) (huA : Unique (X ++ A)) :
    Dead (X ++ A) (A.foldl Overlay.add (R.reverse.foldl Overlay.remove fun _ => none)) :=
  (removeAll_rule (Q := fun X => Valid X ∧ Unique X) (fun _ _ hv => ⟨hv.1.left, hv.2.left⟩)
    (fun _ _ _ hv h => h.remove hv.1.legal hv.2) ⟨hR, huR⟩ (Dead.refl (X ++ R))).addAll hA huA

/-! ## Reading and writing -/

variable {m : K → Option V}

theorem Tracks.count_eq (h : Tracks B X o) {k : K} (hk : o.net k = 0) : count X k = count B k := by
  have := h.net k
  omega

theorem Tracks.read_backed (h : Tracks B X o) (hm : Backed B m) : Backed X (o.read m) := by
  intro k v hv
  unfold read at hv
  cases ho : o k with
  | none =>
    simp only [ho] at hv
    obtain ⟨hpos, hmem⟩ := hm k v hv
    rw [h.count_eq (by rw [Overlay.net, ho]; rfl)]
    exact ⟨hpos, h.same k v ho hmem⟩
  | some u =>
    simp only [ho] at hv
    split_ifs at hv with hspent
    obtain rfl := Option.some.inj hv
    exact h.live k u ho (by simpa using hspent)

theorem Tracks.write_backed (h : Tracks B X o) (hm : Backed B m) (hag : Agree B X) : Backed X (o.write m) := by
  intro k v hv
  by_cases hnet : o.net k = 0
  · have hv' : m k = some v := by
      unfold write at hv
      cases ho : o k with
      | none => simpa only [ho] using hv
      | some u =>
        have : u.net = 0 := by rwa [Overlay.net, ho] at hnet
        simpa only [ho, if_pos this] using hv
    obtain ⟨hpos, hmem⟩ := hm k v hv'
    rw [← h.count_eq hnet] at hpos
    obtain ⟨v', hmem'⟩ := exists_created k hpos
    rw [hag _ hmem _ hmem' rfl]
    exact ⟨hpos, hmem'⟩
  · refine h.read_backed hm k v ?_
    unfold write at hv
    unfold read
    cases ho : o k with
    | none => simpa only [ho] using hv
    | some u =>
      have : u.net ≠ 0 := by rwa [Overlay.net, ho] at hnet
      simpa only [ho, if_neg this] using hv

theorem Tracks.read_exact (h : Tracks B X o) (hd : Dead X o) (hu : Unique X) (hm : Exact B m) : Exact X (o.read m) := by
  intro k v
  refine ⟨h.read_backed hm.backed k v, fun ⟨hpos, hmem⟩ => ?_⟩
  unfold read
  cases ho : o k with
  | none =>
    have hcount := h.count_eq (show o.net k = 0 by rw [Overlay.net, ho]; rfl)
    obtain ⟨v', hmem'⟩ := exists_created k (hcount ▸ hpos)
    have heq := hu.agree _ (h.same k v' ho hmem') _ hmem rfl
    obtain rfl : v' = v := congrArg Prod.snd heq
    exact (hm k v').2 ⟨hcount ▸ hpos, hmem'⟩
  | some u =>
    simp only
    by_cases hspent : u.spent = true
    · have := hd k u ho hspent
      omega
    · have heq := hu.agree _ (h.live k u ho (by simpa using hspent)).2 _ hmem rfl
      rw [if_neg hspent]
      exact congrArg some (congrArg Prod.snd heq)

theorem Tracks.write_exact (h : Tracks B X o) (hd : Dead X o) (hu : Unique X) (hag : Agree B X)
    (hm : Exact B m) : Exact X (o.write m) := by
  intro k v
  refine ⟨h.write_backed hm.backed hag k v, fun ⟨hpos, hmem⟩ => ?_⟩
  by_cases hnet : o.net k = 0
  · rw [h.count_eq hnet] at hpos
    obtain ⟨v', hmem'⟩ := exists_created k hpos
    have heq := hag _ hmem' _ hmem rfl
    have hv : m k = some v := (hm k v).2 ⟨hpos, heq ▸ hmem'⟩
    unfold write
    cases ho : o k with
    | none => exact hv
    | some u => exact (if_pos (by rwa [Overlay.net, ho] at hnet)).trans hv
  · rw [← (h.read_exact hd hu hm k v).2 ⟨hpos, hmem⟩]
    unfold write read
    cases ho : o k with
    | none => rfl
    | some u => exact if_neg (by rwa [Overlay.net, ho] at hnet)

end

end Overlay

/-! ## One value for each key -/

namespace Ledger

variable {K V : Type*} [DecidableEq K] {X Y : List (Transfer K V)}

omit [DecidableEq K] in
theorem eq_of_keys {l l' : List (K × V)} (hkeys : l.map Prod.fst = l'.map Prod.fst)
    (h : ∀ e ∈ l, ∀ e' ∈ l', e.1 = e'.1 → e = e') : l = l' := by
  induction l generalizing l' with
  | nil => exact (List.map_eq_nil_iff.1 hkeys.symm).symm
  | cons e l ih =>
    cases l' with
    | nil => simp at hkeys
    | cons e' l' =>
      rw [List.map_cons, List.map_cons, List.cons.injEq] at hkeys
      rw [h e List.mem_cons_self e' List.mem_cons_self hkeys.1]
      congr 1
      exact ih hkeys.2 fun a ha b hb => h a (List.mem_cons_of_mem _ ha) b (List.mem_cons_of_mem _ hb)

/-- A key determines the keys that its transfer spends, and with their values all that it creates. -/
def Determined (t u : Transfer K V) : Prop :=
  ∀ k ∈ t.creates.map Prod.fst, k ∈ u.creates.map Prod.fst →
    t.spends.map Prod.fst = u.spends.map Prod.fst ∧ (t.spends = u.spends → t.creates = u.creates)

/-- **No key has two values**, in histories whose transfers are determined by their keys. -/
theorem agree (hX : Valid X) (hY : Valid Y) (hdet : ∀ t ∈ X, ∀ u ∈ Y, Determined t u) : Agree X Y := by
  -- along the first history: what a transfer spends was created before it
  have main : ∀ A C, X = A ++ C → ∀ e ∈ created A, ∀ e' ∈ created Y, e.1 = e'.1 → e = e' := by
    intro A
    induction A using List.reverseRecOn with
    | nil => exact fun C _ e he => by simp [created] at he
    | append_singleton A t ih =>
      intro C heq e he e' he' hkey
      rw [List.append_assoc] at heq
      rw [created_concat, List.mem_append] at he
      rcases he with he | he
      · exact ih ([t] ++ C) heq e he e' he' hkey
      obtain ⟨u, hu, heu⟩ := List.mem_flatMap.1 he'
      obtain ⟨Y1, Y2, hYeq⟩ := List.append_of_mem hu
      have ht : Legal A t := hX A t C heq
      have hlu : Legal Y1 u := hY Y1 u Y2 hYeq
      obtain ⟨hkeys, hcreates⟩ := hdet t (by rw [heq]; simp) u hu e.1 (List.mem_map_of_mem he)
        (hkey ▸ List.mem_map_of_mem heu)
      have hspends : t.spends = u.spends := by
        refine eq_of_keys hkeys fun a ha b hb hab => ?_
        refine ih ([t] ++ C) heq a (ht.spent a ha).2 b ?_ hab
        rw [hYeq, created_append]
        exact List.mem_append_left _ (hlu.spent b hb).2
      rw [← hcreates hspends] at heu
      exact List.inj_on_of_nodup_map ht.creates_nodup he heu hkey
  exact main X [] (List.append_nil X).symm

/-! ## Totals -/

/-- What a history created, less what it spent. -/
def net (w : V → ℤ) (X : List (Transfer K V)) : ℤ :=
  (X.map fun t => (t.creates.map fun e => w e.2).sum - (t.spends.map fun e => w e.2).sum).sum

variable {w : V → ℤ} {W : K → ℤ} {m : K → Option V}

omit [DecidableEq K] in
theorem net_append (w : V → ℤ) (X Y : List (Transfer K V)) : net w (X ++ Y) = net w X + net w Y := by
  unfold net
  rw [List.map_append, List.sum_append]

theorem sum_occurs {S : Finset K} {l : List (K × V)} (hS : ∀ e ∈ l, e.1 ∈ S) (hW : ∀ e ∈ l, w e.2 = W e.1) :
    ∑ k ∈ S, occurs l k * W k = (l.map fun e => w e.2).sum := by
  induction l with
  | nil => simp [occurs]
  | cons e l ih =>
    have hterm : ∀ k ∈ S, occurs (e :: l) k * W k = (if e.1 = k then W k else 0) + occurs l k * W k := by
      intro k _
      unfold occurs
      rw [List.map_cons, List.count_cons]
      by_cases hk : e.1 = k
      · simp only [hk, beq_self_eq_true, if_true]
        push_cast
        ring
      · simp [hk]
    rw [Finset.sum_congr rfl hterm, Finset.sum_add_distrib, Finset.sum_ite_eq, if_pos (hS e List.mem_cons_self),
      ih (fun a ha => hS a (List.mem_cons_of_mem _ ha)) (fun a ha => hW a (List.mem_cons_of_mem _ ha)),
      List.map_cons, List.sum_cons, hW e List.mem_cons_self]

theorem sum_count (hX : Valid X) (hW : ∀ e ∈ created X, w e.2 = W e.1) {S : Finset K}
    (hS : ∀ e ∈ created X, e.1 ∈ S) : ∑ k ∈ S, count X k * W k = net w X := by
  induction X using List.reverseRecOn with
  | nil => simp [net]
  | append_singleton X t ih =>
    have hleft : ∀ e ∈ created X, e ∈ created (X ++ [t]) := fun e he => by
      rw [created_append]
      exact List.mem_append_left _ he
    have hright : ∀ e ∈ t.creates, e ∈ created (X ++ [t]) := fun e he => by
      rw [created_concat]
      exact List.mem_append_right _ he
    have hspent : ∀ e ∈ t.spends, e ∈ created (X ++ [t]) := fun e he => hleft e (hX.legal.spent e he).2
    have hterm : ∀ k ∈ S, count (X ++ [t]) k * W k =
        count X k * W k + (occurs t.creates k * W k - occurs t.spends k * W k) := by
      intro k _
      rw [count_concat]
      ring
    rw [Finset.sum_congr rfl hterm, Finset.sum_add_distrib, Finset.sum_sub_distrib,
      ih hX.left (fun e he => hW e (hleft e he)) (fun e he => hS e (hleft e he)),
      sum_occurs (fun e he => hS e (hright e he)) (fun e he => hW e (hright e he)),
      sum_occurs (fun e he => hS e (hspent e he)) (fun e he => hW e (hspent e he)), net_append]
    simp [net]

def weight (w : V → ℤ) (X : List (Transfer K V)) (k : K) : ℤ :=
  ((created X).find? fun e => e.1 = k).elim 0 fun e => w e.2

theorem weight_of_mem (hag : Agree X X) {e : K × V} (he : e ∈ created X) : w e.2 = weight w X e.1 := by
  unfold weight
  cases hf : (created X).find? fun a => a.1 = e.1 with
  | none =>
    have := List.find?_eq_none.1 hf e he
    simp at this
  | some a =>
    have hkey : a.1 = e.1 := by simpa using List.find?_some hf
    rw [hag a (List.mem_of_find?_eq_some hf) e he hkey]
    rfl

/-- **No more is in a ledger than was created on balance.** -/
theorem sum_le_net (hX : Valid X) (hag : Agree X X) (hm : Backed X m)
    (hw : ∀ e ∈ created X, 0 ≤ w e.2) (S : Finset K) : ∑ k ∈ S, (m k).elim 0 w ≤ net w X := by
  have hpos : ∀ k, 0 ≤ weight w X k := by
    intro k
    unfold weight
    cases hf : (created X).find? fun e => e.1 = k with
    | none => exact le_rfl
    | some e => exact hw e (List.mem_of_find?_eq_some hf)
  have hterm : ∀ k, 0 ≤ (m k).elim 0 w ∧ (m k).elim 0 w ≤ count X k * weight w X k := by
    intro k
    cases hk : m k with
    | none => exact ⟨le_rfl, mul_nonneg (hX.count_nonneg k) (hpos k)⟩
    | some v =>
      obtain ⟨h1, hmem⟩ := hm k v hk
      have hv := weight_of_mem (w := w) hag hmem
      have h0 := hpos k
      simp only [Option.elim_some] at hv ⊢
      rw [hv]
      exact ⟨h0, le_mul_of_one_le_left h0 h1⟩
  rw [← sum_count hX (fun e he => weight_of_mem hag he) (S := S ∪ ((created X).map Prod.fst).toFinset)
    (fun e he => Finset.mem_union_right _ (List.mem_toFinset.2 (List.mem_map_of_mem he)))]
  calc ∑ k ∈ S, (m k).elim 0 w
      ≤ ∑ k ∈ S ∪ ((created X).map Prod.fst).toFinset, (m k).elim 0 w :=
        Finset.sum_le_sum_of_subset_of_nonneg Finset.subset_union_left fun k _ _ => (hterm k).1
    _ ≤ _ := Finset.sum_le_sum fun k _ => (hterm k).2

theorem sum_eq_net (hX : Valid X) (hu : Unique X) (hm : Exact X m) {S : Finset K}
    (hS : ∀ e ∈ created X, e.1 ∈ S) : ∑ k ∈ S, (m k).elim 0 w = net w X := by
  rw [← sum_count hX (fun e he => weight_of_mem hu.agree he) hS]
  refine Finset.sum_congr rfl fun k _ => ?_
  have h0 := hX.count_nonneg k
  cases hk : m k with
  | none =>
    have hzero : count X k = 0 := by
      by_contra hne
      obtain ⟨v, hv⟩ := exists_created k (show 1 ≤ count X k by omega)
      rw [(hm k v).2 ⟨by omega, hv⟩] at hk
      cases hk
    rw [hzero, zero_mul]
    rfl
  | some v =>
    obtain ⟨h1, hmem⟩ := (hm k v).1 hk
    rw [show count X k = 1 from le_antisymm (hu.count_le k) h1, one_mul, Option.elim_some]
    exact weight_of_mem hu.agree hmem

theorem Legal.spends_le {t : Transfer K V} (ht : Legal X t) (hX : Valid X) (hag : Agree X X)
    (hw : ∀ e ∈ created X, 0 ≤ w e.2) : (t.spends.map fun e => w e.2).sum ≤ net w X := by
  have hget : ∀ e ∈ t.spends, insertAll (fun _ => none) t.spends e.1 = some e.2 := fun e he =>
    insertAll_of_mem _ ht.spends_nodup he
  have hbacked : Backed X (insertAll (fun _ => none) t.spends) := by
    intro k v hk
    by_cases hmem : k ∈ t.spends.map Prod.fst
    · obtain ⟨e, he, rfl⟩ := List.mem_map.1 hmem
      rw [hget e he] at hk
      obtain rfl := Option.some.inj hk
      exact ht.spent e he
    · rw [insertAll_of_not_mem _ hmem] at hk
      cases hk
  have hsum := sum_le_net hX hag hbacked hw (t.spends.map Prod.fst).toFinset
  rw [List.sum_toFinset _ ht.spends_nodup, List.map_map] at hsum
  refine (le_of_eq (congrArg List.sum (List.map_congr_left fun e he => ?_))).trans hsum
  show w e.2 = ((insertAll (fun _ => none) t.spends) e.1).elim 0 w
  rw [hget e he]
  rfl

end Ledger
