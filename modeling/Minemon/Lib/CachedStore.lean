import Minemon.Lib.OrdMap

/-!
# A store behind two bounded caches

A key-value store that keeps some of its entries in memory: the keys are of two classes, each with a
cache of its own, and a cache that is full drops its least keys. Programs on the store are state
transformers; a program that only reads gives the answer of the store, whatever the caches hold.

* `Reads`: a program that reads, with its answer; the rules for sequences and for branches.
-/

section

variable {K V : Type*} [LinearOrder K]

/-- Drop the least keys until there is room for one more. -/
def OrdMap.evict (max : ℕ) (m : OrdMap K V) : OrdMap K V :=
  (m.keys.take (m.size - (max - 1))).foldl OrdMap.erase m

def OrdMap.putBounded (max : ℕ) (m : OrdMap K V) (k : K) (v : V) : OrdMap K V :=
  if (m.find? k).isSome then m else (m.evict max).insert k v

theorem OrdMap.find?_evict {max : ℕ} {m : OrdMap K V} {k : K} {v : V} (h : (m.evict max).find? k = some v) :
    m.find? k = some v := by
  unfold OrdMap.evict at h
  rw [OrdMap.find?_foldl_erase] at h
  split_ifs at h
  exact h

theorem OrdMap.find?_putBounded {max : ℕ} {m : OrdMap K V} {j k : K} {v w : V}
    (h : (m.putBounded max k v).find? j = some w) : m.find? j = some w ∨ j = k ∧ w = v := by
  unfold OrdMap.putBounded at h
  split_ifs at h
  · exact Or.inl h
  · rw [OrdMap.find?_insert] at h
    split_ifs at h with hj
    · exact Or.inr ⟨hj, (Option.some.inj h).symm⟩
    · exact Or.inl (OrdMap.find?_evict h)

theorem OrdMap.find?_putBounded_self {max : ℕ} {m : OrdMap K V} {k : K} (hm : m.find? k = none) (v : V) :
    (m.putBounded max k v).find? k = some v := by
  unfold OrdMap.putBounded
  rw [hm, if_neg (by simp), OrdMap.find?_insert, if_pos rfl]

end

/-- The entries, and the two caches; with `fCache` off they are not used. -/
structure CachedStore (K V : Type) [LinearOrder K] where
  fCache : Bool
  db : K → Option V := fun _ => none
  cacheFull : OrdMap K V := OrdMap.empty
  cacheInc : OrdMap K V := OrdMap.empty

namespace CachedStore

variable {K V : Type} [LinearOrder K]

section

variable (isFull : K → Bool) (maxFull maxInc : ℕ)

def cacheOf (s : CachedStore K V) (k : K) : OrdMap K V := if isFull k then s.cacheFull else s.cacheInc

def addCache (s : CachedStore K V) (k : K) (v : V) : CachedStore K V :=
  if s.fCache then
    if isFull k then { s with cacheFull := s.cacheFull.putBounded maxFull k v }
    else { s with cacheInc := s.cacheInc.putBounded maxInc k v }
  else s

/-- The entry in the cache; an entry that is not there is read into it first. -/
def getCache (k : K) : StateM (CachedStore K V) (Option V) := fun s =>
  if s.fCache then
    match (s.cacheOf isFull k).find? k with
    | some v => (some v, s)
    | none =>
      match s.db k with
      | none => (none, s)
      | some v => (((s.addCache isFull maxFull maxInc k v).cacheOf isFull k).find? k,
          s.addCache isFull maxFull maxInc k v)
  else (none, s)

def read (k : K) : StateM (CachedStore K V) (Option V) := fun s => (s.db k, s)

/-- One program where the caches are used, another where they are not. -/
def ifCache {α : Type} (x y : OptionT (StateM (CachedStore K V)) α) :
    OptionT (StateM (CachedStore K V)) α := fun s => if s.fCache then x s else y s

def add (k : K) (v : V) : StateM (CachedStore K V) Unit := fun s =>
  ((), ({ s with db := Function.update s.db k (some v) }).addCache isFull maxFull maxInc k v)

end

/-- Every entry of a cache is that of the store. -/
structure Coherent (s : CachedStore K V) : Prop where
  full : ∀ k v, s.cacheFull.find? k = some v → s.db k = some v
  inc : ∀ k v, s.cacheInc.find? k = some v → s.db k = some v

/-- The caches may differ, the entries do not. -/
structure Same (s s' : CachedStore K V) : Prop where
  fCache : s'.fCache = s.fCache
  db : s'.db = s.db
  coherent : Coherent s'

/-- The program changes no entry, and its answer depends on the entries alone. -/
def Reads {α : Type} (x : StateM (CachedStore K V) α) (f : Bool → (K → Option V) → α) : Prop :=
  ∀ s, Coherent s → (x s).1 = f s.fCache s.db ∧ Same s (x s).2

section

variable {isFull : K → Bool} {maxFull maxInc : ℕ} {s : CachedStore K V}

theorem Coherent.new (fCache : Bool) : Coherent ({ fCache := fCache } : CachedStore K V) :=
  ⟨fun k v h => by simp at h, fun k v h => by simp at h⟩

theorem Coherent.addCache (h : Coherent s) {k : K} {v : V} (hk : s.db k = some v) :
    Coherent (s.addCache isFull maxFull maxInc k v) := by
  have hput : ∀ {max : ℕ} {m : OrdMap K V}, (∀ j w, m.find? j = some w → s.db j = some w) →
      ∀ j w, (m.putBounded max k v).find? j = some w → s.db j = some w := by
    intro max m hm j w hj
    rcases OrdMap.find?_putBounded hj with hold | ⟨rfl, rfl⟩
    · exact hm j w hold
    · exact hk
  unfold CachedStore.addCache
  split_ifs
  · exact ⟨hput h.full, h.inc⟩
  · exact ⟨h.full, hput h.inc⟩
  · exact h

@[simp] theorem addCache_db (s : CachedStore K V) (k : K) (v : V) :
    (s.addCache isFull maxFull maxInc k v).db = s.db := by
  unfold CachedStore.addCache
  split_ifs <;> rfl

@[simp] theorem addCache_fCache (s : CachedStore K V) (k : K) (v : V) :
    (s.addCache isFull maxFull maxInc k v).fCache = s.fCache := by
  unfold CachedStore.addCache
  split_ifs <;> rfl

theorem Coherent.cacheOf (h : Coherent s) {k : K} {v : V} (hk : (s.cacheOf isFull k).find? k = some v) :
    s.db k = some v := by
  unfold CachedStore.cacheOf at hk
  split_ifs at hk
  · exact h.full k v hk
  · exact h.inc k v hk

theorem find?_cacheOf_addCache (hc : s.fCache = true) {k : K} (hk : (s.cacheOf isFull k).find? k = none) (v : V) :
    ((s.addCache isFull maxFull maxInc k v).cacheOf isFull k).find? k = some v := by
  unfold CachedStore.addCache CachedStore.cacheOf at *
  rw [if_pos hc]
  by_cases hf : isFull k = true
  · rw [if_pos hf] at hk ⊢
    rw [if_pos hf]
    exact OrdMap.find?_putBounded_self hk v
  · rw [if_neg hf] at hk ⊢
    rw [if_neg hf]
    exact OrdMap.find?_putBounded_self hk v

/-! ## Programs that read -/

variable {α β : Type}

theorem Reads.pure (a : α) : Reads (pure a : StateM (CachedStore K V) α) fun _ _ => a :=
  fun _ h => ⟨rfl, rfl, rfl, h⟩

theorem Reads.bind {x : StateM (CachedStore K V) α} {g : α → StateM (CachedStore K V) β}
    {f : Bool → (K → Option V) → α} {r : α → Bool → (K → Option V) → β} (hx : Reads x f)
    (hg : ∀ a, Reads (g a) (r a)) : Reads (x >>= g) fun c db => r (f c db) c db := by
  intro s h
  obtain ⟨h1, hs⟩ := hx s h
  obtain ⟨h2, hs'⟩ := hg (x s).1 (x s).2 hs.coherent
  refine ⟨?_, hs'.fCache.trans hs.fCache, hs'.db.trans hs.db, hs'.coherent⟩
  show ((g (x s).1) (x s).2).1 = _
  rw [h2, h1, hs.fCache, hs.db]

theorem Reads.congr {x : StateM (CachedStore K V) α} {f f' : Bool → (K → Option V) → α} (hx : Reads x f)
    (h : ∀ c db, f c db = f' c db) : Reads x f' := by
  have : f = f' := by
    funext c db
    exact h c db
  exact this ▸ hx

theorem Reads.read (k : K) : Reads (CachedStore.read k : StateM (CachedStore K V) (Option V)) fun _ db => db k :=
  fun _ h => ⟨rfl, rfl, rfl, h⟩

/-- **The cache answers as the store.** -/
theorem Reads.getCache (isFull : K → Bool) (maxFull maxInc : ℕ) (k : K) :
    Reads (CachedStore.getCache isFull maxFull maxInc k : StateM (CachedStore K V) (Option V))
      fun c db => if c then db k else none := by
  intro s h
  unfold CachedStore.getCache
  by_cases hc : s.fCache = true
  · simp only [hc, if_true]
    cases hfind : (s.cacheOf isFull k).find? k with
    | some v => exact ⟨(h.cacheOf hfind).symm, rfl, rfl, h⟩
    | none =>
      cases hdb : s.db k with
      | none => exact ⟨rfl, rfl, rfl, h⟩
      | some v => exact ⟨find?_cacheOf_addCache hc hfind v, addCache_fCache s k v, addCache_db s k v, h.addCache hdb⟩
  · rw [if_neg hc]
    exact ⟨(if_neg hc).symm, rfl, rfl, h⟩

theorem Reads.run_pure (a : α) : Reads (Pure.pure a : OptionT (StateM (CachedStore K V)) α).run fun _ _ => some a :=
  Reads.pure (some a)

theorem Reads.run_bind {x : OptionT (StateM (CachedStore K V)) α} {g : α → OptionT (StateM (CachedStore K V)) β}
    {f : Bool → (K → Option V) → Option α} {r : α → Bool → (K → Option V) → Option β} (hx : Reads x.run f)
    (hg : ∀ a, Reads (g a).run (r a)) : Reads (x >>= g).run fun c db => (f c db).bind fun a => r a c db := by
  rw [OptionT.run_bind]
  refine (Reads.bind (r := fun o c db => o.bind fun a => r a c db) hx fun o => ?_).congr fun _ _ => rfl
  cases o with
  | none => exact Reads.pure none
  | some a => exact hg a

theorem Reads.run_ifCache {x y : OptionT (StateM (CachedStore K V)) α} {f f' : Bool → (K → Option V) → Option α}
    (hx : Reads x.run f) (hy : Reads y.run f') :
    Reads (CachedStore.ifCache x y).run fun c db => if c then f c db else f' c db := by
  intro s h
  have hrun : (CachedStore.ifCache x y).run s = if s.fCache then x.run s else y.run s := rfl
  by_cases hc : s.fCache = true
  · simp only [hrun, if_pos hc]
    exact hx s h
  · simp only [hrun, if_neg hc]
    exact hy s h

/-! ## Writing and dropping -/

structure Added (s s' : CachedStore K V) (k : K) (v : V) : Prop where
  fCache : s'.fCache = s.fCache
  db : s'.db = Function.update s.db k (some v)
  coherent : Coherent s'

theorem Coherent.added (h : Coherent s) (isFull : K → Bool) (maxFull maxInc : ℕ) {k : K} (hk : s.db k = none) (v : V) :
    Added s (CachedStore.add isFull maxFull maxInc k v s).2 k v := by
  have hupd : ∀ j w, s.db j = some w → Function.update s.db k (some v) j = some w := by
    intro j w hj
    have hne : j ≠ k := by
      rintro rfl
      rw [hk] at hj
      simp at hj
    rw [Function.update_of_ne hne]
    exact hj
  refine ⟨addCache_fCache _ k v, addCache_db _ k v, Coherent.addCache ⟨?_, ?_⟩ (Function.update_self _ _ _)⟩
  · exact fun j w hj => hupd j w (h.full j w hj)
  · exact fun j w hj => hupd j w (h.inc j w hj)

/-- **An entry computed by a program that reads, then written.** -/
theorem run_add {x : OptionT (StateM (CachedStore K V)) V} {f : Bool → (K → Option V) → Option V}
    (hx : Reads x.run f) (hs : Coherent s) {v : V} (hv : f s.fCache s.db = some v) {k : K} (hk : s.db k = none) :
    ((x >>= fun v => OptionT.lift (CachedStore.add isFull maxFull maxInc k v)).run s).1 = some () ∧
      Added s ((x >>= fun v => OptionT.lift (CachedStore.add isFull maxFull maxInc k v)).run s).2 k v := by
  obtain ⟨hget, hsame⟩ := hx s hs
  have hk' : (x.run s).2.db k = none := by
    rw [hsame.db]
    exact hk
  have hadd := hsame.coherent.added isFull maxFull maxInc hk' v
  have hrun : (x >>= fun v => OptionT.lift (CachedStore.add isFull maxFull maxInc k v)).run s =
      (some (), (CachedStore.add isFull maxFull maxInc k v (x.run s).2).2) := by
    rw [OptionT.run_bind]
    show (fun o : Option V => (o.elim (Pure.pure none) fun v =>
      (OptionT.lift (CachedStore.add isFull maxFull maxInc k v)).run : StateM _ _) (x.run s).2) (x.run s).1 = _
    rw [hget, hv]
    rfl
  rw [hrun]
  refine ⟨rfl, hadd.fCache.trans hsame.fCache, hadd.db.trans ?_, hadd.coherent⟩
  rw [hsame.db]

structure Evicted (s s' : CachedStore K V) : Prop where
  fCache : s'.fCache = s.fCache
  db : s'.db = s.db
  full : ∀ k v, s'.cacheFull.find? k = some v → s.cacheFull.find? k = some v
  inc : ∀ k v, s'.cacheInc.find? k = some v → s.cacheInc.find? k = some v

theorem Evicted.same {s' : CachedStore K V} (h : Evicted s s') (hs : Coherent s) : Same s s' := by
  refine ⟨h.fCache, h.db, ?_, ?_⟩
  · intro k v hk
    rw [h.db]
    exact hs.full k v (h.full k v hk)
  · intro k v hk
    rw [h.db]
    exact hs.inc k v (h.inc k v hk)

end

end CachedStore
