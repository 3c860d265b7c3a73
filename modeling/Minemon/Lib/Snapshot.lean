import Minemon.Lib.CachedStore

/-!
# Snapshots and increments on a tree

A value for each node of a tree, kept in two forms: some nodes hold the whole of it, the others hold what
changed since the last such node on their path. The value at a node is the fold of the changes along the
path from the root.

* `Snapshot.Holds`, `Snapshot.Exact`: the contexts hold the fold, at one node and on the whole tree.
* `Snapshot.StoredExact`: the same for contexts kept behind caches.
-/

namespace Snapshot

variable {H C M D O : Type*}

/-- The parent and the change of each node; the parent of the root is `null`. -/
abbrev Tree (H D : Type*) := H → Option (H × D)

/-- The nodes from the root to `h`, with their changes. -/
inductive Path (T : Tree H D) (null : H) : H → List (H × D) → Prop
  | root {h : H} {d : D} (hT : T h = some (null, d)) : Path T null h [(h, d)]
  | step {h p : H} {d : D} {l : List (H × D)} (hT : T h = some (p, d)) (hp : Path T null p l) :
      Path T null h (l ++ [(h, d)])

/-- Reading contexts, with the reference of an increment, `null` for a snapshot; what is observed of a map, and what a
change does to it at a node that has a snapshot and at one that has not. -/
structure Scheme (H C M D O : Type*) where
  null : H
  isFull : H → Bool
  ref : C → H
  map : C → M
  view : M → M → M
  obs : M → O
  init : O
  step : Bool → O → H × D → O

variable (S : Scheme H C M D O)

def Scheme.fold (l : List (H × D)) : O := l.foldl (fun o e => S.step (S.isFull e.1) o e) S.init

/-- The context at the node gives the value `o`. -/
def Holds (T : Tree H D) (db : H → Option C) (h : H) (o : O) : Prop :=
  ∃ c, db h = some c ∧
    if S.isFull h then S.ref c = S.null ∧ S.obs (S.map c) = o
    else S.ref c ≠ S.null ∧ S.isFull (S.ref c) = true ∧ T (S.ref c) ≠ none ∧
      ∃ r, db (S.ref c) = some r ∧ S.ref r = S.null ∧ S.obs (S.view (S.map r) (S.map c)) = o

/-- Every node has a path, and its context gives the fold along it. -/
structure Exact (T : Tree H D) (db : H → Option C) : Prop where
  path : ∀ h, T h ≠ none → ∃ l, Path T S.null h l
  null : T S.null = none
  holds : ∀ h l, Path T S.null h l → Holds S T db h (S.fold l)

section

variable {S} {T : Tree H D} {null h : H} {l : List (H × D)} {db : H → Option C} {o : O} {c : C}

theorem Scheme.fold_concat (l : List (H × D)) (e : H × D) : S.fold (l ++ [e]) = S.step (S.isFull e.1) (S.fold l) e := by
  unfold Scheme.fold
  rw [List.foldl_append]
  rfl

theorem Path.mem (hl : Path T null h l) : T h ≠ none := by
  cases hl with
  | root hT => simp [hT]
  | step hT _ => simp [hT]

theorem Path.unique {l' : List (H × D)} (hn : T null = none) (hl : Path T null h l)
    (hl' : Path T null h l') : l = l' := by
  induction hl generalizing l' with
  | root hT =>
    cases hl' with
    | root hT' =>
      rw [hT] at hT'
      rw [(Prod.mk.inj (Option.some.inj hT')).2]
    | step hT' hp =>
      rw [hT] at hT'
      rw [← (Prod.mk.inj (Option.some.inj hT')).1] at hp
      exact absurd hn hp.mem
  | step hT hp ih =>
    cases hl' with
    | root hT' =>
      rw [hT] at hT'
      rw [(Prod.mk.inj (Option.some.inj hT')).1] at hp
      exact absurd hn hp.mem
    | step hT' hp' =>
      rw [hT] at hT'
      obtain ⟨rfl, rfl⟩ := Prod.mk.inj (Option.some.inj hT')
      rw [ih hp']

section

variable [DecidableEq H] {hash prev : H} {d : D}

theorem Path.of_update (hclosed : ∀ h p d', T h = some (p, d') → p = null ∨ T p ≠ none) (hh : h ≠ hash)
    (fresh : T hash = none)
    (hne : hash ≠ null) (hl : Path (Function.update T hash (some (prev, d))) null h l) : Path T null h l := by
  induction hl with
  | root hT =>
    rw [Function.update_of_ne hh] at hT
    exact .root hT
  | @step h p d' l hT hp ih =>
    rw [Function.update_of_ne hh] at hT
    refine .step hT (ih ?_)
    rintro rfl
    rcases hclosed h p d' hT with heq | hin
    · exact hne heq
    · exact hin fresh

theorem Path.update (fresh : T hash = none) (hl : Path T null h l) :
    Path (Function.update T hash (some (prev, d))) null h l := by
  have hkeep : ∀ {h : H}, T h ≠ none → Function.update T hash (some (prev, d)) h = T h := by
    intro h hh
    refine Function.update_of_ne ?_ _ _
    rintro rfl
    exact hh fresh
  induction hl with
  | root hT => exact .root ((hkeep (by simp [hT])).trans hT)
  | step hT _ ih => exact .step ((hkeep (by simp [hT])).trans hT) ih

theorem Holds.update (hh : h ≠ hash) (fresh : T hash = none)
    (hold : Holds S T db h o) :
    Holds S (Function.update T hash (some (prev, d))) (Function.update db hash (some c)) h o := by
  obtain ⟨c', hc', hform⟩ := hold
  refine ⟨c', by rw [Function.update_of_ne hh]; exact hc', ?_⟩
  split_ifs at hform ⊢ with hf
  · exact hform
  · obtain ⟨hne, hfull, hin, r, hr, hform⟩ := hform
    have href : S.ref c' ≠ hash := by
      intro heq
      rw [heq] at hin
      exact hin fresh
    exact ⟨hne, hfull, by rwa [Function.update_of_ne href], r, by rwa [Function.update_of_ne href], hform⟩

section

variable (T prev d)

theorem Holds.snapshot (hf : S.isFull hash = true) (href : S.ref c = S.null) (hobs : S.obs (S.map c) = o) :
    Holds S (Function.update T hash (some (prev, d))) (Function.update db hash (some c)) hash o :=
  ⟨c, Function.update_self _ _ _, by rw [if_pos hf]; exact ⟨href, hobs⟩⟩

theorem Holds.increment {r : C} (hf : S.isFull hash = false) (fresh : T hash = none) (href : S.ref c ≠ S.null)
    (hfull : S.isFull (S.ref c) = true) (hin : T (S.ref c) ≠ none) (hr : db (S.ref c) = some r)
    (hrref : S.ref r = S.null) (hobs : S.obs (S.view (S.map r) (S.map c)) = o) :
    Holds S (Function.update T hash (some (prev, d))) (Function.update db hash (some c)) hash o := by
  have hne : S.ref c ≠ hash := fun heq => hin (heq ▸ fresh)
  refine ⟨c, Function.update_self _ _ _, ?_⟩
  rw [hf, if_neg Bool.false_ne_true, Function.update_of_ne hne, Function.update_of_ne hne]
  exact ⟨href, hfull, hin, r, hr, hrref, hobs⟩

end

omit [DecidableEq H] in
theorem Exact.closed (h : Exact S T db) {x p : H} {d' : D} (hx : T x = some (p, d')) : p = S.null ∨ T p ≠ none := by
  obtain ⟨l, hl⟩ := h.path x (by simp [hx])
  cases hl with
  | root hT =>
    rw [hx] at hT
    exact Or.inl (Prod.mk.inj (Option.some.inj hT)).1
  | step hT hp =>
    rw [hx] at hT
    rw [(Prod.mk.inj (Option.some.inj hT)).1]
    exact Or.inr hp.mem

omit [DecidableEq H] in
theorem Exact.congr {db' : H → Option C} (h : Exact S T db) (hdb : ∀ x, T x ≠ none → db' x = db x) : Exact S T db' := by
  refine ⟨h.path, h.null, fun x l hl => ?_⟩
  obtain ⟨c, hc, hform⟩ := h.holds x l hl
  refine ⟨c, (hdb x hl.mem).trans hc, ?_⟩
  split_ifs at hform ⊢ with hf
  · exact hform
  · obtain ⟨hne, hfull, hin, r, hr, hform⟩ := hform
    exact ⟨hne, hfull, hin, r, (hdb _ hin).trans hr, hform⟩

/-- **One node more**: its context gives one step more than that of its parent. -/
theorem Exact.add (h : Exact S T db) (fresh : T hash = none) (hne : hash ≠ S.null)
    (hprev : prev = S.null ∨ T prev ≠ none)
    (hnew : ∀ l, prev = S.null ∧ l = [] ∨ Path T S.null prev l →
      Holds S (Function.update T hash (some (prev, d))) (Function.update db hash (some c)) hash
        (S.step (S.isFull hash) (S.fold l) (hash, d))) :
    Exact S (Function.update T hash (some (prev, d))) (Function.update db hash (some c)) := by
  have hclosed : ∀ x p d', T x = some (p, d') → p = S.null ∨ T p ≠ none := fun _ _ _ hx => h.closed hx
  refine ⟨fun x hx => ?_, ?_, fun x l hl => ?_⟩
  · by_cases hxh : x = hash
    · subst hxh
      rcases hprev with rfl | hin
      · exact ⟨_, .root (Function.update_self _ _ _)⟩
      · obtain ⟨l, hl⟩ := h.path prev hin
        exact ⟨_, .step (Function.update_self _ _ _) (hl.update fresh)⟩
    · rw [Function.update_of_ne hxh] at hx
      obtain ⟨l, hl⟩ := h.path x hx
      exact ⟨l, hl.update fresh⟩
  · rw [Function.update_of_ne hne.symm]
    exact h.null
  · by_cases hxh : x = hash
    · subst hxh
      cases hl with
      | root hT =>
        rw [Function.update_self] at hT
        obtain ⟨rfl, rfl⟩ := Prod.mk.inj (Option.some.inj hT)
        exact hnew [] (Or.inl ⟨rfl, rfl⟩)
      | @step _ p _ l hT hp =>
        rw [Function.update_self] at hT
        obtain ⟨rfl, rfl⟩ := Prod.mk.inj (Option.some.inj hT)
        rw [S.fold_concat]
        refine hnew l (Or.inr (hp.of_update hclosed ?_ fresh hne))
        rintro rfl
        rcases hprev with heq | hin
        · exact hne heq
        · exact hin fresh
    · exact (h.holds x l (hl.of_update hclosed hxh fresh hne)).update hxh fresh

theorem Exact.extend (h : Exact S T db) (fresh : T hash = none) (hne : hash ≠ S.null)
    (hprev : prev = S.null ∧ S.isFull hash = true ∨ T prev ≠ none) {x : Option C}
    (hfull : S.isFull hash = true → ∀ o, prev = S.null ∧ o = S.init ∨ prev ≠ S.null ∧ Holds S T db prev o →
      ∃ c, x = some c ∧ S.ref c = S.null ∧ S.obs (S.map c) = S.step true o (hash, d))
    (hfirst : S.isFull hash = false → prev ≠ S.null → ∀ r, db prev = some r → S.ref r = S.null →
      ∃ c, x = some c ∧ S.ref c = prev ∧ S.obs (S.view (S.map r) (S.map c)) = S.step false (S.obs (S.map r)) (hash, d))
    (hnext : S.isFull hash = false → prev ≠ S.null → ∀ c' r, db prev = some c' → S.ref c' ≠ S.null →
      db (S.ref c') = some r → ∃ c, x = some c ∧ S.ref c = S.ref c' ∧
        S.obs (S.view (S.map r) (S.map c)) = S.step false (S.obs (S.view (S.map r) (S.map c'))) (hash, d)) :
    ∃ c, x = some c ∧ Exact S (Function.update T hash (some (prev, d))) (Function.update db hash (some c)) := by
  have hx : ∀ o, prev = S.null ∧ o = S.init ∧ S.isFull hash = true ∨
      prev ≠ S.null ∧ T prev ≠ none ∧ Holds S T db prev o →
      ∃ c, x = some c ∧ Holds S (Function.update T hash (some (prev, d))) (Function.update db hash (some c)) hash
        (S.step (S.isFull hash) o (hash, d)) := by
    intro o ho
    cases hf : S.isFull hash with
    | true =>
      obtain ⟨c, hc, href, hobs⟩ := hfull hf o (ho.imp (fun h => ⟨h.1, h.2.1⟩) fun h => ⟨h.1, h.2.2⟩)
      exact ⟨c, hc, .snapshot T prev d hf href hobs⟩
    | false =>
      obtain ⟨hp, hin, c', hc', hform⟩ := ho.resolve_left (by simp [hf])
      split_ifs at hform with hpf
      · obtain ⟨href, rfl⟩ := hform
        obtain ⟨c, hc, rfl, hobs⟩ := hfirst hf hp c' hc' href
        exact ⟨c, hc, .increment T _ d hf fresh hp hpf hin hc' href hobs⟩
      · obtain ⟨href, hreff, hrefin, r, hr, hrref, rfl⟩ := hform
        obtain ⟨c, hc, heq, hobs⟩ := hnext hf hp c' r hc' href hr
        rw [← heq] at href hreff hrefin hr
        exact ⟨c, hc, .increment T prev d hf fresh href hreff hrefin hr hrref hobs⟩
  rcases hprev with ⟨rfl, hf⟩ | hin
  · obtain ⟨c, hc, hold⟩ := hx S.init (Or.inl ⟨rfl, rfl, hf⟩)
    refine ⟨c, hc, h.add fresh hne (Or.inl rfl) fun l hl => ?_⟩
    rcases hl with ⟨-, rfl⟩ | hl
    · exact hold
    · exact absurd h.null hl.mem
  · have hp0 : prev ≠ S.null := by
      rintro rfl
      exact hin h.null
    obtain ⟨l, hl⟩ := h.path prev hin
    obtain ⟨c, hc, hold⟩ := hx (S.fold l) (Or.inr ⟨hp0, hin, h.holds prev l hl⟩)
    refine ⟨c, hc, h.add fresh hne (Or.inr hin) fun l' hl' => ?_⟩
    rcases hl' with ⟨h0, -⟩ | hl'
    · exact absurd h0 hp0
    · rw [hl'.unique h.null hl]
      exact hold

end

end

/-! ## Behind caches -/

section

variable {K C M D O : Type} [LinearOrder K] {S : Scheme K C M D O} {fCache : Bool} {s s' : CachedStore K C}
  {T : Tree K D}

/-- The caches are those of the contexts, the contexts hold the fold, and there are no others. -/
structure StoredExact (S : Scheme K C M D O) (fCache : Bool) (s : CachedStore K C) (T : Tree K D) : Prop where
  fCache_eq : s.fCache = fCache
  coherent : s.Coherent
  exact : Exact S T s.db
  unwritten : ∀ h, T h = none → s.db h = none

theorem StoredExact.new (S : Scheme K C M D O) (fCache : Bool) :
    StoredExact S fCache { fCache := fCache } fun _ => none := by
  refine ⟨rfl, CachedStore.Coherent.new fCache, ⟨fun h hh => absurd rfl hh, rfl, fun h l hl => ?_⟩, fun _ _ => rfl⟩
  exact absurd rfl hl.mem

theorem StoredExact.same (h : StoredExact S fCache s T) (hs : s.Same s') : StoredExact S fCache s' T := by
  refine ⟨hs.fCache.trans h.fCache_eq, hs.coherent, ?_, ?_⟩
  · rw [hs.db]
    exact h.exact
  · rw [hs.db]
    exact h.unwritten

theorem StoredExact.added (h : StoredExact S fCache s T) {hash prev : K} {d : D} {c : C} (hs : s.Added s' hash c)
    (hexact : Exact S (Function.update T hash (some (prev, d))) (Function.update s.db hash (some c))) :
    StoredExact S fCache s' (Function.update T hash (some (prev, d))) := by
  refine ⟨hs.fCache.trans h.fCache_eq, hs.coherent, ?_, fun x hx => ?_⟩
  · rw [hs.db]
    exact hexact
  · have hxh : x ≠ hash := by
      rintro rfl
      rw [Function.update_self] at hx
      cases hx
    rw [Function.update_of_ne hxh] at hx
    rw [hs.db, Function.update_of_ne hxh]
    exact h.unwritten x hx

end

end Snapshot
