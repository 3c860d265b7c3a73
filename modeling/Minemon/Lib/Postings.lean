import Mathlib

/-!
# Books of postings

A book lists, for each owner, keys with their values. A posting brings one key to its owner and takes others
away from the same owner; a key that the book has seen before is not posted again.

* `Book.post`, `Book.posts`: one posting, and a list of them.
* `Book.mem_coins_posts`: what is listed in the end is what was posted and not taken by a later posting.
-/

structure Posting (K D V : Type*) where
  key : K
  owner : D
  value : Option V
  takes : List K

@[ext] structure Book (K D V : Type*) where
  seen : Finset K
  coins : D → Finset (K × V)

namespace Book

variable {K D V : Type*} [DecidableEq K] [DecidableEq D] [DecidableEq V]

def take (s : Finset (K × V)) (takes : List K) : Finset (K × V) := s.filter fun e => e.1 ∉ takes

/-- A key comes, unless it has no value. -/
def give (s : Finset (K × V)) (k : K) : Option V → Finset (K × V)
  | none => s
  | some v => insert (k, v) s

def post (b : Book K D V) (p : Posting K D V) : Book K D V :=
  if p.key ∈ b.seen then b
  else ⟨insert p.key b.seen,
    Function.update b.coins p.owner (give (take (b.coins p.owner) p.takes) p.key p.value)⟩

def posts (b : Book K D V) (L : List (Posting K D V)) : Book K D V := L.foldl post b

omit [DecidableEq D] [DecidableEq V] in
@[simp] theorem mem_take {s : Finset (K × V)} {takes : List K} {e : K × V} :
    e ∈ take s takes ↔ e ∈ s ∧ e.1 ∉ takes := Finset.mem_filter

omit [DecidableEq D] in
theorem mem_give {s : Finset (K × V)} {k : K} {v : Option V} {e : K × V} :
    e ∈ give s k v ↔ (e.1 = k ∧ v = some e.2) ∨ e ∈ s := by
  cases v with
  | none => simp [give]
  | some v =>
    rw [give, Finset.mem_insert, Prod.ext_iff, Option.some.injEq, eq_comm (a := v)]

omit [DecidableEq D] [DecidableEq V] in
theorem take_nil (s : Finset (K × V)) : take s [] = s := by
  ext e
  simp

omit [DecidableEq D] [DecidableEq V] in
theorem take_take (s : Finset (K × V)) (l m : List K) : take (take s l) m = take s (l ++ m) := by
  ext e
  simp only [mem_take, List.mem_append, not_or, and_assoc]

section

variable {b : Book K D V} {p : Posting K D V} {L : List (Posting K D V)}

theorem posts_concat (b : Book K D V) (L : List (Posting K D V)) (p : Posting K D V) :
    b.posts (L ++ [p]) = (b.posts L).post p := by
  unfold posts
  rw [List.foldl_append]
  rfl

theorem posts_append (b : Book K D V) (L M : List (Posting K D V)) : b.posts (L ++ M) = (b.posts L).posts M :=
  List.foldl_append

theorem post_of_seen (hp : p.key ∈ b.seen) : b.post p = b := if_pos hp

theorem post_of_new (hp : p.key ∉ b.seen) : b.post p = ⟨insert p.key b.seen,
    Function.update b.coins p.owner (give (take (b.coins p.owner) p.takes) p.key p.value)⟩ := if_neg hp

theorem mem_seen_post {k : K} : k ∈ (b.post p).seen ↔ k ∈ b.seen ∨ k = p.key := by
  unfold post
  split_ifs with h
  · constructor
    · exact Or.inl
    · rintro (hk | rfl)
      · exact hk
      · exact h
  · rw [Finset.mem_insert, or_comm]

theorem mem_seen_posts {k : K} : k ∈ (b.posts L).seen ↔ k ∈ b.seen ∨ k ∈ L.map Posting.key := by
  induction L using List.reverseRecOn with
  | nil => simp [posts]
  | append_singleton L p ih =>
    rw [posts_concat, mem_seen_post, ih, List.map_append, List.mem_append, or_assoc]
    simp

theorem mem_coins_post {d : D} {e : K × V} (hp : p.key ∉ b.seen) :
    e ∈ (b.post p).coins d ↔
      (p.owner = d ∧ p.key = e.1 ∧ p.value = some e.2) ∨ (e ∈ b.coins d ∧ (p.owner = d → e.1 ∉ p.takes)) := by
  unfold post
  rw [if_neg hp]
  by_cases hd : p.owner = d
  · subst hd
    show e ∈ Function.update b.coins p.owner _ p.owner ↔ _
    rw [Function.update_self, mem_give, mem_take, eq_comm (a := e.1)]
    tauto
  · show e ∈ Function.update b.coins p.owner _ d ↔ _
    rw [Function.update_of_ne (Ne.symm hd)]
    tauto

/-! ## What is listed in the end -/

/-- Equal keys belong to equal postings. -/
def Coherent (L : List (Posting K D V)) : Prop := ∀ p ∈ L, ∀ q ∈ L, p.key = q.key → p = q

/-- The list has `i` before it has `j`. -/
def Before (l : List K) (i j : K) : Prop := l.idxOf i < l.idxOf j

theorem Before.asymm {l : List K} {i j : K} (h : Before l i j) : ¬ Before l j i := Nat.lt_asymm h

theorem before_append {l m : List K} {i j : K} (hi : i ∈ l) (hj : j ∉ l) : Before (l ++ m) i j := by
  unfold Before
  rw [List.idxOf_append_of_mem hi, List.idxOf_append_of_notMem hj]
  exact Nat.lt_add_right _ (List.idxOf_lt_length_of_mem hi)

theorem before_append_of_mem {l m : List K} {i j : K} (hi : i ∈ l) (hj : j ∈ l) :
    Before (l ++ m) i j ↔ Before l i j := by
  unfold Before
  rw [List.idxOf_append_of_mem hi, List.idxOf_append_of_mem hj]

theorem not_before_self (l : List K) (i : K) : ¬ Before l i i := Nat.lt_irrefl _

/-- The key of `e` is new and brings its value to `d`, and no new posting that comes later takes it. -/
structure Kept (b : Book K D V) (L : List (Posting K D V)) (d : D) (e : K × V) : Prop where
  new : e.1 ∉ b.seen
  posted : ∃ p ∈ L, p.key = e.1 ∧ p.owner = d ∧ p.value = some e.2
  kept : ∀ q ∈ L, q.owner = d → e.1 ∈ q.takes → q.key ∉ b.seen → ¬ Before (L.map Posting.key) e.1 q.key

omit [DecidableEq D] [DecidableEq V] in
theorem kept_concat_of_mem {q : Posting K D V} {d : D} {e : K × V} (hq : q.key ∈ b.seen ∨ q ∈ L) :
    Kept b (L ++ [q]) d e ↔ Kept b L d e := by
  have hbefore : ∀ p ∈ L, ∀ r ∈ L, (Before ((L ++ [q]).map Posting.key) p.key r.key ↔
      Before (L.map Posting.key) p.key r.key) := by
    intro p hp r hr
    rw [List.map_append]
    exact before_append_of_mem (List.mem_map_of_mem hp) (List.mem_map_of_mem hr)
  have hmem : ∀ r ∈ L ++ [q], r.key ∉ b.seen → r ∈ L := by
    intro r hr hnew
    rcases List.mem_append.1 hr with hr | hr
    · exact hr
    · rw [List.mem_singleton.1 hr] at hnew ⊢
      exact hq.resolve_left hnew
  constructor
  · rintro ⟨hnew, ⟨p, hp, hkey, hv⟩, hkept⟩
    have hpL := hmem p hp (hkey ▸ hnew)
    refine ⟨hnew, ⟨p, hpL, hkey, hv⟩, fun r hr hd ht hs => ?_⟩
    rw [← hkey, ← hbefore p hpL r hr, hkey]
    exact hkept r (List.mem_append_left _ hr) hd ht hs
  · rintro ⟨hnew, ⟨p, hp, hkey, hv⟩, hkept⟩
    refine ⟨hnew, ⟨p, List.mem_append_left _ hp, hkey, hv⟩, fun r hr hd ht hs => ?_⟩
    rw [← hkey, hbefore p hp r (hmem r hr hs), hkey]
    exact hkept r (hmem r hr hs) hd ht hs

omit [DecidableEq D] [DecidableEq V] in
theorem kept_concat_of_new {q : Posting K D V} {d : D} {e : K × V} (hs : q.key ∉ b.seen)
    (hL : q.key ∉ L.map Posting.key) : Kept b (L ++ [q]) d e ↔
      (q.owner = d ∧ q.key = e.1 ∧ q.value = some e.2) ∨ (Kept b L d e ∧ (q.owner = d → e.1 ∉ q.takes)) := by
  have hkeys : (L ++ [q]).map Posting.key = L.map Posting.key ++ [q.key] := by rw [List.map_append]; rfl
  have hmemL : ∀ r ∈ L, r.key ∈ L.map Posting.key := fun r hr => List.mem_map_of_mem hr
  -- the last key is before no other
  have hlast : ∀ r ∈ L ++ [q], ¬ Before ((L ++ [q]).map Posting.key) q.key r.key := by
    intro r hr
    rcases List.mem_append.1 hr with hr | hr
    · rw [hkeys]
      exact (before_append (hmemL r hr) hL).asymm
    · rw [List.mem_singleton.1 hr]
      exact not_before_self _ _
  have hbefore : ∀ p ∈ L, ∀ r ∈ L, (Before ((L ++ [q]).map Posting.key) p.key r.key ↔
      Before (L.map Posting.key) p.key r.key) := by
    intro p hp r hr
    rw [hkeys]
    exact before_append_of_mem (hmemL p hp) (hmemL r hr)
  constructor
  · rintro ⟨hnew, ⟨p, hp, hkey, hd, hv⟩, hkept⟩
    rcases List.mem_append.1 hp with hp | hp
    · refine Or.inr ⟨⟨hnew, ⟨p, hp, hkey, hd, hv⟩, fun r hr hrd ht hrs => ?_⟩, fun hqd ht => ?_⟩
      · rw [← hkey, ← hbefore p hp r hr, hkey]
        exact hkept r (List.mem_append_left _ hr) hrd ht hrs
      · refine hkept q (by simp) hqd ht hs ?_
        rw [← hkey, hkeys]
        exact before_append (hmemL p hp) hL
    · rw [List.mem_singleton.1 hp] at hkey hd hv
      exact Or.inl ⟨hd, hkey, hv⟩
  · rintro (⟨hd, hkey, hv⟩ | ⟨⟨hnew, ⟨p, hp, hkey, hpd, hv⟩, hkept⟩, htake⟩)
    · exact ⟨hkey ▸ hs, ⟨q, by simp, hkey, hd, hv⟩, fun r hr _ _ _ => hkey ▸ hlast r hr⟩
    · refine ⟨hnew, ⟨p, List.mem_append_left _ hp, hkey, hpd, hv⟩, fun r hr hd ht hrs => ?_⟩
      rcases List.mem_append.1 hr with hr | hr
      · rw [← hkey, hbefore p hp r hr, hkey]
        exact hkept r hr hd ht hrs
      · rw [List.mem_singleton.1 hr] at hd ht
        exact absurd ht (htake hd)

omit [DecidableEq K] [DecidableEq D] [DecidableEq V] in
theorem Coherent.left {M : List (Posting K D V)} (h : Coherent (L ++ M)) : Coherent L := fun p hp q hq =>
  h p (List.mem_append_left _ hp) q (List.mem_append_left _ hq)

/-- **What is listed was posted, and was not taken since.** -/
theorem mem_coins_posts (hb : ∀ d, b.coins d = ∅) (hL : Coherent L) {d : D} {e : K × V} :
    e ∈ (b.posts L).coins d ↔ Kept b L d e := by
  induction L using List.reverseRecOn with
  | nil =>
    constructor
    · intro h
      rw [posts, List.foldl_nil, hb] at h
      exact absurd h (Finset.notMem_empty e)
    · rintro ⟨-, ⟨p, hp, -⟩, -⟩
      exact absurd hp List.not_mem_nil
  | append_singleton L q ih =>
    rw [posts_concat]
    by_cases hq : q.key ∈ (b.posts L).seen
    · rw [post_of_seen hq, ih hL.left]
      refine (kept_concat_of_mem ((mem_seen_posts.1 hq).imp id fun hmem => ?_)).symm
      obtain ⟨p, hp, hkey⟩ := List.mem_map.1 hmem
      rw [← hL p (List.mem_append_left _ hp) q (by simp) hkey]
      exact hp
    · rw [mem_seen_posts, not_or] at hq
      rw [kept_concat_of_new hq.1 hq.2, ← ih hL.left]
      exact mem_coins_post (by rw [mem_seen_posts, not_or]; exact hq)

end

end Book
