import Minemon.Lib.Int64
import Minemon.Lib.Runs
import Minemon.Storage.TimeSeries

/-!
# The time series index

`CCTSDB` of `storage/ctsdb.h`: entries by time and key. The entries of a time are a chunk; chunks are in memory, in
`mapUpper`, or in files, where `dbIndex` has their positions.

* `chunkFind_toList`: **the search in a chunk** finds what a map with its entries has.
* `CtsRun.retrieve_last_iff`: **the store behaves as one map**, exactly in the runs where no chunk with unwritten
  changes is dropped.
-/

namespace Minemon

def FLUSH_THRESH : ℕ := 1000

def CACHE_UPPER_DURATION : ℤ := 600

section

variable {K V : Type*} [LinearOrder K]

/-! ## Chunks -/

/-- The loop of `CCTSChunk::Find` between `s` and `e`, which come nearer with every turn. -/
def chunkFindLoop (chunk : List (K × V)) (k : K) : ℕ → ℤ → ℤ → Option V
  | 0, _, _ => none
  | turns + 1, s, e =>
    if s ≤ e then
      let m := (s + e) / 2
      match chunk[m.toNat]? with
      | none => none
      | some (key, v) =>
        if key < k then chunkFindLoop chunk k turns (m + 1) e
        else if k < key then chunkFindLoop chunk k turns s (m - 1)
        else some v
    else none

def chunkFind (chunk : List (K × V)) (k : K) : Option V :=
  chunkFindLoop chunk k chunk.length 0 (chunk.length - 1)

/-- `insert` of a range into a map: an entry that is there stays. -/
def insertChunk (m : OrdMap K V) (chunk : List (K × V)) : OrdMap K V :=
  chunk.foldl (fun m e => m.upsert e.1 fun old => old.getD e.2) m

theorem insertChunk_toList (m : OrdMap K V) : insertChunk OrdMap.empty m.toList = m := by
  refine OrdMap.ext_find? fun k => ?_
  rw [insertChunk, OrdMap.find?_foldl_upsert (fun w old => Option.getD old w) m.keys_nodup]
  show (m.find? k).elim none _ = _
  cases m.find? k <;> rfl

section

variable {m : OrdMap K V} {k : K} {s e : ℤ} (hlow : ∀ i (h : i < m.toList.length), (i : ℤ) < s → (m.toList[i]).1 < k)
  (hhigh : ∀ i (h : i < m.toList.length), e < i → k < (m.toList[i]).1)

include hlow hhigh

theorem find?_eq_none_of_bounds (hempty : e < s) : m.find? k = none := by
  refine OrdMap.find?_eq_none.2 fun hk => ?_
  obtain ⟨entry, hmem, rfl⟩ := List.mem_map.1 hk
  obtain ⟨i, hi, rfl⟩ := List.mem_iff_getElem.1 hmem
  rcases lt_or_ge (i : ℤ) s with hlt | hge
  · exact lt_irrefl _ (hlow i hi hlt)
  · exact lt_irrefl _ (hhigh i hi (by omega))

theorem chunkFindLoop_toList {turns : ℕ} (hs : 0 ≤ s) (he : e < m.toList.length) (hturns : e - s < turns) :
    chunkFindLoop m.toList k turns s e = m.find? k := by
  induction turns generalizing s e with
  | zero => exact (find?_eq_none_of_bounds hlow hhigh (by omega)).symm
  | succ turns ih =>
    rw [chunkFindLoop]
    split_ifs with hle
    · have hmid : ((s + e) / 2).toNat < m.toList.length := by omega
      have hsorted := List.pairwise_iff_getElem.1 m.sorted
      dsimp only
      rw [List.getElem?_eq_getElem hmid]
      rcases hentry : m.toList[((s + e) / 2).toNat] with ⟨key, v⟩
      dsimp only
      split_ifs with hless hgreater
      · refine ih (fun i hi hlt => ?_) hhigh (by omega) he (by omega)
        rcases eq_or_lt_of_le (show i ≤ ((s + e) / 2).toNat by omega) with rfl | hbefore
        · rw [hentry]
          exact hless
        · have hmore := hsorted i _ hi hmid hbefore
          rw [hentry] at hmore
          exact hmore.trans hless
      · refine ih hlow (fun i hi hlt => ?_) hs (by omega) (by omega)
        rcases eq_or_lt_of_le (show ((s + e) / 2).toNat ≤ i by omega) with rfl | hafter
        · rw [hentry]
          exact hgreater
        · have hmore := hsorted _ i hmid hi hafter
          rw [hentry] at hmore
          exact hgreater.trans hmore
      · obtain rfl : key = k := le_antisymm (not_lt.1 hgreater) (not_lt.1 hless)
        refine (OrdMap.find?_eq_some.2 ?_).symm
        rw [← hentry]
        exact List.getElem_mem hmid
    · exact (find?_eq_none_of_bounds hlow hhigh (by omega)).symm

end

/-- **The search finds what the map has.** -/
theorem chunkFind_toList (m : OrdMap K V) (k : K) : chunkFind m.toList k = m.find? k :=
  chunkFindLoop_toList (fun i _ h => absurd h (by omega)) (fun i hi h => absurd h (by omega)) le_rfl (by omega)
    (by omega)

end

/-! ## The store -/

structure CCTSDB (K V : Type*) [LinearOrder K] where
  dbIndex : OrdMap ℤ CDiskPos := OrdMap.empty
  tsChunk : CTimeSeriesBase := {}
  mapUpper : OrdMap ℤ (OrdMap K V) := OrdMap.empty

/-- The loop that erases the chunks from the first on up to a time. -/
def dropUpTo {α : Type*} (m : OrdMap ℤ α) (nDelStartTime : ℤ) : OrdMap ℤ α :=
  (m.keys.takeWhile fun t => decide (t ≤ nDelStartTime)).foldl OrdMap.erase m

namespace CCTSDB

section

variable {K V : Type*} [LinearOrder K] (codec : TotalFormat (List (K × V))) (s : CCTSDB K V)

def loadFromFile (nTime : ℤ) : Option (List (K × V)) := (s.dbIndex.find? nTime).bind (s.tsChunk.read codec.toFormat)

/-- `GetUpdateMap`: the chunk of the time is in memory. -/
def getUpdateMap (nTime : ℤ) : CCTSDB K V :=
  match s.mapUpper.find? nTime with
  | some _ => s
  | none => { s with
      mapUpper := s.mapUpper.insert nTime (insertChunk OrdMap.empty ((s.loadFromFile codec nTime).getD [])) }

def modifyChunk (nTime : ℤ) (f : OrdMap K V → OrdMap K V) : CCTSDB K V :=
  let s := s.getUpdateMap codec nTime
  { s with mapUpper := s.mapUpper.upsert nTime fun m => f (m.getD OrdMap.empty) }

def update (nTime : ℤ) (key : K) (value : V) : CCTSDB K V := s.modifyChunk codec nTime fun m => m.insert key value

def erase (nTime : ℤ) (key : K) : CCTSDB K V := s.modifyChunk codec nTime fun m => m.erase key

/-- `Retrieve`. With `fSaveLoad` a chunk that was loaded stays in memory, and older ones go. -/
def retrieve (nTime : ℤ) (key : K) (fSaveLoad : Bool) : Option V × CCTSDB K V :=
  match s.mapUpper.find? nTime with
  | some mapValue => (mapValue.find? key, s)
  | none =>
    match s.loadFromFile codec nTime with
    | some chunk =>
      (chunkFind chunk key,
        if fSaveLoad then
          let mapUpper := s.mapUpper.insert nTime (insertChunk OrdMap.empty chunk)
          { s with mapUpper := dropUpTo mapUpper (wrap64 (nTime - CACHE_UPPER_DURATION)) }
        else s)
    | none => (none, s)

/-- `Flush`; the files may refuse a chunk after some `turns`. -/
def flush (fAll : Bool) (turns : ℕ) : Bool × CCTSDB K V :=
  if !fAll && s.mapUpper.size < FLUSH_THRESH then (false, s)
  else
    let flushed := s.mapUpper.toList.filter fun e => !e.2.toList.isEmpty
    let vDel := (s.mapUpper.toList.filter fun e => e.2.toList.isEmpty).map Prod.fst
    match CTimeSeriesBase.writeBatch turns (flushed.map fun e => codec.enc e.2.toList) none s.tsChunk with
    | ((false, _), tsChunk) => (false, { s with tsChunk := tsChunk })
    | ((true, vPos), tsChunk) =>
      let dbIndex := ((flushed.map Prod.fst).zip vPos).foldl (fun m e => m.insert e.1 e.2) s.dbIndex
      (true, ⟨vDel.foldl OrdMap.erase dbIndex, tsChunk, OrdMap.empty⟩)

end

end CCTSDB

/-- A call of the store. -/
inductive CtsCall (K V : Type*)
  | update (nTime : ℤ) (key : K) (value : V)
  | erase (nTime : ℤ) (key : K)
  | retrieve (nTime : ℤ) (key : K) (fSaveLoad : Bool)
  | flush (fAll : Bool) (turns : ℕ)

/-- The store, with what was written last and not erased since. -/
structure CtsRun (K V : Type*) [LinearOrder K] where
  db : CCTSDB K V := {}
  last : ℤ → K → Option V := fun _ _ => none

def CtsRun.call {K V : Type*} [LinearOrder K] (codec : TotalFormat (List (K × V))) (x : CtsRun K V) :
    CtsCall K V → CtsRun K V
  | .update nTime key value =>
      ⟨x.db.update codec nTime key value, fun t k => if t = nTime ∧ k = key then some value else x.last t k⟩
  | .erase nTime key => ⟨x.db.erase codec nTime key, fun t k => if t = nTime ∧ k = key then none else x.last t k⟩
  | .retrieve nTime key fSaveLoad => { x with db := (x.db.retrieve codec nTime key fSaveLoad).2 }
  | .flush fAll turns => { x with db := (x.db.flush codec fAll turns).2 }

/-! ## The entries of a time -/

theorem find?_dropUpTo {α : Type*} (m : OrdMap ℤ α) (d t : ℤ) :
    (dropUpTo m d).find? t = if t ≤ d then none else m.find? t := by
  have hmem : ∀ l : List ℤ, l.Pairwise (· < ·) →
      (t ∈ l.takeWhile (fun t => decide (t ≤ d)) ↔ t ∈ l ∧ t ≤ d) := by
    intro l hl
    induction l with
    | nil => simp
    | cons a l ih =>
      obtain ⟨hfirst, hrest⟩ := List.pairwise_cons.1 hl
      by_cases ha : a ≤ d
      · rw [List.takeWhile_cons_of_pos (by simpa using ha), List.mem_cons, List.mem_cons, ih hrest]
        constructor
        · rintro (rfl | h)
          · exact ⟨Or.inl rfl, ha⟩
          · exact ⟨Or.inr h.1, h.2⟩
        · rintro ⟨rfl | h, hd⟩
          · exact Or.inl rfl
          · exact Or.inr ⟨h, hd⟩
      · rw [List.takeWhile_cons_of_neg (by simpa using ha)]
        refine iff_of_false List.not_mem_nil ?_
        rintro ⟨hin, hd⟩
        rcases List.mem_cons.1 hin with rfl | h
        · exact ha hd
        · exact ha ((hfirst t h).le.trans hd)
  rw [dropUpTo, OrdMap.find?_foldl_erase]
  simp only [hmem m.keys (List.pairwise_map.2 m.sorted)]
  by_cases hd : t ≤ d
  · by_cases hk : t ∈ m.keys
    · rw [if_pos ⟨hk, hd⟩, if_pos hd]
    · rw [if_neg fun h => hk h.1, if_pos hd, OrdMap.find?_eq_none.2 hk]
  · rw [if_neg fun h => hd h.2, if_neg hd]

namespace CCTSDB

section

variable {K V : Type*} [LinearOrder K] (codec : TotalFormat (List (K × V))) (s : CCTSDB K V)

def stored (nTime : ℤ) : OrdMap K V := insertChunk OrdMap.empty ((s.loadFromFile codec nTime).getD [])

def entries (nTime : ℤ) : OrdMap K V := (s.mapUpper.find? nTime).getD (s.stored codec nTime)

/-- The index has positions of chunks. -/
def FilesOK : Prop := ∀ t pos, s.dbIndex.find? t = some pos → ∃ m : OrdMap K V, s.tsChunk.Holds pos (codec.enc m.toList)

end

section

variable {K V : Type*} [LinearOrder K] {codec : TotalFormat (List (K × V))} {s : CCTSDB K V}

theorem stored_of_holds {t : ℤ} {pos : CDiskPos} {m : OrdMap K V} (hpos : s.dbIndex.find? t = some pos)
    (hm : s.tsChunk.Holds pos (codec.enc m.toList)) :
    s.loadFromFile codec t = some m.toList ∧ s.stored codec t = m := by
  have hload : s.loadFromFile codec t = some m.toList := by
    rw [loadFromFile, hpos, Option.bind_some, hm.read (codec.valid _)]
  refine ⟨hload, ?_⟩
  rw [stored, hload, Option.getD_some, insertChunk_toList]

/-- No chunk is in the files, or there is one with these entries. -/
def Stores (codec : TotalFormat (List (K × V))) (s : CCTSDB K V) (t : ℤ) (m : OrdMap K V) : Prop :=
  (s.dbIndex.find? t = none ∧ m = OrdMap.empty) ∨
    ∃ pos, s.dbIndex.find? t = some pos ∧ s.tsChunk.Holds pos (codec.enc m.toList)

theorem Stores.stored_eq {t : ℤ} {m : OrdMap K V} (h : s.Stores codec t m) : s.stored codec t = m := by
  rcases h with ⟨hnone, rfl⟩ | ⟨pos, hpos, hm⟩
  · rw [stored, loadFromFile, hnone]
    rfl
  · exact (stored_of_holds hpos hm).2

theorem FilesOK.stores (h : s.FilesOK codec) (t : ℤ) : s.Stores codec t (s.stored codec t) := by
  cases hpos : s.dbIndex.find? t with
  | none => exact Or.inl ⟨hpos, by rw [stored, loadFromFile, hpos]; rfl⟩
  | some pos =>
    obtain ⟨m, hm⟩ := h t pos hpos
    exact Or.inr ⟨pos, hpos, (stored_of_holds hpos hm).2 ▸ hm⟩

theorem FilesOK.retrieve_fst (h : s.FilesOK codec) (t : ℤ) (k : K) (fSaveLoad : Bool) :
    (s.retrieve codec t k fSaveLoad).1 = (s.entries codec t).find? k := by
  unfold retrieve entries
  cases s.mapUpper.find? t with
  | some m => rfl
  | none =>
    rcases h.stores t with ⟨hnone, hempty⟩ | ⟨pos, hpos, hm⟩
    · rw [loadFromFile, hnone, Option.getD_none, hempty]
      rfl
    · rw [(stored_of_holds hpos hm).1]
      exact chunkFind_toList _ k

theorem find?_getUpdateMap (s : CCTSDB K V) (t t' : ℤ) :
    (s.getUpdateMap codec t).mapUpper.find? t' = if t' = t then some (s.entries codec t) else s.mapUpper.find? t' := by
  unfold getUpdateMap entries
  cases hm : s.mapUpper.find? t with
  | some m =>
    split_ifs with heq
    · rw [heq, hm, Option.getD_some]
    · rfl
  | none => exact OrdMap.find?_insert ..

theorem modifyChunk_files (s : CCTSDB K V) (t : ℤ) (f : OrdMap K V → OrdMap K V) :
    (s.modifyChunk codec t f).dbIndex = s.dbIndex ∧ (s.modifyChunk codec t f).tsChunk = s.tsChunk := by
  unfold modifyChunk getUpdateMap
  dsimp only
  split <;> exact ⟨rfl, rfl⟩

theorem stored_congr (codec : TotalFormat (List (K × V))) {s' : CCTSDB K V}
    (h : s'.dbIndex = s.dbIndex ∧ s'.tsChunk = s.tsChunk) : s'.stored codec = s.stored codec := by
  unfold stored loadFromFile
  rw [h.1, h.2]

theorem FilesOK.congr {s' : CCTSDB K V} (hs : s.FilesOK codec) (h : s'.dbIndex = s.dbIndex ∧ s'.tsChunk = s.tsChunk) :
    s'.FilesOK codec := by
  unfold FilesOK
  rw [h.1, h.2]
  exact hs

theorem entries_modifyChunk (s : CCTSDB K V) (t t' : ℤ) (f : OrdMap K V → OrdMap K V) :
    (s.modifyChunk codec t f).entries codec t' = if t' = t then f (s.entries codec t) else s.entries codec t' := by
  rw [entries, stored_congr codec (modifyChunk_files s t f)]
  show ((OrdMap.upsert (s.getUpdateMap codec t).mapUpper t _).find? t').getD _ = _
  rw [OrdMap.find?_upsert, find?_getUpdateMap, find?_getUpdateMap, if_pos rfl]
  split_ifs <;> rfl

/-! ### Retrieve -/

/-- The chunks that a `Retrieve` with `fSaveLoad` drops are as they are in the files. -/
def DropsWritten (codec : TotalFormat (List (K × V))) (s : CCTSDB K V) (nTime : ℤ) : Prop :=
  s.mapUpper.find? nTime = none → s.loadFromFile codec nTime ≠ none → ∀ t m, s.mapUpper.find? t = some m →
    t ≤ wrap64 (nTime - CACHE_UPPER_DURATION) → m = s.stored codec t

theorem retrieve_files (codec : TotalFormat (List (K × V))) (s : CCTSDB K V) (t : ℤ) (k : K) (fSaveLoad : Bool) :
    (s.retrieve codec t k fSaveLoad).2.dbIndex = s.dbIndex ∧
      (s.retrieve codec t k fSaveLoad).2.tsChunk = s.tsChunk := by
  unfold retrieve
  split
  · exact ⟨rfl, rfl⟩
  · split
    · dsimp only
      split_ifs <;> exact ⟨rfl, rfl⟩
    · exact ⟨rfl, rfl⟩

theorem entries_retrieve_iff (s : CCTSDB K V) (nTime : ℤ) (k : K) :
    (∀ t, (s.retrieve codec nTime k true).2.entries codec t = s.entries codec t) ↔ s.DropsWritten codec nTime := by
  have hstored := stored_congr codec (retrieve_files codec s nTime k true)
  unfold DropsWritten
  simp only [entries, hstored]
  unfold retrieve
  cases hin : s.mapUpper.find? nTime with
  | some m => simp
  | none =>
    cases hload : s.loadFromFile codec nTime with
    | none => simp
    | some chunk =>
      simp only [if_true, find?_dropUpTo, OrdMap.find?_insert, ne_eq, reduceCtorEq, not_false_eq_true, forall_const]
      constructor
      · intro h t m hm ht
        have heq := h t
        rw [if_pos ht, hm] at heq
        exact heq.symm
      · intro h t
        split_ifs with ht heq
        · cases hm : s.mapUpper.find? t with
          | none => rfl
          | some m => exact (h t m hm ht).symm
        · rw [heq, hin, stored, hload]
          rfl
        · rfl

/-! ### Flush -/

theorem find?_foldl_insert_zip {α : Type*} {H : CDiskPos → ℤ × α → Prop} {vPos : List CDiskPos} {l : List (ℤ × α)}
    (hall : List.Forall₂ H vPos l) (hl : (l.map Prod.fst).Nodup) (m : OrdMap ℤ CDiskPos) (t : ℤ) :
    (t ∉ l.map Prod.fst ∧ (((l.map Prod.fst).zip vPos).foldl (fun m e => m.insert e.1 e.2) m).find? t = m.find? t) ∨
      ∃ pos v, (t, v) ∈ l ∧ H pos (t, v) ∧
        (((l.map Prod.fst).zip vPos).foldl (fun m e => m.insert e.1 e.2) m).find? t = some pos := by
  induction hall generalizing m with
  | nil => exact Or.inl ⟨List.not_mem_nil, rfl⟩
  | @cons pos e vPos l hH hall ih =>
    rw [List.map_cons, List.nodup_cons] at hl
    rw [List.map_cons, List.zip_cons_cons, List.foldl_cons]
    rcases ih hl.2 (m.insert e.1 pos) with ⟨hout, hfind⟩ | ⟨pos', v, hin, hH', hfind⟩
    · rw [hfind, OrdMap.find?_insert]
      by_cases ht : t = e.1
      · subst ht
        exact Or.inr ⟨pos, e.2, List.mem_cons_self, hH, if_pos rfl⟩
      · exact Or.inl ⟨by simpa [ht] using hout, if_neg ht⟩
    · exact Or.inr ⟨pos', v, List.mem_cons_of_mem _ hin, hH', hfind⟩

theorem FilesOK.flush_stores (hs : s.FilesOK codec) {vPos : List CDiskPos} {tsChunk : CTimeSeriesBase}
    (hext : s.tsChunk.Extends tsChunk)
    (hall : List.Forall₂ tsChunk.Holds vPos
      ((s.mapUpper.toList.filter fun e => !e.2.toList.isEmpty).map fun e => codec.enc e.2.toList)) (t : ℤ) :
    Stores codec ⟨((s.mapUpper.toList.filter fun e => e.2.toList.isEmpty).map Prod.fst).foldl OrdMap.erase
      ((((s.mapUpper.toList.filter fun e => !e.2.toList.isEmpty).map Prod.fst).zip vPos).foldl
        (fun m e => m.insert e.1 e.2) s.dbIndex), tsChunk, OrdMap.empty⟩ t (s.entries codec t) := by
  have hdel : t ∈ (s.mapUpper.toList.filter fun e => e.2.toList.isEmpty).map Prod.fst ↔
      s.mapUpper.find? t = some OrdMap.empty := by
    constructor
    · intro h
      obtain ⟨e, he, rfl⟩ := List.mem_map.1 h
      obtain ⟨hmem, hempty⟩ := List.mem_filter.1 he
      rw [OrdMap.find?_eq_some.2 hmem, Option.some.injEq]
      exact OrdMap.ext (List.isEmpty_iff.1 hempty)
    · intro h
      exact List.mem_map.2 ⟨(t, OrdMap.empty), List.mem_filter.2 ⟨OrdMap.find?_eq_some.1 h, rfl⟩, rfl⟩
  have hnodup : ((s.mapUpper.toList.filter fun e => !e.2.toList.isEmpty).map Prod.fst).Nodup :=
    s.mapUpper.keys_nodup.sublist (List.filter_sublist.map _)
  unfold Stores
  dsimp only
  rw [OrdMap.find?_foldl_erase]
  split_ifs with hdeleted
  · exact Or.inl ⟨rfl, by rw [entries, hdel.1 hdeleted, Option.getD_some]⟩
  · rcases find?_foldl_insert_zip (List.forall₂_map_right_iff.1 hall) hnodup s.dbIndex t with
      ⟨hout, hfind⟩ | ⟨pos, m, hin, hm, hfind⟩
    · have hupper : s.mapUpper.find? t = none := by
        refine Option.eq_none_iff_forall_ne_some.2 fun m hm => hout ?_
        refine List.mem_map.2 ⟨(t, m), List.mem_filter.2 ⟨OrdMap.find?_eq_some.1 hm, ?_⟩, rfl⟩
        rw [Bool.not_eq_true', List.isEmpty_eq_false_iff]
        exact fun hnil => hdeleted (hdel.2 (hm.trans (congrArg some (OrdMap.ext hnil))))
      rw [hfind, entries, hupper, Option.getD_none]
      rcases hs.stores t with h | ⟨pos, hpos, hm⟩
      · exact Or.inl h
      · exact Or.inr ⟨pos, hpos, hm.extend hext⟩
    · refine Or.inr ⟨pos, hfind, ?_⟩
      rw [entries, OrdMap.find?_eq_some.2 (List.mem_filter.1 hin).1, Option.getD_some]
      exact hm

theorem FilesOK.flush (hs : s.FilesOK codec) (fAll : Bool) (turns : ℕ) :
    (s.flush codec fAll turns).2.FilesOK codec ∧
      ∀ t, (s.flush codec fAll turns).2.entries codec t = s.entries codec t := by
  unfold CCTSDB.flush
  split_ifs
  · exact ⟨hs, fun _ => rfl⟩
  · obtain ⟨hext, hall⟩ := CTimeSeriesBase.writeBatch_spec turns
      ((s.mapUpper.toList.filter fun e => !e.2.toList.isEmpty).map fun e => codec.enc e.2.toList) none s.tsChunk
    dsimp only
    split
    · rename_i vPos tsChunk heq
      rw [heq] at hext
      have hstores : ∀ t, Stores codec { s with tsChunk := tsChunk } t (s.stored codec t) := fun t =>
        (hs.stores t).imp_right fun ⟨pos, hpos, hm⟩ => ⟨pos, hpos, hm.extend hext⟩
      refine ⟨fun t pos hpos => ?_, fun t => ?_⟩
      · obtain ⟨m, hm⟩ := hs t pos hpos
        exact ⟨m, hm.extend hext⟩
      · rw [entries, (hstores t).stored_eq]
        rfl
    · rename_i vPos tsChunk heq
      rw [heq] at hext hall
      have hstores := hs.flush_stores hext (hall rfl)
      refine ⟨fun t pos hpos => ?_, fun t => ?_⟩
      · rcases hstores t with ⟨hnone, -⟩ | ⟨pos', hpos', hm⟩
        · rw [hnone] at hpos
          cases hpos
        · rw [hpos', Option.some.injEq] at hpos
          exact ⟨_, hpos ▸ hm⟩
      · exact (hstores t).stored_eq

end

end CCTSDB

/-! ## Runs -/

namespace CtsRun

variable {K V : Type*} [LinearOrder K] {codec : TotalFormat (List (K × V))} {x : CtsRun K V}

/-- The store has in each time what was written last. -/
def Agrees (codec : TotalFormat (List (K × V))) (x : CtsRun K V) : Prop :=
  x.db.FilesOK codec ∧ ∀ t k, (x.db.entries codec t).find? k = x.last t k

/-- Every `Retrieve` returns what was written last. -/
def RetrievesLast (codec : TotalFormat (List (K × V))) (x : CtsRun K V) : Prop :=
  ∀ t k fSaveLoad, (x.db.retrieve codec t k fSaveLoad).1 = x.last t k

/-- The chunks that the call drops are as they are in the files. -/
def Safe (codec : TotalFormat (List (K × V))) (x : CtsRun K V) : CtsCall K V → Prop
  | .retrieve nTime _ true => x.db.DropsWritten codec nTime
  | _ => True

theorem Agrees.retrievesLast (h : x.Agrees codec) : x.RetrievesLast codec := fun t k fSaveLoad =>
  (h.1.retrieve_fst t k fSaveLoad).trans (h.2 t k)

theorem Agrees.modify (h : x.Agrees codec) (nTime : ℤ) (key : K) (f : OrdMap K V → OrdMap K V) (v : Option V)
    (hf : ∀ m k, (f m).find? k = if k = key then v else m.find? k) :
    Agrees codec ⟨x.db.modifyChunk codec nTime f, fun t k => if t = nTime ∧ k = key then v else x.last t k⟩ := by
  refine ⟨h.1.congr (CCTSDB.modifyChunk_files x.db nTime f), fun t k => ?_⟩
  rw [CCTSDB.entries_modifyChunk]
  by_cases ht : t = nTime
  · rw [if_pos ht, hf, h.2, ht]
    by_cases hk : k = key <;> simp [hk]
  · rw [if_neg ht, h.2]
    exact (if_neg fun hboth => ht hboth.1).symm

theorem Agrees.call_iff (h : x.Agrees codec) {c : CtsCall K V} :
    ((x.call codec c).Agrees codec ↔ x.Safe codec c) ∧ (x.call codec c).db.FilesOK codec := by
  cases c with
  | update nTime key value =>
    have hnew := h.modify nTime key (fun m => m.insert key value) (some value) fun m k => OrdMap.find?_insert ..
    exact ⟨iff_of_true hnew trivial, hnew.1⟩
  | erase nTime key =>
    have hnew := h.modify nTime key (fun m => m.erase key) none fun m k => OrdMap.find?_erase ..
    exact ⟨iff_of_true hnew trivial, hnew.1⟩
  | flush fAll turns =>
    have ⟨hfiles, hentries⟩ := h.1.flush fAll turns
    exact ⟨iff_of_true ⟨hfiles, fun t k => (congrArg (OrdMap.find? · k) (hentries t)).trans (h.2 t k)⟩ trivial, hfiles⟩
  | retrieve nTime key fSaveLoad =>
    have hfiles := h.1.congr (CCTSDB.retrieve_files codec x.db nTime key fSaveLoad)
    refine ⟨?_, hfiles⟩
    cases fSaveLoad with
    | false =>
      have hsame : (x.db.retrieve codec nTime key false).2 = x.db := by
        unfold CCTSDB.retrieve
        split
        · rfl
        · split <;> rfl
      refine iff_of_true ⟨hfiles, fun t k => ?_⟩ trivial
      show ((x.db.retrieve codec nTime key false).2.entries codec t).find? k = _
      rw [hsame]
      exact h.2 t k
    | true =>
      rw [Safe, ← CCTSDB.entries_retrieve_iff x.db nTime key]
      constructor
      · exact fun hnew t => OrdMap.ext_find? fun k => (hnew.2 t k).trans (h.2 t k).symm
      · exact fun hsame => ⟨hfiles, fun t k => (congrArg (OrdMap.find? · k) (hsame t)).trans (h.2 t k)⟩

/-- **The store behaves as one map**: every `Retrieve` returns what was written last, exactly in the runs where no
chunk is dropped that has changes which are not in its file. -/
theorem retrieve_last_iff (codec : TotalFormat (List (K × V))) (l : List (CtsCall K V)) :
    (∀ n, (Run.states (CtsRun.call codec) {} l n).RetrievesLast codec) ↔
      ∀ n c, l[n]? = some c → (Run.states (CtsRun.call codec) {} l n).Safe codec c := by
  have hempty : Agrees codec {} := ⟨fun t pos h => (by cases h), fun t k => rfl⟩
  refine @Run.good_iff (CtsRun K V) (CtsCall K V) (CtsRun.call codec) (Agrees codec) (RetrievesLast codec)
    (fun _ _ => True) (Safe codec) Agrees.retrievesLast (fun h _ hc => h.call_iff.1.2 hc)
    (fun h _ hlast => ?_) {} hempty l fun _ _ _ => trivial
  refine h.call_iff.1.1 ⟨h.call_iff.2, fun t k => ?_⟩
  rw [← h.call_iff.2.retrieve_fst t k false]
  exact hlast t k false

/-- A reader of chunks with one key: a byte 1 for an entry, and a byte 0 at the end. -/
def toyChunk : List UInt8 → Except Fault (List (Unit × Unit) × List UInt8)
  | [] => .error .exception
  | b :: bs => if b = 0 then .ok ([], bs) else (toyChunk bs).map fun r => (((), ()) :: r.1, r.2)

theorem toyChunk_append (chunk : List (Unit × Unit)) (r : List UInt8) :
    toyChunk (chunk.map (fun _ => 1) ++ [0] ++ r) = .ok (chunk, r) := by
  induction chunk with
  | nil => rfl
  | cons e chunk ih =>
    rw [List.map_cons, List.cons_append, List.cons_append, toyChunk, if_neg (by decide), ih]
    rfl

def toyChunkCodec : TotalFormat (List (Unit × Unit)) where
  enc chunk := chunk.map (fun _ => 1) ++ [0]
  dec := toyChunk
  Valid _ := True
  dec_enc chunk r _ := toyChunk_append chunk r
  valid_dec _ _ _ _ := trivial
  valid _ := trivial

/-- The entry of time 0 was never written to a file when the chunk of time 1000 is loaded. -/
theorem retrieve_last_dropped :
    let x := Run.states (CtsRun.call toyChunkCodec) {}
      [.update 1000 () (), .flush true 1, .update 0 () (), .retrieve 1000 () true] 4
    x.last 0 () = some () ∧ (x.db.retrieve toyChunkCodec 0 () false).1 = none := by
  decide

end CtsRun

end Minemon
