import Minemon.Lib.Runs
import Minemon.Storage.BlockBase

/-!
# The store of unspent outputs

`CForkUnspentDB` of `storage/unspentdb.cpp`: changes go to an upper map, in which a null output marks one that is
gone. `Flush` writes the lower map to the database and then swaps the two maps, while other threads read and update.

* `mem_walkThroughUnspent`: **a walk visits what reading finds**, each output once.
* `unspent_one_map`: **the store behaves as one map**.
-/

namespace Minemon

/-- `Flush` is two steps, and `fCommitted` says that it is between them. -/
structure CForkUnspentDB where
  db : OrdMap CTxOutPoint CTxOut
  mapCache : Bool → OrdMap CTxOutPoint CTxOut := fun _ => OrdMap.empty
  nIdxUpper : Bool := false
  fCommitted : Bool := false

namespace CForkUnspentDB

section

variable (s : CForkUnspentDB)

def getUpperMap : OrdMap CTxOutPoint CTxOut := s.mapCache s.nIdxUpper

def getLowerMap : OrdMap CTxOutPoint CTxOut := s.mapCache (!s.nIdxUpper)

def updateUnspent (vAddNew : List (CTxOutPoint × CTxOut)) (vRemove : List CTxOutPoint) : CForkUnspentDB :=
  let mapUpper := vAddNew.foldl (fun m e => m.insert e.1 e.2) s.getUpperMap
  let mapUpper := vRemove.foldl (fun m txout => m.insert txout CTxOut.null) mapUpper
  { s with mapCache := Function.update s.mapCache s.nIdxUpper mapUpper }

def commit : CForkUnspentDB :=
  let vAddNew := s.getLowerMap.toList.filter fun e => !e.2.isNull
  let vRemove := (s.getLowerMap.toList.filter fun e => e.2.isNull).map Prod.fst
  { s with
    db := vRemove.foldl OrdMap.erase (vAddNew.foldl (fun db e => db.insert e.1 e.2) s.db)
    fCommitted := true }

def flip : CForkUnspentDB :=
  if s.fCommitted then
    { s with
      mapCache := Function.update s.mapCache (!s.nIdxUpper) OrdMap.empty
      nIdxUpper := !s.nIdxUpper
      fCommitted := false }
  else s

end

section

variable (mapUpper mapLower db : OrdMap CTxOutPoint CTxOut)

/-- `ReadUnspent`, which looks at the three parts one after the other. -/
def readUnspent (txout : CTxOutPoint) : Option CTxOut :=
  match mapUpper.find? txout with
  | some output => if output.isNull then none else some output
  | none =>
    match mapLower.find? txout with
    | some output => if output.isNull then none else some output
    | none => db.find? txout

/-- What `WalkThroughUnspent` visits; the order of the database is left open. -/
def walkThroughUnspent : List (CTxOutPoint × CTxOut) :=
  (db.toList.filter fun e => !((mapUpper.find? e.1).isSome || (mapLower.find? e.1).isSome)) ++
    (mapLower.toList.filter fun e => !(mapUpper.find? e.1).isSome && !e.2.isNull) ++
    mapUpper.toList.filter fun e => !e.2.isNull

end

end CForkUnspentDB

inductive UnspentStep
  | update (vAddNew : List (CTxOutPoint × CTxOut)) (vRemove : List CTxOutPoint)
  | commit
  | flip

/-- The store, and one map that all batches have updated. -/
structure UnspentRun where
  store : CForkUnspentDB
  all : CTxOutPoint → Option CTxOut

def UnspentRun.call (x : UnspentRun) : UnspentStep → UnspentRun
  | .update vAddNew vRemove => ⟨x.store.updateUnspent vAddNew vRemove, CBlockBase.updateUnspent x.all vAddNew vRemove⟩
  | .commit => { x with store := x.store.commit }
  | .flip => { x with store := x.store.flip }

/-! ## Maps over maps -/

def layered (m : OrdMap CTxOutPoint CTxOut) (rest : CTxOutPoint → Option CTxOut) : CTxOutPoint → Option CTxOut :=
  fun txout => (m.find? txout).elim (rest txout) fun output => if output.isNull then none else some output

section

variable {m mapUpper mapLower db : OrdMap CTxOutPoint CTxOut} {rest : CTxOutPoint → Option CTxOut}

theorem layered_of_none {txout : CTxOutPoint} (h : m.find? txout = none) : layered m rest txout = rest txout := by
  rw [layered, h, Option.elim_none]

theorem layered_congr {txout : CTxOutPoint} {v : CTxOut} (h : m.find? txout = some v)
    (rest' : CTxOutPoint → Option CTxOut) : layered m rest txout = layered m rest' txout := by
  rw [layered, layered, h, Option.elim_some, Option.elim_some]

theorem layered_twice (m : OrdMap CTxOutPoint CTxOut) (rest : CTxOutPoint → Option CTxOut) :
    layered m (layered m rest) = layered m rest := by
  funext txout
  cases h : m.find? txout with
  | none => rw [layered_of_none h]
  | some v => exact layered_congr h _

theorem layered_insert (m : OrdMap CTxOutPoint CTxOut) (e : CTxOutPoint × CTxOut) :
    layered (m.insert e.1 e.2) rest = Function.update (layered m rest) e.1 (if e.2.isNull then none else some e.2) := by
  funext txout
  rw [layered, OrdMap.find?_insert, Function.update_apply]
  by_cases h : txout = e.1
  · rw [if_pos h, if_pos h, Option.elim_some]
  · rw [if_neg h, if_neg h]
    rfl

theorem readUnspent_eq (txout : CTxOutPoint) :
    CForkUnspentDB.readUnspent mapUpper mapLower db txout = layered mapUpper (layered mapLower db.find?) txout := by
  unfold CForkUnspentDB.readUnspent layered
  cases mapUpper.find? txout with
  | some output => rfl
  | none => cases mapLower.find? txout <;> rfl

/-- **A walk visits what reading finds.** -/
theorem mem_walkThroughUnspent {e : CTxOutPoint × CTxOut} :
    e ∈ CForkUnspentDB.walkThroughUnspent mapUpper mapLower db ↔
      layered mapUpper (layered mapLower db.find?) e.1 = some e.2 := by
  obtain ⟨txout, output⟩ := e
  simp only [CForkUnspentDB.walkThroughUnspent, List.mem_append, List.mem_filter, ← OrdMap.find?_eq_some]
  unfold layered
  cases mapUpper.find? txout <;> cases mapLower.find? txout <;> grind

theorem nodup_walkThroughUnspent : ((CForkUnspentDB.walkThroughUnspent mapUpper mapLower db).map Prod.fst).Nodup := by
  have hpart : ∀ (m : OrdMap CTxOutPoint CTxOut) p, ((m.toList.filter p).map Prod.fst).Nodup := fun m p =>
    m.keys_nodup.sublist (List.filter_sublist.map _)
  have hapart : ∀ {m : OrdMap CTxOutPoint CTxOut} {p} {l : List (CTxOutPoint × CTxOut)},
      (∀ e ∈ l, m.find? e.1 = none) → (l.map Prod.fst).Disjoint ((m.toList.filter p).map Prod.fst) := by
    intro m p l hl txout hleft hright
    obtain ⟨e, he, rfl⟩ := List.mem_map.1 hleft
    exact OrdMap.find?_eq_none.1 (hl e he) ((List.filter_sublist.map _).subset hright)
  have hdb : ∀ e ∈ db.toList.filter fun e => !((mapUpper.find? e.1).isSome || (mapLower.find? e.1).isSome),
      mapUpper.find? e.1 = none ∧ mapLower.find? e.1 = none := fun e he => by simpa using (List.mem_filter.1 he).2
  unfold CForkUnspentDB.walkThroughUnspent
  rw [List.map_append]
  refine List.Nodup.append ?_ (hpart _ _) (hapart fun e he => ?_)
  · rw [List.map_append]
    refine (hpart _ _).append (hpart _ _) (hapart fun e he => ?_)
    exact (hdb e he).2
  · rcases List.mem_append.1 he with he | he
    · exact (hdb e he).1
    · obtain ⟨hnone, -⟩ : mapUpper.find? e.1 = none ∧ e.2.isNull = false := by simpa using (List.mem_filter.1 he).2
      exact hnone

end

/-! ## The steps -/

namespace CForkUnspentDB

def below (s : CForkUnspentDB) : CTxOutPoint → Option CTxOut := layered s.getLowerMap s.db.find?

theorem find?_commit (s : CForkUnspentDB) : s.commit.db.find? = s.below := by
  funext txout
  have hadd := OrdMap.find?_foldl_upsert (fun output _ => output) (s.getLowerMap.filter fun e => !e.2.isNull).keys_nodup
    s.db txout
  have hremove := OrdMap.find?_eq_none (m := s.getLowerMap.filter fun e => e.2.isNull) (k := txout)
  rw [OrdMap.find?_filter] at hremove
  have hfilter := OrdMap.find?_filter s.getLowerMap (fun e => !e.2.isNull) txout
  rw [OrdMap.find?] at hfilter
  rw [hfilter] at hadd
  refine (OrdMap.find?_foldl_erase (s.getLowerMap.filter fun e => e.2.isNull).keys _ _).trans ?_
  unfold below layered
  cases hlower : s.getLowerMap.find? txout with
  | none =>
    rw [hlower] at hadd hremove
    rw [if_neg (hremove.1 rfl)]
    exact hadd
  | some output =>
    rw [hlower] at hadd hremove
    cases hnull : output.isNull with
    | true =>
      rw [if_pos (not_not.1 (mt hremove.2 (by simp [hnull])))]
      exact (if_pos hnull).symm
    | false =>
      rw [if_neg (hremove.1 (by simp [hnull]))]
      rw [Option.filter_some_pos (by simp [hnull])] at hadd
      exact hadd.trans (if_neg (by simp [hnull])).symm

theorem maps_flip {s : CForkUnspentDB} (h : s.fCommitted = true) :
    s.flip.getUpperMap = OrdMap.empty ∧ s.flip.getLowerMap = s.getUpperMap ∧ s.flip.db = s.db ∧
      s.flip.fCommitted = false := by
  rw [flip, if_pos h]
  refine ⟨Function.update_self .., ?_, rfl, rfl⟩
  show Function.update s.mapCache (!s.nIdxUpper) OrdMap.empty (!!s.nIdxUpper) = _
  rw [Bool.not_not]
  exact Function.update_of_ne (Bool.not_ne_self _).symm _ _

end CForkUnspentDB

namespace UnspentRun

variable {x : UnspentRun}

/-- The store as the one map; after the commit the database has what is in the lower map. -/
def Agrees (x : UnspentRun) : Prop :=
  x.all = layered x.store.getUpperMap x.store.below ∧ (x.store.fCommitted = true → x.store.db.find? = x.store.below)

/-- What a step does to the parts that a reader looks at later. -/
def Moves (x y : UnspentRun) : Prop :=
  (y.store.below = x.store.below ∨ y.store.below = y.all) ∧
    (y.store.db = x.store.db ∨ y.store.db.find? = x.store.below)

theorem Agrees.call (h : x.Agrees) (step : UnspentStep) : (x.call step).Agrees ∧ x.Moves (x.call step) := by
  cases step with
  | update vAddNew vRemove =>
    have hlower : (x.store.updateUnspent vAddNew vRemove).getLowerMap = x.store.getLowerMap :=
      Function.update_of_ne (Bool.not_ne_self _) _ _
    have hbelow : (x.store.updateUnspent vAddNew vRemove).below = x.store.below := by
      rw [CForkUnspentDB.below, hlower]
      rfl
    refine ⟨⟨?_, fun hcommitted => (h.2 hcommitted).trans hbelow.symm⟩, Or.inl hbelow, Or.inl rfl⟩
    have hupper : (x.store.updateUnspent vAddNew vRemove).getUpperMap = _ := Function.update_self ..
    show CBlockBase.updateUnspent x.all vAddNew vRemove =
      layered (x.store.updateUnspent vAddNew vRemove).getUpperMap (x.store.updateUnspent vAddNew vRemove).below
    rw [hbelow, hupper, h.1, CBlockBase.updateUnspent]
    rw [List.foldl_hom (layered · x.store.below) fun m e => (layered_insert m e).symm]
    exact List.foldl_hom (layered · x.store.below) fun m txout => (layered_insert m (txout, CTxOut.null)).symm
  | commit =>
    have hbelow : x.store.commit.below = x.store.below := by
      show layered x.store.getLowerMap x.store.commit.db.find? = _
      rw [x.store.find?_commit]
      exact layered_twice _ _
    refine ⟨⟨?_, fun _ => x.store.find?_commit.trans hbelow.symm⟩, Or.inl hbelow, Or.inr x.store.find?_commit⟩
    show x.all = layered x.store.getUpperMap x.store.commit.below
    rw [hbelow, h.1]
  | flip =>
    by_cases hcommitted : x.store.fCommitted = true
    · obtain ⟨hupper, hlower, hdb, hdone⟩ := CForkUnspentDB.maps_flip hcommitted
      have hbelow : x.store.flip.below = x.all := by
        rw [CForkUnspentDB.below, hlower, hdb, h.1, h.2 hcommitted]
      refine ⟨⟨?_, fun hfalse => ?_⟩, Or.inr hbelow, Or.inl hdb⟩
      · show x.all = layered x.store.flip.getUpperMap x.store.flip.below
        rw [hupper, hbelow]
        rfl
      · rw [show x.store.flip.fCommitted = true from hfalse] at hdone
        cases hdone
    · have hsame : x.call .flip = x := by
        show UnspentRun.mk x.store.flip x.all = x
        rw [CForkUnspentDB.flip, if_neg hcommitted]
      rw [hsame]
      exact ⟨h, Or.inl rfl, Or.inl rfl⟩

/-! ## Runs -/

variable (db : OrdMap CTxOutPoint CTxOut) (l : List UnspentStep)

/-- A run that begins with a database and empty maps. -/
def after (n : ℕ) : UnspentRun := Run.states UnspentRun.call ⟨{ db := db }, db.find?⟩ l n

theorem after_spec (n : ℕ) : (after db l n).Agrees ∧ (after db l n).Moves (after db l (n + 1)) := by
  have hmoves : ∀ n, (after db l n).Agrees → (after db l (n + 1)).Agrees ∧
      (after db l n).Moves (after db l (n + 1)) := by
    intro n h
    rcases Run.states_succ UnspentRun.call ⟨{ db := db }, db.find?⟩ l n with heq | ⟨step, heq⟩
    · rw [after, heq]
      exact ⟨h, Or.inl rfl, Or.inl rfl⟩
    · rw [after, heq]
      exact h.call step
  have hagrees : (after db l n).Agrees := by
    induction n with
    | zero => exact ⟨rfl, fun h => by cases h⟩
    | succ n ih => exact (hmoves n ih).1
  exact ⟨hagrees, (hmoves n hagrees).2⟩

theorem below_after (n i : ℕ) (txout : CTxOutPoint) :
    (after db l (n + i)).store.below txout = (after db l n).store.below txout ∨
      ∃ j, n ≤ j ∧ j ≤ n + i ∧ (after db l (n + i)).store.below txout = (after db l j).all txout := by
  induction i with
  | zero => exact Or.inl rfl
  | succ i ih =>
    rcases (after_spec db l (n + i)).2.1 with hsame | hall
    · rw [← Nat.add_assoc, hsame]
      exact ih.imp_right fun ⟨j, hn, hj, heq⟩ => ⟨j, hn, by omega, heq⟩
    · exact Or.inr ⟨n + (i + 1), by omega, le_rfl, congrFun hall txout⟩

theorem db_after {n : ℕ} {txout : CTxOutPoint} (h : (after db l n).store.getLowerMap.find? txout = none) (i : ℕ) :
    ∃ j, j ≤ i ∧ (after db l (n + i)).store.db.find? txout = (after db l (n + j)).store.below txout := by
  induction i with
  | zero => exact ⟨0, le_rfl, (layered_of_none h).symm⟩
  | succ i ih =>
    rcases (after_spec db l (n + i)).2.2 with hsame | hbelow
    · obtain ⟨j, hj, heq⟩ := ih
      exact ⟨j, by omega, by rw [← Nat.add_assoc, hsame, heq]⟩
    · exact ⟨i, by omega, congrFun hbelow txout⟩

/-- **The store behaves as one map.** A reader that looks at the upper map, later at the lower one and later still at
the database finds what the map has at some moment in between; a walk, with the database before or after a commit,
visits the outputs of the map, each once. -/
theorem unspent_one_map :
    (∀ n i j txout, ∃ m, n ≤ m ∧ m ≤ n + i + j ∧
      CForkUnspentDB.readUnspent (after db l n).store.getUpperMap (after db l (n + i)).store.getLowerMap
        (after db l (n + i + j)).store.db txout = (after db l m).all txout) ∧
    ∀ n, ∀ db' ∈ [(after db l n).store.db, (after db l n).store.commit.db],
      ((CForkUnspentDB.walkThroughUnspent (after db l n).store.getUpperMap (after db l n).store.getLowerMap db').map
        Prod.fst).Nodup ∧
      ∀ e, e ∈ CForkUnspentDB.walkThroughUnspent (after db l n).store.getUpperMap (after db l n).store.getLowerMap db' ↔
        (after db l n).all e.1 = some e.2 := by
  refine ⟨fun n i j txout => ?_, fun n db' hdb' => ⟨nodup_walkThroughUnspent, fun e => ?_⟩⟩
  · rw [readUnspent_eq]
    have hall := congrFun (after_spec db l n).1.1 txout
    cases hupper : (after db l n).store.getUpperMap.find? txout with
    | some output => exact ⟨n, le_rfl, by omega, (layered_congr hupper _).trans hall.symm⟩
    | none =>
      rw [layered_of_none hupper] at hall ⊢
      -- what is found below stood there at some moment after the upper map was read
      obtain ⟨k, hk, hfound⟩ : ∃ k, k ≤ i + j ∧ layered (after db l (n + i)).store.getLowerMap
          (after db l (n + i + j)).store.db.find? txout = (after db l (n + k)).store.below txout := by
        cases hlower : (after db l (n + i)).store.getLowerMap.find? txout with
        | some output => exact ⟨i, by omega, layered_congr hlower _⟩
        | none =>
          obtain ⟨k, hk, heq⟩ := db_after db l hlower j
          exact ⟨i + k, by omega, by rw [layered_of_none hlower, heq, Nat.add_assoc]⟩
      rw [hfound]
      rcases below_after db l n k txout with hsame | ⟨m, hn, hm, heq⟩
      · exact ⟨n, le_rfl, by omega, by rw [hsame, hall]⟩
      · exact ⟨m, hn, by omega, heq⟩
  · have hlayered : layered (after db l n).store.getLowerMap db'.find? = (after db l n).store.below := by
      rcases List.mem_pair.1 hdb' with rfl | rfl
      · rfl
      · rw [CForkUnspentDB.find?_commit]
        exact layered_twice _ _
    rw [mem_walkThroughUnspent, hlayered, (after_spec db l n).1.1]

end UnspentRun

end Minemon
