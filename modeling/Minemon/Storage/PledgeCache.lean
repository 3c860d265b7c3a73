import Minemon.Lib.CachedStore
import Minemon.Storage.PledgeDB

/-!
# The pledge database with its caches

`storage/pledgedb.cpp` as it stands: the contexts are read through two bounded caches when `fCache` is
set, and from the database itself when it is not; the two ways are written separately.

* `CPledgeDB.reads_getPowPledgeList`, `CPledgeDB.reads_getAddressPledgeData`: what the readers give, from the
  contexts alone.
-/

namespace Minemon

abbrev CPledgeDB := CachedStore ℕ CPledgeContext

def MAX_FULL_CACHE_COUNT : ℕ := 16

def MAX_INC_CACHE_COUNT : ℕ := 1440 * 2

namespace CPledgeDB

variable (E : Env)

def getCachePledgeContext (hashBlock : ℕ) : OptionT (StateM CPledgeDB) CPledgeContext :=
  if hashBlock = 0 then failure
  else OptionT.mk (CachedStore.getCache (isFullPledge E) MAX_FULL_CACHE_COUNT MAX_INC_CACHE_COUNT hashBlock)

/-- `GetPledge`, in both its forms, and `RetrieveBlockPledge` -/
def getPledge (hashBlock : ℕ) : OptionT (StateM CPledgeDB) CPledgeContext :=
  if hashBlock = 0 then pure {}
  else CachedStore.ifCache (getCachePledgeContext E hashBlock) (OptionT.mk (CachedStore.read hashBlock))

def getFullPledge (hashBlock : ℕ) : OptionT (StateM CPledgeDB) CPledgeContext := do
  let ctxt ← getPledge E hashBlock
  if ctxt.hashRef = 0 then pure ctxt
  else do
    let ref ← getPledge E ctxt.hashRef
    pure ⟨0, addIncPledge ref.mapPledge ctxt.mapPledge⟩

def getFullBlockPledge (hashPrev : ℕ) (mapBlockPledge : PledgeMap) : OptionT (StateM CPledgeDB) CPledgeContext := do
  let ctxt ← getFullPledge E hashPrev
  pure ⟨ctxt.hashRef, clearEmpty (addIncPledge ctxt.mapPledge mapBlockPledge)⟩

def getIncrementBlockPledge (hashPrev : ℕ) (mapBlockPledge : PledgeMap) :
    OptionT (StateM CPledgeDB) CPledgeContext := do
  let ctxt ← getPledge E hashPrev
  if ctxt.hashRef = 0 then pure ⟨hashPrev, addIncPledge OrdMap.empty mapBlockPledge⟩
  else pure ⟨ctxt.hashRef, addIncPledge ctxt.mapPledge mapBlockPledge⟩

/-- `GetBlockPledge`: the context of a block, not written. -/
def getBlockPledge (hashBlock hashPrev : ℕ) (mapBlockPledge : PledgeMap) : OptionT (StateM CPledgeDB) CPledgeContext :=
  if isFullPledge E hashBlock then getFullBlockPledge E hashPrev mapBlockPledge
  else getIncrementBlockPledge E hashPrev mapBlockPledge

def addPledge (hashBlock : ℕ) (ctxtPledge : CPledgeContext) : OptionT (StateM CPledgeDB) Unit :=
  OptionT.lift (CachedStore.add (isFullPledge E) MAX_FULL_CACHE_COUNT MAX_INC_CACHE_COUNT hashBlock ctxtPledge)

def addBlockPledge (hashBlock hashPrev : ℕ) (mapBlockPledge : PledgeMap) : OptionT (StateM CPledgeDB) Unit := do
  let ctxtPledge ← getBlockPledge E hashBlock hashPrev mapBlockPledge
  addPledge E hashBlock ctxtPledge

/-- `RetrievePowPledgeList`. While the reference is read into its cache, the increment stays in the other one. -/
def getPowPledgeList (hashBlock : ℕ) (destPowMint : CDestination) : OptionT (StateM CPledgeDB) PowPledges :=
  let pow (ctxt : CPledgeContext) : PowPledges := (ctxt.mapPledge.find? destPowMint).getD OrdMap.empty
  if hashBlock = 0 then pure OrdMap.empty
  else
    CachedStore.ifCache
      (do
        let ctxt ← getCachePledgeContext E hashBlock
        if isFullPledge E hashBlock then pure (pow ctxt)
        else if ctxt.hashRef = 0 then pure (addPowPledges OrdMap.empty (pow ctxt))
        else do
          let ref ← getCachePledgeContext E ctxt.hashRef
          pure (addPowPledges (pow ref) (pow ctxt)))
      (do
        let ctxt ← getFullPledge E hashBlock
        pure (pow ctxt))

def getAddressPledgeData (hashBlock : ℕ) (destPowMint destPledge : CDestination) :
    OptionT (StateM CPledgeDB) (ℤ × ℕ) :=
  let entry (ctxt : CPledgeContext) : Option (ℤ × ℕ) :=
    ((ctxt.mapPledge.find? destPowMint).getD OrdMap.empty).find? destPledge
  let add (ctxt : CPledgeContext) (old : ℤ × ℕ) : ℤ × ℕ := (entry ctxt).elim old (addPledgeValue (some old))
  if hashBlock = 0 then pure (0, 0)
  else
    CachedStore.ifCache
      (do
        let ctxt ← getCachePledgeContext E hashBlock
        if isFullPledge E hashBlock then pure ((entry ctxt).getD (0, 0))
        else if ctxt.hashRef = 0 then pure (add ctxt (0, 0))
        else do
          let ref ← getCachePledgeContext E ctxt.hashRef
          pure (add ctxt ((entry ref).getD (0, 0))))
      (do
        let ctxt ← getFullPledge E hashBlock
        pure ((entry ctxt).getD (0, 0)))

/-! ## What the readers give -/

open CachedStore

theorem reads_getCachePledgeContext (hashBlock : ℕ) :
    Reads (getCachePledgeContext E hashBlock).run fun c db =>
      if hashBlock = 0 then none else if c then db hashBlock else none := by
  unfold getCachePledgeContext
  split_ifs
  · exact Reads.pure none
  · exact Reads.getCache _ _ _ hashBlock

theorem reads_getPledge (hashBlock : ℕ) :
    Reads (getPledge E hashBlock).run fun _ db => Minemon.getPledge db hashBlock := by
  unfold getPledge Minemon.getPledge
  split_ifs with h0
  · exact Reads.run_pure _
  · refine (Reads.run_ifCache (reads_getCachePledgeContext E hashBlock) (Reads.read hashBlock)).congr fun c db => ?_
    cases c <;> simp [h0]

theorem reads_getFullPledge (hashBlock : ℕ) :
    Reads (getFullPledge E hashBlock).run fun _ db => Minemon.getFullPledge db hashBlock := by
  refine (Reads.run_bind (r := fun ctxt _ db => if ctxt.hashRef = 0 then some ctxt
    else (Minemon.getPledge db ctxt.hashRef).bind fun ref => some ⟨0, addIncPledge ref.mapPledge ctxt.mapPledge⟩)
    (reads_getPledge E hashBlock) fun ctxt => ?_).congr fun _ db => ?_
  · split_ifs
    · exact Reads.run_pure _
    · exact Reads.run_bind (reads_getPledge E _) fun ref => Reads.run_pure _
  · unfold Minemon.getFullPledge
    cases Minemon.getPledge db hashBlock with
    | none => rfl
    | some ctxt =>
      show (if _ then _ else _) = if _ then _ else _
      cases Minemon.getPledge db ctxt.hashRef <;> rfl

theorem reads_getBlockPledge (hashBlock hashPrev : ℕ) (mapBlockPledge : PledgeMap) :
    Reads (getBlockPledge E hashBlock hashPrev mapBlockPledge).run fun _ db =>
      Minemon.addBlockPledge E db hashBlock hashPrev mapBlockPledge := by
  unfold getBlockPledge Minemon.addBlockPledge
  split_ifs
  · refine (Reads.run_bind (reads_getFullPledge E hashPrev) fun ctxt => Reads.run_pure _).congr fun _ db => ?_
    unfold Minemon.getFullBlockPledge
    cases Minemon.getFullPledge db hashPrev <;> rfl
  · refine (Reads.run_bind (r := fun ctxt _ _ => if ctxt.hashRef = 0
      then some ⟨hashPrev, addIncPledge OrdMap.empty mapBlockPledge⟩
      else some ⟨ctxt.hashRef, addIncPledge ctxt.mapPledge mapBlockPledge⟩)
      (reads_getPledge E hashPrev) fun ctxt => ?_).congr fun _ db => ?_
    · split_ifs <;> exact Reads.run_pure _
    · unfold Minemon.getIncrementBlockPledge
      cases Minemon.getPledge db hashPrev <;> rfl

/-- The way both readers take: with the caches, the context of a block and, for an increment, its reference. -/
theorem reads_withRef {α : Type} {hashBlock : ℕ} (h0 : hashBlock ≠ 0) (whole first : CPledgeContext → α)
    (both : CPledgeContext → CPledgeContext → α) :
    Reads (ifCache
      (do
        let ctxt ← getCachePledgeContext E hashBlock
        if isFullPledge E hashBlock then pure (whole ctxt)
        else if ctxt.hashRef = 0 then pure (first ctxt)
        else do
          let ref ← getCachePledgeContext E ctxt.hashRef
          pure (both ref ctxt))
      (do
        let ctxt ← getFullPledge E hashBlock
        pure (whole ctxt))).run
      fun c db => if c then
        match db hashBlock with
        | none => none
        | some ctxt =>
          if isFullPledge E hashBlock then some (whole ctxt)
          else if ctxt.hashRef = 0 then some (first ctxt)
          else match db ctxt.hashRef with | none => none | some ref => some (both ref ctxt)
      else (Minemon.getFullPledge db hashBlock).map whole := by
  refine (Reads.run_ifCache (Reads.run_bind (r := fun ctxt c db =>
    if isFullPledge E hashBlock then some (whole ctxt)
    else if ctxt.hashRef = 0 then some (first ctxt)
    else (if c then db ctxt.hashRef else none).bind fun ref => some (both ref ctxt))
    (reads_getCachePledgeContext E hashBlock) fun ctxt => ?_)
    (Reads.run_bind (reads_getFullPledge E hashBlock) fun ctxt => Reads.run_pure _)).congr fun c db => ?_
  · split_ifs with hf href
    · exact Reads.run_pure _
    · exact Reads.run_pure _
    · refine (Reads.run_bind (reads_getCachePledgeContext E _) fun ref => Reads.run_pure _).congr fun c db => ?_
      rw [if_neg href]
  · cases c with
    | false => cases Minemon.getFullPledge db hashBlock <;> rfl
    | true =>
      rw [if_neg h0]
      cases db hashBlock with
      | none => rfl
      | some ctxt =>
        simp only [if_true, Option.bind_some]
        cases db ctxt.hashRef <;> rfl

theorem reads_getPowPledgeList {hashBlock : ℕ} (h0 : hashBlock ≠ 0) (destPowMint : CDestination) :
    Reads (getPowPledgeList E hashBlock destPowMint).run fun c db =>
      if c then Minemon.getPowPledgeList E db hashBlock destPowMint
      else (Minemon.getFullPledge db hashBlock).map fun ctxt =>
        (ctxt.mapPledge.find? destPowMint).getD OrdMap.empty := by
  unfold getPowPledgeList Minemon.getPowPledgeList
  simp only [if_neg h0]
  exact reads_withRef E h0 _ _ _

theorem reads_getAddressPledgeData {hashBlock : ℕ} (h0 : hashBlock ≠ 0) (destPowMint destPledge : CDestination) :
    Reads (getAddressPledgeData E hashBlock destPowMint destPledge).run fun c db =>
      if c then Minemon.getAddressPledgeData E db hashBlock destPowMint destPledge
      else (Minemon.getFullPledge db hashBlock).map fun ctxt =>
        (((ctxt.mapPledge.find? destPowMint).getD OrdMap.empty).find? destPledge).getD (0, 0) := by
  unfold getAddressPledgeData Minemon.getAddressPledgeData
  simp only [if_neg h0]
  exact reads_withRef E h0 _ _ _

theorem same_getPowPledgeList (hashBlock : ℕ) (destPowMint : CDestination) {s : CPledgeDB} (hs : Coherent s) :
    Same s ((getPowPledgeList E hashBlock destPowMint).run s).2 := by
  by_cases h0 : hashBlock = 0
  · subst h0
    exact ⟨rfl, rfl, hs⟩
  · exact (reads_getPowPledgeList E h0 destPowMint s hs).2

theorem same_getAddressPledgeData (hashBlock : ℕ) (destPowMint destPledge : CDestination) {s : CPledgeDB}
    (hs : Coherent s) : Same s ((getAddressPledgeData E hashBlock destPowMint destPledge).run s).2 := by
  by_cases h0 : hashBlock = 0
  · subst h0
    exact ⟨rfl, rfl, hs⟩
  · exact (reads_getAddressPledgeData E h0 destPowMint destPledge s hs).2

end CPledgeDB

end Minemon
