import Minemon.Storage.PledgeCache
import Minemon.Storage.RedeemDB

/-!
# The redeem database with its caches

`storage/redeemdb.cpp` as it stands, with the two bounded caches of the pledge database; `GetAddressRedeem`
is written once for the caches and once for the database itself.

* `CRedeemDB.reads_retrieve`, `CRedeemDB.reads_getAddressRedeem`: what the readers give, from the contexts alone.
-/

namespace Minemon

abbrev CRedeemDB := CachedStore ℕ CRedeemContext

namespace CRedeemDB

variable (E : Env)

def getCacheRedeem (hashBlock : ℕ) : OptionT (StateM CRedeemDB) CRedeemContext :=
  if hashBlock = 0 then failure
  else OptionT.mk (CachedStore.getCache (isFullRedeem E) MAX_FULL_CACHE_COUNT MAX_INC_CACHE_COUNT hashBlock)

/-- `GetRedeem`, in both its forms, and `RetrieveBlockRedeem` -/
def getRedeem (hashBlock : ℕ) : OptionT (StateM CRedeemDB) CRedeemContext :=
  if hashBlock = 0 then pure {}
  else CachedStore.ifCache (getCacheRedeem E hashBlock) (OptionT.mk (CachedStore.read hashBlock))

def retrieve (hashBlock : ℕ) : OptionT (StateM CRedeemDB) CRedeemContext := do
  let ctxt ← getRedeem E hashBlock
  if ctxt.hashRef = 0 then pure ctxt
  else do
    let ref ← getRedeem E ctxt.hashRef
    pure ⟨0, overwriteRedeem ref.mapRedeem ctxt.mapRedeem⟩

def getFullBlockRedeem (hashBlock hashPrev : ℕ) (vTxRedeem : List (CDestination × ℤ)) :
    OptionT (StateM CRedeemDB) CRedeemContext := do
  let ctxt ← getRedeem E hashPrev
  if ctxt.hashRef = 0 then pure (fullRedeem hashBlock vTxRedeem ctxt.mapRedeem)
  else do
    let ref ← getRedeem E ctxt.hashRef
    pure (fullRedeem hashBlock vTxRedeem (overwriteRedeem ref.mapRedeem ctxt.mapRedeem))

def getIncrementBlockRedeem (hashBlock hashPrev : ℕ) (vTxRedeem : List (CDestination × ℤ)) :
    OptionT (StateM CRedeemDB) CRedeemContext := do
  let ctxt ← getRedeem E hashPrev
  if ctxt.hashRef = 0 then pure ⟨hashPrev, incRedeem hashBlock vTxRedeem ctxt.mapRedeem OrdMap.empty⟩
  else do
    let ref ← getRedeem E ctxt.hashRef
    pure ⟨ctxt.hashRef, incRedeem hashBlock vTxRedeem ref.mapRedeem ctxt.mapRedeem⟩

/-- `GetBlockRedeem`: the context of a block, not written. -/
def getBlockRedeem (hashBlock hashPrev : ℕ) (vTxRedeem : List (CDestination × ℤ)) :
    OptionT (StateM CRedeemDB) CRedeemContext :=
  if isFullRedeem E hashBlock then getFullBlockRedeem E hashBlock hashPrev vTxRedeem
  else getIncrementBlockRedeem E hashBlock hashPrev vTxRedeem

def addRedeem (hashBlock : ℕ) (ctxtRedeem : CRedeemContext) : OptionT (StateM CRedeemDB) Unit :=
  OptionT.lift (CachedStore.add (isFullRedeem E) MAX_FULL_CACHE_COUNT MAX_INC_CACHE_COUNT hashBlock ctxtRedeem)

def addBlockRedeem (hashBlock hashPrev : ℕ) (vTxRedeem : List (CDestination × ℤ)) :
    OptionT (StateM CRedeemDB) Unit := do
  let ctxtRedeem ← getBlockRedeem E hashBlock hashPrev vTxRedeem
  addRedeem E hashBlock ctxtRedeem

/-- The entry of an address, from contexts that `get` gives. -/
def addressRedeemFrom (get : ℕ → OptionT (StateM CRedeemDB) CRedeemContext) (hashBlock : ℕ) (dest : CDestination) :
    OptionT (StateM CRedeemDB) CDestRedeem := do
  let ctxt ← get hashBlock
  match ctxt.mapRedeem.find? dest with
  | some redeem => pure redeem
  | none =>
    if isFullRedeem E hashBlock || ctxt.hashRef == 0 then pure {}
    else do
      let ref ← get ctxt.hashRef
      pure ((ref.mapRedeem.find? dest).getD {})

/-- `RetrieveAddressRedeem`: the two ways differ in where they get a context. -/
def getAddressRedeem (hashBlock : ℕ) (dest : CDestination) : OptionT (StateM CRedeemDB) CDestRedeem :=
  if hashBlock = 0 then pure {}
  else
    CachedStore.ifCache (addressRedeemFrom E (getCacheRedeem E) hashBlock dest)
      (addressRedeemFrom E (fun hash => OptionT.mk (CachedStore.read hash)) hashBlock dest)

/-! ## What the readers give -/

open CachedStore

theorem reads_getCacheRedeem (hashBlock : ℕ) :
    Reads (getCacheRedeem E hashBlock).run fun c db =>
      if hashBlock = 0 then none else if c then db hashBlock else none := by
  unfold getCacheRedeem
  split_ifs
  · exact Reads.pure none
  · exact Reads.getCache _ _ _ hashBlock

theorem reads_getRedeem (hashBlock : ℕ) :
    Reads (getRedeem E hashBlock).run fun _ db => Minemon.getRedeem db hashBlock := by
  unfold getRedeem Minemon.getRedeem
  split_ifs with h0
  · exact Reads.run_pure _
  · refine (Reads.run_ifCache (reads_getCacheRedeem E hashBlock) (Reads.read hashBlock)).congr fun c db => ?_
    cases c <;> simp [h0]

theorem reads_withRef {α : Type} (hashBlock : ℕ) (whole : CRedeemContext → α)
    (both : CRedeemContext → CRedeemContext → α) :
    Reads (do
        let ctxt ← getRedeem E hashBlock
        if ctxt.hashRef = 0 then pure (whole ctxt)
        else do
          let ref ← getRedeem E ctxt.hashRef
          pure (both ref ctxt) : OptionT (StateM CRedeemDB) α).run
      fun _ db =>
        match Minemon.getRedeem db hashBlock with
        | none => none
        | some ctxt =>
          if ctxt.hashRef = 0 then some (whole ctxt)
          else match Minemon.getRedeem db ctxt.hashRef with | none => none | some ref => some (both ref ctxt) := by
  refine (Reads.run_bind (r := fun ctxt _ db => if ctxt.hashRef = 0 then some (whole ctxt)
    else (Minemon.getRedeem db ctxt.hashRef).bind fun ref => some (both ref ctxt))
    (reads_getRedeem E hashBlock) fun ctxt => ?_).congr fun _ db => ?_
  · split_ifs
    · exact Reads.run_pure _
    · exact Reads.run_bind (reads_getRedeem E _) fun ref => Reads.run_pure _
  · cases Minemon.getRedeem db hashBlock with
    | none => rfl
    | some ctxt =>
      simp only [Option.bind_some]
      cases Minemon.getRedeem db ctxt.hashRef <;> rfl

theorem reads_retrieve (hashBlock : ℕ) : Reads (retrieve E hashBlock).run fun _ db => Minemon.retrieve db hashBlock :=
  reads_withRef E hashBlock _ _

theorem reads_getBlockRedeem (hashBlock hashPrev : ℕ) (vTxRedeem : List (CDestination × ℤ)) :
    Reads (getBlockRedeem E hashBlock hashPrev vTxRedeem).run fun _ db =>
      Minemon.addBlockRedeem E db hashBlock hashPrev vTxRedeem := by
  unfold getBlockRedeem Minemon.addBlockRedeem
  split_ifs
  · exact reads_withRef E hashPrev _ _
  · exact reads_withRef E hashPrev _ _

theorem reads_addressRedeemFrom {get : ℕ → OptionT (StateM CRedeemDB) CRedeemContext} {g : Bool → Bool}
    (hget : ∀ k, k ≠ 0 → Reads (get k).run fun c db => if g c then db k else none) {hashBlock : ℕ}
    (h0 : hashBlock ≠ 0) (dest : CDestination) :
    Reads (addressRedeemFrom E get hashBlock dest).run fun c db =>
      if g c then Minemon.getAddressRedeem E db hashBlock dest else none := by
  refine (Reads.run_bind (r := fun ctxt c db => match ctxt.mapRedeem.find? dest with
      | some redeem => some redeem
      | none => if isFullRedeem E hashBlock || ctxt.hashRef == 0 then some {}
          else (if g c then db ctxt.hashRef else none).bind fun ref => some ((ref.mapRedeem.find? dest).getD {}))
    (hget hashBlock h0) fun ctxt => ?_).congr fun c db => ?_
  · cases ctxt.mapRedeem.find? dest with
    | some redeem => exact Reads.run_pure _
    | none =>
      dsimp only
      split_ifs with href
      · exact Reads.run_pure _
      · have hne : ctxt.hashRef ≠ 0 := by
          intro h
          simp [h] at href
        exact Reads.run_bind (hget _ hne) fun ref => Reads.run_pure _
  · unfold Minemon.getAddressRedeem
    cases g c with
    | false => rfl
    | true =>
      simp only [if_neg h0, if_true]
      cases db hashBlock with
      | none => rfl
      | some ctxt =>
        simp only [Option.bind_some]
        cases ctxt.mapRedeem.find? dest with
        | some redeem => rfl
        | none => cases db ctxt.hashRef <;> rfl

theorem reads_getAddressRedeem (hashBlock : ℕ) (dest : CDestination) :
    Reads (getAddressRedeem E hashBlock dest).run fun _ db => Minemon.getAddressRedeem E db hashBlock dest := by
  unfold getAddressRedeem
  split_ifs with h0
  · subst h0
    exact Reads.run_pure _
  · have hcache : ∀ k, k ≠ 0 → Reads (getCacheRedeem E k).run fun c db => if c then db k else none := fun k hk =>
      (reads_getCacheRedeem E k).congr fun c db => by rw [if_neg hk]
    have hread : ∀ k, k ≠ 0 → Reads (OptionT.mk (read k) : OptionT (StateM CRedeemDB) CRedeemContext).run fun _ db =>
      if true then db k else none := fun k _ => (Reads.read k).congr fun c db => by rw [if_pos rfl]
    refine (Reads.run_ifCache (reads_addressRedeemFrom E (g := id) hcache h0 dest)
      (reads_addressRedeemFrom E (g := fun _ => true) hread h0 dest)).congr fun c db => ?_
    cases c <;> rfl

end CRedeemDB

end Minemon
