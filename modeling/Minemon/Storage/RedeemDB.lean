import Minemon.Common.Block

/-!
# The redeem database

`storage/redeemdb.cpp`: for each block, the balance and the lock of each redeem address, kept as full
and incremental contexts like the pledges.
-/

namespace Minemon

structure CRedeemContext where
  hashRef : ℕ := 0
  mapRedeem : OrdMap CDestination CDestRedeem := OrdMap.empty

instance : Inhabited CRedeemContext := ⟨{}⟩

/-- A redeem address receives (`nAmount > 0`) or spends. -/
def addRedeemValue (nHeight : ℕ) (redeem : CDestRedeem) (nAmount : ℤ) : CDestRedeem :=
  let nBalance := wrap64 (redeem.nBalance + nAmount)
  if nAmount > 0 then ⟨nBalance, nBalance, nHeight⟩ else { redeem with nBalance := nBalance }

/-- One full map: the entries of `inc` replace those of `ref`. -/
def overwriteRedeem (ref inc : OrdMap CDestination CDestRedeem) : OrdMap CDestination CDestRedeem :=
  inc.toList.foldl (fun m kv => m.insert kv.1 kv.2) ref

/-- The loop of `GetFullBlockRedeem`, and what it erases. -/
def fullRedeem (hashBlock : ℕ) (vTxRedeem : List (CDestination × ℤ)) (m : OrdMap CDestination CDestRedeem) :
    CRedeemContext :=
  ⟨0, (vTxRedeem.foldl
    (fun m kv =>
      if kv.2 = 0 then m
      else m.upsert kv.1 fun r => addRedeemValue (getBlockHeightByHash hashBlock) (r.getD {}) kv.2) m).filter
    fun kv => kv.2.nBalance > 0⟩

/-- The loop of `GetIncrementBlockRedeem`. -/
def incRedeem (hashBlock : ℕ) (vTxRedeem : List (CDestination × ℤ)) (mapRef m : OrdMap CDestination CDestRedeem) :
    OrdMap CDestination CDestRedeem :=
  vTxRedeem.foldl
    (fun m kv =>
      if kv.2 = 0 then m
      else
        m.upsert kv.1 fun r =>
          addRedeemValue (getBlockHeightByHash hashBlock) (r.getD ((mapRef.find? kv.1).getD {})) kv.2) m

section

variable (E : Env) (db : ℕ → Option CRedeemContext)

def isFullRedeem (hashBlock : ℕ) : Bool :=
  getBlockHeightByHash hashBlock == 0
    || getBlockHeightByHash hashBlock % BPX_PLEDGE_REWARD_DISTRIBUTE_HEIGHT E == 1

def getRedeem (hashBlock : ℕ) : Option CRedeemContext := if hashBlock = 0 then some {} else db hashBlock

def getFullBlockRedeem (hashBlock hashPrev : ℕ) (vTxRedeem : List (CDestination × ℤ)) :
    Option CRedeemContext :=
  match getRedeem db hashPrev with
  | none => none
  | some ctxt =>
    if ctxt.hashRef = 0 then some (fullRedeem hashBlock vTxRedeem ctxt.mapRedeem)
    else
      match getRedeem db ctxt.hashRef with
      | none => none
      | some ref => some (fullRedeem hashBlock vTxRedeem (overwriteRedeem ref.mapRedeem ctxt.mapRedeem))

def getIncrementBlockRedeem (hashBlock hashPrev : ℕ) (vTxRedeem : List (CDestination × ℤ)) :
    Option CRedeemContext :=
  match getRedeem db hashPrev with
  | none => none
  | some ctxt =>
    if ctxt.hashRef = 0 then some ⟨hashPrev, incRedeem hashBlock vTxRedeem ctxt.mapRedeem OrdMap.empty⟩
    else
      match getRedeem db ctxt.hashRef with
      | none => none
      | some ref => some ⟨ctxt.hashRef, incRedeem hashBlock vTxRedeem ref.mapRedeem ctxt.mapRedeem⟩

/-- `AddBlockRedeem`: the context it writes at `hashBlock`. -/
def addBlockRedeem (hashBlock hashPrev : ℕ) (vTxRedeem : List (CDestination × ℤ)) :
    Option CRedeemContext :=
  if isFullRedeem E hashBlock then getFullBlockRedeem db hashBlock hashPrev vTxRedeem
  else getIncrementBlockRedeem db hashBlock hashPrev vTxRedeem

def retrieve (hashBlock : ℕ) : Option CRedeemContext :=
  match getRedeem db hashBlock with
  | none => none
  | some ctxt =>
    if ctxt.hashRef = 0 then some ctxt
    else
      match getRedeem db ctxt.hashRef with
      | none => none
      | some ref => some ⟨0, overwriteRedeem ref.mapRedeem ctxt.mapRedeem⟩

def getAddressRedeem (hashBlock : ℕ) (dest : CDestination) : Option CDestRedeem :=
  if hashBlock = 0 then some {}
  else
    match db hashBlock with
    | none => none
    | some ctxt =>
      match ctxt.mapRedeem.find? dest with
      | some redeem => some redeem
      | none =>
        if isFullRedeem E hashBlock || ctxt.hashRef == 0 then some {}
        else
          match db ctxt.hashRef with
          | none => none
          | some ref => some ((ref.mapRedeem.find? dest).getD {})

end

end Minemon
