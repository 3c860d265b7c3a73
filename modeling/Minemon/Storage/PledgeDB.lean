import Minemon.Common.Block

/-!
# The pledge database

`storage/pledgedb.cpp`: for each block, the amounts pledged to each mining address. A full context
holds all of them; an incremental one holds what changed since the full context it refers to. The
caches of the database are transparent and left out.

* `getPowPledgeList`, `getAddressPledgeData`: what the chain reads.
-/

namespace Minemon

/-- The pledges to one mining address: pledge address to amount and height. -/
abbrev PowPledges := OrdMap CDestination (ℤ × ℕ)

/-- Mining address to its pledges. -/
abbrev PledgeMap := OrdMap CDestination PowPledges

structure CPledgeContext where
  hashRef : ℕ := 0
  mapPledge : PledgeMap := OrdMap.empty

instance : Inhabited CPledgeContext := ⟨{}⟩

/-- `md.first += v.first`, and the height when there is one. -/
def addPledgeValue (md : Option (ℤ × ℕ)) (v : ℤ × ℕ) : ℤ × ℕ :=
  (wrap64 ((md.getD (0, 0)).1 + v.1), if 0 < v.2 then v.2 else (md.getD (0, 0)).2)

def addPowPledges (m inc : PowPledges) : PowPledges :=
  inc.toList.foldl (fun m vd => m.upsert vd.1 fun md => addPledgeValue md vd.2) m

/-- `AddIncPledge`; an address with no entry in `inc` is not touched. -/
def addIncPledge (m inc : PledgeMap) : PledgeMap :=
  inc.toList.foldl
    (fun m kv =>
      if kv.2.toList.isEmpty then m
      else m.upsert kv.1 fun pow => addPowPledges (pow.getD OrdMap.empty) kv.2) m

def clearEmpty (m : PledgeMap) : PledgeMap :=
  m.toList.foldl
    (fun acc kv =>
      let pow := kv.2.filter fun vd => vd.2.1 != 0
      if pow.toList.isEmpty then acc else acc.insert kv.1 pow) OrdMap.empty

section

variable (E : Env) (db : ℕ → Option CPledgeContext)

def isFullPledge (hashBlock : ℕ) : Bool :=
  getBlockHeightByHash hashBlock == 0
    || getBlockHeightByHash hashBlock % BPX_PLEDGE_REWARD_DISTRIBUTE_HEIGHT E == 1

def getPledge (hashBlock : ℕ) : Option CPledgeContext := if hashBlock = 0 then some {} else db hashBlock

def getFullPledge (hashBlock : ℕ) : Option CPledgeContext :=
  match getPledge db hashBlock with
  | none => none
  | some ctxt =>
    if ctxt.hashRef = 0 then some ctxt
    else
      match getPledge db ctxt.hashRef with
      | none => none
      | some ref => some ⟨0, addIncPledge ref.mapPledge ctxt.mapPledge⟩

def getFullBlockPledge (hashPrev : ℕ) (mapBlockPledge : PledgeMap) : Option CPledgeContext :=
  match getFullPledge db hashPrev with
  | none => none
  | some ctxt => some ⟨ctxt.hashRef, clearEmpty (addIncPledge ctxt.mapPledge mapBlockPledge)⟩

def getIncrementBlockPledge (hashPrev : ℕ) (mapBlockPledge : PledgeMap) : Option CPledgeContext :=
  match getPledge db hashPrev with
  | none => none
  | some ctxt =>
    if ctxt.hashRef = 0 then some ⟨hashPrev, addIncPledge OrdMap.empty mapBlockPledge⟩
    else some ⟨ctxt.hashRef, addIncPledge ctxt.mapPledge mapBlockPledge⟩

/-- `AddBlockPledge`: the context it writes at `hashBlock`. -/
def addBlockPledge (hashBlock hashPrev : ℕ) (mapBlockPledge : PledgeMap) : Option CPledgeContext :=
  if isFullPledge E hashBlock then getFullBlockPledge db hashPrev mapBlockPledge
  else getIncrementBlockPledge db hashPrev mapBlockPledge

def getPowPledgeList (hashBlock : ℕ) (destPowMint : CDestination) : Option PowPledges :=
  if hashBlock = 0 then some OrdMap.empty
  else
    match db hashBlock with
    | none => none
    | some ctxt =>
      if isFullPledge E hashBlock then some ((ctxt.mapPledge.find? destPowMint).getD OrdMap.empty)
      else
        let inc := (ctxt.mapPledge.find? destPowMint).getD OrdMap.empty
        if ctxt.hashRef = 0 then some (addPowPledges OrdMap.empty inc)
        else
          match db ctxt.hashRef with
          | none => none
          | some ref => some (addPowPledges ((ref.mapPledge.find? destPowMint).getD OrdMap.empty) inc)

def getAddressPledgeData (hashBlock : ℕ) (destPowMint destPledge : CDestination) : Option (ℤ × ℕ) :=
  let entry (ctxt : CPledgeContext) : Option (ℤ × ℕ) :=
    ((ctxt.mapPledge.find? destPowMint).getD OrdMap.empty).find? destPledge
  if hashBlock = 0 then some (0, 0)
  else
    match db hashBlock with
    | none => none
    | some ctxt =>
      if isFullPledge E hashBlock then some ((entry ctxt).getD (0, 0))
      else
        let add (old : ℤ × ℕ) : ℤ × ℕ := (entry ctxt).elim old (addPledgeValue (some old))
        if ctxt.hashRef = 0 then some (add (0, 0))
        else
          match db ctxt.hashRef with
          | none => none
          | some ref => some (add ((entry ref).getD (0, 0)))

end

end Minemon
