import Minemon.Fork.MainChain

/-!
# Block locators

`GetForkBlockLocator` and `GetForkBlockInv` in `storage/blockbase.cpp`, for the one fork that a node has. A node
asks its peer for blocks with hashes of its main chain, some steps apart, and the peer answers with what comes
after the first hash that it knows.

* `BlockNode.getForkBlockLocator`, `BlockNode.getForkBlockInv`: the two functions.
-/

namespace Minemon

def MAX_GETBLOCKS_COUNT : ℕ := 128

/-- The index of a node. The links `pNext` are those of the main chain, as `UpdateLast` leaves them. -/
structure BlockNode (α : Type) where
  tree : ParentTree α
  hash : α → ℕ
  getIndex : ℕ → Option α
  fork : CBlockFork α
  getIndex_eq_some : ∀ h b, getIndex h = some b ↔ hash b = h
  hash_ne_zero : ∀ b, hash b ≠ 0
  linked : Linked tree fork.pNext fun x => tree.Anc x fork.pIndexLast

namespace BlockNode

variable {α : Type} [DecidableEq α] (N : BlockNode α)

/-! ## GetForkBlockLocator -/

/-- `for (int i = 0; i < nIncStep && !pIndex->IsOrigin(); i++)` -/
def stepBack : ℕ → α → Option α
  | 0, pIndex => some pIndex
  | i + 1, pIndex =>
    if pIndex = N.tree.root then some pIndex
    else
      match N.tree.parent pIndex with
      | none => none
      | some pPrev => stepBack i pPrev

/-- The loop of `GetForkBlockLocator`: the hashes, and `hashDepth`. -/
def locatorLoop (nIncStep : ℕ) : ℕ → α → List ℕ → Option (List ℕ × ℕ)
  | 0, _, _ => none
  | fuel + 1, pIndex, vBlockHash =>
    let vBlockHash := vBlockHash ++ [N.hash pIndex]
    if pIndex = N.tree.root then some (vBlockHash, 0)
    else if vBlockHash.length ≥ nIncStep / 2 then
      some (vBlockHash, ((N.tree.parent pIndex).map N.hash).getD 0)
    else
      match N.stepBack nIncStep pIndex with
      | none => some (vBlockHash, 0)
      | some pIndex => locatorLoop nIncStep fuel pIndex vBlockHash

/-- Where the walk begins: at `hashDepth` if that is on the main chain, else at the last block. -/
def locatorStart (hashDepth : ℕ) : α :=
  if hashDepth = 0 then N.fork.pIndexLast
  else
    match N.getIndex hashDepth with
    | none => N.fork.pIndexLast
    | some pStartIndex => if (N.fork.pNext pStartIndex).isSome then pStartIndex else N.fork.pIndexLast

/-- `GetForkBlockLocator`. The loop takes at most `nIncStep / 2` turns, or one. -/
def getForkBlockLocator (hashDepth nIncStep : ℕ) : Option (List ℕ × ℕ) :=
  N.locatorLoop nIncStep (nIncStep / 2 + 1) (N.locatorStart hashDepth) []

/-- The locators of repeated calls, each with the `hashDepth` that the last one has left, until it is 0. -/
def locators (nIncStep : ℕ) : ℕ → ℕ → Option (List (List ℕ))
  | 0, _ => none
  | fuel + 1, hashDepth =>
    match N.getForkBlockLocator hashDepth nIncStep with
    | none => none
    | some (vBlockHash, hashDepth) =>
      if hashDepth = 0 then some [vBlockHash]
      else (locators nIncStep fuel hashDepth).map fun l => vBlockHash :: l

/-! ## GetForkBlockInv -/

def mainIndex (hash : ℕ) : Option α :=
  (N.getIndex hash).filter fun pIndex => pIndex = N.fork.pIndexLast || (N.fork.pNext pIndex).isSome

/-- `while (pIndex != nullptr && vBlockHash.size() < nMaxCount)` -/
def invLoop : ℕ → Option α → List ℕ
  | 0, _ => []
  | _ + 1, none => []
  | n + 1, some pIndex => N.hash pIndex :: invLoop n (N.fork.pNext pIndex)

def getForkBlockInv (locator : List ℕ) (nMaxCount : ℕ) : List ℕ :=
  match locator.findSome? N.mainIndex with
  | none => []
  | some pIndex => N.invLoop nMaxCount (N.fork.pNext pIndex)

end BlockNode

end Minemon
