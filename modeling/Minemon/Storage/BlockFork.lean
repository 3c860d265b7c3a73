import Minemon.Lib.ParentTree

/-!
# The last block of a fork

`CBlockFork` in `storage/blockbase.h`: the last block, and the links `pNext` of the main chain, which
`UpdateNext` repairs in place. Blocks are pointers; `IsOrigin` holds of the first block of the fork alone.

* `CBlockFork.updateLast`: `UpdateLast`.
-/

namespace Minemon

/-- The last block, and the links. -/
structure CBlockFork (α : Type) where
  pIndexLast : α
  pNext : α → Option α

section

variable {α : Type} [DecidableEq α] (T : ParentTree α)

/-- `while (p != nullptr) { p->pPrev->pNext = nullptr; p = p->pNext; }` -/
def clearNext : ℕ → (α → Option α) → Option α → Option (α → Option α)
  | _, pNext, none => some pNext
  | 0, _, some _ => none
  | fuel + 1, pNext, some p =>
    match T.parent p with
    | none => none
    | some pPrev => clearNext fuel (Function.update pNext pPrev none) (Function.update pNext pPrev none p)

/-- `while (!pIndexNext->IsOrigin() && pIndexNext->pPrev->pNext != pIndexNext)` -/
def relinkNext : ℕ → (α → Option α) → α → Option (α → Option α)
  | 0, _, _ => none
  | fuel + 1, pNext, pIndexNext =>
    if pIndexNext = T.root then some pNext
    else
      match T.parent pIndexNext with
      | none => none
      | some pIndex =>
        if pNext pIndex = some pIndexNext then some pNext
        else
          match clearNext T fuel pNext (pNext pIndex) with
          | none => none
          | some pNext => relinkNext fuel (Function.update pNext pIndex (some pIndexNext)) pIndex

def CBlockFork.updateNext (fuel : ℕ) (fork : CBlockFork α) : Option (CBlockFork α) :=
  match clearNext T fuel fork.pNext (fork.pNext fork.pIndexLast) with
  | none => none
  | some pNext =>
    let pNext := if fork.pNext fork.pIndexLast = none then pNext else Function.update pNext fork.pIndexLast none
    match relinkNext T fuel pNext fork.pIndexLast with
    | none => none
    | some pNext => some { fork with pNext := pNext }

def CBlockFork.updateLast (fuel : ℕ) (fork : CBlockFork α) (pIndexLast : α) : Option (CBlockFork α) :=
  ({ fork with pIndexLast := pIndexLast } : CBlockFork α).updateNext T fuel

end

end Minemon
