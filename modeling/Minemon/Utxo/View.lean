import Minemon.Lib.Ledger
import Minemon.Run.Branch

/-!
# Views as overlays

A transaction with its context is a transfer of outputs, a chain of stored blocks is a history, and a
`CBlockView` is an overlay on the database.

* `overlayPart`: the two operations on a view.
* `retrieveUnspent_eq`, `updateUnspent_eq`: what is read, and what is written in the end.
* `getBlockView_parts`: the view of `GetBlockView`, from the last block of the fork to another one.
-/

namespace Minemon

open CBlockBase

abbrev UtxoTransfer := Transfer CTxOutPoint CTxOut

/-! ## Transfers -/

def txTransfer (E : Env) (t : CTransaction × CTxContxt) : UtxoTransfer :=
  ⟨txInputs t.1 t.2, (txOutputs t.1 t.2).map fun o => (⟨t.1.getHash E, o.1⟩, o.2)⟩

def CBlockEx.txs (b : CBlockEx) : List (CTransaction × CTxContxt) :=
  (if b.block.txMint.sendTo.isNull then [] else [(b.block.txMint, ({} : CTxContxt))]) ++ b.block.vtx.zip b.vTxContxt

/-- The transactions of the blocks of a chain, or of a part of one, from the first to the last. -/
def chainTxs (s : CBlockBase) : CBlockIndexPtr → List (CTransaction × CTxContxt)
  | [] => []
  | p :: l => chainTxs s l ++ (s.read p).elim [] CBlockEx.txs

def history (E : Env) (s : CBlockBase) (ptr : CBlockIndexPtr) : List UtxoTransfer :=
  (chainTxs s ptr).map (txTransfer E)

section

variable {E : Env} {s : CBlockBase}

theorem chainTxs_append (s : CBlockBase) (up base : CBlockIndexPtr) :
    chainTxs s (up ++ base) = chainTxs s base ++ chainTxs s up := by
  induction up with
  | nil => simp [chainTxs]
  | cons p up ih => rw [List.cons_append, chainTxs, chainTxs, ih, List.append_assoc]

theorem history_append (E : Env) (s : CBlockBase) (up base : CBlockIndexPtr) :
    history E s (up ++ base) = history E s base ++ history E s up := by
  unfold history
  rw [chainTxs_append, List.map_append]

variable {p : CBlockIndex} {e : CTxOutPoint × CTxOut} {l : CBlockIndexPtr}

/-! ## Outputs -/

theorem txOutputs_n {tx : CTransaction} {txContxt : CTxContxt} : ((txOutputs tx txContxt).map Prod.fst).Nodup := by
  unfold txOutputs
  refine List.Nodup.sublist (List.filter_sublist.map _) ?_
  simp

theorem txTransfer_creates_nodup (t : CTransaction × CTxContxt) : ((txTransfer E t).creates.map Prod.fst).Nodup := by
  have hmap : (txTransfer E t).creates.map Prod.fst =
      ((txOutputs t.1 t.2).map Prod.fst).map fun n => (⟨t.1.getHash E, n⟩ : CTxOutPoint) := by
    unfold txTransfer
    rw [List.map_map, List.map_map]
    rfl
  rw [hmap]
  refine txOutputs_n.map fun a b hab => ?_
  exact (CTxOutPoint.mk.inj hab).2

theorem hash_of_mem_creates {t : CTransaction × CTxContxt}
    (he : e ∈ (txTransfer E t).creates) : e.1.hash = t.1.getHash E := by
  obtain ⟨o, -, rfl⟩ := List.mem_map.1 he
  rfl

theorem not_isNull_of_mem_creates {t : CTransaction × CTxContxt}
    (he : e ∈ (txTransfer E t).creates) : e.2.isNull = false := by
  obtain ⟨o, ho, rfl⟩ := List.mem_map.1 he
  simpa using (List.mem_filter.1 ho).2

theorem not_isNull_of_mem_created {txs : List (CTransaction × CTxContxt)}
    (he : e ∈ Ledger.created (txs.map (txTransfer E))) : e.2.isNull = false := by
  obtain ⟨t, ht, het⟩ := List.mem_flatMap.1 he
  obtain ⟨u, -, rfl⟩ := List.mem_map.1 ht
  exact not_isNull_of_mem_creates het

/-! ## Overlays -/

def CBlockView.overlay (view : CBlockView) : Overlay CTxOutPoint CTxOut := fun out =>
  (view.mapUnspent.find? out).map fun u => ⟨u.output, u.fSpent, u.nOpt⟩

theorem overlay_upsert (view : CBlockView) (out : CTxOutPoint) (f : Option CViewUnspent → CViewUnspent) :
    CBlockView.overlay { view with mapUnspent := view.mapUnspent.upsert out f } =
      Function.update view.overlay out (let u := f (view.mapUnspent.find? out); some ⟨u.output, u.fSpent, u.nOpt⟩) := by
  funext o
  unfold CBlockView.overlay
  simp only [OrdMap.find?_upsert, Function.update_apply]
  split_ifs <;> rfl

theorem overlay_enable (view : CBlockView) (e : CTxOutPoint × CTxOut) :
    (view.enable e.1 e.2).overlay = view.overlay.enable e := by
  rw [CBlockView.enable, overlay_upsert, Overlay.enable, Overlay.net, CBlockView.overlay]
  cases view.mapUnspent.find? e.1 <;> rfl

theorem overlay_disable (view : CBlockView) (e : CTxOutPoint × CTxOut) :
    (view.disable e.1 e.2).overlay = view.overlay.disable e := by
  rw [CBlockView.disable, overlay_upsert, Overlay.disable, Overlay.net, CBlockView.overlay]
  cases view.mapUnspent.find? e.1 <;> rfl

theorem overlay_tx {f g : CBlockView → CTxOutPoint → CTxOut → CBlockView}
    {f' g' : Overlay CTxOutPoint CTxOut → CTxOutPoint × CTxOut → Overlay CTxOutPoint CTxOut}
    (hf : ∀ v e, (f v e.1 e.2).overlay = f' v.overlay e) (hg : ∀ v e, (g v e.1 e.2).overlay = g' v.overlay e)
    (view : CBlockView) (t : CTransaction × CTxContxt) :
    ((txOutputs t.1 t.2).foldl (fun v o => g v ⟨t.1.getHash E, o.1⟩ o.2)
      ((txInputs t.1 t.2).foldl (fun v i => f v i.1 i.2) view)).overlay =
        (txTransfer E t).creates.foldl g' ((txTransfer E t).spends.foldl f' view.overlay) := by
  unfold txTransfer
  rw [List.foldl_map, List.foldl_hom CBlockView.overlay fun v i => (hf v i).symm]
  exact (List.foldl_hom CBlockView.overlay fun v o => (hg v (⟨t.1.getHash E, o.1⟩, o.2)).symm).symm

/-! ## Parts of a view -/

/-- A part of a view on which `AddTx` and `RemoveTx` act alone; the lists of blocks are no part of it. -/
structure ViewPart (E : Env) (α : Type) where
  part : CBlockView → α
  add : α → CTransaction × CTxContxt → α
  remove : α → CTransaction × CTxContxt → α
  part_addTx (view : CBlockView) (t : CTransaction × CTxContxt) :
    part (view.addTx (t.1.getHash E) t.1 t.2) = add (part view) t
  part_removeTx (view : CBlockView) (t : CTransaction × CTxContxt) :
    part (view.removeTx (t.1.getHash E) t.1 t.2) = remove (part view) t
  part_addBlock (view : CBlockView) (hash : ℕ) (b : CBlockEx) : part (view.addBlock hash b) = part view
  part_removeBlock (view : CBlockView) (hash : ℕ) (b : CBlockEx) : part (view.removeBlock hash b) = part view

def viewAfter (E : Env) (view : CBlockView) (txs : List (CTransaction × CTxContxt)) : CBlockView :=
  txs.foldl (fun v t => v.addTx (t.1.getHash E) t.1 t.2) view

def overlayPart (E : Env) : ViewPart E (Overlay CTxOutPoint CTxOut) where
  part := CBlockView.overlay
  add o t := o.add (txTransfer E t)
  remove o t := o.remove (txTransfer E t)
  part_addTx _ t := overlay_tx overlay_disable overlay_enable _ t
  part_removeTx _ t := overlay_tx overlay_enable overlay_disable _ t
  part_addBlock _ _ _ := rfl
  part_removeBlock _ _ _ := rfl

namespace ViewPart

variable {α : Type} (π : ViewPart E α)

theorem part_viewAfter (view : CBlockView) (txs : List (CTransaction × CTxContxt)) :
    π.part (viewAfter E view txs) = txs.foldl π.add (π.part view) :=
  (List.foldl_hom π.part fun v t => (π.part_addTx v t).symm).symm

theorem part_addBlockTx (view : CBlockView) (b : CBlockEx) :
    π.part (addBlockTx E view b) = b.txs.foldl π.add (π.part view) := by
  unfold addBlockTx CBlockEx.txs
  simp only
  rw [← List.foldl_hom π.part fun v t => (π.part_addTx v t).symm, List.foldl_append]
  split_ifs
  · rfl
  · rw [π.part_addTx view (b.block.txMint, {})]
    rfl

theorem part_removeBlockTx (view : CBlockView) (b : CBlockEx) :
    π.part (removeBlockTx E view b) = b.txs.reverse.foldl π.remove (π.part view) := by
  unfold removeBlockTx CBlockEx.txs
  simp only
  rw [List.reverse_append, List.foldl_append, List.foldl_hom π.part fun v t => (π.part_removeTx v t).symm]
  split_ifs
  · rfl
  · exact π.part_removeTx _ (b.block.txMint, {})

end ViewPart

theorem overlay_viewAfter (view : CBlockView) (txs : List (CTransaction × CTxContxt)) :
    (viewAfter E view txs).overlay = (txs.map (txTransfer E)).foldl Overlay.add view.overlay := by
  rw [List.foldl_map]
  exact (overlayPart E).part_viewAfter view txs

/-! ## Reading and writing -/

theorem retrieveUnspent_eq (view : CBlockView) (db : CTxOutPoint → Option CTxOut) :
    view.retrieveUnspent db = view.overlay.read db := by
  funext out
  unfold CBlockView.retrieveUnspent Overlay.read CBlockView.overlay
  cases view.mapUnspent.find? out <;> rfl

theorem mem_addNewUnspent {view : CBlockView} :
    e ∈ view.getUnspentChanges.1 ↔
      ∃ u, view.mapUnspent.find? e.1 = some u ∧ u.nOpt ≠ 0 ∧ u.fSpent = false ∧ u.output = e.2 := by
  simp only [CBlockView.getUnspentChanges, List.mem_map, List.mem_filter, CViewUnspent.isModified, bne_iff_ne,
    Bool.not_eq_true', OrdMap.find?_eq_some]
  constructor
  · rintro ⟨kv, ⟨⟨hmem, hopt⟩, hspent⟩, rfl⟩
    exact ⟨kv.2, hmem, hopt, hspent, rfl⟩
  · rintro ⟨u, hmem, hopt, hspent, hout⟩
    exact ⟨(e.1, u), ⟨⟨hmem, hopt⟩, hspent⟩, by rw [hout]⟩

theorem mem_removeUnspent {view : CBlockView} {out : CTxOutPoint} :
    out ∈ view.getUnspentChanges.2 ↔ ∃ u, view.mapUnspent.find? out = some u ∧ u.nOpt ≠ 0 ∧ u.fSpent = true := by
  simp only [CBlockView.getUnspentChanges, List.mem_map, List.mem_filter, CViewUnspent.isModified, bne_iff_ne,
    OrdMap.find?_eq_some]
  constructor
  · rintro ⟨kv, ⟨⟨hmem, hopt⟩, hspent⟩, rfl⟩
    exact ⟨kv.2, hmem, hopt, hspent⟩
  · rintro ⟨u, hmem, hopt, hspent⟩
    exact ⟨(out, u), ⟨⟨hmem, hopt⟩, hspent⟩, rfl⟩

theorem addNewUnspent_nodup (view : CBlockView) : (view.getUnspentChanges.1.map Prod.fst).Nodup := by
  have hmap : view.getUnspentChanges.1.map Prod.fst =
      ((view.mapUnspent.toList.filter fun kv => kv.2.isModified).filter fun kv => !kv.2.fSpent).map Prod.fst := by
    unfold CBlockView.getUnspentChanges
    rw [List.map_map]
    rfl
  rw [hmap]
  exact view.mapUnspent.keys_nodup.sublist ((List.filter_sublist.trans List.filter_sublist).map _)

/-- **What a commit writes** is what the overlay writes, when no output in it is null. -/
theorem updateUnspent_eq (view : CBlockView) (db : CTxOutPoint → Option CTxOut)
    (hnull : ∀ out u, view.overlay out = some u → u.spent = false → u.value.isNull = false) :
    updateUnspent db view.getUnspentChanges.1 view.getUnspentChanges.2 = view.overlay.write db := by
  have hins : ∀ (l : List (CTxOutPoint × CTxOut)) (db : CTxOutPoint → Option CTxOut),
      (∀ e ∈ l, e.2.isNull = false) →
        l.foldl (fun db e => Function.update db e.1 (if e.2.isNull then none else some e.2)) db =
          Ledger.insertAll db l := by
    intro l
    induction l with
    | nil => exact fun _ _ => rfl
    | cons e l ih =>
      intro db hl
      rw [List.foldl_cons, ih _ fun a ha => hl a (List.mem_cons_of_mem _ ha), hl e List.mem_cons_self]
      rfl
  have hout : ∀ e ∈ view.getUnspentChanges.1, e.2.isNull = false := by
    intro e he
    obtain ⟨u, hu, -, hspent, hval⟩ := mem_addNewUnspent.1 he
    rw [← hval]
    exact hnull e.1 ⟨u.output, u.fSpent, u.nOpt⟩ (by rw [CBlockView.overlay, hu]; rfl) hspent
  funext out
  have hrem := Ledger.eraseAll_apply (Ledger.insertAll db view.getUnspentChanges.1) view.getUnspentChanges.2 out
  unfold updateUnspent
  rw [hins _ _ hout]
  refine hrem.trans ?_
  unfold Overlay.write CBlockView.overlay
  by_cases hmod : ∃ u, view.mapUnspent.find? out = some u ∧ u.nOpt ≠ 0
  · obtain ⟨u, hu, hopt⟩ := hmod
    rw [hu]
    simp only [Option.map_some, if_neg hopt]
    by_cases hspent : u.fSpent = true
    · rw [if_pos (mem_removeUnspent.2 ⟨u, hu, hopt, hspent⟩), if_pos hspent]
    · have hmem : (out, u.output) ∈ view.getUnspentChanges.1 :=
        mem_addNewUnspent.2 ⟨u, hu, hopt, by simpa using hspent, rfl⟩
      rw [if_neg, if_neg hspent]
      · exact Ledger.insertAll_of_mem db (addNewUnspent_nodup view) hmem
      · intro hin
        obtain ⟨u', hu', -, hspent'⟩ := mem_removeUnspent.1 hin
        rw [hu] at hu'
        obtain rfl := Option.some.inj hu'
        exact hspent hspent'
  · have hnot : out ∉ view.getUnspentChanges.1.map Prod.fst := by
      intro hin
      obtain ⟨e, he, rfl⟩ := List.mem_map.1 hin
      obtain ⟨u, hu, hopt, -⟩ := mem_addNewUnspent.1 he
      exact hmod ⟨u, hu, hopt⟩
    rw [if_neg, Ledger.insertAll_of_not_mem db hnot]
    · cases hu : view.mapUnspent.find? out with
      | none => rfl
      | some u =>
        have hopt : u.nOpt = 0 := by
          by_contra hne
          exact hmod ⟨u, hu, hne⟩
        simp only [Option.map_some, if_pos hopt]
    · intro hin
      obtain ⟨u, hu, hopt, -⟩ := mem_removeUnspent.1 hin
      exact hmod ⟨u, hu, hopt⟩

/-! ## The view of a block -/

theorem foldBlocks_part {α : Type} {f : CBlockView → ℕ → CBlockEx → CBlockView} (part : CBlockView → α)
    (g : α → CBlockEx → α) (hfg : ∀ view h b, part (f view h b) = g (part view) b) {l : List CBlockIndex}
    {view view' : CBlockView} (h : foldBlocks s f l view = some (some view')) :
    part view' = (l.filterMap s.read).foldl g (part view) := by
  induction l generalizing view with
  | nil =>
    obtain rfl : view = view' := by simpa [foldBlocks] using h
    rfl
  | cons p l ih =>
    rw [foldBlocks] at h
    cases hb : s.read p with
    | none => simp [hb] at h
    | some b =>
      simp only [hb] at h
      split_ifs at h
      rw [ih h, hfg, List.filterMap_cons_some hb, List.foldl_cons]

theorem foldBlocks_some (f : CBlockView → ℕ → CBlockEx → CBlockView) {l : List CBlockIndex}
    (hread : ∀ p ∈ l, ∃ b, s.read p = some b ∧ contextsDefined b = true) (view : CBlockView) :
    ∃ view', foldBlocks s f l view = some (some view') := by
  induction l generalizing view with
  | nil => exact ⟨view, rfl⟩
  | cons p l ih =>
    obtain ⟨b, hb, hdef⟩ := hread p List.mem_cons_self
    obtain ⟨view', hview⟩ := ih (fun q hq => hread q (List.mem_cons_of_mem _ hq)) (f view p.hashBlock b)
    refine ⟨view', ?_⟩
    rw [foldBlocks, hb]
    simp only [hdef, if_true]
    exact hview

theorem chainTxs_eq (s : CBlockBase) (l : List CBlockIndex) :
    chainTxs s l = ((l.reverse.filterMap s.read).map CBlockEx.txs).flatten := by
  induction l with
  | nil => rfl
  | cons p l ih =>
    rw [chainTxs, ih, List.reverse_cons, List.filterMap_append, List.map_append, List.flatten_append]
    cases hb : s.read p <;> simp [hb]

section

variable {hash : ℕ} (hs : StoreOK E s) (hp : s.mapIndex hash = p :: l)

include hs hp

theorem getBlockView_none (hcount : genesisTimeCount E s.pIndexLast ≠ genesisTimeCount E (p :: l)) :
    getBlockView E s hash = none := by
  have hchain := (hs.chain _ _ _ hp).2
  have hnone : getBranch s.pIndexLast (p :: l) = none := by
    have := mt (getBranch_isSome_iff hs.lastChain hchain).1 hcount
    simpa using this
  unfold getBlockView
  rw [hp]
  simp only
  rw [if_neg (not_not.2 ((hchain.hashOrigin p List.mem_cons_self).trans hs.fork.symm)), hnone]

theorem getBlockView_eq (hcount : genesisTimeCount E s.pIndexLast = genesisTimeCount E (p :: l)) :
    ∃ down up base, s.pIndexLast = down ++ base ∧ p :: l = up ++ base ∧ getBlockView E s hash =
      match foldBlocks s (fun v h b => (removeBlockTx E v b).removeBlock h b) down { hashFork := p.hashOrigin } with
      | none => none
      | some none => some none
      | some (some view1) => foldBlocks s (fun v h b => (addBlockTx E v b).addBlock h b) up.reverse view1 := by
  have hchain := (hs.chain _ _ _ hp).2
  obtain ⟨⟨pBranch, vPath⟩, hbranch⟩ :=
    Option.isSome_iff_exists.1 ((getBranch_isSome_iff hs.lastChain hchain).2 hcount)
  obtain ⟨hne, down, up, hd, hu, hpath⟩ := getBranch_some hs.lastChain hchain hbranch
  have hpathDown : pathDownTo pBranch s.pIndexLast = down := by
    rw [hd]
    exact pathDownTo_append (hd ▸ hs.lastChain) hne
  refine ⟨down, up, pBranch, hd, hu, ?_⟩
  unfold getBlockView
  rw [hp]
  simp only
  rw [if_neg (not_not.2 ((hchain.hashOrigin p List.mem_cons_self).trans hs.fork.symm)), hbranch, ← hpath]
  exact hpathDown ▸ rfl

/-- **The view of `GetBlockView`**: the transactions down to a common block backwards, those up to the
block forwards. -/
theorem getBlockView_parts {view : CBlockView} (hview : getBlockView E s hash = some (some view)) :
    ∃ down up base, s.pIndexLast = down ++ base ∧ p :: l = up ++ base ∧
      ∀ {α : Type} (π : ViewPart E α), π.part view =
        (chainTxs s up).foldl π.add
          ((chainTxs s down).reverse.foldl π.remove (π.part { hashFork := p.hashOrigin })) := by
  have hcount : genesisTimeCount E s.pIndexLast = genesisTimeCount E (p :: l) := by
    by_contra hne
    rw [getBlockView_none hs hp hne] at hview
    simp at hview
  obtain ⟨down, up, base, hd, hu, heq⟩ := getBlockView_eq hs hp hcount
  rw [heq] at hview
  refine ⟨down, up, base, hd, hu, fun π => ?_⟩
  split at hview
  · simp at hview
  · simp at hview
  · rename_i view1 hview1
    rw [foldBlocks_part π.part (fun o b => b.txs.foldl π.add o)
        (fun v h b => by rw [π.part_addBlock, π.part_addBlockTx]) hview,
      foldBlocks_part π.part (fun o b => b.txs.reverse.foldl π.remove o)
        (fun v h b => by rw [π.part_removeBlock, π.part_removeBlockTx]) hview1, chainTxs_eq, chainTxs_eq,
      List.foldl_flatten, List.foldl_map, List.reverse_flatten, List.foldl_flatten, List.map_map, ← List.map_reverse,
      ← List.filterMap_reverse, List.reverse_reverse, List.foldl_map]
    rfl

theorem getBlockView_overlay {view : CBlockView} (hview : getBlockView E s hash = some (some view)) :
    ∃ down up base, s.pIndexLast = down ++ base ∧ p :: l = up ++ base ∧ view.overlay =
      (history E s up).foldl Overlay.add ((history E s down).reverse.foldl Overlay.remove fun _ => none) := by
  obtain ⟨down, up, base, hd, hu, hpart⟩ := getBlockView_parts hs hp hview
  refine ⟨down, up, base, hd, hu, ?_⟩
  unfold history
  rw [← List.map_reverse, List.foldl_map, List.foldl_map]
  exact hpart (overlayPart E)

theorem getBlockView_some
    (hdef : ∀ h q l', s.mapIndex h = q :: l' → ∀ r ∈ q :: l', ∃ b, s.read r = some b ∧ contextsDefined b = true)
    (hcount : genesisTimeCount E s.pIndexLast = genesisTimeCount E (p :: l)) :
    ∃ view, getBlockView E s hash = some (some view) := by
  obtain ⟨q, l', hlast, hq⟩ := hs.last
  obtain ⟨down, up, base, hd, hu, heq⟩ := getBlockView_eq hs hp hcount
  have hdown : ∀ r ∈ down, ∃ b, s.read r = some b ∧ contextsDefined b = true := fun r hr =>
    hdef _ _ _ hq r (by rw [← hlast, hd]; exact List.mem_append_left _ hr)
  have hup : ∀ r ∈ up.reverse, ∃ b, s.read r = some b ∧ contextsDefined b = true := fun r hr =>
    hdef _ _ _ hp r (by rw [hu]; exact List.mem_append_left _ (List.mem_reverse.1 hr))
  obtain ⟨view1, hview1⟩ := foldBlocks_some (s := s)
    (fun v h b => (removeBlockTx E v b).removeBlock h b) hdown { hashFork := p.hashOrigin }
  rw [heq, hview1]
  exact foldBlocks_some (s := s) (fun v h b => (addBlockTx E v b).addBlock h b) hup view1

end

end

end Minemon
