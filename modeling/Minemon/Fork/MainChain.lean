import Minemon.Storage.BlockFork

/-!
# The links of the main chain

After every `UpdateLast`, the links `pNext` mark the way from the origin to the last block and nothing else.

* `Linked`: the links as the set of the blocks that their parents are linked to.
* `updateLasts_marksMain`: any sequence of calls.
-/

namespace Minemon

variable {α : Type} [DecidableEq α] {T : ParentTree α} {pNext : α → Option α} {S R : α → Prop} {p q m last : α}
  {fuel : ℕ}

omit [DecidableEq α] in
variable (T) in
/-- The blocks that their parents are linked to are those in `S`. -/
def Linked (pNext : α → Option α) (S : α → Prop) : Prop := ∀ a b, pNext a = some b ↔ S b ∧ T.Child a b

/-! ## Unlinking -/

@[simp] theorem clearNext_none (fuel : ℕ) (pNext : α → Option α) : clearNext T fuel pNext none = some pNext := by
  cases fuel <;> rfl

/-- **The first loop** unlinks a block and the blocks after it. -/
theorem clearNext_linked (h : Linked T pNext S) (hm : T.Anc p m) (hp : p ≠ T.root)
    (hS : ∀ x, T.Anc p x → (S x ↔ T.Anc x m)) (hfuel : T.depth m < T.depth p + fuel) :
    ∃ pNext', clearNext T fuel pNext (some p) = some pNext' ∧ Linked T pNext' fun x => S x ∧ ¬T.Anc p x := by
  induction fuel generalizing p pNext S with
  | zero =>
    have := hm.depth_le
    omega
  | succ fuel ih =>
    obtain ⟨p₀, hp₀⟩ := ParentTree.exists_child hp
    have hSp : S p := (hS p .refl).2 hm
    have hne : p ≠ p₀ := by
      intro heq
      have := hp₀.depth
      rw [heq] at this
      omega
    rw [clearNext]
    simp only [hp₀.parent, Function.update_of_ne hne]
    have hstep : Linked T (Function.update pNext p₀ none) fun x => S x ∧ x ≠ p := by
      intro a b
      by_cases ha : a = p₀
      · subst ha
        rw [Function.update_self]
        refine ⟨fun hcon => (Option.some_ne_none b hcon.symm).elim, fun ⟨⟨hb, hbp⟩, hab⟩ => absurd ?_ hbp⟩
        have hlink := (h a b).2 ⟨hb, hab⟩
        rw [(h a p).2 ⟨hSp, hp₀⟩] at hlink
        exact (Option.some.inj hlink).symm
      · rw [Function.update_of_ne ha, h a b]
        refine ⟨fun ⟨hb, hab⟩ => ⟨⟨hb, ?_⟩, hab⟩, fun ⟨⟨hb, _⟩, hab⟩ => ⟨hb, hab⟩⟩
        rintro rfl
        exact ha (hab.unique hp₀)
    have hcongr : ∀ {pNext' : α → Option α} {S₁ S₂ : α → Prop}, (∀ x, S₁ x ↔ S₂ x) → Linked T pNext' S₁ →
        Linked T pNext' S₂ := fun hS h a b => (h a b).trans (and_congr_left fun _ => hS b)
    by_cases hpm : p = m
    · subst hpm
      have hlast : pNext p = none := by
        cases hc : pNext p with
        | none => rfl
        | some c =>
          obtain ⟨hSc, hpc⟩ := (h p c).1 hc
          have h1 := ((hS c (.of_child hpc)).1 hSc).depth_le
          have h2 := hpc.depth
          omega
      rw [hlast, clearNext_none]
      refine ⟨_, rfl, hcongr (fun x => and_congr_right fun hx => not_congr ?_) hstep⟩
      refine ⟨fun heq => heq ▸ .refl, fun hpx => ?_⟩
      exact ((hS x hpx).1 hx).eq_of_depth hpx.depth_le
    · obtain ⟨c, hpc, hcm⟩ := hm.child hpm
      have hdepth := hpc.depth
      have hcp : T.Anc p c := .of_child hpc
      rw [(h p c).2 ⟨(hS c hcp).2 hcm, hpc⟩]
      have hbelow : ∀ x, T.Anc c x → x ≠ p := by
        rintro x hx rfl
        have := hx.depth_le
        omega
      obtain ⟨pNext', hrun, hlinked⟩ := ih hstep hcm hpc.ne
        (fun x hx => (and_iff_left (hbelow x hx)).trans (hS x (hcp.trans hx))) (by omega)
      refine ⟨pNext', hrun, hcongr (fun x => ?_) hlinked⟩
      refine ⟨fun ⟨⟨hx, hxp⟩, hxc⟩ => ⟨hx, fun hpx => ?_⟩, fun ⟨hx, hpx⟩ => ⟨⟨hx, ?_⟩, fun hxc => hpx (hcp.trans hxc)⟩⟩
      · obtain ⟨c', hpc', hc'x⟩ := hpx.child (Ne.symm hxp)
        have hc'm := hc'x.trans ((hS x hpx).1 hx)
        rw [hcm.unique hc'm (by rw [hpc.depth, hpc'.depth])] at hxc
        exact hxc hc'x
      · rintro rfl
        exact hpx .refl

/-- What comes after `p` on the old way is unlinked, so that the old way ends in `p` if it comes there. -/
theorem clearNext_truncate (h : Linked T pNext fun x => R x ∨ T.Anc x m)
    (hR : ∀ c, T.Child p c → T.Anc c m → ∀ x, R x → ¬T.Anc c x) (hRp : ∀ c, T.Child p c → ¬R c)
    (hfuel : T.depth m < fuel) :
    ∃ pNext' m', clearNext T fuel pNext (pNext p) = some pNext' ∧ (Linked T pNext' fun x => R x ∨ T.Anc x m') ∧
      (T.Anc p m' → m' = p) ∧ pNext' p = none ∧ T.depth m' ≤ T.depth m := by
  have hend : ∀ {pNext' : α → Option α} {m' : α}, (Linked T pNext' fun x => R x ∨ T.Anc x m') →
      (T.Anc p m' → m' = p) → pNext' p = none := by
    intro pNext' m' hl hm'
    cases hc : pNext' p with
    | none => rfl
    | some c =>
      obtain ⟨hSc, hpc⟩ := (hl p c).1 hc
      have hcm := hSc.resolve_left (hRp c hpc)
      have h1 := hcm.depth_le
      have h2 := hpc.depth
      rw [hm' ((ParentTree.Anc.of_child hpc).trans hcm)] at h1
      omega
  cases hnext : pNext p with
  | none =>
    have hm : T.Anc p m → m = p := by
      intro hpm
      by_contra hne
      obtain ⟨c, hpc, hcm⟩ := hpm.child (Ne.symm hne)
      rw [(h p c).2 ⟨Or.inr hcm, hpc⟩] at hnext
      exact Option.some_ne_none c hnext
    exact ⟨pNext, m, clearNext_none fuel pNext, h, hm, hnext, le_rfl⟩
  | some c =>
    obtain ⟨hSc, hpc⟩ := (h p c).1 hnext
    have hcm := hSc.resolve_left (hRp c hpc)
    have hdepth := hpc.depth
    have hpm := (ParentTree.Anc.of_child hpc).trans hcm
    obtain ⟨pNext', hrun, hl⟩ := clearNext_linked h hcm hpc.ne (fun x hx => ⟨fun hSx =>
      hSx.resolve_left fun hRx => hR c hpc hcm x hRx hx, Or.inr⟩) (by omega : T.depth m < T.depth c + fuel)
    have hl' : Linked T pNext' fun x => R x ∨ T.Anc x p := by
      refine fun a b => (hl a b).trans (and_congr_left fun _ => ⟨?_, ?_⟩)
      · rintro ⟨hb | hb, hcb⟩
        · exact Or.inl hb
        · refine Or.inr (hb.total hpm ?_)
          by_contra hd
          exact hcb (hcm.total hb (by omega))
      · rintro (hb | hb)
        · exact ⟨Or.inl hb, hR c hpc hcm b hb⟩
        · refine ⟨Or.inr (hb.trans hpm), fun hcb => ?_⟩
          have h1 := hcb.depth_le
          have h2 := hb.depth_le
          omega
    exact ⟨pNext', p, hrun, hl', fun _ => rfl, hend hl' fun _ => rfl, hpm.depth_le⟩

/-! ## Linking -/

theorem Linked.link (h : Linked T pNext fun x => T.Anc x last ∧ T.depth q < T.depth x ∨ T.Anc x m)
    (hpq : T.Child p q) (hq : T.Anc q last) (hm : T.Anc p m → m = p) :
    Linked T (Function.update pNext p (some q)) fun x => T.Anc x last ∧ T.depth p < T.depth x ∨ T.Anc x m := by
  have hdepth := hpq.depth
  intro a b
  by_cases ha : a = p
  · subst ha
    rw [Function.update_self]
    constructor
    · intro hb
      rw [← Option.some.inj hb]
      exact ⟨Or.inl ⟨hq, by omega⟩, hpq⟩
    · rintro ⟨⟨hb, -⟩ | hb, hab⟩
      · rw [hq.unique hb (by rw [hab.depth, hdepth])]
      · have h1 := hb.depth_le
        have h2 := hab.depth
        rw [hm ((ParentTree.Anc.of_child hab).trans hb)] at h1
        omega
  · rw [Function.update_of_ne ha, h a b]
    refine and_congr_left fun hab => or_congr_left (and_congr_right fun hb => ⟨fun _ => by omega, fun hd => ?_⟩)
    by_contra hle
    have heq := hq.unique hb (by omega)
    subst heq
    exact ha (hab.unique hpq)

/-- **The second loop** links the way up from `q`; the rest of the old way is unlinked. -/
theorem relinkNext_linked (hq : T.Anc q last)
    (h : Linked T pNext fun x => T.Anc x last ∧ T.depth q < T.depth x ∨ T.Anc x m) (hm : T.Anc q m → m = q)
    (hfuel : T.depth m + T.depth q < fuel) :
    ∃ pNext', relinkNext T fuel pNext q = some pNext' ∧ Linked T pNext' fun x => T.Anc x last := by
  induction fuel generalizing q pNext m with
  | zero => omega
  | succ fuel ih =>
    -- where the way up comes to the old way, that one ends
    have hdone : m = q → Linked T pNext fun x => T.Anc x last := by
      rintro rfl
      refine fun a b => (h a b).trans (and_congr_left fun _ => ⟨?_, fun hb => ?_⟩)
      · rintro (⟨hb, -⟩ | hb)
        · exact hb
        · exact hb.trans hq
      · by_cases hd : T.depth m < T.depth b
        · exact Or.inl ⟨hb, hd⟩
        · exact Or.inr (hb.total hq (by omega))
    rw [relinkNext]
    by_cases hroot : q = T.root
    · rw [if_pos hroot]
      refine ⟨pNext, rfl, hdone (hm ?_)⟩
      rw [hroot]
      exact .root T m
    · obtain ⟨p, hpq⟩ := ParentTree.exists_child hroot
      have hdepth := hpq.depth
      rw [if_neg hroot]
      simp only [hpq.parent]
      by_cases hlink : pNext p = some q
      · rw [if_pos hlink]
        rcases ((h p q).1 hlink).1 with ⟨-, hlt⟩ | hqm
        · exact absurd hlt (lt_irrefl _)
        · exact ⟨pNext, rfl, hdone (hm hqm)⟩
      · rw [if_neg hlink]
        have hqm : ¬T.Anc q m := fun hqm => hlink ((h p q).2 ⟨Or.inr hqm, hpq⟩)
        have hR : ∀ c, T.Child p c → T.Anc c m → ∀ x, T.Anc x last ∧ T.depth q < T.depth x → ¬T.Anc c x := by
          rintro c hpc hcm x ⟨hx, -⟩ hcx
          rw [(hcx.trans hx).unique hq (by rw [hpc.depth, hdepth])] at hcm
          exact hqm hcm
        have hRp : ∀ c, T.Child p c → ¬(T.Anc c last ∧ T.depth q < T.depth c) := by
          rintro c hpc ⟨-, hlt⟩
          have := hpc.depth
          omega
        obtain ⟨pNext', m', hclear, hl, hm', -, hle⟩ := clearNext_truncate h hR hRp (by omega : T.depth m < fuel)
        rw [hclear]
        exact ih ((ParentTree.Anc.of_child hpq).trans hq) (hl.link hpq hq hm') hm' (by omega)

/-! ## The calls -/

/-- **`UpdateLast`**: the links of one way become those of another. -/
theorem updateLast_linked {fork : CBlockFork α} (h : Linked T fork.pNext fun x => T.Anc x m) (last : α)
    (hfuel : T.depth m + T.depth last < fuel) :
    ∃ pNext', fork.updateLast T fuel last = some ⟨last, pNext'⟩ ∧ Linked T pNext' fun x => T.Anc x last := by
  have hnone : ∀ x, ¬(T.Anc x last ∧ T.depth last < T.depth x) := by
    rintro x ⟨hx, hlt⟩
    have := hx.depth_le
    omega
  have h' : Linked T fork.pNext fun x => T.Anc x last ∧ T.depth last < T.depth x ∨ T.Anc x m :=
    fun a b => (h a b).trans (and_congr_left fun _ => (or_iff_right (hnone b)).symm)
  obtain ⟨pNext₁, m', hclear, hl, hm', hlast, hle⟩ := clearNext_truncate h'
    (fun _ (_ : T.Child last _) _ x hx => absurd hx (hnone x)) (fun c _ => hnone c) (by omega : T.depth m < fuel)
  obtain ⟨pNext₂, hrelink, hl₂⟩ := relinkNext_linked .refl hl hm' (by omega : T.depth m' + T.depth last < fuel)
  refine ⟨pNext₂, ?_, hl₂⟩
  have hsame : (if fork.pNext last = none then pNext₁ else Function.update pNext₁ last none) = pNext₁ := by
    split_ifs
    · rfl
    · rw [← hlast]
      exact Function.update_eq_self _ _
  unfold CBlockFork.updateLast CBlockFork.updateNext
  simp only [hclear, hsame, hrelink]

variable (T) in
/-- The way from a block back to the origin. -/
inductive PrevPath : α → List α → Prop
  | origin : PrevPath T.root [T.root]
  | prev {p b : α} {l : List α} (hb : T.Child p b) (h : PrevPath p l) : PrevPath b (b :: l)

/-- The blocks that are visited from a block on by following `pNext`. -/
inductive Visits (pNext : α → Option α) : α → List α → Prop
  | last {a : α} (h : pNext a = none) : Visits pNext a [a]
  | next {a b : α} {l : List α} (h : pNext a = some b) (hl : Visits pNext b l) : Visits pNext a (a :: l)

variable (T) in
/-- Following `pNext` from the origin visits the way to the last block; no other block has a link. -/
def MarksMain (fork : CBlockFork α) : Prop :=
  ∃ l, PrevPath T fork.pIndexLast l ∧ Visits fork.pNext T.root l.reverse ∧
    ∀ x, x ∉ l ∨ x = fork.pIndexLast → fork.pNext x = none

omit [DecidableEq α] in
theorem exists_prevPath (T : ParentTree α) (b : α) : ∃ l, PrevPath T b l := by
  by_cases hb : b = T.root
  · rw [hb]
    exact ⟨_, .origin⟩
  · obtain ⟨p, hp, hd⟩ := T.parent_of_ne b hb
    obtain ⟨l, hl⟩ := exists_prevPath T p
    exact ⟨b :: l, .prev ⟨hb, hp⟩ hl⟩
termination_by T.depth b

omit [DecidableEq α] in
theorem PrevPath.mem_of_anc {b x : α} {l : List α} (hl : PrevPath T b l) (hx : T.Anc x b) : x ∈ l := by
  induction hl with
  | origin =>
    rw [hx.eq_of_depth (ParentTree.Anc.root T x).depth_le]
    exact List.mem_singleton_self _
  | @prev p b l hb _ ih =>
    by_cases hxb : x = b
    · rw [hxb]
      exact List.mem_cons_self
    · exact List.mem_cons_of_mem _ (ih (hx.parent_of_ne hb hxb))

omit [DecidableEq α] in
theorem PrevPath.visits (h : Linked T pNext fun x => T.Anc x last) {b : α} {l l₂ : List α} (hl : PrevPath T b l)
    (hb : T.Anc b last) (hv : Visits pNext b (b :: l₂)) : Visits pNext T.root (l.reverse ++ l₂) := by
  induction hl generalizing l₂ with
  | origin => exact hv
  | @prev p b l hpb _ ih =>
    rw [List.reverse_cons, List.append_assoc]
    exact ih ((ParentTree.Anc.of_child hpb).trans hb) (.next ((h p b).2 ⟨hb, hpb⟩) hv)

omit [DecidableEq α] in
theorem Linked.marksMain (h : Linked T pNext fun x => T.Anc x last) : MarksMain T ⟨last, pNext⟩ := by
  have hlast : pNext last = none := by
    cases hc : pNext last with
    | none => rfl
    | some c =>
      obtain ⟨hc', hlc⟩ := (h last c).1 hc
      have h1 := hc'.depth_le
      have h2 := hlc.depth
      omega
  obtain ⟨l, hl⟩ := exists_prevPath T last
  refine ⟨l, hl, ?_, ?_⟩
  · have := hl.visits h .refl (.last hlast)
    rwa [List.append_nil] at this
  · rintro x (hx | rfl)
    · show pNext x = none
      cases hc : pNext x with
      | none => rfl
      | some y =>
        obtain ⟨hy, hxy⟩ := (h x y).1 hc
        exact absurd (hl.mem_of_anc ((ParentTree.Anc.of_child hxy).trans hy)) hx
    · exact hlast

theorem foldlM_updateLast (calls : List α) (fork : CBlockFork α) (h : Linked T fork.pNext fun x => T.Anc x m)
    (hfuel : T.depth m + (calls.map T.depth).sum < fuel) :
    ∃ fork' m', calls.foldlM (CBlockFork.updateLast T fuel) fork = some fork' ∧
      (Linked T fork'.pNext fun x => T.Anc x m') ∧ T.depth m' ≤ T.depth m + (calls.map T.depth).sum := by
  induction calls generalizing fork m with
  | nil => exact ⟨fork, m, rfl, h, by simp⟩
  | cons b l ih =>
    rw [List.map_cons, List.sum_cons] at hfuel ⊢
    obtain ⟨pNext', hcall, hl⟩ := updateLast_linked h b (by omega : T.depth m + T.depth b < fuel)
    obtain ⟨fork', m', hrun, hlinked, hle⟩ := ih ⟨b, pNext'⟩ hl (by omega)
    refine ⟨fork', m', ?_, hlinked, by omega⟩
    rw [List.foldlM_cons, hcall]
    exact hrun

/-- **After any sequence of `UpdateLast` calls** on a fork without links, with arbitrary blocks, the links mark
exactly the way to the last block; both loops of `UpdateNext` end. -/
theorem updateLasts_marksMain (T : ParentTree α) (start : α) (calls : List α) (b : α) :
    ∃ n, ∀ fuel ≥ n, ∃ fork : CBlockFork α,
      (calls ++ [b]).foldlM (CBlockFork.updateLast T fuel) ⟨start, fun _ => none⟩ = some fork ∧
        fork.pIndexLast = b ∧ MarksMain T fork := by
  refine ⟨T.depth T.root + (calls.map T.depth).sum + T.depth b + 1, fun fuel hfuel => ?_⟩
  -- no links mark the way to the origin
  have hstart : Linked T (fun _ : α => none) fun x => T.Anc x T.root := by
    refine fun a c => ⟨fun hcon => (Option.some_ne_none c hcon.symm).elim, fun ⟨hc, hac⟩ => ?_⟩
    exact absurd (hc.eq_of_depth (ParentTree.Anc.root T c).depth_le) hac.ne
  obtain ⟨fork, m, hrun, hl, hle⟩ := foldlM_updateLast calls ⟨start, fun _ => none⟩ hstart
    (by omega : T.depth T.root + (calls.map T.depth).sum < fuel)
  obtain ⟨pNext', hcall, hl'⟩ := updateLast_linked hl b (by omega : T.depth m + T.depth b < fuel)
  refine ⟨⟨b, pNext'⟩, ?_, rfl, hl'.marksMain⟩
  simp [List.foldlM_append, hrun, hcall]

end Minemon
