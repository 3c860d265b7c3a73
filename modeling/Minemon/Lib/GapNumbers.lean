import Mathlib.Logic.Function.Basic
import Mathlib.Algebra.Order.Group.Nat

/-!
# Numbers from gaps

Things are kept in order by numbers. A new thing gets the next multiple of `K`, the top of a gap of `K - 1`
numbers below it. A thing that has to go below another one gets a number of that one's gap: the top counts down
through its gap, and when the top is gone the highest number that is idle is taken.

* `GapNumbers.GapOK`: the numbers differ, every countdown is below the numbers it has given, and `B` more can
  be given.
-/

namespace GapNumbers

/-- The number of a thing, and the number its countdown gives next; 0 if it has not begun. -/
@[ext] structure Slot where
  num : ℕ
  next : ℕ

def Slot.ctr (a : Slot) : ℕ := if a.next = 0 then a.num - 1 else a.next

theorem add_le_of_dvd_of_lt {K x y : ℕ} (hx : K ∣ x) (hy : K ∣ y) (hxy : x < y) : x + K ≤ y := by
  have hle := Nat.le_of_dvd (Nat.sub_pos_of_lt hxy) (Nat.dvd_sub hy hx)
  omega

theorem eq_of_dvd_of_between {K x y n : ℕ} (hx : K ∣ x) (hy : K ∣ y) (hxn : x < n) (hnx : n < x + K) (hyn : y < n)
    (hny : n < y + K) : x = y := by
  rcases lt_trichotomy x y with hlt | heq | hlt
  · have := add_le_of_dvd_of_lt hx hy hlt
    omega
  · exact heq
  · have := add_le_of_dvd_of_lt hy hx hlt
    omega

theorem update_eq_some {α β : Type*} [DecidableEq α] {S : α → Option β} {i j : α} {a : Option β} {b : β} :
    Function.update S i a j = some b ↔ (j = i ∧ a = some b) ∨ (j ≠ i ∧ S j = some b) := by
  by_cases hji : j = i
  · subst hji
    simp
  · simp [hji]

/-- The numbers of the things in `S`, at most `M`, are in order: `B` more numbers can be given in each gap. -/
structure GapOK {α : Type*} (K B M : ℕ) (S : α → Option Slot) : Prop where
  inj : ∀ {i j a b}, S i = some a → S j = some b → a.num = b.num → i = j
  pos : ∀ {i a}, S i = some a → 0 < a.num
  le : ∀ {i a}, S i = some a → a.num ≤ M
  room : ∀ {i a base}, S i = some a → K ∣ base → base < a.num → a.num < base + K → base + B < a.num
  top : ∀ {i a}, S i = some a → K ∣ a.num → a.ctr < a.num ∧ a.num + B < a.ctr + K
  above : ∀ {i j a b}, S i = some a → K ∣ a.num → S j = some b → b.num < a.num → a.num < b.num + K → a.ctr < b.num

namespace GapOK

variable {α : Type*} {K B B' M M' : ℕ} {S S' : α → Option Slot} {i r c : α} {a b : Slot} {base n x : ℕ}

theorem mono (h : GapOK K B M S) (hB : B' ≤ B) (hM : M ≤ M') : GapOK K B' M' S where
  inj := h.inj
  pos := h.pos
  le hi := (h.le hi).trans hM
  room hi hbase hlt hlt' := lt_of_le_of_lt (by omega) (h.room hi hbase hlt hlt')
  top hi hK := ⟨(h.top hi hK).1, lt_of_le_of_lt (by omega) (h.top hi hK).2⟩
  above := h.above

theorem bound (h : GapOK K B M S) (hM : ∀ i a, S i = some a → a.num ≤ M') : GapOK K B M' S :=
  ⟨h.inj, h.pos, fun hi => hM _ _ hi, h.room, h.top, h.above⟩

theorem sub (h : GapOK K B M S) (hS : ∀ i a, S' i = some a → S i = some a) : GapOK K B M S' where
  inj hi hj := h.inj (hS _ _ hi) (hS _ _ hj)
  pos hi := h.pos (hS _ _ hi)
  le hi := h.le (hS _ _ hi)
  room hi := h.room (hS _ _ hi)
  top hi := h.top (hS _ _ hi)
  above hi hK hj := h.above (hS _ _ hi) hK (hS _ _ hj)

theorem empty (K B M : ℕ) : GapOK K B M (fun _ : α => none) := by
  constructor <;> simp

/-! ## The numbers that can be given -/

theorem ctr_lt (h : GapOK K B M S) (hr : S r = some a) (hK : K ∣ a.num) (hc : S c = some b) (hle : b.num ≤ a.num)
    (hlt : a.num < b.num + K) : a.ctr < b.num := by
  rcases hle.eq_or_lt with heq | hlt'
  · rw [heq]
    exact (h.top hr hK).1
  · exact h.above hr hK hc hlt' hlt

theorem ctr_unused (h : GapOK K B M S) (hr : S r = some a) (hK : K ∣ a.num) (hc : S c = some b) : b.num ≠ a.ctr := by
  intro heq
  obtain ⟨hlt, hroom⟩ := h.top hr hK
  exact absurd (h.above hr hK hc (by omega) (by omega)) (by omega)

theorem base_unused (h : GapOK K (B + 1) M S) (hK : 1 < K) (hbase : K ∣ base) (hc : S c = some b) :
    b.num ≠ base + 1 := by
  intro heq
  have := h.room hc hbase (by omega) (by omega)
  omega

variable [DecidableEq α]

/-! ## Giving a number -/

/-- A new number that differs from the others, in the gap of no top above its countdown. -/
theorem insert (h : GapOK K B M S) (hpos : 0 < a.num) (hle : a.num ≤ M)
    (hnew : ∀ j b, S j = some b → b.num ≠ a.num)
    (hroom : ∀ base, K ∣ base → base < a.num → a.num < base + K → base + B < a.num)
    (htop : K ∣ a.num → a.ctr < a.num ∧ a.num + B < a.ctr + K)
    (habove : K ∣ a.num → ∀ j b, S j = some b → b.num < a.num → a.num < b.num + K → a.ctr < b.num)
    (hbelow : ∀ j b, S j = some b → K ∣ b.num → a.num < b.num → b.num < a.num + K → b.ctr < a.num) :
    GapOK K B M (Function.update S i (some a)) := by
  have hcases : ∀ {j c}, Function.update S i (some a) j = some c → (j = i ∧ c = a) ∨ S j = some c := by
    intro j c hj
    rcases update_eq_some.1 hj with ⟨hji, ha⟩ | ⟨-, hj⟩
    · exact Or.inl ⟨hji, (Option.some.inj ha).symm⟩
    · exact Or.inr hj
  refine ⟨fun {j k} b c hj hk heq => ?_, fun hj => ?_, fun hj => ?_, fun hj => ?_, fun hj => ?_,
    fun {j k} b c hj hK hk => ?_⟩
  · rcases hcases hj with ⟨rfl, rfl⟩ | hj' <;> rcases hcases hk with ⟨rfl, rfl⟩ | hk'
    · rfl
    · exact absurd heq.symm (hnew _ _ hk')
    · exact absurd heq (hnew _ _ hj')
    · exact h.inj hj' hk' heq
  · rcases hcases hj with ⟨rfl, rfl⟩ | hj
    · exact hpos
    · exact h.pos hj
  · rcases hcases hj with ⟨rfl, rfl⟩ | hj
    · exact hle
    · exact h.le hj
  · rcases hcases hj with ⟨rfl, rfl⟩ | hj
    · exact hroom _
    · exact h.room hj
  · rcases hcases hj with ⟨rfl, rfl⟩ | hj
    · exact htop
    · exact h.top hj
  · rcases hcases hj with ⟨rfl, rfl⟩ | hj' <;> rcases hcases hk with ⟨rfl, rfl⟩ | hk'
    · exact fun hlt => absurd hlt (lt_irrefl _)
    · exact habove hK _ _ hk'
    · exact hbelow _ _ hj' hK
    · exact h.above hj' hK hk'

theorem countdown (h : GapOK K (B + 1) M S) (hr : S r = some a) (hK : K ∣ a.num) :
    GapOK K B M (Function.update S r (some ⟨a.num, a.ctr - 1⟩)) := by
  obtain ⟨hlt, hroom⟩ := h.top hr hK
  have hpos := h.pos hr
  have hle := h.le hr
  have hKle := Nat.le_of_dvd hpos hK
  have hctr : (⟨a.num, a.ctr - 1⟩ : Slot).ctr = a.ctr - 1 := if_neg (by show a.ctr - 1 ≠ 0; omega)
  have hother : ∀ j b, Function.update S r none j = some b → S j = some b ∧ j ≠ r := fun j b hj => by
    simpa [and_comm] using update_eq_some.1 hj
  have hold : GapOK K B M (Function.update S r none) :=
    (h.mono (Nat.le_succ B) le_rfl).sub fun j b hj => (hother j b hj).1
  rw [show Function.update S r (some (⟨a.num, a.ctr - 1⟩ : Slot)) =
    Function.update (Function.update S r none) r (some ⟨a.num, a.ctr - 1⟩) from (Function.update_idem _ _ _).symm]
  refine hold.insert hpos hle (fun j b hj heq => ?_) (fun base hbase hlt hlt' => ?_) (fun _ => ?_)
    (fun _ j b hj hlt1 hlt2 => ?_) (fun j b hj hKb hlt1 hlt2 => ?_)
  · exact (hother j b hj).2 (h.inj (hother j b hj).1 hr heq)
  · have := h.room hr hbase hlt hlt'
    show base + B < a.num
    omega
  · rw [hctr]
    show a.ctr - 1 < a.num ∧ a.num + B < a.ctr - 1 + K
    omega
  · rw [hctr]
    have := h.above hr hK (hother j b hj).1 hlt1 hlt2
    omega
  · show b.ctr < a.num
    exact h.above (hother j b hj).1 hKb hr hlt1 hlt2

/-- **A number from the countdown** of a top. -/
theorem draw (h : GapOK K (B + 1) M S) (hr : S r = some a) (hK : K ∣ a.num) :
    GapOK K B M (Function.update (Function.update S r (some ⟨a.num, a.ctr - 1⟩)) i (some ⟨a.ctr, x⟩)) := by
  obtain ⟨hlt, hroom⟩ := h.top hr hK
  have hKle := Nat.le_of_dvd (h.pos hr) hK
  have hle := h.le hr
  -- the gap of the top
  have hgap : ∀ base, K ∣ base → base < a.ctr → a.ctr < base + K → base = a.num - K := fun base hbase h1 h2 =>
    eq_of_dvd_of_between hbase (Nat.dvd_sub hK (Nat.dvd_refl K)) h1 h2 (by omega) (by omega)
  have hnot : ¬K ∣ a.ctr := fun hdvd => by
    have := add_le_of_dvd_of_lt hdvd hK hlt
    omega
  have hother : ∀ j b, Function.update S r (some (⟨a.num, a.ctr - 1⟩ : Slot)) j = some b →
      b = ⟨a.num, a.ctr - 1⟩ ∨ (j ≠ r ∧ S j = some b) := fun j b hj =>
    (update_eq_some.1 hj).imp_left fun hb => (Option.some.inj hb.2).symm
  have hctr : (⟨a.num, a.ctr - 1⟩ : Slot).ctr = a.ctr - 1 := if_neg (by show a.ctr - 1 ≠ 0; omega)
  refine (h.countdown hr hK).insert (by show 0 < a.ctr; omega) (by show a.ctr ≤ M; omega)
    (fun j b hj heq => ?_) (fun base hbase h1 h2 => ?_) (fun hdvd => absurd hdvd hnot)
    (fun hdvd => absurd hdvd hnot) (fun j b hj hKb h1 h2 => ?_)
  · rcases hother j b hj with rfl | ⟨-, hj⟩
    · exact absurd heq (by show a.num ≠ a.ctr; omega)
    · exact h.ctr_unused hr hK hj heq
  · have := hgap base hbase h1 h2
    show base + B < a.ctr
    omega
  · change a.ctr < b.num at h1
    change b.num < a.ctr + K at h2
    rcases hother j b hj with rfl | ⟨hjr, hj⟩
    · rw [hctr]
      show a.ctr - 1 < a.ctr
      omega
    · -- two tops have two gaps
      have hbK := Nat.le_of_dvd (h.pos hj) hKb
      have hbase := hgap (b.num - K) (Nat.dvd_sub hKb (Nat.dvd_refl K)) (by omega) (by omega)
      exact absurd (h.inj hj hr (by omega)) hjr

/-- **An idle number** below `b`, the highest one of its gap, when the top of the gap is gone. -/
theorem idle (h : GapOK K (B + 1) M S) (hc : S c = some b) (hbase : K ∣ base) (hb : b.num < base + K)
    (hn : base < n) (hnb : n < b.num) (htop : ∀ j a, S j = some a → a.num ≠ base + K)
    (hidle : ∀ j a, S j = some a → a.num ≠ n)
    (hused : ∀ k, n < k → k < b.num → ∃ j a, S j = some a ∧ a.num = k) :
    GapOK K B M (Function.update S i (some ⟨n, x⟩)) := by
  have hnot : ¬K ∣ n := fun hdvd => by
    have := add_le_of_dvd_of_lt hbase hdvd hn
    omega
  have hle := h.le hc
  refine (h.mono (Nat.le_succ B) le_rfl).insert (by show 0 < n; omega) (by show n ≤ M; omega) hidle
    (fun base' hbase' h1 h2 => ?_) (fun hdvd => absurd hdvd hnot) (fun hdvd => absurd hdvd hnot)
    (fun j a hj hKa h1 h2 => ?_)
  · change base' < n at h1
    change n < base' + K at h2
    have heq := eq_of_dvd_of_between hbase' hbase h1 h2 hn (by omega)
    show base' + B < n
    rcases Nat.lt_or_ge (n + 1) b.num with hlt | hge
    · obtain ⟨j, a, hj, ha⟩ := hused (n + 1) (Nat.lt_succ_self n) hlt
      have := h.room hj hbase (by omega) (by omega)
      omega
    · have := h.room hc hbase (by omega) hb
      omega
  · -- the top of this gap would be `base + K`
    change n < a.num at h1
    change a.num < n + K at h2
    have haK := Nat.le_of_dvd (h.pos hj) hKa
    have heq := eq_of_dvd_of_between (Nat.dvd_sub hKa (Nat.dvd_refl K)) hbase (n := n) (by omega) (by omega) hn
      (by omega)
    exact absurd (by omega) (htop j a hj)

/-- **A new top**, whose gap is empty. -/
theorem insertTop (h : GapOK K B M S) (hK : K ∣ a.num) (hpos : 0 < a.num) (hle : a.num ≤ M)
    (htop : a.ctr < a.num ∧ a.num + B < a.ctr + K)
    (hgap : ∀ j b, S j = some b → b.num ≤ a.num → b.num + K ≤ a.num) : GapOK K B M (Function.update S i (some a)) := by
  refine h.insert hpos hle (fun j b hj heq => ?_) (fun base hbase h1 h2 => ?_) (fun _ => htop)
    (fun _ j b hj h1 h2 => ?_) (fun j b hj hKb h1 h2 => ?_)
  · have := hgap j b hj heq.le
    omega
  · have := add_le_of_dvd_of_lt hbase hK h1
    omega
  · have := hgap j b hj h1.le
    omega
  · have := add_le_of_dvd_of_lt hK hKb h1
    omega

theorem insertFresh {k : ℕ} (h : GapOK K B M S) (hK : K ∣ k) (hpos : 0 < k) (hB : B + 1 < K)
    (hgap : ∀ j b, S j = some b → b.num + K ≤ k) : GapOK K B k (Function.update S i (some ⟨k, 0⟩)) := by
  refine (h.bound fun j b hj => ?_).insertTop hK hpos le_rfl ?_ fun j b hj _ => hgap j b hj
  · have := hgap j b hj
    omega
  · show k - 1 < k ∧ k + B < k - 1 + K
    omega

end GapOK

end GapNumbers
