import Mathlib.Data.Int.ModEq
import Mathlib.Tactic.Linarith
import Minemon.Lib.WordArith

/-!
# Wide integers

`base_uint` of `crypto/uint256.h`: an unsigned number of `WIDTH` words of 32 bits, the least significant one first.

* `BaseUint.mulAssign32`: `operator*=` by a word.
* `BaseUint.mulAssign`: `operator*=`, whose local object `a` begins with what its memory holds.
-/

namespace Minemon

/-- `base_uint`: the words of `pn`. -/
structure BaseUint (WIDTH : ℕ) where
  pn : List UInt32
  length_pn : pn.length = WIDTH
deriving DecidableEq

namespace BaseUint

variable {WIDTH : ℕ}

def wordsValue (ws : List UInt32) : ℕ := WordArith.value (2 ^ 32) (ws.map UInt32.toNat)

def value (a : BaseUint WIDTH) : ℕ := wordsValue a.pn

theorem wordsValue_cons (w : UInt32) (ws : List UInt32) : wordsValue (w :: ws) = w.toNat + 2 ^ 32 * wordsValue ws := rfl

theorem wordsValue_lt (ws : List UInt32) : wordsValue ws < (2 ^ 32) ^ ws.length := by
  induction ws with
  | nil => simp [wordsValue, WordArith.value]
  | cons w ws ih =>
    have hw := w.toNat_lt
    rw [wordsValue_cons, List.length_cons, pow_succ' (2 ^ 32)]
    generalize (2 ^ 32) ^ ws.length = M at ih ⊢
    omega

theorem value_lt (a : BaseUint WIDTH) : a.value < (2 ^ 32) ^ WIDTH := by
  have hlt := wordsValue_lt a.pn
  rwa [a.length_pn] at hlt

/-- The words of a number. -/
def numberWords : ℕ → ℕ → List UInt32
  | 0, _ => []
  | n + 1, x => UInt32.ofNat x :: numberWords n (x / 2 ^ 32)

theorem length_numberWords (n x : ℕ) : (numberWords n x).length = n := by
  induction n generalizing x with
  | zero => rfl
  | succ n ih => rw [numberWords, List.length_cons, ih]

def ofNumber (WIDTH x : ℕ) : BaseUint WIDTH := ⟨numberWords WIDTH x, length_numberWords WIDTH x⟩

theorem value_ofNumber (WIDTH x : ℕ) : (ofNumber WIDTH x).value = x % (2 ^ 32) ^ WIDTH := by
  change wordsValue (numberWords WIDTH x) = _
  induction WIDTH generalizing x with
  | zero => exact (Nat.mod_one x).symm
  | succ n ih => rw [numberWords, wordsValue_cons, ih, UInt32.toNat_ofNat', pow_succ' (2 ^ 32), Nat.mod_mul]

/-! ## Multiplication -/

/-- The loop of `operator*=` over the words, for one word of 32 bits. -/
def mulWord (b32 : UInt32) : UInt64 → List UInt32 → List UInt32
  | _, [] => []
  | carry, w :: ws =>
    let n := carry + b32.toUInt64 * w.toUInt64
    n.toUInt32 :: mulWord b32 (n >>> 32) ws

/-- The inner loop of `operator*=`, from the word `a.pn[j]` on, for the word `p` of `pn`. -/
def mulAdd (p : UInt32) : UInt64 → List UInt32 → List UInt32 → List UInt32
  | carry, w :: ws, b :: bs =>
    let n := carry + w.toUInt64 + p.toUInt64 * b.toUInt64
    n.toUInt32 :: mulAdd p (n >>> 32) ws bs
  | _, ws, _ => ws

/-- The outer loop; a word of `a` is done when `j` has passed it. -/
def mulLoop (bs : List UInt32) : List UInt32 → List UInt32 → List UInt32
  | p :: ps, acc =>
    match mulAdd p 0 acc bs with
    | [] => []
    | w :: ws => w :: mulLoop bs ps ws
  | [], acc => acc

theorem length_mulWord (b32 : UInt32) (carry : UInt64) (ws : List UInt32) :
    (mulWord b32 carry ws).length = ws.length := by
  induction ws generalizing carry with
  | nil => rfl
  | cons w ws ih => rw [mulWord, List.length_cons, ih, List.length_cons]

theorem length_mulAdd (p : UInt32) (carry : UInt64) (ws bs : List UInt32) :
    (mulAdd p carry ws bs).length = ws.length := by
  induction ws generalizing carry bs with
  | nil => cases bs <;> rfl
  | cons w ws ih =>
    cases bs with
    | nil => rfl
    | cons b bs => rw [mulAdd, List.length_cons, ih, List.length_cons]

theorem length_mulLoop (bs ps acc : List UInt32) : (mulLoop bs ps acc).length = acc.length := by
  induction ps generalizing acc with
  | nil => rfl
  | cons p ps ih =>
    have hlen := length_mulAdd p 0 acc bs
    rw [mulLoop]
    cases hadd : mulAdd p 0 acc bs with
    | nil => rw [← hlen, hadd]
    | cons w ws => rw [← hlen, hadd, List.length_cons, ih, List.length_cons]

def mulAssign32 (a : BaseUint WIDTH) (b32 : UInt32) : BaseUint WIDTH :=
  ⟨mulWord b32 0 a.pn, (length_mulWord b32 0 a.pn).trans a.length_pn⟩

/-- `operator*=`; `base_uint` has no constructor, so that the words of the local object are those of `memory`. -/
def mulAssign (memory a b : BaseUint WIDTH) : BaseUint WIDTH :=
  ⟨mulLoop b.pn a.pn memory.pn, (length_mulLoop b.pn a.pn memory.pn).trans memory.length_pn⟩

theorem word_step {carry : UInt64} (hcarry : carry.toNat < 2 ^ 32) (w p b : UInt32) :
    (carry + w.toUInt64 + p.toUInt64 * b.toUInt64).toUInt32.toNat +
        2 ^ 32 * ((carry + w.toUInt64 + p.toUInt64 * b.toUInt64) >>> 32).toNat =
      carry.toNat + w.toNat + p.toNat * b.toNat ∧
    ((carry + w.toUInt64 + p.toUInt64 * b.toUInt64) >>> 32).toNat < 2 ^ 32 := by
  have hmul : p.toNat * b.toNat ≤ (2 ^ 32 - 1) * (2 ^ 32 - 1) :=
    Nat.mul_le_mul (Nat.le_sub_one_of_lt p.toNat_lt) (Nat.le_sub_one_of_lt b.toNat_lt)
  have hw := w.toNat_lt
  have hn : (carry + w.toUInt64 + p.toUInt64 * b.toUInt64).toNat = carry.toNat + w.toNat + p.toNat * b.toNat := by
    simp only [UInt64.toNat_add, UInt64.toNat_mul, UInt32.toNat_toUInt64]
    omega
  rw [UInt64.toNat_toUInt32, UInt64.toNat_shiftRight, hn]
  have hshift : (carry.toNat + w.toNat + p.toNat * b.toNat) >>> ((32 : UInt64).toNat % 64) =
      (carry.toNat + w.toNat + p.toNat * b.toNat) / 2 ^ 32 := Nat.shiftRight_eq_div_pow _ _
  rw [hshift]
  omega

theorem zero_lt_radix : (0 : UInt64).toNat < 2 ^ 32 := by decide

theorem wordsValue_mulAdd (p : UInt32) {carry : UInt64} (hcarry : carry.toNat < 2 ^ 32) {ws bs : List UInt32}
    (hlen : ws.length ≤ bs.length) :
    wordsValue (mulAdd p carry ws bs) =
      (carry.toNat + wordsValue ws + p.toNat * wordsValue bs) % (2 ^ 32) ^ ws.length := by
  induction ws generalizing carry bs with
  | nil => cases bs <;> simp [mulAdd, wordsValue, WordArith.value, Nat.mod_one]
  | cons w ws ih =>
    cases bs with
    | nil => simp at hlen
    | cons b bs =>
      obtain ⟨hstep, hnext⟩ := word_step hcarry w p b
      have hsum : carry.toNat + wordsValue (w :: ws) + p.toNat * wordsValue (b :: bs) =
          (carry + w.toUInt64 + p.toUInt64 * b.toUInt64).toUInt32.toNat +
            2 ^ 32 * (((carry + w.toUInt64 + p.toUInt64 * b.toUInt64) >>> 32).toNat + wordsValue ws +
              p.toNat * wordsValue bs) := by
        rw [wordsValue_cons, wordsValue_cons]
        linarith
      rw [mulAdd, wordsValue_cons, ih hnext (Nat.le_of_succ_le_succ hlen), hsum, List.length_cons,
        WordArith.digit_add_mod (UInt32.toNat_lt _)]

theorem mulWord_eq_mulAdd (b32 : UInt32) (carry : UInt64) (ws : List UInt32) :
    mulWord b32 carry ws = mulAdd b32 carry (List.replicate ws.length 0) ws := by
  induction ws generalizing carry with
  | nil => rfl
  | cons w ws ih =>
    have hzero : carry + (0 : UInt32).toUInt64 = carry := by simp
    rw [mulWord, List.length_cons, List.replicate_succ, mulAdd, hzero, ih]

theorem wordsValue_zeros (n : ℕ) : wordsValue (List.replicate n 0) = 0 := by
  induction n with
  | zero => rfl
  | succ n ih => rw [List.replicate_succ, wordsValue_cons, ih]; rfl

theorem wordsValue_mulLoop {bs ps acc : List UInt32} (hps : ps.length = acc.length) (hbs : acc.length ≤ bs.length) :
    wordsValue (mulLoop bs ps acc) = (wordsValue acc + wordsValue ps * wordsValue bs) % (2 ^ 32) ^ acc.length := by
  induction ps generalizing acc with
  | nil =>
    obtain rfl : acc = [] := List.length_eq_zero_iff.1 hps.symm
    simp [mulLoop, wordsValue, WordArith.value, Nat.mod_one]
  | cons p ps ih =>
    have hlen := length_mulAdd p 0 acc bs
    have hadd := wordsValue_mulAdd p zero_lt_radix hbs
    rw [mulLoop]
    cases hacc : mulAdd p 0 acc bs with
    | nil => rw [hacc, ← hps] at hlen; simp at hlen
    | cons w ws =>
      rw [hacc, List.length_cons] at hlen
      rw [hacc, wordsValue_cons] at hadd
      rw [List.length_cons] at hps
      have hrest : wordsValue (mulLoop bs ps ws) = _ := ih (by omega) (by omega)
      have hzero : (0 : UInt64).toNat = 0 := rfl
      have hsplit : wordsValue acc + wordsValue (p :: ps) * wordsValue bs =
          wordsValue acc + p.toNat * wordsValue bs + 2 ^ 32 * (wordsValue ps * wordsValue bs) := by
        rw [wordsValue_cons]
        ring
      dsimp only
      rw [hzero, Nat.zero_add] at hadd
      rw [wordsValue_cons, hrest, hsplit, ← Nat.mod_add_mod (wordsValue acc + _), ← hadd, ← hlen,
        Nat.add_assoc, ← Nat.mul_add, WordArith.digit_add_mod w.toNat_lt]

theorem value_mulAssign32 (a : BaseUint WIDTH) (b32 : UInt32) :
    (a.mulAssign32 b32).value = a.value * b32.toNat % (2 ^ 32) ^ WIDTH := by
  have hmul := wordsValue_mulAdd b32 zero_lt_radix (List.length_replicate (n := a.pn.length) (a := 0)).le
  rw [← mulWord_eq_mulAdd, wordsValue_zeros, List.length_replicate, a.length_pn] at hmul
  rw [value, mulAssign32, hmul, Nat.mul_comm]
  simp [value]

/-- **Wide multiplication**: by a word it is right, by another wide integer exactly if the memory of the local
object was zero. -/
theorem mulAssign_eq_iff (memory a b : BaseUint WIDTH) (b32 : UInt32) :
    (a.mulAssign32 b32).value = a.value * b32.toNat % 2 ^ (32 * WIDTH) ∧
      ((mulAssign memory a b).value = a.value * b.value % 2 ^ (32 * WIDTH) ↔ memory.value = 0) := by
  rw [pow_mul]
  constructor
  · exact value_mulAssign32 a b32
  · have hmul := wordsValue_mulLoop (a.length_pn.trans memory.length_pn.symm)
      (memory.length_pn.trans b.length_pn.symm).le
    rw [memory.length_pn] at hmul
    have hlt := memory.value_lt
    rw [value, mulAssign, hmul]
    change (memory.value + a.value * b.value) % _ = a.value * b.value % _ ↔ _
    generalize (2 ^ 32) ^ WIDTH = M at hlt ⊢
    constructor
    · intro h
      have hzero : memory.value % M = 0 := by
        have hmod : memory.value + a.value * b.value ≡ 0 + a.value * b.value [MOD M] := by
          rw [Nat.zero_add]
          exact h
        exact Nat.ModEq.add_right_cancel' _ hmod
      rwa [Nat.mod_eq_of_lt hlt] at hzero
    · intro h
      rw [h, Nat.zero_add]

/-- The memory of the local object holds a one: 0 times 0 is 1. -/
theorem mulAssign_uninitialised :
    let zero : BaseUint 8 := ⟨List.replicate 8 0, rfl⟩
    (mulAssign ⟨1 :: List.replicate 7 0, rfl⟩ zero zero).value ≠ zero.value * zero.value % 2 ^ (32 * 8) := by
  decide

end BaseUint

end Minemon
