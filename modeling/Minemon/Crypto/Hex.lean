import Minemon.Crypto.BaseUint
import Minemon.Lib.Codec

/-!
# Hexadecimal text

`GetHex` and `SetHex` of `base_uint`, on the bytes of `pn` in memory, the least significant one first. A string is the
list of its characters.

* `BaseUint.setHex_positional`: **hexadecimal text is positional notation**.
-/

namespace Minemon

/-- `isspace` of the C locale, which has an answer for every `char`. -/
def isspace (c : UInt8) : Bool := c == 32 || (9 ≤ c && c ≤ 13)

/-- `tolower` of the C locale. -/
def tolower (c : UInt8) : UInt8 := if 65 ≤ c && c ≤ 90 then c + 32 else c

/-- The table of digits; what is not listed is 0. -/
def phexdigit : List UInt8 := [
  0, 0, 0, 0, 0, 0, 0, 0, 0, 0, 0, 0, 0, 0, 0, 0, 0, 0, 0, 0, 0, 0, 0, 0, 0, 0, 0, 0, 0, 0, 0, 0,
  0, 0, 0, 0, 0, 0, 0, 0, 0, 0, 0, 0, 0, 0, 0, 0, 0, 1, 2, 3, 4, 5, 6, 7, 8, 9, 0, 0, 0, 0, 0, 0,
  0, 0xa, 0xb, 0xc, 0xd, 0xe, 0xf, 0, 0, 0, 0, 0, 0, 0, 0, 0, 0, 0, 0, 0, 0, 0, 0, 0, 0, 0, 0, 0, 0, 0, 0, 0,
  0, 0xa, 0xb, 0xc, 0xd, 0xe, 0xf, 0, 0, 0, 0, 0, 0, 0, 0, 0]

def hexdigit (c : UInt8) : UInt8 := phexdigit.getD c.toNat 0

def isHexdigit (c : UInt8) : Bool := hexdigit c != 0 || c == 48

/-- The value of a hexadecimal digit, in either case. -/
def hexValue (c : UInt8) : Option ℕ :=
  if 48 ≤ c ∧ c ≤ 57 then some (c.toNat - 48)
  else if 97 ≤ c ∧ c ≤ 102 then some (c.toNat - 87)
  else if 65 ≤ c ∧ c ≤ 70 then some (c.toNat - 55)
  else none

/-- The digit of a number below 16 in `%02x`. -/
def hexChar (n : UInt8) : UInt8 := if n < 10 then 48 + n else 87 + n

def hexPair (b : UInt8) : List UInt8 := [hexChar (b / 16), hexChar (b % 16)]

namespace BaseUint

variable {WIDTH : ℕ}

def bytes (a : BaseUint WIDTH) : List UInt8 := a.pn.flatMap fun w => leBytes 4 w.toNat

def wordsOf : ℕ → List UInt8 → List UInt32
  | 0, _ => []
  | n + 1, bs => UInt32.ofNat (ofLeBytes (bs.take 4)) :: wordsOf n (bs.drop 4)

theorem length_wordsOf (n : ℕ) (bs : List UInt8) : (wordsOf n bs).length = n := by
  induction n generalizing bs with
  | zero => rfl
  | succ n ih => rw [wordsOf, List.length_cons, ih]

def ofBytes (bs : List UInt8) : BaseUint WIDTH := ⟨wordsOf WIDTH bs, length_wordsOf WIDTH bs⟩

def getHex (a : BaseUint WIDTH) : List UInt8 := a.bytes.reverse.flatMap hexPair

/-- The last loop of `SetHex`, over the digits from the end; `n` bytes are left, and are 0. -/
def writeDigits : ℕ → List UInt8 → List UInt8
  | 0, _ => []
  | n + 1, [] => 0 :: writeDigits n []
  | n + 1, [c] => hexdigit c :: writeDigits n []
  | n + 1, c :: c' :: cs => (hexdigit c ||| hexdigit c' <<< 4) :: writeDigits n cs

/-- Behind an optional `0x`. -/
def skipMark (psz : List UInt8) : List UInt8 :=
  if psz.headD 0 = 48 ∧ tolower (psz.tail.headD 0) = 120 then psz.drop 2 else psz

/-- `SetHex`: the number, and what is returned. -/
def setHex (psz : List UInt8) : BaseUint WIDTH × ℕ :=
  let pbegin := skipMark (psz.dropWhile isspace)
  let digits := pbegin.takeWhile isHexdigit
  (ofBytes (writeDigits (4 * WIDTH) digits.reverse), psz.length - pbegin.length + digits.length)

/-! ## Bytes and words -/

theorem ofLeBytes_append (as bs : List UInt8) :
    ofLeBytes (as ++ bs) = ofLeBytes as + 256 ^ as.length * ofLeBytes bs := by
  induction as with
  | nil => simp [ofLeBytes]
  | cons a as ih =>
    rw [List.cons_append, ofLeBytes, ih, ofLeBytes, List.length_cons, pow_succ]
    ring

theorem wordsValue_wordsOf {n : ℕ} {bs : List UInt8} (h : bs.length = 4 * n) :
    wordsValue (wordsOf n bs) = ofLeBytes bs := by
  induction n generalizing bs with
  | zero =>
    rw [List.length_eq_zero_iff.1 h]
    rfl
  | succ n ih =>
    have htake : (bs.take 4).length = 4 := by rw [List.length_take]; omega
    have hlt := ofLeBytes_lt (bs.take 4)
    rw [htake] at hlt
    have hbs := ofLeBytes_append (bs.take 4) (bs.drop 4)
    rw [List.take_append_drop, htake] at hbs
    rw [wordsOf, wordsValue_cons, ih (by rw [List.length_drop]; omega), hbs, UInt32.toNat_ofNat_of_lt' hlt]
    norm_num

theorem wordsOf_flatMap (ws : List UInt32) : wordsOf ws.length (ws.flatMap fun w => leBytes 4 w.toNat) = ws := by
  induction ws with
  | nil => rfl
  | cons w ws ih =>
    have hw : UInt32.ofNat (ofLeBytes (leBytes 4 w.toNat)) = w := by
      rw [ofLeBytes_leBytes, Nat.mod_eq_of_lt (by norm_num; exact w.toNat_lt), UInt32.ofNat_toNat]
    rw [List.flatMap_cons, List.length_cons, wordsOf, List.take_left' (length_leBytes 4 _),
      List.drop_left' (length_leBytes 4 _), hw, ih]

/-! ## Digits -/

theorem forall_uint8 {P : UInt8 → Prop} (h : ∀ n < 256, P (UInt8.ofNat n)) (c : UInt8) : P c := by
  simpa using h c.toNat c.toNat_lt

theorem hexdigit_eq (c : UInt8) :
    isHexdigit c = (hexValue c).isSome ∧ (hexdigit c).toNat = (hexValue c).getD 0 ∧ (hexdigit c).toNat < 16 := by
  revert c
  refine forall_uint8 ?_
  decide +kernel

theorem toNat_digits (c c' : UInt8) :
    (hexdigit c ||| hexdigit c' <<< 4).toNat = (hexdigit c).toNat + 16 * (hexdigit c').toNat := by
  have h := (hexdigit_eq c).2.2
  have h' := (hexdigit_eq c').2.2
  rw [UInt8.toNat_or, UInt8.toNat_shiftLeft, Nat.or_comm]
  have hshift : (hexdigit c').toNat <<< (UInt8.toNat 4 % 8) % 2 ^ 8 = 2 ^ 4 * (hexdigit c').toNat := by
    rw [show UInt8.toNat 4 % 8 = 4 from rfl, Nat.shiftLeft_eq]
    omega
  rw [hshift, ← Nat.two_pow_add_eq_or_of_lt h, Nat.add_comm]

theorem hexChar_spec : ∀ d : UInt8, d < 16 →
    hexdigit (hexChar d) = d ∧ isHexdigit (hexChar d) = true ∧ isspace (hexChar d) = false ∧
      tolower (hexChar d) ≠ 120 := by
  refine forall_uint8 ?_
  decide +kernel

theorem nibbles_lt (b : UInt8) : b / 16 < 16 ∧ b % 16 < 16 := by
  have hb := b.toNat_lt
  rw [UInt8.lt_iff_toNat_lt, UInt8.lt_iff_toNat_lt, UInt8.toNat_div, UInt8.toNat_mod]
  show b.toNat / 16 < 16 ∧ b.toNat % 16 < 16
  omega

theorem digits_hexPair (b : UInt8) : hexdigit (hexChar (b % 16)) ||| hexdigit (hexChar (b / 16)) <<< 4 = b := by
  rw [← UInt8.toNat_inj, toNat_digits, (hexChar_spec _ (nibbles_lt b).1).1, (hexChar_spec _ (nibbles_lt b).2).1,
    UInt8.toNat_div, UInt8.toNat_mod]
  exact Nat.mod_add_div b.toNat 16

theorem length_writeDigits (n : ℕ) (cs : List UInt8) : (writeDigits n cs).length = n := by
  fun_induction writeDigits n cs with
  | case1 => rfl
  | case2 _ ih | case3 _ _ ih | case4 _ _ _ _ ih => rw [List.length_cons, ih]

/-- **The digits written from the end** are the number, modulo the width. -/
theorem ofLeBytes_writeDigits (n : ℕ) (cs : List UInt8) :
    ofLeBytes (writeDigits n cs) = Nat.ofDigits 16 (cs.map fun c => (hexdigit c).toNat) % 256 ^ n := by
  fun_induction writeDigits n cs with
  | case1 => simp [ofLeBytes, Nat.mod_one]
  | case2 n ih => simp [ofLeBytes, ih]
  | case3 n c ih =>
    have hsum : Nat.ofDigits 16 ([c].map fun c => (hexdigit c).toNat) = (hexdigit c).toNat + 256 * 0 := by simp
    have h := (hexdigit_eq c).2.2
    rw [ofLeBytes, ih, hsum, WordArith.digit_add_mod (by omega)]
    simp
  | case4 n c c' cs ih =>
    have h := (hexdigit_eq c).2.2
    have h' := (hexdigit_eq c').2.2
    have hsum : Nat.ofDigits 16 ((c :: c' :: cs).map fun c => (hexdigit c).toNat) =
        (hexdigit c).toNat + 16 * (hexdigit c').toNat +
          256 * Nat.ofDigits 16 (cs.map fun c => (hexdigit c).toNat) := by
      rw [List.map_cons, List.map_cons, Nat.ofDigits_cons, Nat.ofDigits_cons]
      ring
    rw [ofLeBytes, ih, toNat_digits, hsum, WordArith.digit_add_mod (by omega)]

theorem writeDigits_hexPairs (bs : List UInt8) : writeDigits bs.length (bs.reverse.flatMap hexPair).reverse = bs := by
  induction bs with
  | nil => rfl
  | cons b bs ih =>
    rw [List.reverse_cons, List.flatMap_append, List.reverse_append]
    show writeDigits (bs.length + 1) (hexChar (b % 16) :: hexChar (b / 16) :: (bs.reverse.flatMap hexPair).reverse) = _
    rw [writeDigits, digits_hexPair, ih]

/-! ## The text -/

theorem skipMark_spec (psz : List UInt8) : ∃ mark, psz = mark ++ skipMark psz ∧
    (mark = [48, 120] ∨ mark = [48, 88] ∨ mark = [] ∧ ¬ [48, 120] <+: skipMark psz ∧ ¬ [48, 88] <+: skipMark psz) := by
  have hx : ∀ c, tolower c = 120 → c = 120 ∨ c = 88 := forall_uint8 (by decide +kernel)
  unfold skipMark
  split_ifs with h
  · rcases psz with _ | ⟨a, _ | ⟨c, cs⟩⟩
    · cases h.1
    · cases h.2
    · obtain rfl : a = 48 := h.1
      rcases hx c h.2 with rfl | rfl
      · exact ⟨[48, 120], rfl, Or.inl rfl⟩
      · exact ⟨[48, 88], rfl, Or.inr (Or.inl rfl)⟩
  · refine ⟨[], rfl, Or.inr (Or.inr ⟨rfl, ?_, ?_⟩)⟩
    · rintro ⟨cs, rfl⟩
      exact h ⟨rfl, rfl⟩
    · rintro ⟨cs, rfl⟩
      exact h ⟨rfl, rfl⟩

theorem head_dropWhile (p : UInt8 → Bool) (l : List UInt8) : ∀ c ∈ (l.dropWhile p).head?, p c = false := by
  intro c hc
  have h := List.head?_dropWhile_not p l
  rwa [Option.mem_def.1 hc] at h

theorem length_bytes (a : BaseUint WIDTH) : a.bytes.length = 4 * WIDTH := by
  simp [bytes, List.length_flatMap, a.length_pn, Nat.mul_comm]

theorem setHex_getHex (x : BaseUint WIDTH) : (setHex x.getHex : BaseUint WIDTH × ℕ).1 = x := by
  have hchars : ∀ c ∈ x.getHex, isHexdigit c = true ∧ isspace c = false ∧ tolower c ≠ 120 := by
    intro c hc
    obtain ⟨b, -, hb⟩ := List.mem_flatMap.1 hc
    simp only [hexPair, List.mem_cons, List.not_mem_nil, or_false] at hb
    rcases hb with rfl | rfl
    · exact (hexChar_spec _ (nibbles_lt b).1).2
    · exact (hexChar_spec _ (nibbles_lt b).2).2
  have hblank : x.getHex.dropWhile isspace = x.getHex :=
    List.dropWhile_eq_self_iff.2 fun hl => by rw [(hchars _ (List.getElem_mem hl)).2.1]; simp
  have hmark : skipMark x.getHex = x.getHex := by
    refine if_neg fun h => ?_
    generalize x.getHex = psz at hchars h
    rcases psz with _ | ⟨a, _ | ⟨c, cs⟩⟩
    · cases h.1
    · cases h.2
    · exact (hchars c (by simp)).2.2 h.2
  have hdigits : x.getHex.takeWhile isHexdigit = x.getHex := List.takeWhile_eq_self_iff.2 fun c hc => (hchars c hc).1
  have hbytes : writeDigits (4 * WIDTH) x.getHex.reverse = x.bytes := by
    rw [← x.length_bytes]
    exact writeDigits_hexPairs x.bytes
  have hwords : wordsOf WIDTH x.bytes = x.pn := by
    rw [← wordsOf_flatMap x.pn, x.length_pn]
    rfl
  simp only [setHex, hblank, hmark, hdigits, hbytes, ofBytes, hwords]

/-- **Hexadecimal text is positional notation**: what is written is read back; blanks, a mark and the longest run of
digits are read from any text. -/
theorem setHex_positional :
    (∀ x : BaseUint WIDTH, (setHex x.getHex : BaseUint WIDTH × ℕ).1 = x) ∧
    ∀ psz, ∃ blanks mark digits rest, psz = blanks ++ (mark ++ (digits ++ rest)) ∧
      (∀ c ∈ blanks, isspace c = true) ∧ (∀ c ∈ (mark ++ (digits ++ rest)).head?, isspace c = false) ∧
      (mark = [48, 120] ∨ mark = [48, 88] ∨
        mark = [] ∧ ¬ [48, 120] <+: digits ++ rest ∧ ¬ [48, 88] <+: digits ++ rest) ∧
      (∀ c ∈ digits, (hexValue c).isSome) ∧ (∀ c ∈ rest.head?, hexValue c = none) ∧
      (setHex psz : BaseUint WIDTH × ℕ).1.value =
        Nat.ofDigits 16 (digits.reverse.map fun c => (hexValue c).getD 0) % 2 ^ (32 * WIDTH) ∧
      (setHex psz : BaseUint WIDTH × ℕ).2 = blanks.length + mark.length + digits.length := by
  refine ⟨setHex_getHex, fun psz => ?_⟩
  have hblanks := List.takeWhile_append_dropWhile (p := isspace) (l := psz)
  obtain ⟨mark, hmark, hcases⟩ := skipMark_spec (psz.dropWhile isspace)
  have hdigits := List.takeWhile_append_dropWhile (p := isHexdigit) (l := skipMark (psz.dropWhile isspace))
  refine ⟨psz.takeWhile isspace, mark, (skipMark (psz.dropWhile isspace)).takeWhile isHexdigit,
    (skipMark (psz.dropWhile isspace)).dropWhile isHexdigit, ?_, ?_, ?_, ?_, ?_, ?_, ?_, ?_⟩
  · rw [hdigits, ← hmark, hblanks]
  · exact fun c hc => List.mem_takeWhile_imp hc
  · rw [hdigits, ← hmark]
    exact head_dropWhile isspace psz
  · rwa [hdigits]
  · intro c hc
    rw [← (hexdigit_eq c).1]
    exact List.mem_takeWhile_imp hc
  · intro c hc
    have hnot := head_dropWhile isHexdigit _ c hc
    rwa [(hexdigit_eq c).1, Option.isSome_eq_false_iff, Option.isNone_iff_eq_none] at hnot
  · have hvalue : (fun c => (hexdigit c).toNat) = fun c => (hexValue c).getD 0 := by
      funext c
      exact (hexdigit_eq c).2.1
    rw [value, setHex]
    dsimp only
    rw [ofBytes, wordsValue_wordsOf (length_writeDigits _ _), ofLeBytes_writeDigits, hvalue,
      show 256 = 2 ^ 8 by norm_num, ← pow_mul, ← Nat.mul_assoc]
  · have hlen := congrArg List.length hblanks
    have hlen' := congrArg List.length hmark
    rw [List.length_append] at hlen hlen'
    rw [setHex]
    dsimp only
    omega

end BaseUint

end Minemon
