import Minemon.Address.Crc24q
import Minemon.Common.Destination

/-!
# Addresses as text

`crypto/base32.cpp` writes 32 bytes and their checksum as 56 characters of five bits each, and reads them back;
`CAddress` of `minemon/address.cpp` puts the kind of the destination in front.

* `base32Decode_eq_some_iff`: what is read. A character that is not in the alphabet is read as `z`.
* `base32Decode_only_iff`: when a text is read only as its own encoding.

A result of `none` is one that the source does not define: a character with its high bit set is a negative
index of the table of digits.
-/

namespace Minemon

/-! ## Encoding -/

def alphabet : List UInt8 :=
  (['0', '1', '2', '3', '4', '5', '6', '7', '8', '9', 'a', 'b', 'c', 'd', 'e', 'f',
    'g', 'h', 'j', 'k', 'm', 'n', 'p', 'q', 'r', 's', 't', 'v', 'w', 'x', 'y', 'z'] : List Char).map fun c =>
      UInt8.ofNat c.toNat

def base32Encode5Bytes (md5 : List UInt8) : List UInt8 :=
  let m (i : ℕ) : ℕ := (md5.getD i 0).toNat
  [m 0 >>> 3 &&& 0x1F,
    (m 0 <<< 2 &&& 0x1C) ||| (m 1 >>> 6 &&& 0x03),
    m 1 >>> 1 &&& 0x1F,
    (m 1 <<< 4 &&& 0x10) ||| (m 2 >>> 4 &&& 0x0F),
    (m 2 <<< 1 &&& 0x1E) ||| (m 3 >>> 7 &&& 0x01),
    m 3 >>> 2 &&& 0x1F,
    (m 3 <<< 3 &&& 0x18) ||| (m 4 >>> 5 &&& 0x07),
    m 4 &&& 0x1F].map fun i => alphabet.getD i 0

/-- `Base32Encode`, of 32 bytes. -/
def base32Encode (md32 : List UInt8) : List UInt8 :=
  [0, 5, 10, 15, 20, 25].flatMap (fun i => base32Encode5Bytes (md32.drop i))
    ++ base32Encode5Bytes ([md32.getD 30 0, md32.getD 31 0] ++ crcBytes (crc24q md32))

/-! ## Decoding -/

/-- The table of digits: `char` values in two's complement. -/
def digit : List UInt8 := List.replicate 48 (-1) ++ [
  0, 1, 2, 3, 4, 5, 6, 7, 8, 9, -1, -1, -1, -1, -1, -1,
  -1, 10, 11, 12, 13, 14, 15, 16, 17, -1, 18, 19, -1, 20, 21, -1,
  22, 23, 24, 25, 26, -1, 27, 28, 29, 30, 31, -1, -1, -1, -1, -1,
  -1, 10, 11, 12, 13, 14, 15, 16, 17, -1, 18, 19, -1, 20, 21, -1,
  22, 23, 24, 25, 26, -1, 27, 28, 29, 30, 31, -1, -1, -1, -1, -1] ++ List.replicate 128 (-1)

/-- A `char` as an `int`, in two's complement. -/
def charToInt (idx : ℕ) : ℕ := if idx < 2 ^ 7 then idx else idx + (2 ^ 32 - 2 ^ 8)

/-- `Base32Decode5Bytes`: what is returned, and the five bytes. -/
def base32Decode5Bytes (psz : List UInt8) : Option (Bool × List UInt8) :=
  if (psz.take 8).any fun c => 128 ≤ c.toNat then none
  else
    let idx (i : ℕ) : ℕ := (digit.getD (psz.getD i 0).toNat 0).toNat
    let sum := (List.range 8).foldl (fun sum i => sum &&& charToInt (idx i)) 0
    some (sum >>> 7 == 0,
      [(idx 0 <<< 3 &&& 0xF8) ||| (idx 1 >>> 2 &&& 0x07),
        (idx 1 <<< 6 &&& 0xC0) ||| (idx 2 <<< 1 &&& 0x3E) ||| (idx 3 >>> 4 &&& 0x01),
        (idx 3 <<< 4 &&& 0xF0) ||| (idx 4 >>> 1 &&& 0x0F),
        (idx 4 <<< 7 &&& 0x80) ||| (idx 5 <<< 2 &&& 0x7C) ||| (idx 6 >>> 3 &&& 0x03),
        (idx 6 <<< 5 &&& 0xE0) ||| (idx 7 &&& 0x1F)].map UInt8.ofNat)

/-- The loop of `Base32Decode` over the groups of eight characters. -/
def base32DecodeLoop : ℕ → List UInt8 → Option (Option (List UInt8))
  | 0, _ => some (some [])
  | n + 1, psz =>
    match base32Decode5Bytes psz with
    | none => none
    | some (false, _) => some none
    | some (true, md5) => (base32DecodeLoop n (psz.drop 8)).map (Option.map (md5 ++ ·))

/-- `Base32Decode`: the 32 bytes, `some none` is `false`. -/
def base32Decode (strBase32 : List UInt8) : Option (Option (List UInt8)) :=
  if strBase32.length ≠ 56 then some none
  else
    match base32DecodeLoop 7 strBase32 with
    | none => none
    | some none => some none
    | some (some data) => if crc24q data ≠ 0 then some none else some (some (data.take 32))

/-! ## Groups of five bytes -/

theorem shiftRight_and (n k m : ℕ) : n >>> k &&& (2 ^ m - 1) = n / 2 ^ k % 2 ^ m := by
  rw [Nat.shiftRight_eq_div_pow, Nat.and_two_pow_sub_one_eq_mod]

theorem shiftLeft_and (n k m : ℕ) : n <<< k &&& (2 ^ m - 1) <<< k = n % 2 ^ m * 2 ^ k := by
  rw [← Nat.shiftLeft_and_distrib, Nat.and_two_pow_sub_one_eq_mod, Nat.shiftLeft_eq]

theorem mul_or_eq_add {b k : ℕ} (a : ℕ) (h : b < 2 ^ k) : a * 2 ^ k ||| b = a * 2 ^ k + b := by
  rw [Nat.mul_comm, Nat.two_pow_add_eq_or_of_lt h]

theorem shiftLeft_or_shiftRight (x y k m j n : ℕ) (h : n ≤ k) :
    (x <<< k &&& (2 ^ m - 1) <<< k) ||| (y >>> j &&& (2 ^ n - 1)) = x % 2 ^ m * 2 ^ k + y / 2 ^ j % 2 ^ n := by
  rw [shiftLeft_and, shiftRight_and]
  exact mul_or_eq_add _ ((Nat.mod_lt _ (Nat.two_pow_pos n)).trans_le (Nat.pow_le_pow_right (by decide) h))

def digits5 (a b c d e : ℕ) : List ℕ :=
  [a / 8 % 32, a % 8 * 4 + b / 64 % 4, b / 2 % 32, b % 2 * 16 + c / 16 % 16, c % 16 * 2 + d / 128 % 2, d / 4 % 32,
    d % 4 * 8 + e / 32 % 8, e % 32]

def bytes5 (d0 d1 d2 d3 d4 d5 d6 d7 : ℕ) : List ℕ :=
  [d0 % 32 * 8 + d1 / 4 % 8, d1 % 4 * 64 + d2 % 32 * 2 + d3 / 16 % 2, d3 % 16 * 16 + d4 / 2 % 16,
    d4 % 2 * 128 + d5 % 32 * 4 + d6 / 8 % 4, d6 % 8 * 32 + d7 % 32]

def symbol (i : ℕ) : UInt8 := alphabet.getD i 0

def digitOf (c : UInt8) : ℕ := (digit.getD c.toNat 0).toNat

theorem base32Encode5Bytes_cons (a b c d e : UInt8) (l : List UInt8) :
    base32Encode5Bytes (a :: b :: c :: d :: e :: l) = (digits5 a.toNat b.toNat c.toNat d.toNat e.toNat).map symbol := by
  simp only [base32Encode5Bytes, digits5, List.getD_cons_zero, List.getD_cons_succ]
  rw [show a.toNat >>> 3 &&& 0x1F = _ from shiftRight_and _ 3 5,
    show (a.toNat <<< 2 &&& 0x1C) ||| (b.toNat >>> 6 &&& 0x03) = _ from shiftLeft_or_shiftRight _ _ 2 3 6 2 (by decide),
    show b.toNat >>> 1 &&& 0x1F = _ from shiftRight_and _ 1 5,
    show (b.toNat <<< 4 &&& 0x10) ||| (c.toNat >>> 4 &&& 0x0F) = _ from shiftLeft_or_shiftRight _ _ 4 1 4 4 (by decide),
    show (c.toNat <<< 1 &&& 0x1E) ||| (d.toNat >>> 7 &&& 0x01) = _ from shiftLeft_or_shiftRight _ _ 1 4 7 1 (by decide),
    show d.toNat >>> 2 &&& 0x1F = _ from shiftRight_and _ 2 5,
    show (d.toNat <<< 3 &&& 0x18) ||| (e.toNat >>> 5 &&& 0x07) = _ from shiftLeft_or_shiftRight _ _ 3 2 5 3 (by decide),
    show e.toNat &&& 0x1F = _ from Nat.and_two_pow_sub_one_eq_mod _ 5]
  rfl

theorem foldl_and_zero (f : ℕ → ℕ) (l : List ℕ) : l.foldl (fun sum i => sum &&& f i) 0 = 0 := by
  induction l with
  | nil => rfl
  | cons i l ih => rw [List.foldl_cons, Nat.zero_and, ih]

theorem base32Decode5Bytes_cons (c0 c1 c2 c3 c4 c5 c6 c7 : UInt8) (l : List UInt8)
    (h : ∀ c ∈ [c0, c1, c2, c3, c4, c5, c6, c7], c.toNat < 128) :
    base32Decode5Bytes (c0 :: c1 :: c2 :: c3 :: c4 :: c5 :: c6 :: c7 :: l) =
      some (true, (bytes5 (digitOf c0) (digitOf c1) (digitOf c2) (digitOf c3) (digitOf c4) (digitOf c5) (digitOf c6)
        (digitOf c7)).map UInt8.ofNat) := by
  have hlow : ∀ x y : ℕ, (x <<< 5 &&& 0xE0) ||| (y &&& 0x1F) = x % 8 * 32 + y % 32 := by
    intro x y
    rw [show x <<< 5 &&& 0xE0 = _ from shiftLeft_and x 5 3, show y &&& 0x1F = _ from Nat.and_two_pow_sub_one_eq_mod y 5]
    exact mul_or_eq_add _ (Nat.mod_lt _ (by decide))
  have hthree : ∀ x y z : ℕ, (x <<< 6 &&& 0xC0) ||| (y <<< 1 &&& 0x3E) ||| (z >>> 4 &&& 0x01)
      = x % 4 * 64 + y % 32 * 2 + z / 16 % 2 := by
    intro x y z
    rw [Nat.or_assoc, show (y <<< 1 &&& 0x3E) ||| (z >>> 4 &&& 0x01) = _ from
      shiftLeft_or_shiftRight y z 1 5 4 1 (by decide), show x <<< 6 &&& 0xC0 = _ from shiftLeft_and x 6 2,
      mul_or_eq_add _ (by omega), Nat.add_assoc]
    rfl
  have hthree' : ∀ x y z : ℕ, (x <<< 7 &&& 0x80) ||| (y <<< 2 &&& 0x7C) ||| (z >>> 3 &&& 0x03)
      = x % 2 * 128 + y % 32 * 4 + z / 8 % 4 := by
    intro x y z
    rw [Nat.or_assoc, show (y <<< 2 &&& 0x7C) ||| (z >>> 3 &&& 0x03) = _ from
      shiftLeft_or_shiftRight y z 2 5 3 2 (by decide), show x <<< 7 &&& 0x80 = _ from shiftLeft_and x 7 1,
      mul_or_eq_add _ (by omega), Nat.add_assoc]
    rfl
  have hnone : (([c0, c1, c2, c3, c4, c5, c6, c7] : List UInt8).any fun c => 128 ≤ c.toNat) = false := by
    simpa using h
  unfold base32Decode5Bytes
  rw [show (c0 :: c1 :: c2 :: c3 :: c4 :: c5 :: c6 :: c7 :: l).take 8 = [c0, c1, c2, c3, c4, c5, c6, c7] from rfl,
    hnone, if_neg Bool.false_ne_true]
  simp only [foldl_and_zero, List.getD_cons_zero, List.getD_cons_succ, hthree, hthree', hlow]
  rw [show (digit.getD c0.toNat 0).toNat <<< 3 &&& 0xF8 ||| (digit.getD c1.toNat 0).toNat >>> 2 &&& 0x07 = _ from
    shiftLeft_or_shiftRight _ _ 3 5 2 3 (by decide),
    show (digit.getD c3.toNat 0).toNat <<< 4 &&& 0xF0 ||| (digit.getD c4.toNat 0).toNat >>> 1 &&& 0x0F = _ from
    shiftLeft_or_shiftRight _ _ 4 4 1 4 (by decide)]
  rfl

set_option maxRecDepth 2000 in
theorem digitOf_symbol : ∀ i < 32, digitOf (symbol i) = i ∧ (symbol i).toNat < 128 := by decide

/-- What a character is read as. -/
def canon (c : UInt8) : UInt8 := symbol (digitOf c % 32)

theorem exists_cons5 {l : List UInt8} (h : 5 ≤ l.length) : ∃ a b c d e r, l = a :: b :: c :: d :: e :: r := by
  rcases l with _ | ⟨a, _ | ⟨b, _ | ⟨c, _ | ⟨d, _ | ⟨e, r⟩⟩⟩⟩⟩ <;> first | exact ⟨a, b, c, d, e, r, rfl⟩ | simp at h

theorem exists_cons8 {l : List UInt8} (h : 8 ≤ l.length) :
    ∃ c0 c1 c2 c3 c4 c5 c6 c7 r, l = c0 :: c1 :: c2 :: c3 :: c4 :: c5 :: c6 :: c7 :: r := by
  obtain ⟨c0, c1, c2, c3, c4, r, rfl⟩ := exists_cons5 (l := l) (by omega)
  rcases r with _ | ⟨c5, _ | ⟨c6, _ | ⟨c7, r⟩⟩⟩ <;> first | exact ⟨c0, c1, c2, c3, c4, c5, c6, c7, r, rfl⟩ | simp at h

theorem digits5_lt {a b c d e i : ℕ} (h : i ∈ digits5 a b c d e) : i < 32 := by
  simp only [digits5, List.mem_cons, List.not_mem_nil, or_false] at h
  omega

theorem bytes5_digits {a b c d e : ℕ} (ha : a < 256) (hb : b < 256) (hc : c < 256) (hd : d < 256) (he : e < 256) :
    bytes5 (a / 8 % 32) (a % 8 * 4 + b / 64 % 4) (b / 2 % 32) (b % 2 * 16 + c / 16 % 16) (c % 16 * 2 + d / 128 % 2)
      (d / 4 % 32) (d % 4 * 8 + e / 32 % 8) (e % 32) = [a, b, c, d, e] := by
  simp only [bytes5, List.cons.injEq, and_true]
  omega

/-- **A group that was written** is read back. -/
theorem base32Decode5Bytes_encode {data : List UInt8} (h : 5 ≤ data.length) (rest : List UInt8) :
    base32Decode5Bytes (base32Encode5Bytes data ++ rest) = some (true, data.take 5) := by
  obtain ⟨a, b, c, d, e, r, rfl⟩ := exists_cons5 h
  have hdigit : ∀ {n}, n < 32 → digitOf (symbol n) = n := fun hn => (digitOf_symbol _ hn).1
  have hascii : ∀ x ∈ (digits5 a.toNat b.toNat c.toNat d.toNat e.toNat).map symbol, x.toNat < 128 := by
    intro x hx
    obtain ⟨i, hi, rfl⟩ := List.mem_map.1 hx
    exact (digitOf_symbol i (digits5_lt hi)).2
  rw [base32Encode5Bytes_cons, show (digits5 a.toNat b.toNat c.toNat d.toNat e.toNat).map symbol ++ rest =
    symbol _ :: symbol _ :: symbol _ :: symbol _ :: symbol _ :: symbol _ :: symbol _ :: symbol _ :: rest from rfl,
    base32Decode5Bytes_cons _ _ _ _ _ _ _ _ _ hascii]
  simp (disch := omega) only [hdigit]
  rw [bytes5_digits a.toNat_lt b.toNat_lt c.toNat_lt d.toNat_lt e.toNat_lt]
  simp

/-- **A group that was read** is written as its characters were read. -/
theorem base32Encode5Bytes_decode {psz : List UInt8} (hlen : 8 ≤ psz.length) (h : ∀ c ∈ psz.take 8, c.toNat < 128) :
    ∃ md5, md5.length = 5 ∧ base32Decode5Bytes psz = some (true, md5) ∧
      ∀ rest, base32Encode5Bytes (md5 ++ rest) = (psz.take 8).map canon := by
  obtain ⟨c0, c1, c2, c3, c4, c5, c6, c7, r, rfl⟩ := exists_cons8 hlen
  refine ⟨_, rfl, base32Decode5Bytes_cons _ _ _ _ _ _ _ _ _ h, fun rest => ?_⟩
  have hbyte : ∀ {n}, n < 256 → (UInt8.ofNat n).toNat = n := fun hn => by
    rw [UInt8.toNat_ofNat', Nat.mod_eq_of_lt hn]
  have hcanon : ∀ {n} (c : UInt8), n = digitOf c % 32 → symbol n = canon c := fun c hn => by rw [hn]; rfl
  simp only [bytes5, List.map_cons, List.map_nil, List.cons_append, List.nil_append, base32Encode5Bytes_cons]
  simp (disch := omega) only [hbyte]
  simp only [digits5, List.map_cons, List.map_nil, List.take_succ_cons, List.take_zero, List.cons.injEq, and_true]
  exact ⟨hcanon c0 (by omega), hcanon c1 (by omega), hcanon c2 (by omega), hcanon c3 (by omega), hcanon c4 (by omega),
    hcanon c5 (by omega), hcanon c6 (by omega), hcanon c7 (by omega)⟩

/-! ## All groups -/

def encodeGroups : ℕ → List UInt8 → List UInt8
  | 0, _ => []
  | n + 1, data => base32Encode5Bytes data ++ encodeGroups n (data.drop 5)

theorem base32Encode5Bytes_append {l : List UInt8} (h : 5 ≤ l.length) (r : List UInt8) :
    base32Encode5Bytes (l ++ r) = base32Encode5Bytes l := by
  obtain ⟨a, b, c, d, e, r', rfl⟩ := exists_cons5 h
  rw [base32Encode5Bytes_cons]
  exact base32Encode5Bytes_cons a b c d e (r' ++ r)

/-- The text of 32 bytes is that of seven groups, with the checksum behind the bytes. -/
theorem base32Encode_eq_groups {md32 : List UInt8} (h : md32.length = 32) :
    base32Encode md32 = encodeGroups 7 (md32 ++ crcBytes (crc24q md32)) := by
  have hgroup : ∀ i ≤ 27, base32Encode5Bytes ((md32 ++ crcBytes (crc24q md32)).drop i) =
      base32Encode5Bytes (md32.drop i) := by
    intro i hi
    rw [List.drop_append_of_le_length (by omega), base32Encode5Bytes_append (by rw [List.length_drop]; omega)]
  have hlast : (md32 ++ crcBytes (crc24q md32)).drop 30 =
      [md32.getD 30 0, md32.getD 31 0] ++ crcBytes (crc24q md32) := by
    rw [List.drop_append_of_le_length (by omega), List.drop_eq_getElem_cons (i := 30) (by omega),
      List.drop_eq_getElem_cons (i := 31) (by omega), List.drop_of_length_le (by omega), List.getD_eq_getElem,
      List.getD_eq_getElem]
  have hfirst := base32Encode5Bytes_append (l := md32) (by omega) (crcBytes (crc24q md32))
  simp only [base32Encode, encodeGroups, List.drop_drop, List.flatMap_cons, List.flatMap_nil, Nat.reduceAdd, hlast,
    List.append_nil, List.append_assoc]
  rw [hgroup 5 (by decide), hgroup 10 (by decide), hgroup 15 (by decide), hgroup 20 (by decide), hgroup 25 (by decide),
    hfirst]
  rfl

/-- **What was written is read back.** -/
theorem base32DecodeLoop_encodeGroups (n : ℕ) {data : List UInt8} (h : data.length = 5 * n) :
    base32DecodeLoop n (encodeGroups n data) = some (some data) := by
  induction n generalizing data with
  | zero => rw [List.eq_nil_of_length_eq_zero h]; rfl
  | succ n ih =>
    rw [encodeGroups, base32DecodeLoop, base32Decode5Bytes_encode (by omega)]
    have hdrop : (base32Encode5Bytes data ++ encodeGroups n (data.drop 5)).drop 8 = encodeGroups n (data.drop 5) := rfl
    have hrest := ih (show (data.drop 5).length = 5 * n by rw [List.length_drop]; omega)
    simp only [hdrop, hrest, Option.map_some, List.take_append_drop]

/-- **What is read** is written as its characters were read. -/
theorem base32DecodeLoop_ascii (n : ℕ) {psz : List UInt8} (hlen : 8 * n ≤ psz.length)
    (h : ∀ c ∈ psz.take (8 * n), c.toNat < 128) :
    ∃ data, data.length = 5 * n ∧ base32DecodeLoop n psz = some (some data) ∧
      encodeGroups n data = (psz.take (8 * n)).map canon := by
  induction n generalizing psz with
  | zero => exact ⟨[], rfl, rfl, by simp [encodeGroups]⟩
  | succ n ih =>
    have hsplit : psz.take (8 * (n + 1)) = psz.take 8 ++ (psz.drop 8).take (8 * n) := by
      rw [show 8 * (n + 1) = 8 + 8 * n by omega, List.take_add]
    rw [hsplit] at h
    obtain ⟨md5, hmd5, hdec, henc⟩ := base32Encode5Bytes_decode (show 8 ≤ psz.length by omega)
      (fun c hc => h c (List.mem_append_left _ hc))
    obtain ⟨data, hdata, hloop, hgroups⟩ := ih (show 8 * n ≤ (psz.drop 8).length by rw [List.length_drop]; omega)
      (fun c hc => h c (List.mem_append_right _ hc))
    refine ⟨md5 ++ data, by rw [List.length_append]; omega, ?_, ?_⟩
    · rw [base32DecodeLoop, hdec]
      simp only [hloop, Option.map_some]
    · rw [encodeGroups, henc, List.drop_left' hmd5, hgroups, hsplit, List.map_append]

theorem base32DecodeLoop_high (n : ℕ) {psz : List UInt8} (hlen : 8 * n ≤ psz.length)
    (h : ∃ c ∈ psz.take (8 * n), 128 ≤ c.toNat) : base32DecodeLoop n psz = none := by
  induction n generalizing psz with
  | zero => simp at h
  | succ n ih =>
    rw [base32DecodeLoop]
    by_cases hfirst : ∀ c ∈ psz.take 8, c.toNat < 128
    · obtain ⟨md5, -, hdec, -⟩ := base32Encode5Bytes_decode (by omega) hfirst
      obtain ⟨c, hc, hhigh⟩ := h
      rw [show 8 * (n + 1) = 8 + 8 * n by omega, List.take_add] at hc
      have hrest : c ∈ (psz.drop 8).take (8 * n) := (List.mem_append.1 hc).resolve_left fun hc => by
        have := hfirst c hc
        omega
      have hlen' : 8 * n ≤ (psz.drop 8).length := by
        rw [List.length_drop]
        omega
      simp only [hdec, ih hlen' ⟨c, hrest, hhigh⟩, Option.map_none]
    · have hany : ((psz.take 8).any fun c => 128 ≤ c.toNat) = true := by
        simpa using hfirst
      rw [base32Decode5Bytes, if_pos hany]

/-! ## Reading an address -/

theorem length_encodeGroups (n : ℕ) (data : List UInt8) : (encodeGroups n data).length = 8 * n := by
  induction n generalizing data with
  | zero => rfl
  | succ n ih =>
    rw [encodeGroups, List.length_append, ih]
    show 8 + 8 * n = 8 * (n + 1)
    omega

/-- **Base32Decode** has an answer exactly for the texts of another length and those without high bits. -/
theorem base32Decode_ne_none_iff (s : List UInt8) :
    base32Decode s ≠ none ↔ (s.length = 56 → ∀ c ∈ s, c.toNat < 128) := by
  unfold base32Decode
  by_cases hlen : s.length = 56
  · have htake : s.take (8 * 7) = s := List.take_of_length_le (by omega)
    rw [if_neg (not_not.2 hlen)]
    simp only [hlen, forall_const]
    by_cases hascii : ∀ c ∈ s, c.toNat < 128
    · obtain ⟨data, -, hloop, -⟩ := base32DecodeLoop_ascii 7 (show 8 * 7 ≤ s.length by omega) (by rwa [htake])
      refine ⟨fun _ => hascii, fun _ => ?_⟩
      simp only [hloop]
      split_ifs <;> simp
    · have hhigh : ∃ c ∈ s.take (8 * 7), 128 ≤ c.toNat := by
        rw [htake]
        simpa using hascii
      rw [base32DecodeLoop_high 7 (by omega) hhigh]
      simpa using hascii
  · simp [hlen]

/-- **What is read**: the value whose text this is, with every character read through the table of digits. -/
theorem base32Decode_eq_some_iff {s md32 : List UInt8} :
    base32Decode s = some (some md32) ↔
      s.length = 56 ∧ (∀ c ∈ s, c.toNat < 128) ∧ md32.length = 32 ∧ s.map canon = base32Encode md32 := by
  by_cases hlen : s.length = 56
  swap
  · simp [base32Decode, hlen]
  by_cases hascii : ∀ c ∈ s, c.toNat < 128
  swap
  · have hnone : base32Decode s = none := by
      by_contra hne
      exact hascii ((base32Decode_ne_none_iff s).1 hne hlen)
    simp only [hnone, hascii, false_and, and_false, reduceCtorEq]
  have htake : s.take (8 * 7) = s := List.take_of_length_le (by omega)
  obtain ⟨data, hdata, hloop, hgroups⟩ := base32DecodeLoop_ascii 7 (show 8 * 7 ≤ s.length by omega) (by rwa [htake])
  rw [htake] at hgroups
  have hdecode : base32Decode s = if crc24q data ≠ 0 then some none else some (some (data.take 32)) := by
    simp only [base32Decode, hlen, ne_eq, not_true_eq_false, if_false, hloop]
  have hparts : data = data.take 32 ++ data.drop 32 := (List.take_append_drop 32 data).symm
  obtain ⟨b2, b1, b0, htail⟩ : ∃ b2 b1 b0, data.drop 32 = [b2, b1, b0] :=
    List.length_eq_three.1 (by rw [List.length_drop, hdata])
  rw [htail] at hparts
  have hcrc : crc24q data = 0 ↔ [b2, b1, b0] = crcBytes (crc24q (data.take 32)) := by
    rw [← crc24q_append_eq_zero_iff, ← hparts]
  have htake32 : (data.take 32).length = 32 := by
    rw [List.length_take, hdata]
    decide
  rw [hdecode]
  constructor
  · intro h
    split_ifs at h with hzero
    · cases h
    obtain rfl : data.take 32 = md32 := Option.some.inj (Option.some.inj h)
    refine ⟨hlen, hascii, htake32, ?_⟩
    rw [base32Encode_eq_groups htake32, ← hcrc.1 (not_not.1 hzero), ← hparts, hgroups]
  · rintro ⟨-, -, hmd, htext⟩
    have hsame : some (some data) = some (some (md32 ++ crcBytes (crc24q md32))) := by
      rw [← base32DecodeLoop_encodeGroups 7 hdata, hgroups, htext, base32Encode_eq_groups hmd,
        base32DecodeLoop_encodeGroups 7 (by rw [List.length_append, hmd]; rfl)]
    obtain rfl := Option.some.inj (Option.some.inj hsame)
    rw [List.take_left' hmd]
    exact if_neg (not_not.2 (crc24q_append_crcBytes md32))

theorem base32Decode_encode {md32 : List UInt8} (h : md32.length = 32) :
    base32Decode (base32Encode md32) = some (some md32) := by
  have hlen : (md32 ++ crcBytes (crc24q md32)).length = 5 * 7 := by
    rw [List.length_append, h]
    rfl
  rw [base32Encode_eq_groups h, base32Decode, if_neg (not_not.2 (length_encodeGroups 7 _)),
    base32DecodeLoop_encodeGroups 7 hlen]
  show (if crc24q (md32 ++ crcBytes (crc24q md32)) ≠ 0 then some none else _) = _
  rw [if_neg (not_not.2 (crc24q_append_crcBytes md32)), List.take_left' h]

/-! ## Texts that are not their own encoding -/

def lower (c : UInt8) : UInt8 := if 65 ≤ c.toNat ∧ c.toNat ≤ 90 then c + 32 else c

/-- A character of the alphabet, in either case. -/
def isSymbol (c : UInt8) : Bool := alphabet.contains (lower c)

/-- A character that is not in the alphabet counts as `z`. -/
def readAs (c : UInt8) : UInt8 := if isSymbol c then lower c else 122

set_option maxRecDepth 2000 in
theorem canon_ascii : ∀ n < 128, canon (UInt8.ofNat n) = readAs (UInt8.ofNat n) := by decide

theorem canon_eq_readAs {c : UInt8} (h : c.toNat < 128) : canon c = readAs c := by
  have hc := canon_ascii c.toNat h
  rwa [UInt8.ofNat_toNat] at hc

theorem readAs_eq_lower_iff {c : UInt8} : readAs c = lower c ↔ isSymbol c = true := by
  unfold readAs
  split_ifs with h
  · simp [h]
  · refine ⟨fun hz => ?_, fun hs => absurd hs h⟩
    rw [isSymbol, ← hz]
    decide

/-- **Every value is read back from its text, and a text is read only as its own encoding** exactly if no character
has its high bit set, and all are in the alphabet or the text with `z` for the others is no encoding. -/
theorem base32Decode_only_iff (s : List UInt8) :
    (∀ md32 : List UInt8, md32.length = 32 → base32Decode (base32Encode md32) = some (some md32)) ∧
    ((base32Decode s ≠ none ∧ ∀ md32, base32Decode s = some (some md32) → s.map lower = base32Encode md32) ↔
      (s.length = 56 → (∀ c ∈ s, c.toNat < 128) ∧
        ((∀ c ∈ s, isSymbol c = true) ∨
          ∀ md32 : List UInt8, md32.length = 32 → s.map readAs ≠ base32Encode md32))) := by
  refine ⟨fun md32 h => base32Decode_encode h, ?_⟩
  rw [base32Decode_ne_none_iff]
  by_cases hlen : s.length = 56
  swap
  · simp [base32Decode_eq_some_iff, hlen]
  simp only [hlen, forall_const]
  refine and_congr_right fun hascii => ?_
  have hread : s.map canon = s.map readAs := List.map_congr_left fun c hc => canon_eq_readAs (hascii c hc)
  constructor
  · intro honly
    by_cases hencoding : ∃ md32 : List UInt8, md32.length = 32 ∧ s.map readAs = base32Encode md32
    · obtain ⟨md32, hmd, htext⟩ := hencoding
      have hlower := honly md32 (base32Decode_eq_some_iff.2 ⟨hlen, hascii, hmd, hread.trans htext⟩)
      left
      intro c hc
      exact readAs_eq_lower_iff.1 (List.map_inj_left.1 (htext.trans hlower.symm) c hc)
    · right
      intro md32 hmd htext
      exact hencoding ⟨md32, hmd, htext⟩
  · intro h md32 hdecode
    obtain ⟨-, -, hmd, htext⟩ := base32Decode_eq_some_iff.1 hdecode
    rw [hread] at htext
    rcases h with hsymbol | hno
    · rw [← htext]
      exact List.map_congr_left fun c hc => (readAs_eq_lower_iff.2 (hsymbol c hc)).symm
    · exact absurd htext (hno md32 hmd)

/-- The text of 32 bytes `0xFF` begins with `z`. With `!` in its place it is read as the same value. -/
def toyWrongText : List UInt8 := 33 :: (base32Encode (List.replicate 32 255)).tail

theorem base32Decode_wrong_text :
    base32Decode toyWrongText = some (some (List.replicate 32 255)) ∧
      toyWrongText.map lower ≠ base32Encode (List.replicate 32 255) := by
  decide +kernel

/-! ## Addresses -/

namespace CDestination

def PREFIX_MAX : ℕ := 3

def toAddress (d : CDestination) : List UInt8 := UInt8.ofNat (48 + d.nPrefix) :: base32Encode (leBytes 32 d.data)

end CDestination

def ADDRESS_LEN : ℕ := 57

/-- `CAddress::ParseString`; `some none` is `false`. -/
def parseAddress (strAddress : List UInt8) : Option (Option CDestination) :=
  let c := (strAddress.getD 0 0).toNat
  if strAddress.length ≠ ADDRESS_LEN || c < 48 || 48 + CDestination.PREFIX_MAX ≤ c then some none
  else (base32Decode (strAddress.drop 1)).map (Option.map fun data => ⟨c - 48, ofLeBytes data⟩)

/-- **The address of a destination** is read back. -/
theorem parseAddress_toAddress {d : CDestination} (hkind : d.nPrefix < CDestination.PREFIX_MAX)
    (hdata : d.data < 2 ^ 256) : parseAddress d.toAddress = some (some d) := by
  have hlen : d.toAddress.length = ADDRESS_LEN := by
    have henc := (base32Decode_eq_some_iff.1 (base32Decode_encode (length_leBytes 32 d.data))).1
    rw [CDestination.toAddress, List.length_cons, henc]
    rfl
  have hmax : CDestination.PREFIX_MAX = 3 := rfl
  have hfirst : (UInt8.ofNat (48 + d.nPrefix)).toNat = 48 + d.nPrefix := by
    rw [UInt8.toNat_ofNat']
    omega
  unfold parseAddress
  dsimp only
  rw [hlen]
  simp only [CDestination.toAddress, List.getD_cons_zero, hfirst, List.drop_succ_cons, List.drop_zero,
    base32Decode_encode (length_leBytes 32 d.data), Option.map_some]
  rw [if_neg (by simp; omega), ofLeBytes_leBytes, Nat.mod_eq_of_lt (by omega), Nat.add_sub_cancel_left]

theorem parseAddress_template :
    parseAddress (CDestination.toAddress ⟨CDestination.PREFIX_TEMPLATE, 2 ^ 255 + 97⟩) =
      some (some ⟨CDestination.PREFIX_TEMPLATE, 2 ^ 255 + 97⟩) :=
  parseAddress_toAddress (by decide) (by decide)

end Minemon
