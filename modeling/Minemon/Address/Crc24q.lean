import Mathlib.Data.Nat.Bitwise
import Mathlib.Data.List.Basic

/-!
# The checksum of an address

`crc24q` of `crypto/crc24q.cpp`: a cyclic redundancy check of 24 bits, a byte at a time over a table. The
register has 32 bits and is cut to 24 at the end.

* `crc24q_append_eq_zero_iff`: three bytes behind the data bring the checksum to zero exactly if they are the
  checksum of the data.
-/

namespace Minemon

def crc24q_table : List ℕ := [
  0x00000000, 0x01864CFB, 0x028AD50D, 0x030C99F6, 0x0493E6E1, 0x0515AA1A, 0x061933EC, 0x079F7F17,
  0x08A18139, 0x0927CDC2, 0x0A2B5434, 0x0BAD18CF, 0x0C3267D8, 0x0DB42B23, 0x0EB8B2D5, 0x0F3EFE2E,
  0x10C54E89, 0x11430272, 0x124F9B84, 0x13C9D77F, 0x1456A868, 0x15D0E493, 0x16DC7D65, 0x175A319E,
  0x1864CFB0, 0x19E2834B, 0x1AEE1ABD, 0x1B685646, 0x1CF72951, 0x1D7165AA, 0x1E7DFC5C, 0x1FFBB0A7,
  0x200CD1E9, 0x218A9D12, 0x228604E4, 0x2300481F, 0x249F3708, 0x25197BF3, 0x2615E205, 0x2793AEFE,
  0x28AD50D0, 0x292B1C2B, 0x2A2785DD, 0x2BA1C926, 0x2C3EB631, 0x2DB8FACA, 0x2EB4633C, 0x2F322FC7,
  0x30C99F60, 0x314FD39B, 0x32434A6D, 0x33C50696, 0x345A7981, 0x35DC357A, 0x36D0AC8C, 0x3756E077,
  0x38681E59, 0x39EE52A2, 0x3AE2CB54, 0x3B6487AF, 0x3CFBF8B8, 0x3D7DB443, 0x3E712DB5, 0x3FF7614E,
  0x4019A3D2, 0x419FEF29, 0x429376DF, 0x43153A24, 0x448A4533, 0x450C09C8, 0x4600903E, 0x4786DCC5,
  0x48B822EB, 0x493E6E10, 0x4A32F7E6, 0x4BB4BB1D, 0x4C2BC40A, 0x4DAD88F1, 0x4EA11107, 0x4F275DFC,
  0x50DCED5B, 0x515AA1A0, 0x52563856, 0x53D074AD, 0x544F0BBA, 0x55C94741, 0x56C5DEB7, 0x5743924C,
  0x587D6C62, 0x59FB2099, 0x5AF7B96F, 0x5B71F594, 0x5CEE8A83, 0x5D68C678, 0x5E645F8E, 0x5FE21375,
  0x6015723B, 0x61933EC0, 0x629FA736, 0x6319EBCD, 0x648694DA, 0x6500D821, 0x660C41D7, 0x678A0D2C,
  0x68B4F302, 0x6932BFF9, 0x6A3E260F, 0x6BB86AF4, 0x6C2715E3, 0x6DA15918, 0x6EADC0EE, 0x6F2B8C15,
  0x70D03CB2, 0x71567049, 0x725AE9BF, 0x73DCA544, 0x7443DA53, 0x75C596A8, 0x76C90F5E, 0x774F43A5,
  0x7871BD8B, 0x79F7F170, 0x7AFB6886, 0x7B7D247D, 0x7CE25B6A, 0x7D641791, 0x7E688E67, 0x7FEEC29C,
  0x803347A4, 0x81B50B5F, 0x82B992A9, 0x833FDE52, 0x84A0A145, 0x8526EDBE, 0x862A7448, 0x87AC38B3,
  0x8892C69D, 0x89148A66, 0x8A181390, 0x8B9E5F6B, 0x8C01207C, 0x8D876C87, 0x8E8BF571, 0x8F0DB98A,
  0x90F6092D, 0x917045D6, 0x927CDC20, 0x93FA90DB, 0x9465EFCC, 0x95E3A337, 0x96EF3AC1, 0x9769763A,
  0x98578814, 0x99D1C4EF, 0x9ADD5D19, 0x9B5B11E2, 0x9CC46EF5, 0x9D42220E, 0x9E4EBBF8, 0x9FC8F703,
  0xA03F964D, 0xA1B9DAB6, 0xA2B54340, 0xA3330FBB, 0xA4AC70AC, 0xA52A3C57, 0xA626A5A1, 0xA7A0E95A,
  0xA89E1774, 0xA9185B8F, 0xAA14C279, 0xAB928E82, 0xAC0DF195, 0xAD8BBD6E, 0xAE872498, 0xAF016863,
  0xB0FAD8C4, 0xB17C943F, 0xB2700DC9, 0xB3F64132, 0xB4693E25, 0xB5EF72DE, 0xB6E3EB28, 0xB765A7D3,
  0xB85B59FD, 0xB9DD1506, 0xBAD18CF0, 0xBB57C00B, 0xBCC8BF1C, 0xBD4EF3E7, 0xBE426A11, 0xBFC426EA,
  0xC02AE476, 0xC1ACA88D, 0xC2A0317B, 0xC3267D80, 0xC4B90297, 0xC53F4E6C, 0xC633D79A, 0xC7B59B61,
  0xC88B654F, 0xC90D29B4, 0xCA01B042, 0xCB87FCB9, 0xCC1883AE, 0xCD9ECF55, 0xCE9256A3, 0xCF141A58,
  0xD0EFAAFF, 0xD169E604, 0xD2657FF2, 0xD3E33309, 0xD47C4C1E, 0xD5FA00E5, 0xD6F69913, 0xD770D5E8,
  0xD84E2BC6, 0xD9C8673D, 0xDAC4FECB, 0xDB42B230, 0xDCDDCD27, 0xDD5B81DC, 0xDE57182A, 0xDFD154D1,
  0xE026359F, 0xE1A07964, 0xE2ACE092, 0xE32AAC69, 0xE4B5D37E, 0xE5339F85, 0xE63F0673, 0xE7B94A88,
  0xE887B4A6, 0xE901F85D, 0xEA0D61AB, 0xEB8B2D50, 0xEC145247, 0xED921EBC, 0xEE9E874A, 0xEF18CBB1,
  0xF0E37B16, 0xF16537ED, 0xF269AE1B, 0xF3EFE2E0, 0xF4709DF7, 0xF5F6D10C, 0xF6FA48FA, 0xF77C0401,
  0xF842FA2F, 0xF9C4B6D4, 0xFAC82F22, 0xFB4E63D9, 0xFCD11CCE, 0xFD575035, 0xFE5BC9C3, 0xFFDD8538]

/-- One turn of the loop, on the 32 bits of `crc`. -/
def crc24qStep (crc : ℕ) (data : UInt8) : ℕ :=
  crc <<< 8 % 2 ^ 32 ^^^ crc24q_table.getD (data.toNat ^^^ (0xFF &&& crc >>> 16)) 0

def crc24q (data : List UInt8) : ℕ := data.foldl crc24qStep 0 &&& 0x00ffffff

def crcBytes (crc : ℕ) : List UInt8 :=
  [UInt8.ofNat (crc >>> 16), UInt8.ofNat (crc >>> 8), UInt8.ofNat crc]

/-! ## One step -/

theorem eq_zero_of_getD_low {l : List ℕ} (hl : ∀ x ∈ l.tail, x % 256 ≠ 0) {i : ℕ} (hi : i < l.length)
    (h : l.getD i 0 % 256 = 0) : i = 0 := by
  cases i with
  | zero => rfl
  | succ i =>
    refine absurd h (hl _ ?_)
    rw [List.getD_eq_getElem _ _ hi, ← List.getElem_tail (by rw [List.length_tail]; omega)]
    exact List.getElem_mem _

set_option maxRecDepth 2000 in
theorem crc24q_table_low : crc24q_table.length = 2 ^ 8 ∧ ∀ x ∈ crc24q_table.tail, x % 256 ≠ 0 := by decide

theorem crc24q_index (crc : ℕ) : 0xFF &&& crc >>> 16 = crc / 2 ^ 16 % 256 := by
  rw [Nat.land_comm, Nat.shiftRight_eq_div_pow]
  exact Nat.and_two_pow_sub_one_eq_mod _ 8

theorem crc24qStep_mod (crc : ℕ) (data : UInt8) :
    crc24qStep crc data % 256 = crc24q_table.getD (data.toNat ^^^ (0xFF &&& crc >>> 16)) 0 % 256 := by
  unfold crc24qStep
  have hshift : crc <<< 8 % 2 ^ 32 % 2 ^ 8 = 0 := by
    rw [Nat.shiftLeft_eq]
    omega
  rw [show 256 = 2 ^ 8 from rfl, Nat.xor_mod_two_pow, hshift, Nat.zero_xor]

/-- **The low byte of a step** is zero only for the byte at the top of the checksum. -/
theorem crc24qStep_low {crc : ℕ} {data : UInt8} : crc24qStep crc data % 256 = 0 ↔ data.toNat = crc / 2 ^ 16 % 256 := by
  rw [crc24qStep_mod, crc24q_index]
  constructor
  · intro h
    have hlt : data.toNat ^^^ crc / 2 ^ 16 % 256 < 2 ^ 8 :=
      Nat.xor_lt_two_pow data.toNat_lt (Nat.mod_lt _ (by decide))
    exact Nat.xor_eq_zero_iff.1 (eq_zero_of_getD_low crc24q_table_low.2 (by rwa [crc24q_table_low.1]) h)
  · intro h
    rw [h, Nat.xor_self]
    rfl

theorem crc24qStep_top {crc : ℕ} {data : UInt8} (h : data.toNat = crc / 2 ^ 16 % 256) :
    crc24qStep crc data = crc * 2 ^ 8 % 2 ^ 32 := by
  unfold crc24qStep
  rw [crc24q_index, h, Nat.xor_self, Nat.shiftLeft_eq]
  exact Nat.xor_zero _

/-! ## The checksum behind the data -/

theorem crc24q_eq_mod (data : List UInt8) : crc24q data = data.foldl crc24qStep 0 % 2 ^ 24 :=
  Nat.and_two_pow_sub_one_eq_mod _ 24

theorem crc24qStep_three {crc : ℕ} {b2 b1 b0 : UInt8} :
    crc24qStep (crc24qStep (crc24qStep crc b2) b1) b0 % 2 ^ 24 = 0 ↔
      b2.toNat = crc / 2 ^ 16 % 256 ∧ b1.toNat = crc / 2 ^ 8 % 256 ∧ b0.toNat = crc % 256 := by
  constructor
  · intro h
    have h0 : b0.toNat = crc24qStep (crc24qStep crc b2) b1 / 2 ^ 16 % 256 := crc24qStep_low.1 (by omega)
    rw [crc24qStep_top h0] at h
    have h1 : b1.toNat = crc24qStep crc b2 / 2 ^ 16 % 256 := crc24qStep_low.1 (by omega)
    rw [crc24qStep_top h1] at h h0
    have h2 : b2.toNat = crc / 2 ^ 16 % 256 := crc24qStep_low.1 (by omega)
    rw [crc24qStep_top h2] at h0 h1
    omega
  · rintro ⟨h2, h1, h0⟩
    have h1' : b1.toNat = crc24qStep crc b2 / 2 ^ 16 % 256 := by
      rw [crc24qStep_top h2]
      omega
    have h0' : b0.toNat = crc24qStep (crc24qStep crc b2) b1 / 2 ^ 16 % 256 := by
      rw [crc24qStep_top h1', crc24qStep_top h2]
      omega
    rw [crc24qStep_top h0', crc24qStep_top h1', crc24qStep_top h2]
    omega

/-- **The checksum is the only one.** -/
theorem crc24q_append_eq_zero_iff (data : List UInt8) (b2 b1 b0 : UInt8) :
    crc24q (data ++ [b2, b1, b0]) = 0 ↔ [b2, b1, b0] = crcBytes (crc24q data) := by
  rw [crc24q_eq_mod, List.foldl_append, crc24q_eq_mod]
  simp only [List.foldl_cons, List.foldl_nil, crc24qStep_three, crcBytes, List.cons.injEq, and_true,
    ← UInt8.toNat_inj, UInt8.toNat_ofNat', Nat.shiftRight_eq_div_pow]
  omega

theorem crc24q_append_crcBytes (data : List UInt8) : crc24q (data ++ crcBytes (crc24q data)) = 0 :=
  (crc24q_append_eq_zero_iff data _ _ _).2 rfl

end Minemon
