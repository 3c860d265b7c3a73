import Mathlib

/-!
# Byte formats

A format writes a value as bytes and reads it back from the front of a buffer. Reading can throw (the buffer is too
short) or leave the buffer's memory, which a model has to keep apart: the first is an answer, the second is not.

* `Format`: writer and reader; what can be written is read back, whatever follows, and what is read can be written.
* `Format.pair`, `Format.iso`, `Format.vector`: records, and vectors behind their length.
* `Codec`: a format with one byte string for each value, as `Codec.uint`, `Codec.int` and `Codec.bytes` have.
* `TotalFormat`: a format that can hold every value.
-/

/-! ## Little-endian words -/

def leBytes : ℕ → ℕ → List UInt8
  | 0, _ => []
  | n + 1, x => UInt8.ofNat x :: leBytes n (x / 256)

def ofLeBytes : List UInt8 → ℕ
  | [] => 0
  | b :: bs => b.toNat + 256 * ofLeBytes bs

@[simp] theorem length_leBytes : ∀ n x, (leBytes n x).length = n
  | 0, _ => rfl
  | n + 1, x => by rw [leBytes, List.length_cons, length_leBytes n]

theorem ofLeBytes_lt : ∀ bs : List UInt8, ofLeBytes bs < 256 ^ bs.length
  | [] => by simp [ofLeBytes]
  | b :: bs => by
    have h1 := ofLeBytes_lt bs
    have h2 := b.toNat_lt
    rw [ofLeBytes, List.length_cons, pow_succ]
    omega

theorem ofLeBytes_leBytes : ∀ n x, ofLeBytes (leBytes n x) = x % 256 ^ n
  | 0, x => by simp [leBytes, ofLeBytes, Nat.mod_one]
  | n + 1, x => by
    have h : (UInt8.ofNat x).toNat = x % 256 := UInt8.toNat_ofNat'
    rw [leBytes, ofLeBytes, ofLeBytes_leBytes n, h, pow_succ', Nat.mod_mul]

theorem leBytes_inj {n x y : ℕ} (hx : x < 256 ^ n) (hy : y < 256 ^ n) (h : leBytes n x = leBytes n y) : x = y := by
  have := congrArg ofLeBytes h
  rwa [ofLeBytes_leBytes, ofLeBytes_leBytes, Nat.mod_eq_of_lt hx, Nat.mod_eq_of_lt hy] at this

theorem leBytes_ofLeBytes : ∀ bs : List UInt8, leBytes bs.length (ofLeBytes bs) = bs
  | [] => rfl
  | b :: bs => by
    have hb := b.toNat_lt
    have h1 : UInt8.ofNat (b.toNat + 256 * ofLeBytes bs) = b := by
      apply UInt8.toNat_inj.1
      rw [UInt8.toNat_ofNat']
      omega
    have h2 : (b.toNat + 256 * ofLeBytes bs) / 256 = ofLeBytes bs := by omega
    rw [List.length_cons, leBytes, ofLeBytes, h1, h2, leBytes_ofLeBytes bs]

/-! ## Formats -/

/-- How a read can fail. -/
inductive Fault
  | exception
  | undefined
deriving DecidableEq, Repr

structure Format (α : Type*) where
  enc : α → List UInt8
  dec : List UInt8 → Except Fault (α × List UInt8)
  /-- The values that the format can hold. -/
  Valid : α → Prop
  dec_enc : ∀ a r, Valid a → dec (enc a ++ r) = .ok (a, r)
  valid_dec : ∀ bs a r, dec bs = .ok (a, r) → Valid a

/-- A format that can hold every value. -/
structure TotalFormat (α : Type*) extends Format α where
  valid : ∀ a, Valid a

namespace Format

variable {α β : Type*}

theorem bind_eq_ok {x : Except Fault α} {next : α → Except Fault β} {b : β} :
    x.bind next = .ok b ↔ ∃ a, x = .ok a ∧ next a = .ok b := by
  cases x <;> simp [Except.bind]

def pair (f : Format α) (g : Format β) : Format (α × β) where
  enc p := f.enc p.1 ++ g.enc p.2
  dec bs := (f.dec bs).bind fun x => (g.dec x.2).bind fun y => .ok ((x.1, y.1), y.2)
  Valid p := f.Valid p.1 ∧ g.Valid p.2
  dec_enc p r hp := by simp only [List.append_assoc, f.dec_enc p.1 _ hp.1, g.dec_enc p.2 r hp.2, Except.bind]
  valid_dec bs p r h := by
    obtain ⟨x, hx, hrest⟩ := bind_eq_ok.1 h
    obtain ⟨y, hy, heq⟩ := bind_eq_ok.1 hrest
    obtain ⟨rfl, -⟩ := Prod.mk.inj (Except.ok.inj heq)
    exact ⟨f.valid_dec _ _ _ hx, g.valid_dec _ _ _ hy⟩

def iso (f : Format α) (mk : α → β) (get : β → α) (hmk : ∀ b, mk (get b) = b) (hget : ∀ a, get (mk a) = a) :
    Format β where
  enc b := f.enc (get b)
  dec bs := (f.dec bs).bind fun x => .ok (mk x.1, x.2)
  Valid b := f.Valid (get b)
  dec_enc b r h := by simp only [f.dec_enc _ _ h, Except.bind, hmk]
  valid_dec bs b r h := by
    obtain ⟨x, hx, heq⟩ := bind_eq_ok.1 h
    obtain ⟨rfl, -⟩ := Prod.mk.inj (Except.ok.inj heq)
    rw [hget]
    exact f.valid_dec _ _ _ hx

def decMany (f : Format α) : ℕ → List UInt8 → Except Fault (List α × List UInt8)
  | 0, bs => .ok ([], bs)
  | n + 1, bs => (f.dec bs).bind fun x => (f.decMany n x.2).bind fun y => .ok (x.1 :: y.1, y.2)

theorem decMany_flatten (f : Format α) {l : List α} (h : ∀ a ∈ l, f.Valid a) (r : List UInt8) :
    f.decMany l.length ((l.map f.enc).flatten ++ r) = .ok (l, r) := by
  induction l with
  | nil => rfl
  | cons a l ih =>
    obtain ⟨ha, hl⟩ := List.forall_mem_cons.1 h
    simp only [List.map_cons, List.flatten_cons, List.append_assoc, List.length_cons, decMany, f.dec_enc _ _ ha, ih hl,
      Except.bind]

theorem decMany_valid (f : Format α) {n : ℕ} : ∀ {bs l r}, f.decMany n bs = .ok (l, r) →
    l.length = n ∧ ∀ a ∈ l, f.Valid a := by
  induction n with
  | zero =>
    rintro bs _ _ ⟨⟩
    simp
  | succ n ih =>
    intro bs l r h
    obtain ⟨x, hx, hrest⟩ := bind_eq_ok.1 h
    obtain ⟨y, hy, heq⟩ := bind_eq_ok.1 hrest
    obtain ⟨rfl, -⟩ := Prod.mk.inj (Except.ok.inj heq)
    obtain ⟨hlen, hall⟩ := ih hy
    exact ⟨by rw [List.length_cons, hlen], List.forall_mem_cons.2 ⟨f.valid_dec _ _ _ hx, hall⟩⟩

def vector (len : Format ℕ) (f : Format α) : Format (List α) where
  enc l := len.enc l.length ++ (l.map f.enc).flatten
  dec bs := (len.dec bs).bind fun x => f.decMany x.1 x.2
  Valid l := len.Valid l.length ∧ ∀ a ∈ l, f.Valid a
  dec_enc l r h := by simp only [List.append_assoc, len.dec_enc _ _ h.1, Except.bind, f.decMany_flatten h.2 r]
  valid_dec bs l r h := by
    obtain ⟨x, hx, hl⟩ := bind_eq_ok.1 h
    obtain ⟨hlen, hall⟩ := f.decMany_valid hl
    exact ⟨by rw [hlen]; exact len.valid_dec _ _ _ hx, hall⟩

end Format

/-! ## Codecs -/

/-- A format whose values are read from one byte string only. -/
structure Codec (α : Type*) extends Format α where
  canonical : ∀ bs a r, dec bs = .ok (a, r) → bs = enc a ++ r

namespace Codec

variable {α β : Type*}

theorem enc_dec (c : Codec α) (bs : List UInt8) (a : α) (r : List UInt8) (h : c.dec bs = .ok (a, r)) :
    c.Valid a ∧ bs = c.enc a ++ r :=
  ⟨c.valid_dec bs a r h, c.canonical bs a r h⟩

def uint (n : ℕ) : Codec ℕ where
  enc x := leBytes n x
  dec bs := if n ≤ bs.length then .ok (ofLeBytes (bs.take n), bs.drop n) else .error .exception
  Valid x := x < 256 ^ n
  dec_enc x r hx := by
    rw [if_pos (by rw [List.length_append, length_leBytes]; omega)]
    rw [List.take_left' (length_leBytes n x), List.drop_left' (length_leBytes n x),
      ofLeBytes_leBytes, Nat.mod_eq_of_lt hx]
  valid_dec bs x r h := by
    split_ifs at h with hn
    obtain ⟨rfl, -⟩ := Prod.mk.inj (Except.ok.inj h)
    have hlt := ofLeBytes_lt (bs.take n)
    rwa [List.length_take_of_le hn] at hlt
  canonical bs x r h := by
    split_ifs at h with hn
    obtain ⟨rfl, rfl⟩ := Prod.mk.inj (Except.ok.inj h)
    have hbytes := leBytes_ofLeBytes (bs.take n)
    rw [List.length_take_of_le hn] at hbytes
    rw [hbytes, List.take_append_drop]

/-- A signed word of `n` bytes, in two's complement. -/
def int (n : ℕ) : Codec ℤ where
  enc x := leBytes n (x % (256 ^ n : ℕ)).toNat
  dec bs :=
    if n ≤ bs.length then .ok ((ofLeBytes (bs.take n) : ℤ).bmod (256 ^ n), bs.drop n)
    else .error .exception
  Valid x := x.bmod (256 ^ n) = x
  dec_enc x r hx := by
    have hpos : (0 : ℤ) < (256 ^ n : ℕ) := by positivity
    have hnn := Int.emod_nonneg x hpos.ne'
    have hlt : (x % (256 ^ n : ℕ)).toNat < 256 ^ n := by
      have := Int.emod_lt_of_pos x hpos
      omega
    rw [if_pos (by rw [List.length_append, length_leBytes]; omega)]
    rw [List.take_left' (length_leBytes n _), List.drop_left' (length_leBytes n _),
      ofLeBytes_leBytes, Nat.mod_eq_of_lt hlt, Int.toNat_of_nonneg hnn, Int.emod_bmod, hx]
  valid_dec bs x r h := by
    split_ifs at h with hn
    obtain ⟨rfl, -⟩ := Prod.mk.inj (Except.ok.inj h)
    exact Int.bmod_bmod
  canonical bs x r h := by
    split_ifs at h with hn
    obtain ⟨rfl, rfl⟩ := Prod.mk.inj (Except.ok.inj h)
    have hl := List.length_take_of_le hn
    have hlt := ofLeBytes_lt (bs.take n)
    rw [hl] at hlt
    have h1 : ((ofLeBytes (bs.take n) : ℤ).bmod (256 ^ n) % (256 ^ n : ℕ)).toNat
        = ofLeBytes (bs.take n) := by
      rw [Int.bmod_emod, Int.emod_eq_of_lt (by positivity) (by exact_mod_cast hlt), Int.toNat_natCast]
    have h2 := leBytes_ofLeBytes (bs.take n)
    rw [hl] at h2
    rw [h1, h2, List.take_append_drop]

def pair (a : Codec α) (b : Codec β) : Codec (α × β) where
  toFormat := a.toFormat.pair b.toFormat
  canonical bs p r h := by
    obtain ⟨x, hx, hrest⟩ := Format.bind_eq_ok.1 h
    obtain ⟨y, hy, heq⟩ := Format.bind_eq_ok.1 hrest
    obtain ⟨rfl, rfl⟩ := Prod.mk.inj (Except.ok.inj heq)
    rw [a.canonical _ _ _ hx, b.canonical _ _ _ hy, ← List.append_assoc]
    rfl

def iso (a : Codec α) (f : α → β) (g : β → α) (fg : ∀ y, f (g y) = y) (gf : ∀ x, g (f x) = x) :
    Codec β where
  toFormat := a.toFormat.iso f g fg gf
  canonical bs y r h := by
    obtain ⟨x, hx, heq⟩ := Format.bind_eq_ok.1 h
    obtain ⟨rfl, rfl⟩ := Prod.mk.inj (Except.ok.inj heq)
    change bs = a.enc (g (f x.1)) ++ x.2
    rw [gf]
    exact a.canonical _ _ _ hx

/-- A byte string behind its eight-byte length, which the reader takes on trust. -/
def bytes : Codec (List UInt8) where
  enc bs := leBytes 8 bs.length ++ bs
  dec bs := ((uint 8).dec bs).bind fun x =>
    if x.1 ≤ x.2.length then .ok (x.2.take x.1, x.2.drop x.1) else .error .undefined
  Valid bs := bs.length < 256 ^ 8
  dec_enc x r hx := by
    rw [List.append_assoc, show leBytes 8 x.length = (uint 8).enc x.length from rfl,
      (uint 8).dec_enc _ _ hx]
    simp only [Except.bind, List.length_append, Nat.le_add_right, if_true, List.take_left, List.drop_left]
  valid_dec bs x r h := by
    obtain ⟨⟨n, bs'⟩, hn, hrest⟩ := Format.bind_eq_ok.1 h
    split_ifs at hrest with hle
    obtain ⟨rfl, -⟩ := Prod.mk.inj (Except.ok.inj hrest)
    rw [List.length_take_of_le hle]
    exact (uint 8).valid_dec _ _ _ hn
  canonical bs x r h := by
    obtain ⟨⟨n, bs'⟩, hn, hrest⟩ := Format.bind_eq_ok.1 h
    obtain rfl := (uint 8).canonical _ _ _ hn
    split_ifs at hrest with hle
    obtain ⟨rfl, rfl⟩ := Prod.mk.inj (Except.ok.inj hrest)
    rw [List.length_take_of_le hle, List.append_assoc, List.take_append_drop]
    rfl

end Codec
