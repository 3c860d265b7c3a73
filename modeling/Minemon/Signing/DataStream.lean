import Minemon.Signing.TemplateBytes

/-!
# Reading from a data stream

`CIDataStream` reads values from a vector of bytes at a position that it moves along. Numbers, hashes and maps are
compared with the end of the vector before they are read; a byte string is not.

* `Field`, `extractAll`: the values that the parsers read, one after another.
* `extractions_inside_iff`: when the reads stay inside the vector.
-/

namespace Minemon

/-! ## The stream -/

/-- `CIDataStream`: the position is a `size_t`. -/
structure CIDataStream where
  vch : List UInt8
  nPosition : ℕ

namespace CIDataStream

/-- Read `size` bytes at the position. Memory behind the end of the vector has no defined content. -/
def read (s : CIDataStream) (size : ℕ) : Except Fault (List UInt8 × CIDataStream) :=
  if s.nPosition + size ≤ s.vch.length then
    .ok ((s.vch.drop s.nPosition).take size, ⟨s.vch, (s.nPosition + size) % 2 ^ 64⟩)
  else .error .undefined

/-- `Pop`: the comparison is made in 64 bits. -/
def pop (s : CIDataStream) (size : ℕ) : Except Fault (List UInt8 × CIDataStream) :=
  if (s.nPosition + size) % 2 ^ 64 > s.vch.length then .error .exception else s.read size

/-- The position is in the vector, and the vector is one that C++ can have. -/
structure OK (s : CIDataStream) : Prop where
  le : s.nPosition ≤ s.vch.length
  length_lt : s.vch.length < 2 ^ 63

section

variable {vch : List UInt8} {pos size : ℕ} (hs : (mk vch pos).OK)

include hs

theorem read_of_le (h : pos + size ≤ vch.length) :
    (mk vch pos).read size = .ok ((vch.drop pos).take size, ⟨vch, pos + size⟩) := by
  have hlt : vch.length < 2 ^ 63 := hs.length_lt
  have hmod : (pos + size) % 2 ^ 64 = pos + size := Nat.mod_eq_of_lt (by omega)
  simp only [read, hmod, h, if_true]

theorem pop_of_le (h : pos + size ≤ vch.length) :
    (mk vch pos).pop size = .ok ((vch.drop pos).take size, ⟨vch, pos + size⟩) := by
  rw [pop, if_neg (not_lt.2 ((Nat.mod_le _ _).trans h)), read_of_le hs h]

theorem pop_of_lt (hsize : size < 2 ^ 63)
    (h : vch.length < pos + size) : (mk vch pos).pop size = .error .exception := by
  have hlt : vch.length < 2 ^ 63 := hs.length_lt
  have hle : pos ≤ vch.length := hs.le
  have hmod : (pos + size) % 2 ^ 64 = pos + size := Nat.mod_eq_of_lt (by omega)
  simp only [pop, hmod, gt_iff_lt, h, if_true]

end

theorem read_of_lt {vch : List UInt8} {pos size : ℕ} (h : vch.length < pos + size) :
    (mk vch pos).read size = .error .undefined := by
  simp only [read, if_neg (not_le.2 h)]

end CIDataStream

/-! ## Extractions -/

/-- The numbers that are read by their size. -/
inductive Scalar
  | uint8
  | int32
  | int64
  | uint256
deriving DecidableEq, Repr

def Scalar.size : Scalar → ℕ
  | .uint8 => 1
  | .int32 => 4
  | .int64 => 8
  | .uint256 => 32

theorem Scalar.size_lt (w : Scalar) : w.size < 2 ^ 63 := by cases w <;> decide

/-- What `>>` reads: a number, a vector of bytes, a map from keys to weights. -/
inductive Field
  | number (w : Scalar)
  | bytes
  | map
deriving DecidableEq, Repr

/-- The entries of a map, with the keys that were read already. -/
def extractEntries : ℕ → CIDataStream → List ℕ → Except Fault CIDataStream
  | 0, s, _ => .ok s
  | n + 1, s, seen =>
    match s.pop 32 with
    | .error e => .error e
    | .ok (key, s) =>
      match s.pop 1 with
      | .error e => .error e
      | .ok (_, s) =>
        if ofLeBytes key ∈ seen then .error .exception else extractEntries n s (ofLeBytes key :: seen)

def Field.extract (s : CIDataStream) : Field → Except Fault CIDataStream
  | .number w => (s.pop w.size).map Prod.snd
  | .bytes =>
    match s.pop 8 with
    | .error e => .error e
    | .ok (size, s) => (s.read (ofLeBytes size)).map Prod.snd
  | .map =>
    match s.pop 8 with
    | .error e => .error e
    | .ok (size, s) => extractEntries (ofLeBytes size) s []

/-- One `>>` after another, up to the first that throws. -/
def extractAll : List Field → CIDataStream → Except Fault CIDataStream
  | [], s => .ok s
  | f :: fs, s =>
    match f.extract s with
    | .error e => .error e
    | .ok s => extractAll fs s

def destFields : List Field := [.number .uint8, .number .uint256]

open Minemon.Field Minemon.Scalar in
/-- The extractions of `SetTemplateData`, for each type. -/
def templateFields (nType : ℕ) : List Field :=
  if nType = TEMPLATE_WEIGHTED then [number uint8, map]
  else if nType = TEMPLATE_MULTISIG then [number uint8, map]
  else if nType = TEMPLATE_PROOF then destFields ++ [number int32]
  else if nType = TEMPLATE_EXCHANGE then
    destFields ++ (destFields ++ [number int32, number int32, number uint256, number uint256])
  else if nType = TEMPLATE_DEXORDER then
    destFields ++ ([bytes, number int64, number int32, bytes, number int32] ++ (destFields ++ [bytes, number int32]))
  else if nType = TEMPLATE_DEXMATCH then
    destFields ++ ([bytes, number int64, number int64, number int32, number uint256, bytes]
      ++ (destFields ++ (destFields ++ (destFields ++ ([number int32]
      ++ (destFields ++ [bytes, number uint256, number int32]))))))
  else if nType = TEMPLATE_MINTPLEDGE then destFields ++ (destFields ++ [number int32])
  else if nType = TEMPLATE_MINTREDEEM then destFields ++ [number int64]
  else []

/-- The extraction threw, or it left the position in the vector. -/
def Inside (vch : List UInt8) (r : Except Fault CIDataStream) : Prop :=
  r = .error .exception ∨ ∃ pos, pos ≤ vch.length ∧ r = .ok ⟨vch, pos⟩

def Field.Fits (s : CIDataStream) : Field → Prop
  | .bytes => s.nPosition + 8 ≤ s.vch.length →
      ofLeBytes ((s.vch.drop s.nPosition).take 8) ≤ s.vch.length - (s.nPosition + 8)
  | _ => True

/-- Every byte string that is reached is as long as its length says. -/
def LengthsFit : List Field → CIDataStream → Prop
  | [], _ => True
  | f :: fs, s => f.Fits s ∧ ∀ s', f.extract s = .ok s' → LengthsFit fs s'

section

variable {vch : List UInt8} {pos : ℕ}

theorem inside_exception : Inside vch (.error .exception) := Or.inl rfl

theorem not_inside_undefined : ¬ Inside vch (.error .undefined) := by
  rintro (h | ⟨pos, -, h⟩) <;> cases h

/-! ## Staying inside -/

section

variable (hs : (CIDataStream.mk vch pos).OK)

include hs

theorem inside_extractEntries (n : ℕ) (seen : List ℕ) : Inside vch (extractEntries n ⟨vch, pos⟩ seen) := by
  induction n generalizing pos seen with
  | zero => exact Or.inr ⟨pos, hs.le, rfl⟩
  | succ n ih =>
    rw [extractEntries]
    by_cases hkey : pos + 32 ≤ vch.length
    · have hs1 : (CIDataStream.mk vch (pos + 32)).OK := ⟨hkey, hs.length_lt⟩
      simp only [CIDataStream.pop_of_le hs hkey]
      by_cases hvalue : pos + 32 + 1 ≤ vch.length
      · have hs2 : (CIDataStream.mk vch (pos + 32 + 1)).OK := ⟨hvalue, hs.length_lt⟩
        simp only [CIDataStream.pop_of_le hs1 hvalue]
        split_ifs
        · exact inside_exception
        · exact ih hs2 _
      · simp only [CIDataStream.pop_of_lt hs1 (by decide) (not_le.1 hvalue)]
        exact inside_exception
    · simp only [CIDataStream.pop_of_lt hs (by decide) (not_le.1 hkey)]
      exact inside_exception

/-- **One extraction** that fits throws or stays inside. -/
theorem inside_extract {f : Field} (hf : f.Fits ⟨vch, pos⟩) : Inside vch (f.extract ⟨vch, pos⟩) := by
  cases f with
  | number w =>
    rw [Field.extract]
    by_cases h : pos + w.size ≤ vch.length
    · rw [CIDataStream.pop_of_le hs h]
      exact Or.inr ⟨_, h, rfl⟩
    · rw [CIDataStream.pop_of_lt hs w.size_lt (not_le.1 h)]
      exact inside_exception
  | map =>
    rw [Field.extract]
    by_cases h : pos + 8 ≤ vch.length
    · simp only [CIDataStream.pop_of_le hs h]
      exact inside_extractEntries ⟨h, hs.length_lt⟩ _ _
    · simp only [CIDataStream.pop_of_lt hs (by decide) (not_le.1 h)]
      exact inside_exception
  | bytes =>
    rw [Field.extract]
    by_cases h : pos + 8 ≤ vch.length
    · have hfits := hf h
      have hend : pos + 8 + ofLeBytes ((vch.drop pos).take 8) ≤ vch.length := by
        simp only at hfits
        omega
      simp only [CIDataStream.pop_of_le hs h, CIDataStream.read_of_le ⟨h, hs.length_lt⟩ hend]
      exact Or.inr ⟨_, hend, rfl⟩
    · simp only [CIDataStream.pop_of_lt hs (by decide) (not_le.1 h)]
      exact inside_exception

theorem extract_undefined {f : Field} (hf : ¬ f.Fits ⟨vch, pos⟩) : f.extract ⟨vch, pos⟩ = .error .undefined := by
  cases f with
  | number w => exact absurd trivial hf
  | map => exact absurd trivial hf
  | bytes =>
    have h : pos + 8 ≤ vch.length ∧ vch.length - (pos + 8) < ofLeBytes ((vch.drop pos).take 8) := by
      simpa [Field.Fits] using hf
    rw [Field.extract]
    simp only [CIDataStream.pop_of_le hs h.1]
    rw [CIDataStream.read_of_lt (by omega)]
    rfl

theorem inside_or_undefined (fs : List Field) :
    Inside vch (extractAll fs ⟨vch, pos⟩) ∨ extractAll fs ⟨vch, pos⟩ = .error .undefined := by
  induction fs generalizing pos with
  | nil => exact Or.inl (Or.inr ⟨pos, hs.le, rfl⟩)
  | cons f fs ih =>
    rw [extractAll]
    by_cases hf : f.Fits ⟨vch, pos⟩
    · rcases inside_extract hs hf with he | ⟨pos', hpos', he⟩
      · rw [he]
        exact Or.inl inside_exception
      · rw [he]
        exact ih ⟨hpos', hs.length_lt⟩
    · rw [extract_undefined hs hf]
      exact Or.inr rfl

/-- **A run of extractions** stays inside exactly if each byte string that it reaches fits. -/
theorem inside_extractAll_iff (fs : List Field) : Inside vch (extractAll fs ⟨vch, pos⟩) ↔ LengthsFit fs ⟨vch, pos⟩ := by
  induction fs generalizing pos with
  | nil => exact ⟨fun _ => trivial, fun _ => Or.inr ⟨pos, hs.le, rfl⟩⟩
  | cons f fs ih =>
    rw [LengthsFit, extractAll]
    by_cases hf : f.Fits ⟨vch, pos⟩
    · rcases inside_extract hs hf with he | ⟨pos', hpos', he⟩
      · rw [he]
        exact ⟨fun _ => ⟨hf, fun s' hs' => by cases hs'⟩, fun _ => inside_exception⟩
      · simp only [he]
        rw [ih ⟨hpos', hs.length_lt⟩]
        refine ⟨fun h => ⟨hf, fun s' hs' => ?_⟩, fun h => h.2 _ rfl⟩
        rw [← Except.ok.inj hs']
        exact h
    · rw [extract_undefined hs hf]
      exact ⟨fun h => absurd h not_inside_undefined, fun h => absurd h.1 hf⟩

end

end

/-! ## Codecs and the stream -/

section

variable {α β : Type} {vch : List UInt8} {pos : ℕ}

/-- The codec and the stream fail alike, or what the codec leaves is what stands behind the position. -/
def ReadsAlike (vch : List UInt8) (r : Except Fault (α × List UInt8)) (q : Except Fault CIDataStream) : Prop :=
  (∃ e, r = .error e ∧ q = .error e) ∨
    ∃ a pos, pos ≤ vch.length ∧ r = .ok (a, vch.drop pos) ∧ q = .ok ⟨vch, pos⟩

def ReadBy (c : Codec α) (fs : List Field) : Prop :=
  ∀ vch pos, (CIDataStream.mk vch pos).OK → ReadsAlike vch (c.dec (vch.drop pos)) (extractAll fs ⟨vch, pos⟩)

theorem extractAll_append (fs gs : List Field) (s : CIDataStream) :
    extractAll (fs ++ gs) s = (extractAll fs s).bind (extractAll gs) := by
  induction fs generalizing s with
  | nil => rfl
  | cons f fs ih =>
    rw [List.cons_append, extractAll, extractAll]
    cases f.extract s with
    | error e => rfl
    | ok s => exact ih s

theorem readBy_scalar {c : Codec α} (w : Scalar)
    (hc : ∀ bs, (∃ a, w.size ≤ bs.length ∧ c.dec bs = .ok (a, bs.drop w.size)) ∨
      bs.length < w.size ∧ c.dec bs = .error .exception) : ReadBy c [.number w] := by
  intro vch pos hs
  rw [extractAll, Field.extract]
  rcases hc (vch.drop pos) with ⟨a, hle, hdec⟩ | ⟨hlt, hdec⟩
  · have hend : pos + w.size ≤ vch.length := by
      have hpos : pos ≤ vch.length := hs.le
      rw [List.length_drop] at hle
      omega
    right
    refine ⟨a, pos + w.size, hend, by rw [hdec, List.drop_drop], ?_⟩
    rw [CIDataStream.pop_of_le hs hend]
    rfl
  · rw [List.length_drop] at hlt
    rw [hdec, CIDataStream.pop_of_lt hs w.size_lt (by omega)]
    exact Or.inl ⟨_, rfl, rfl⟩

theorem readBy_uint (w : Scalar) : ReadBy (Codec.uint w.size) [.number w] := by
  apply readBy_scalar
  intro bs
  by_cases h : w.size ≤ bs.length
  · exact Or.inl ⟨_, h, if_pos h⟩
  · exact Or.inr ⟨not_le.1 h, if_neg h⟩

theorem readBy_int (w : Scalar) : ReadBy (Codec.int w.size) [.number w] := by
  apply readBy_scalar
  intro bs
  by_cases h : w.size ≤ bs.length
  · exact Or.inl ⟨_, h, if_pos h⟩
  · exact Or.inr ⟨not_le.1 h, if_neg h⟩

theorem uint_dec_of_le {n : ℕ} (h : pos + n ≤ vch.length) :
    (Codec.uint n).dec (vch.drop pos) = .ok (ofLeBytes ((vch.drop pos).take n), vch.drop (pos + n)) := by
  have hle : n ≤ (vch.drop pos).length := by
    rw [List.length_drop]
    omega
  rw [← List.drop_drop]
  exact if_pos hle

theorem uint_dec_of_lt {n : ℕ} (hpos : pos ≤ vch.length) (h : vch.length < pos + n) :
    (Codec.uint n).dec (vch.drop pos) = .error .exception := by
  have hlt : ¬ n ≤ (vch.drop pos).length := by
    rw [List.length_drop]
    omega
  exact if_neg hlt

theorem readBy_bytes : ReadBy Codec.bytes [.bytes] := by
  intro vch pos hs
  rw [extractAll, Field.extract]
  by_cases h : pos + 8 ≤ vch.length
  · simp only [CIDataStream.pop_of_le hs h, Codec.bytes, Except.bind, uint_dec_of_le h, List.length_drop]
    by_cases hfits : ofLeBytes ((vch.drop pos).take 8) ≤ vch.length - (pos + 8)
    · have hend : pos + 8 + ofLeBytes ((vch.drop pos).take 8) ≤ vch.length := by omega
      rw [if_pos hfits, CIDataStream.read_of_le ⟨h, hs.length_lt⟩ hend, List.drop_drop]
      exact Or.inr ⟨_, _, hend, rfl, rfl⟩
    · rw [if_neg hfits, CIDataStream.read_of_lt (by omega)]
      exact Or.inl ⟨_, rfl, rfl⟩
  · simp only [CIDataStream.pop_of_lt hs (by decide) (not_le.1 h), Codec.bytes, Except.bind,
      uint_dec_of_lt hs.le (not_le.1 h)]
    exact Or.inl ⟨_, rfl, rfl⟩

theorem ReadBy.pair {a : Codec α} {b : Codec β} {fs gs : List Field} (ha : ReadBy a fs) (hb : ReadBy b gs) :
    ReadBy (a.pair b) (fs ++ gs) := by
  intro vch pos hs
  rw [extractAll_append]
  rcases ha vch pos hs with ⟨e, hr, hq⟩ | ⟨x, pos', hpos', hr, hq⟩
  · refine Or.inl ⟨e, ?_, by rw [hq]; rfl⟩
    simp only [Codec.pair, Format.pair, Except.bind, hr]
  · rw [hq]
    rcases hb vch pos' ⟨hpos', hs.length_lt⟩ with ⟨e, hr', hq'⟩ | ⟨y, pos'', hpos'', hr', hq'⟩
    · refine Or.inl ⟨e, ?_, hq'⟩
      simp only [Codec.pair, Format.pair, Except.bind, hr, hr']
    · refine Or.inr ⟨(x, y), pos'', hpos'', ?_, hq'⟩
      simp only [Codec.pair, Format.pair, Except.bind, hr, hr']

theorem ReadBy.iso {a : Codec α} {fs : List Field} (ha : ReadBy a fs) (f : α → β) (g : β → α)
    (fg : ∀ y, f (g y) = y) (gf : ∀ x, g (f x) = x) : ReadBy (a.iso f g fg gf) fs := by
  intro vch pos hs
  rcases ha vch pos hs with ⟨e, hr, hq⟩ | ⟨x, pos', hpos', hr, hq⟩
  · refine Or.inl ⟨e, ?_, hq⟩
    simp only [Codec.iso, Format.iso, Except.bind, hr]
  · refine Or.inr ⟨f x, pos', hpos', ?_, hq⟩
    simp only [Codec.iso, Format.iso, Except.bind, hr]

theorem readBy_dest : ReadBy CDestination.codec destFields :=
  ((readBy_uint .uint8).pair (readBy_uint .uint256)).iso _ _ _ _

theorem readBy_proof : ReadBy CTemplateProof.codec (templateFields TEMPLATE_PROOF) :=
  (readBy_dest.pair (readBy_uint .int32)).iso _ _ _ _

theorem readBy_exchange : ReadBy CTemplateExchange.codec (templateFields TEMPLATE_EXCHANGE) :=
  (readBy_dest.pair (readBy_dest.pair ((readBy_uint .int32).pair ((readBy_uint .int32).pair
    ((readBy_uint .uint256).pair (readBy_uint .uint256)))))).iso _ _ _ _

theorem readBy_dexorder : ReadBy CTemplateDexOrder.codec (templateFields TEMPLATE_DEXORDER) := by
  unfold CTemplateDexOrder.codec
  apply ReadBy.iso
  exact readBy_dest.pair (readBy_bytes.pair ((readBy_uint .int64).pair ((readBy_int .int32).pair (readBy_bytes.pair
    ((readBy_int .int32).pair (readBy_dest.pair (readBy_bytes.pair (readBy_uint .int32))))))))

theorem readBy_dexmatch : ReadBy CTemplateDexMatch.codec (templateFields TEMPLATE_DEXMATCH) := by
  unfold CTemplateDexMatch.codec
  apply ReadBy.iso
  exact readBy_dest.pair (readBy_bytes.pair ((readBy_uint .int64).pair ((readBy_int .int64).pair
    ((readBy_int .int32).pair ((readBy_uint .uint256).pair (readBy_bytes.pair (readBy_dest.pair (readBy_dest.pair
    (readBy_dest.pair ((readBy_int .int32).pair (readBy_dest.pair (readBy_bytes.pair ((readBy_uint .uint256).pair
    (readBy_int .int32))))))))))))))

theorem readBy_mintpledge : ReadBy CTemplateMintPledge.codec (templateFields TEMPLATE_MINTPLEDGE) :=
  (readBy_dest.pair (readBy_dest.pair (readBy_int .int32))).iso _ _ _ _

theorem readBy_mintredeem : ReadBy CTemplateMintRedeem.codec (templateFields TEMPLATE_MINTREDEEM) :=
  (readBy_dest.pair (readBy_int .int64)).iso _ _ _ _

theorem readBy_threeBytes : ReadBy threeBytes [.bytes, .bytes, .bytes] :=
  readBy_bytes.pair (readBy_bytes.pair readBy_bytes)

def Parses (r : Except Fault α) (q : Except Fault CIDataStream) : Prop :=
  (∃ e, r = .error e ∧ q = .error e) ∨ ∃ a s, r = .ok a ∧ q = .ok s

theorem readWeights_parses (n : ℕ) {m : OrdMap ℕ ℕ} {seen : List ℕ} (hs : (CIDataStream.mk vch pos).OK)
    (hseen : ∀ k, (m.find? k).isSome = true ↔ k ∈ seen) :
    Parses (readWeights n (vch.drop pos) m) (extractEntries n ⟨vch, pos⟩ seen) := by
  induction n generalizing pos m seen with
  | zero => exact Or.inr ⟨m, _, rfl, rfl⟩
  | succ n ih =>
    rw [readWeights, extractEntries]
    by_cases hkey : pos + 32 ≤ vch.length
    · have hs1 : (CIDataStream.mk vch (pos + 32)).OK := ⟨hkey, hs.length_lt⟩
      by_cases hvalue : pos + 32 + 1 ≤ vch.length
      · have hs2 : (CIDataStream.mk vch (pos + 32 + 1)).OK := ⟨hvalue, hs.length_lt⟩
        simp only [CIDataStream.pop_of_le hs hkey, CIDataStream.pop_of_le hs1 hvalue, Codec.pair, Format.pair,
          Except.bind, uint_dec_of_le hkey, uint_dec_of_le hvalue]
        by_cases hmem : ofLeBytes ((vch.drop pos).take 32) ∈ seen
        · rw [if_pos ((hseen _).2 hmem), if_pos hmem]
          exact Or.inl ⟨_, rfl, rfl⟩
        · rw [if_neg (mt (hseen _).1 hmem), if_neg hmem]
          refine ih hs2 fun k => ?_
          rw [OrdMap.find?_insert, List.mem_cons, ← hseen k]
          split_ifs with heq
          · simp [heq]
          · simp [heq]
      · simp only [CIDataStream.pop_of_le hs hkey, CIDataStream.pop_of_lt hs1 (by decide) (not_le.1 hvalue),
          Codec.pair, Format.pair, Except.bind, uint_dec_of_le hkey, uint_dec_of_lt hkey (not_le.1 hvalue)]
        exact Or.inl ⟨_, rfl, rfl⟩
    · simp only [CIDataStream.pop_of_lt hs (by decide) (not_le.1 hkey), Codec.pair, Format.pair, Except.bind,
        uint_dec_of_lt hs.le (not_le.1 hkey)]
      exact Or.inl ⟨_, rfl, rfl⟩

theorem weighted_parses (hs : (CIDataStream.mk vch pos).OK) :
    Parses (CTemplateWeighted.dec (vch.drop pos)) (extractAll [.number .uint8, .map] ⟨vch, pos⟩) := by
  rw [CTemplateWeighted.dec, extractAll, Field.extract, Scalar.size]
  by_cases h1 : pos + 1 ≤ vch.length
  · have hs1 : (CIDataStream.mk vch (pos + 1)).OK := ⟨h1, hs.length_lt⟩
    rw [CIDataStream.pop_of_le hs h1]
    simp only [Except.map, extractAll, Field.extract]
    by_cases h8 : pos + 1 + 8 ≤ vch.length
    · have hs8 : (CIDataStream.mk vch (pos + 1 + 8)).OK := ⟨h8, hs.length_lt⟩
      simp only [CIDataStream.pop_of_le hs1 h8, Codec.pair, Format.pair, Except.bind,
        uint_dec_of_le h1, uint_dec_of_le h8]
      have hempty : ∀ k, ((OrdMap.empty : OrdMap ℕ ℕ).find? k).isSome = true ↔ k ∈ ([] : List ℕ) := by simp
      rcases readWeights_parses (ofLeBytes ((vch.drop (pos + 1)).take 8)) hs8 hempty with
        ⟨e, hr, hq⟩ | ⟨m, s, hr, hq⟩
      · rw [hr, hq]
        exact Or.inl ⟨_, rfl, rfl⟩
      · rw [hr, hq]
        exact Or.inr ⟨_, _, rfl, rfl⟩
    · simp only [CIDataStream.pop_of_lt hs1 (by decide) (not_le.1 h8), Codec.pair, Format.pair, Except.bind,
        uint_dec_of_le h1, uint_dec_of_lt h1 (not_le.1 h8)]
      exact Or.inl ⟨_, rfl, rfl⟩
  · rw [CIDataStream.pop_of_lt hs (by decide) (not_le.1 h1)]
    simp only [Codec.pair, Format.pair, Except.bind, uint_dec_of_lt hs.le (not_le.1 h1), Except.map]
    exact Or.inl ⟨_, rfl, rfl⟩

theorem Parses.map {r : Except Fault α} {q : Except Fault CIDataStream} (h : Parses r q) (f : α → β) :
    Parses (r.map f) q := by
  rcases h with ⟨e, rfl, rfl⟩ | ⟨a, s, rfl, rfl⟩
  · exact Or.inl ⟨e, rfl, rfl⟩
  · exact Or.inr ⟨f a, s, rfl, rfl⟩

theorem ReadBy.parses {c : Codec α} {fs : List Field} (hc : ReadBy c fs) (f : α → CTemplate)
    (hs : (CIDataStream.mk vch pos).OK) : Parses (readTemplate c f (vch.drop pos)) (extractAll fs ⟨vch, pos⟩) := by
  rw [readTemplate]
  rcases hc vch pos hs with ⟨e, hr, hq⟩ | ⟨a, pos', -, hr, hq⟩
  · rw [hr, hq]
    exact Or.inl ⟨_, rfl, rfl⟩
  · rw [hr, hq]
    exact Or.inr ⟨_, _, rfl, rfl⟩

/-- **The parser of each template** fails as the stream does. -/
theorem setTemplateData_parses {nType : ℕ} {r : Except Fault CTemplate} (hlen : vch.length < 2 ^ 63)
    (h : CTemplate.setTemplateData nType vch = some r) : Parses r (extractAll (templateFields nType) ⟨vch, 0⟩) := by
  have hs : (CIDataStream.mk vch 0).OK := ⟨Nat.zero_le _, hlen⟩
  unfold CTemplate.setTemplateData at h
  split_ifs at h with h1 h2 h3 h4 h5 h6 h7 h8 <;> subst nType <;> rw [← Option.some.inj h]
  · exact (weighted_parses hs).map _
  · exact (weighted_parses hs).map _
  · exact readBy_proof.parses _ hs
  · exact readBy_exchange.parses _ hs
  · exact readBy_dexorder.parses _ hs
  · exact readBy_dexmatch.parses _ hs
  · exact readBy_mintpledge.parses _ hs
  · exact readBy_mintredeem.parses _ hs

theorem createTemplatePtr_ne_none_iff (hlen : vch.length < 2 ^ 63) (nType : ℕ) :
    createTemplatePtr nType vch ≠ none ↔ LengthsFit (templateFields nType) ⟨vch, 0⟩ := by
  have hs : (CIDataStream.mk vch 0).OK := ⟨Nat.zero_le _, hlen⟩
  rw [← inside_extractAll_iff hs _, createTemplatePtr]
  cases hdata : CTemplate.setTemplateData nType vch with
  | none =>
    have hfields : templateFields nType = [] := by
      unfold CTemplate.setTemplateData at hdata
      split_ifs at hdata with h1 h2 h3 h4 h5 h6 h7 h8
      simp only [templateFields, h1, h2, h3, h4, h5, h6, h7, h8, if_false]
    rw [hfields]
    exact ⟨fun _ => Or.inr ⟨0, hs.le, rfl⟩, fun _ => by simp⟩
  | some r =>
    rcases setTemplateData_parses hlen hdata with ⟨e, rfl, hq⟩ | ⟨t, s, rfl, hq⟩
    · rw [hq]
      cases e with
      | exception => exact ⟨fun _ => inside_exception, fun _ => by simp⟩
      | undefined => exact ⟨fun h => absurd rfl h, fun h => absurd h not_inside_undefined⟩
    · rw [hq]
      refine ⟨fun _ => ?_, fun _ => ?_⟩
      · refine hq ▸ (inside_or_undefined hs _).resolve_right fun hu => ?_
        rw [hq] at hu
        cases hu
      · simp only
        split_ifs <;> simp

theorem length_buildTemplateData_le {nType : ℕ} {t : CTemplate}
    (h : createTemplatePtr nType vch = some (some t)) : t.buildTemplateData.length ≤ vch.length := by
  have hread := (CTemplate.setTemplateData_ok (createTemplatePtr_eq_some.1 h).1).2
  cases t with
  | weighted w => exact (CTemplateWeighted.dec_spec hread).2.2.1
  | multisig w => exact (CTemplateWeighted.dec_spec hread).2.2.1
  | _ =>
    obtain ⟨rest, hdec⟩ := hread
    rw [(Codec.enc_dec _ _ _ _ hdec).2, List.length_append]
    exact Nat.le_add_right _ _

/-- `>>` of three byte strings, as `VerifyDexMatchTx` reads them. -/
theorem threeBytes_ne_undefined_iff (hlen : vch.length < 2 ^ 63) :
    threeBytes.dec vch ≠ .error .undefined ↔ LengthsFit [.bytes, .bytes, .bytes] ⟨vch, 0⟩ := by
  have hs : (CIDataStream.mk vch 0).OK := ⟨Nat.zero_le _, hlen⟩
  rw [← inside_extractAll_iff hs _]
  rcases readBy_threeBytes vch 0 hs with ⟨e, hr, hq⟩ | ⟨a, pos, hpos, hr, hq⟩
  · rw [List.drop_zero] at hr
    rw [hr, hq]
    cases e with
    | exception => exact ⟨fun _ => inside_exception, fun _ h => by cases h⟩
    | undefined => exact ⟨fun h => absurd rfl h, fun h => absurd h not_inside_undefined⟩
  · rw [List.drop_zero] at hr
    rw [hr, hq]
    exact ⟨fun _ => Or.inr ⟨pos, hpos, rfl⟩, fun _ h => by cases h⟩

theorem threeBytes_drop_ne_undefined_iff (hlen : vch.length < 2 ^ 63) (n : ℕ) :
    threeBytes.dec (vch.drop n) ≠ .error .undefined ↔ LengthsFit [.bytes, .bytes, .bytes] ⟨vch.drop n, 0⟩ := by
  apply threeBytes_ne_undefined_iff
  rw [List.length_drop]
  omega

/-- **Decoding stays inside the buffer** exactly if every byte string that the extractions reach is there: for
any sequence of them, for the parser of every template, and for the three byte strings of a match. What was
read then is no longer than the buffer. -/
theorem extractions_inside_iff (vch : List UInt8) (hlen : vch.length < 2 ^ 63) :
    (∀ fs, Inside vch (extractAll fs ⟨vch, 0⟩) ↔ LengthsFit fs ⟨vch, 0⟩) ∧
      (∀ nType, createTemplatePtr nType vch ≠ none ↔ LengthsFit (templateFields nType) ⟨vch, 0⟩) ∧
      (∀ nType t, createTemplatePtr nType vch = some (some t) → t.buildTemplateData.length ≤ vch.length) ∧
      (threeBytes.dec vch ≠ .error .undefined ↔ LengthsFit [.bytes, .bytes, .bytes] ⟨vch, 0⟩) :=
  ⟨inside_extractAll_iff ⟨Nat.zero_le _, hlen⟩, createTemplatePtr_ne_none_iff hlen,
    fun _ _ => length_buildTemplateData_le, threeBytes_ne_undefined_iff hlen⟩

/-- A seller, and a coin pair of one byte that is not there. -/
def toyShortOrder : List UInt8 := List.replicate 33 1 ++ leBytes 8 1

theorem extractions_inside_toy :
    (createTemplatePtr TEMPLATE_DEXORDER toyShortOrder ≠ none ↔
      LengthsFit (templateFields TEMPLATE_DEXORDER) ⟨toyShortOrder, 0⟩) :=
  (extractions_inside_iff toyShortOrder (by decide)).2.1 TEMPLATE_DEXORDER

/-- The parser of an order reads the byte behind the end of the signature. -/
theorem extraction_leaves_buffer :
    extractAll (templateFields TEMPLATE_DEXORDER) ⟨toyShortOrder, 0⟩ = .error .undefined ∧
      ¬ Inside toyShortOrder (extractAll (templateFields TEMPLATE_DEXORDER) ⟨toyShortOrder, 0⟩) ∧
      createTemplatePtr TEMPLATE_DEXORDER toyShortOrder = none := by
  have h : extractAll (templateFields TEMPLATE_DEXORDER) ⟨toyShortOrder, 0⟩ = .error .undefined := rfl
  refine ⟨h, h ▸ not_inside_undefined, rfl⟩

end

end Minemon
