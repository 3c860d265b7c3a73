import Minemon.Lib.Codec
import Minemon.Lib.OrdMap

/-!
# Time series files

`CTimeSeriesBase` and `CTimeSeriesChunk` of `storage/timeseries.h`: objects are appended to numbered files, each
behind a magic number and its size, and are read at the position where they were written.

* `write_spec`, `writeBatch_spec`: **what is written stands at the position that is returned**, and nothing is lost.
* `Holds.read`: **reading**.
-/

namespace Minemon

structure CDiskPos where
  nFile : ℕ
  nOffset : ℕ
deriving DecidableEq, Repr

/-! ## Files -/

def nMagicNum : ℕ := 0x8F4EBC9E

/-- The files by their numbers, and the number that writing begins with. -/
structure CTimeSeriesBase where
  nLastFile : ℕ := 1
  files : OrdMap ℕ (List UInt8) := OrdMap.empty

namespace CTimeSeriesBase

def MAX_FILE_SIZE : ℕ := 0x7F000000

def fileSize (b : CTimeSeriesBase) (nFile : ℕ) : ℕ := ((b.files.find? nFile).getD []).length

/-- The loop of `GetLastFilePath`. It ends without a file when one cannot be made, here after `turns` turns. -/
def getLastFilePath (nWriteDataSize : ℕ) : ℕ → CTimeSeriesBase → Option ℕ × CTimeSeriesBase
  | 0, b => (none, b)
  | turns + 1, b =>
    let b := { b with files := b.files.upsert b.nLastFile fun file => file.getD [] }
    if b.fileSize b.nLastFile + nWriteDataSize + 8 ≤ MAX_FILE_SIZE then (some b.nLastFile, b)
    else getLastFilePath nWriteDataSize turns { b with nLastFile := (b.nLastFile + 1) % 2 ^ 32 }

/-- What stands in a file: the magic number, the size as a `uint32`, and the bytes. -/
def record (data : List UInt8) : List UInt8 := leBytes 4 nMagicNum ++ leBytes 4 data.length ++ data

def endPos (b : CTimeSeriesBase) (nFile : ℕ) : CDiskPos := ⟨nFile, (b.fileSize nFile + 8) % 2 ^ 32⟩

def append (b : CTimeSeriesBase) (nFile : ℕ) (data : List UInt8) : CTimeSeriesBase :=
  { b with files := b.files.upsert nFile fun file => file.getD [] ++ record data }

def write (b : CTimeSeriesBase) (turns : ℕ) (data : List UInt8) : Option CDiskPos × CTimeSeriesBase :=
  match getLastFilePath (data.length % 2 ^ 32) turns b with
  | (none, b) => (none, b)
  | (some nFile, b) => (some (b.endPos nFile), b.append nFile data)

/-- The loops of `CTimeSeriesChunk::WriteBatch`; `cur` is the file that is open. -/
def writeBatch (turns : ℕ) : List (List UInt8) → Option ℕ → CTimeSeriesBase → (Bool × List CDiskPos) × CTimeSeriesBase
  | [], _, b => ((true, []), b)
  | data :: vBatch, cur, b =>
    match if cur.any fun nFile => b.fileSize nFile + data.length + 8 ≤ MAX_FILE_SIZE then (cur, b)
      else getLastFilePath (data.length % 2 ^ 32) turns b with
    | (none, b) => ((false, []), b)
    | (some nFile, b) =>
      let ((fRet, vPos), b') := writeBatch turns vBatch (some nFile) (b.append nFile data)
      ((fRet, b.endPos nFile :: vPos), b')

/-- `Read` of `CTimeSeriesChunk`, and `ReadDirect` of `CTimeSeriesCached`. -/
def read {T : Type*} (f : Format T) (b : CTimeSeriesBase) (pos : CDiskPos) : Option T :=
  (b.files.find? pos.nFile).bind fun file => (f.dec (file.drop pos.nOffset)).toOption.map Prod.fst

/-! ## Files only grow -/

variable {b b' b'' : CTimeSeriesBase} {nFile : ℕ} {data : List UInt8} {pos : CDiskPos}

def Extends (b b' : CTimeSeriesBase) : Prop :=
  ∀ nFile file, b.files.find? nFile = some file → ∃ x, b'.files.find? nFile = some (file ++ x)

theorem Extends.refl (b : CTimeSeriesBase) : b.Extends b := fun _ file h => ⟨[], by rw [List.append_nil]; exact h⟩

theorem Extends.trans (h : b.Extends b') (h' : b'.Extends b'') : b.Extends b'' := by
  intro nFile file hfile
  obtain ⟨x, hx⟩ := h nFile file hfile
  obtain ⟨y, hy⟩ := h' nFile _ hx
  exact ⟨x ++ y, by rw [← List.append_assoc]; exact hy⟩

theorem extends_upsert (b : CTimeSeriesBase) (nFile nLastFile : ℕ) (x : List UInt8) :
    b.Extends { nLastFile := nLastFile, files := b.files.upsert nFile fun file => file.getD [] ++ x } := by
  intro n file hfile
  rw [OrdMap.find?_upsert]
  by_cases h : n = nFile
  · refine ⟨x, ?_⟩
    rw [if_pos h, ← h, hfile, Option.getD_some]
  · refine ⟨[], ?_⟩
    rw [if_neg h, hfile, List.append_nil]

theorem getLastFilePath_spec (nWriteDataSize turns : ℕ) (b : CTimeSeriesBase) :
    b.Extends (getLastFilePath nWriteDataSize turns b).2 ∧
      ∀ nFile, (getLastFilePath nWriteDataSize turns b).1 = some nFile →
        (getLastFilePath nWriteDataSize turns b).2.fileSize nFile + 8 ≤ MAX_FILE_SIZE := by
  induction turns generalizing b with
  | zero => exact ⟨Extends.refl b, fun nFile h => by cases h⟩
  | succ turns ih =>
    rw [getLastFilePath]
    dsimp only
    have hmade : ∀ nLastFile, b.Extends
        { nLastFile := nLastFile, files := b.files.upsert b.nLastFile fun file => file.getD [] } := fun nLastFile => by
      simpa using extends_upsert b b.nLastFile nLastFile []
    split_ifs with hfits
    · refine ⟨hmade b.nLastFile, fun nFile h => ?_⟩
      obtain rfl := Option.some.inj h
      dsimp only at hfits ⊢
      omega
    · exact ⟨(hmade _).trans (ih _).1, (ih _).2⟩

theorem extends_append (b : CTimeSeriesBase) (nFile : ℕ) (data : List UInt8) : b.Extends (b.append nFile data) :=
  extends_upsert b nFile b.nLastFile (record data)

def Holds (b : CTimeSeriesBase) (pos : CDiskPos) (data : List UInt8) : Prop :=
  ∃ before after, b.files.find? pos.nFile = some (before ++ data ++ after) ∧ before.length = pos.nOffset

theorem Holds.extend (h : b.Holds pos data) (hext : b.Extends b') : b'.Holds pos data := by
  obtain ⟨before, after, hfile, hlen⟩ := h
  obtain ⟨x, hx⟩ := hext _ _ hfile
  exact ⟨before, after ++ x, by rw [hx]; simp, hlen⟩

theorem holds_append (hsize : b.fileSize nFile + 8 ≤ MAX_FILE_SIZE) (data : List UInt8) :
    (b.append nFile data).Holds (b.endPos nFile) data := by
  refine ⟨(b.files.find? nFile).getD [] ++ (leBytes 4 nMagicNum ++ leBytes 4 data.length), [], ?_, ?_⟩
  · show (b.files.upsert nFile _).find? nFile = _
    rw [OrdMap.find?_upsert, if_pos rfl, record]
    simp
  · have hlt : b.fileSize nFile + 8 < 2 ^ 32 := lt_of_le_of_lt hsize (by decide)
    rw [endPos]
    dsimp only
    rw [Nat.mod_eq_of_lt hlt, fileSize]
    simp

/-- **What is written stands at the position that is returned.** -/
theorem write_spec (b : CTimeSeriesBase) (turns : ℕ) (data : List UInt8) :
    b.Extends (b.write turns data).2 ∧
      ∀ pos, (b.write turns data).1 = some pos → (b.write turns data).2.Holds pos data := by
  obtain ⟨hext, hsize⟩ := getLastFilePath_spec (data.length % 2 ^ 32) turns b
  unfold write
  revert hext hsize
  rcases getLastFilePath (data.length % 2 ^ 32) turns b with ⟨_ | nFile, b1⟩
  · exact fun hext _ => ⟨hext, fun pos h => by cases h⟩
  · intro hext hsize
    refine ⟨hext.trans (extends_append b1 nFile data), fun pos h => ?_⟩
    obtain rfl := Option.some.inj h
    exact holds_append (hsize nFile rfl) data

theorem writeBatch_spec (turns : ℕ) (vBatch : List (List UInt8)) (cur : Option ℕ) (b : CTimeSeriesBase) :
    b.Extends (writeBatch turns vBatch cur b).2 ∧ ((writeBatch turns vBatch cur b).1.1 = true →
      List.Forall₂ (writeBatch turns vBatch cur b).2.Holds (writeBatch turns vBatch cur b).1.2 vBatch) := by
  induction vBatch generalizing cur b with
  | nil => exact ⟨Extends.refl b, fun _ => List.Forall₂.nil⟩
  | cons data vBatch ih =>
    have hplace : ∀ r,
        (if cur.any fun nFile => decide (b.fileSize nFile + data.length + 8 ≤ MAX_FILE_SIZE) then (cur, b)
          else getLastFilePath (data.length % 2 ^ 32) turns b) = r →
        b.Extends r.2 ∧ ∀ nFile, r.1 = some nFile → r.2.fileSize nFile + 8 ≤ MAX_FILE_SIZE := by
      rintro r rfl
      split_ifs with hfits
      · refine ⟨Extends.refl b, ?_⟩
        rintro nFile rfl
        rw [Option.any_some, decide_eq_true_eq] at hfits
        dsimp only
        omega
      · exact getLastFilePath_spec _ turns b
    rw [writeBatch]
    split
    · rename_i b1 heq
      exact ⟨(hplace _ heq).1, fun h => by cases h⟩
    · rename_i nFile b1 heq
      obtain ⟨hext, hsize⟩ := hplace _ heq
      obtain ⟨hrest, hholds⟩ := ih (some nFile) (b1.append nFile data)
      refine ⟨hext.trans ((extends_append b1 nFile data).trans hrest), fun h => ?_⟩
      exact List.Forall₂.cons ((holds_append (hsize nFile rfl) data).extend hrest) (hholds h)

/-! ## Reading -/

theorem Holds.read {T : Type*} {f : Format T} {t : T} (h : b.Holds pos (f.enc t)) (ht : f.Valid t) :
    b.read f pos = some t := by
  obtain ⟨before, after, hfile, hlen⟩ := h
  rw [CTimeSeriesBase.read, hfile, Option.bind_some, List.append_assoc, ← hlen, List.drop_left, f.dec_enc _ _ ht]
  rfl

end CTimeSeriesBase

end Minemon
