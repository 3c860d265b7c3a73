import Minemon.Common.Param
import Minemon.Lib.OrdMap

/-!
# Destinations

A destination is a public key or the identifier of a template, told apart by one byte. The low 16
bits of a template identifier are the type of the template.

* `CDestination.codec`: the 33 bytes of a destination in a data stream.
-/

namespace Minemon

structure CDestination where
  nPrefix : ℕ
  data : ℕ
deriving DecidableEq, Repr

namespace CDestination

def PREFIX_NULL : ℕ := 0
def PREFIX_PUBKEY : ℕ := 1
def PREFIX_TEMPLATE : ℕ := 2

def null : CDestination := ⟨PREFIX_NULL, 0⟩

instance : Inhabited CDestination := ⟨null⟩

/-- `operator<`: the prefix first, the data then. -/
instance : LinearOrder CDestination :=
  .byPair nPrefix data fun a b h1 h2 => by cases a; cases b; cases h1; cases h2; rfl

/-! ## Kinds -/

def isNull (d : CDestination) : Bool := d.nPrefix == PREFIX_NULL

def isPubKey (d : CDestination) : Bool := d.nPrefix == PREFIX_PUBKEY

def isTemplate (d : CDestination) : Bool := d.nPrefix == PREFIX_TEMPLATE

def getPubKey (d : CDestination) : ℕ := if d.nPrefix = PREFIX_PUBKEY then d.data else 0

def getTemplateId (d : CDestination) : ℕ := if d.nPrefix = PREFIX_TEMPLATE then d.data else 0

@[simp] theorem isNull_null : null.isNull = true := rfl

theorem isTemplate_iff {d : CDestination} : d.isTemplate = true ↔ d.nPrefix = PREFIX_TEMPLATE := by
  simp [isTemplate]

theorem not_isNull_of_isTemplate {d : CDestination} (h : d.isTemplate = true) : d.isNull = false := by
  rw [isTemplate_iff] at h
  simp [isNull, h, PREFIX_TEMPLATE, PREFIX_NULL]

/-- The bytes of a destination in a data stream: the prefix, the data. -/
def codec : Codec CDestination :=
  ((Codec.uint 1).pair (Codec.uint 32)).iso (fun p => ⟨p.1, p.2⟩) (fun d => (d.nPrefix, d.data))
    (fun _ => rfl) (fun _ => rfl)

/-- `ToDataStream` and `Serialize`: both write the 33 bytes. -/
def toBytes (d : CDestination) : List UInt8 := codec.enc d

@[simp] theorem length_toBytes (d : CDestination) : d.toBytes.length = 33 := by
  show (leBytes 1 d.nPrefix ++ leBytes 32 d.data).length = 33
  rw [List.length_append, length_leBytes, length_leBytes]

theorem toBytes_inj {a b : CDestination} (hkind : a.nPrefix = b.nPrefix) (ha : a.data < 2 ^ 256)
    (hb : b.data < 2 ^ 256) (h : a.toBytes = b.toBytes) : a = b := by
  have hdata := (List.append_inj (show leBytes 1 a.nPrefix ++ leBytes 32 a.data =
    leBytes 1 b.nPrefix ++ leBytes 32 b.data from h) (by simp)).2
  cases a
  cases b
  rw [CDestination.mk.injEq]
  exact ⟨hkind, leBytes_inj (by simpa using ha) (by simpa using hb) hdata⟩

end CDestination

/-! ## Template identifiers -/

def templateIdType (id : ℕ) : ℕ := id % 2 ^ 16

/-- `CTemplateId(type, hash)`: `(hash << 16) | type` -/
def mkTemplateId (nType : ℕ) (hash : ℕ) : ℕ := hash * 2 ^ 16 % 2 ^ 256 + nType

/-- The type of the template at `d`, 0 when `d` is none: `GetTemplateId().GetType()`. -/
def CDestination.templateType (d : CDestination) : ℕ := templateIdType d.getTemplateId

theorem templateIdType_mkTemplateId {nType : ℕ} (h : nType < 2 ^ 16) (hash : ℕ) :
    templateIdType (mkTemplateId nType hash) = nType := by
  unfold templateIdType mkTemplateId
  omega

end Minemon
