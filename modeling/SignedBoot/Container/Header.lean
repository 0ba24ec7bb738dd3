import SignedBoot.Bytes.Word
import SignedBoot.Fault

/-!
# The fixed header

Every image starts with 0x44 octets of fixed layout. `Header.read?_eq_some_iff` makes reading the
inverse of `Header.encode`; `Header.validate` names the first field that does not match.
-/

namespace SignedBoot

def imageType : UInt32 := 1

/-- "BRLY" as a word. -/
def magicA : UInt32 := 0x594c5242

/-- "T", a zero octet and "V1" as a word. -/
def magicB : UInt32 := 0x31560054

/-- "BOOT0_TAG_BLOCK" and a zero octet. -/
def tagBlock : Block 16 :=
  ⟨[0x42, 0x4f, 0x4f, 0x54, 0x30, 0x5f, 0x54, 0x41,
    0x47, 0x5f, 0x42, 0x4c, 0x4f, 0x43, 0x4b, 0x00], rfl⟩

/-- The fields of the fixed header, in wire order. -/
@[ext]
structure Header where
  typeWord : UInt32
  sizeWord : UInt32
  magicA : UInt32
  magicB : UInt32
  reserved : Block 0x20
  tagBlock : Block 16
  totalLength : UInt32
deriving DecidableEq

namespace Header

def byteSize : Nat := 0x44

/-- Where the tag block stands: its first octet and the one after its last. -/
def tagBlockRange : Nat × Nat := (0x30, 0x40)

def maxDescriptorLength : Nat := 0x400

def template : Header where
  typeWord := imageType
  sizeWord := 0
  magicA := SignedBoot.magicA
  magicB := SignedBoot.magicB
  reserved := .zero 0x20
  tagBlock := SignedBoot.tagBlock
  totalLength := 0

def descriptorLength (h : Header) : Nat := h.sizeWord.toNat % 0x10000

/-- The offset one past the descriptor region. -/
def bodyOffset (h : Header) : Nat := byteSize + h.descriptorLength

def encode (h : Header) : Bytes :=
  word32 h.typeWord ++ (word32 h.sizeWord ++ (word32 h.magicA ++ (word32 h.magicB ++
    (h.reserved.bytes ++ (h.tagBlock.bytes ++ word32 h.totalLength)))))

def read? (b : Bytes) : Option (Header × Bytes) := do
  let (typeWord, b) ← readWord32? b
  let (sizeWord, b) ← readWord32? b
  let (magicA, b) ← readWord32? b
  let (magicB, b) ← readWord32? b
  let (reserved, b) ← Block.read? 0x20 b
  let (tagBlock, b) ← Block.read? 16 b
  let (totalLength, b) ← readWord32? b
  return ({ typeWord, sizeWord, magicA, magicB, reserved, tagBlock, totalLength }, b)

/-- Reads a header, or reports that the input is too short for one. -/
def read (b : Bytes) : Except Fault (Header × Bytes) :=
  match read? b with
  | some r => .ok r
  | none => .error .headerTruncated

/-- Checks the constants in wire order, then that the descriptor region lies inside the image. -/
def validate (h : Header) : Except Fault Unit :=
  if h.typeWord ≠ imageType then .error .headerTypeMismatch
  else if h.magicA ≠ SignedBoot.magicA then .error .headerMagicAMismatch
  else if h.magicB ≠ SignedBoot.magicB then .error .headerMagicBMismatch
  else if h.tagBlock ≠ SignedBoot.tagBlock then .error .headerTagBlockMismatch
  else if h.descriptorLength < 8 ∨ h.descriptorLength > maxDescriptorLength ∨
      h.bodyOffset > h.totalLength.toNat then .error .headerSizeInvalid
  else .ok ()

@[simp]
theorem length_encode (h : Header) : h.encode.length = byteSize := by
  simp [encode, byteSize]

/-- Reading a header is splitting off its wire form. -/
theorem read?_eq_some_iff {b rest : Bytes} {h : Header} :
    read? b = some (h, rest) ↔ b = h.encode ++ rest := by
  constructor
  · intro hb
    simp only [read?, Option.bind_eq_bind, Option.bind_eq_some_iff, Prod.exists,
      readWord32?_eq_some_iff, Block.read?_eq_some_iff, Option.pure_def, Option.some.injEq,
      Prod.mk.injEq] at hb
    obtain ⟨_, _, rfl, _, _, rfl, _, _, rfl, _, _, rfl, _, _, rfl, _, _, rfl, _, _, rfl, rfl,
      rfl⟩ := hb
    simp [encode]
  · rintro rfl
    simp only [read?, Option.bind_eq_bind, Option.bind_eq_some_iff, Prod.exists,
      readWord32?_eq_some_iff, Block.read?_eq_some_iff, Option.pure_def, Option.some.injEq,
      Prod.mk.injEq]
    exact ⟨_, _, by simp only [encode, List.append_assoc], _, _, rfl, _, _, rfl, _, _, rfl,
      _, _, rfl, _, _, rfl, _, _, rfl, rfl, rfl⟩

end Header

end SignedBoot
