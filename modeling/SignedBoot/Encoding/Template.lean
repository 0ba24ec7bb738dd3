import SignedBoot.Bytes.Word

/-!
# Signature templates

A template of 28 octets holds the parameters of the signature encodings: the hash length, the PSS
salt length, and the DigestInfo that a PKCS#1 v1.5 encoding puts before the hash.
-/

namespace SignedBoot

/-- The parameters of the signature encodings. -/
@[ext]
structure Template where
  hashLength : UInt8
  saltLength : UInt8
  infoLength : UInt8
  reserved : UInt8
  info : Block 24
deriving DecidableEq

namespace Template

def byteSize : Nat := 28

def sha256Info : Bytes :=
  [0x30, 0x31, 0x30, 0x0d, 0x06, 0x09, 0x60, 0x86, 0x48, 0x01, 0x65, 0x03, 0x04, 0x02, 0x01, 0x05,
   0x00, 0x04, 0x20]

def sha256 (saltLength : UInt8) : Template :=
  ⟨32, saltLength, 19, 0, .ofPadded 24 sha256Info⟩

def standard : Template := sha256 32

instance : Inhabited Template := ⟨standard⟩

/-- The DigestInfo octets in use, unless more are declared than there are. -/
def digestInfo? (t : Template) : Option Bytes :=
  if t.infoLength.toNat ≤ 24 then some (t.info.bytes.take t.infoLength.toNat) else none

def encode (t : Template) : Bytes :=
  t.hashLength :: t.saltLength :: t.infoLength :: t.reserved :: t.info.bytes

def ofBlock (b : Block 28) : Template :=
  match b.bytes with
  | hashLength :: saltLength :: infoLength :: reserved :: info =>
    ⟨hashLength, saltLength, infoLength, reserved, .ofPadded 24 info⟩
  | _ => standard

end Template

end SignedBoot
