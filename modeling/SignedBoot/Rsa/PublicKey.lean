import SignedBoot.Bytes.Numeral
import SignedBoot.Container.Key
import SignedBoot.Rsa.Modular

/-!
# RSA public keys

Which pairs of a modulus and an exponent count as a public key, and how a key is carried in a key
tag: the modulus in 256 octets and the exponent in a word.
-/

namespace SignedBoot

namespace Rsa

/-- The conditions on the public part of any key: an odd modulus above an odd exponent of at
least two digits and at most 33. -/
def Sound (n e : Nat) : Prop :=
  e < UInt64.size ∧ e < n ∧ n % 2 = 1 ∧ e % 2 = 1 ∧ 2 ≤ e ∧ e ≤ 0x1ffffffff

instance (n e : Nat) : Decidable (Sound n e) := inferInstanceAs (Decidable (_ ∧ _))

def maxModulusBits : Nat := 4096

end Rsa

structure PublicKey where
  modulus : Nat
  exponent : Nat
  sound : Rsa.Sound modulus exponent
  bitLength_le : bitLength modulus ≤ Rsa.maxModulusBits

namespace PublicKey

/-- The key of a modulus and an exponent, if they make one. -/
def ofParts? (n e : Nat) : Option PublicKey :=
  if h : Rsa.Sound n e ∧ bitLength n ≤ Rsa.maxModulusBits then some ⟨n, e, h.1, h.2⟩ else none

/-- The key that a descriptor holds, if it holds one. -/
def ofDescriptor? (k : KeyDescriptor) : Option PublicKey :=
  ofParts? (beValue k.modulus) k.exponent.toNat

def byteLength (k : PublicKey) : Nat := octetLength k.modulus

def apply (k : PublicKey) (s : Nat) : Nat := powMod s k.exponent k.modulus

end PublicKey

/-- Why a key cannot be carried in an image. -/
inductive KeyFault
  | modulusTooLong
  | exponentTooLong
  /-- A signing key that is not of 256 octets. -/
  | unsupportedSize
deriving DecidableEq

def KeyFault.message : KeyFault → String
  | .modulusTooLong => "Modulus exceeds 2048 bits"
  | .exponentTooLong => "Public exponent does not fit in 32 bits"
  | .unsupportedSize => "Only RSA-2048 keys are supported"

/-- A public key as a key tag carries it. -/
@[ext]
structure ImageKey where
  modulus : Block 256
  exponent : UInt32
deriving DecidableEq

namespace ImageKey

def descriptor (k : ImageKey) : KeyDescriptor := ⟨k.modulus.bytes, k.exponent⟩

/-- The form in which an image carries a modulus and an exponent. -/
def ofParts (n e : Nat) : Except KeyFault ImageKey :=
  if octetLength n > 256 then .error .modulusTooLong
  else if octetLength e > 4 then .error .exponentTooLong
  else .ok ⟨beBlock 256 n, UInt32.ofNat e⟩

end ImageKey

end SignedBoot
