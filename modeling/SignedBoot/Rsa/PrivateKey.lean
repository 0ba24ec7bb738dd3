import SignedBoot.Encoding.Pkcs1
import SignedBoot.Encoding.Pss
import SignedBoot.Rsa.PublicKey

/-!
# RSA private keys and signing

A private key is checked against its primes when it is made, and every signature against the
public operation before it is handed out.
-/

namespace SignedBoot

structure PrivateKey where
  modulus : Nat
  exponent : Nat
  privateExponent : Nat
  p : Nat
  q : Nat
  sound : Rsa.Sound modulus exponent
  one_lt_p : 1 < p
  one_lt_q : 1 < q
  modulus_eq : p * q = modulus
  inverse_p : privateExponent * exponent % (p - 1) = 1
  inverse_q : privateExponent * exponent % (q - 1) = 1

namespace PrivateKey

/-- The key of five numbers, if they make one. -/
def ofParts? (n e d p q : Nat) : Option PrivateKey :=
  if h : Rsa.Sound n e ∧ 1 < p ∧ 1 < q ∧ p * q = n ∧ d * e % (p - 1) = 1 ∧ d * e % (q - 1) = 1 then
    some ⟨n, e, d, p, q, h.1, h.2.1, h.2.2.1, h.2.2.2.1, h.2.2.2.2.1, h.2.2.2.2.2⟩
  else none

def byteLength (k : PrivateKey) : Nat := octetLength k.modulus

/-- The private operation: a power modulo each prime, joined to one number below the modulus. Where
the primes share a factor, the power modulo the modulus itself. -/
def apply (k : PrivateKey) (m : Nat) : Nat :=
  match inverseMod? k.q k.p with
  | none => powMod m k.privateExponent k.modulus
  | some u =>
    let x := powMod m (k.privateExponent % (k.p - 1)) k.p
    let y := powMod m (k.privateExponent % (k.q - 1)) k.q
    (y + (x + (k.p - y % k.p)) * u % k.p * k.q) % k.modulus

/-- The number whose public operation gives `m`, if the private operation finds it. -/
def root? (k : PrivateKey) (m : Nat) : Option Nat :=
  let s := k.apply m
  if powMod s k.exponent k.modulus = m then some s else none

end PrivateKey

inductive Padding
  | pss (salt : Block 32)
  | pkcs1

namespace Padding

def name : Padding → String
  | .pss _ => "Pss"
  | .pkcs1 => "Pkcs1v15"

/-- The padding for a mode, with a salt for the one that takes a salt. -/
def ofMode (salt : Block 32) : SignatureMode → Padding
  | .pss => .pss salt
  | .pkcs1 => .pkcs1

def encode (padding : Padding) (digest : Digest) (modulus : Nat) : Bytes :=
  match padding with
  | .pss salt => Pss.encode digest salt.bytes (bitLength modulus - 1)
  | .pkcs1 => Pkcs1.encode Template.sha256Info digest (octetLength modulus)

end Padding

structure SigningKey where
  key : PrivateKey
  image : ImageKey

namespace SigningKey

/-- The signing key of a private key, which must have a modulus of 256 octets. -/
def ofPrivate (key : PrivateKey) : Except KeyFault SigningKey :=
  if key.byteLength ≠ 256 then .error .unsupportedSize
  else (ImageKey.ofParts key.modulus key.exponent).map fun image => ⟨key, image⟩

/-- The signature of a digest, unless the private operation fails. -/
def sign? (k : SigningKey) (padding : Padding) (digest : Digest) : Option (Block 256) :=
  (k.key.root? (beValue (padding.encode digest k.key.modulus))).map (beBlock 256)

end SigningKey

end SignedBoot
