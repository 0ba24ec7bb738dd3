import SignedBoot.Bytes.Numeral

/-!
# Key descriptors

An RSA public key as the container and the policy carry it: a big-endian modulus of any length
and an exponent word.
-/

namespace SignedBoot

structure KeyDescriptor where
  /-- The modulus in big-endian order, possibly with leading zero octets. -/
  modulus : Bytes
  exponent : UInt32
deriving DecidableEq

/-- The number of binary digits of a big-endian numeral: those of its first non-zero octet and
eight for each octet after it. -/
def numeralBits : Bytes → Nat
  | [] => 0
  | x :: rest => if x = 0 then numeralBits rest else bitLength x.toNat + 8 * rest.length

namespace KeyDescriptor

/-- The length of the modulus in octets, leading zeros included. -/
def byteLength (k : KeyDescriptor) : Nat := k.modulus.length

def modulusBits (k : KeyDescriptor) : Nat := numeralBits k.modulus

end KeyDescriptor

end SignedBoot
