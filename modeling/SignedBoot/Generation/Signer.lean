import SignedBoot.Rsa.PrivateKey

/-!
# Signers

A signer brings the key that an image carries and signs digests under it.
-/

namespace SignedBoot

/-- A key together with a way to sign, which may fail. -/
structure Signer where
  key : ImageKey
  sign? : Digest → Option (Block 256)

namespace Signer

def fixed (key : ImageKey) (signature : Block 256) : Signer := ⟨key, fun _ => some signature⟩

/-- The key of images whose signature is of no matter. -/
def placeholderKey : ImageKey := ⟨.filled 256 0xc5, 65537⟩

/-- The signature of images whose signature is of no matter. -/
def placeholderSignature : Block 256 := .filled 256 0x3a

def ofSigningKey (key : SigningKey) (padding : Padding) : Signer := ⟨key.image, key.sign? padding⟩

end Signer

end SignedBoot
