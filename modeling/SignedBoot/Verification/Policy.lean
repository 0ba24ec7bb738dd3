import SignedBoot.Encoding.Scheme
import SignedBoot.Verification.DigestStage
import SignedBoot.Verification.SignatureStage

/-!
# Verification policies

A policy says what an image must satisfy: an expected digest, or a signature under a key in one
of the modes. Two bits of its flag word switch the signature stage and the copying of the digest,
two more select the mode, and all others are ignored.
-/

namespace SignedBoot

def PolicyFlag.signatureStage : UInt32 := 0x1

def PolicyFlag.copyDigest : UInt32 := 0x2

def SignatureMode.flag : SignatureMode → UInt32
  | .pss => 0x2000000
  | .pkcs1 => 0x4000000

inductive ModeSelection
  | pss
  | pkcs1
  | ambiguous
  | unspecified
deriving DecidableEq, Repr

namespace ModeSelection

def name : ModeSelection → String
  | .pss => "Pss"
  | .pkcs1 => "Pkcs1v15"
  | .ambiguous => "Ambiguous"
  | .unspecified => "Unspecified"

/-- The mode, when exactly one is selected. -/
def resolve : ModeSelection → Except Fault SignatureMode
  | .pss => .ok .pss
  | .pkcs1 => .ok .pkcs1
  | .ambiguous => .error .modeAmbiguous
  | .unspecified => .error .modeUnspecified

def ofMode : SignatureMode → ModeSelection
  | .pss => .pss
  | .pkcs1 => .pkcs1

def ofFlags (pss pkcs1 : Bool) : ModeSelection :=
  match pss, pkcs1 with
  | true, false => .pss
  | false, true => .pkcs1
  | true, true => .ambiguous
  | false, false => .unspecified

end ModeSelection

/-- The decoded flag word of a policy. -/
structure PolicyOptions where
  signatureStage : Bool
  copyDigest : Bool
  mode : ModeSelection
deriving DecidableEq

namespace PolicyOptions

def hasFlag (word flag : UInt32) : Bool := word &&& flag == flag

def decode (word : UInt32) : PolicyOptions where
  signatureStage := hasFlag word PolicyFlag.signatureStage
  copyDigest := hasFlag word PolicyFlag.copyDigest
  mode := .ofFlags (hasFlag word SignatureMode.pss.flag) (hasFlag word SignatureMode.pkcs1.flag)

end PolicyOptions

/-- What an image must satisfy. -/
structure Policy where
  /-- The key that signatures are checked under, to which the image is pinned. -/
  key : Option KeyDescriptor
  signatureOps : Option SignatureOps
  template : Template
  digestOps : DigestOps
  schemes : SchemeTable
  hashInput : Option Gather
  /-- The digest, or the signature when the signature stage is on. -/
  expected : Bytes
  options : PolicyOptions
  tokenLength : UInt32

namespace Policy

/-- The policy that compares whole digests made by some operations, and expects none yet. -/
def ofDigestOps (ops : DigestOps) : Policy where
  key := none
  signatureOps := none
  template := .standard
  digestOps := ops
  schemes := .empty
  hashInput := none
  expected := []
  options := .decode 0
  tokenLength := 32

def forExpected (p : Policy) (expected : Bytes) : Policy := { p with expected }

/-- The first octets of two hashes are equal, as many as the policy compares. -/
def compare (p : Policy) (observed reference : Bytes) (mismatch : Fault) : Except Fault Unit :=
  let n := p.tokenLength.toNat
  if n = 0 ∨ n > 32 ∨ n > observed.length ∨ n > reference.length then .error .tokenLengthInvalid
  else if observed.take n = reference.take n then .ok ()
  else .error mismatch

/-- The verdict on a digest when there is no signature stage. -/
def checkDigest (p : Policy) (digest : Digest) : Except Fault Unit :=
  if p.tokenLength.toNat ≠ p.expected.length then .error .tokenLengthInvalid
  else p.compare digest.bytes p.expected .digestMismatch

/-- The verdict on an encoded message that was recovered under a key. -/
def checkMessage (p : Policy) (key : KeyDescriptor) (em : Bytes) (digest : Digest) :
    Except Fault Unit := do
  let mode ← p.options.mode.resolve
  let scheme ← p.schemes.select mode
  let tokens ← scheme.recover em digest p.template key.modulusBits
  p.compare tokens.recovered.bytes tokens.reference.bytes .signatureMismatch

end Policy

end SignedBoot
