import SignedBoot.Storage
import SignedBoot.Verification.Run

/-!
# The boot verifier

Verifies whole images: takes the image apart, checks that it carries the pinned key, and runs the
policy over its signed message, with the signature of the image as the expectation when the
signature stage is on.
-/

namespace SignedBoot

/-- What is known of an image that passed. -/
structure VerifiedImage where
  /-- The digest of the signed message, when the policy copies it. -/
  digest : Option Digest
  index : SignedIndex
  totalLength : UInt32
  entries : List LoadEntry

/-- A policy for images, and the slot that its operations are told. -/
structure BootVerifier where
  policy : Policy
  slot : UInt32

namespace BootVerifier

def ofPolicy (policy : Policy) : BootVerifier := ⟨policy, 0⟩

/-- An image that is ready for the stages. -/
structure Prepared where
  image : BootImage
  index : SignedIndex
  policy : Policy
  message : Gather

/-- A pinned key must be the key of the image. -/
def checkPinned (p : Policy) (key : KeyDescriptor) : Except Fault Unit :=
  match p.key with
  | none => .ok ()
  | some pinned => if pinned = key then .ok () else .error .keyMismatch

/-- The policy for an image with a key tag and a signature tag. -/
def imagePolicy (p : Policy) (key : KeyTag) (signature : SignatureTag) : Except Fault Policy := do
  if p.options.signatureStage then
    checkPinned p key.key
    return p.forExpected signature.signature.bytes
  return p

def prepare (v : BootVerifier) (b : Bytes) (carrier : Carrier) : Except Fault Prepared := do
  let image ← BootImage.parse b carrier
  let index ← image.signedIndex
  let key ← image.keyTag
  let signature ← image.signatureTag
  let policy ← imagePolicy v.policy key signature
  let message ← image.signedMessage index
  return { image, index, policy, message }

def verify (v : BootVerifier) (b : Bytes) (carrier : Carrier) (observers : Observers) :
    Except Fault VerifiedImage × Trace :=
  match v.prepare b carrier with
  | .error f => (.error f, [])
  | .ok x =>
    let run := x.policy.verify (.ofImage v.slot x.message observers)
    (run.outcome.map fun () =>
      { digest := run.context.digestOut
        index := x.index
        totalLength := x.image.header.totalLength
        entries := x.image.descriptor.entries },
      run.trace)

/-- Loads an image into a buffer of `room` octets and verifies it. -/
def loadAndVerify {σ : Type} (v : BootVerifier) (storage : Storage σ) (state : σ)
    (carrier : Carrier) (room : Nat) (observers : Observers) :
    Except Fault VerifiedImage × Trace :=
  match storage.load state carrier room with
  | .error f => (.error f, [])
  | .ok b => v.verify b carrier observers

end BootVerifier

end SignedBoot
