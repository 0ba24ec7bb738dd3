import SignedBoot.Command.Inspect
import SignedBoot.Encoding.Standard
import SignedBoot.Verification.BootVerifier

/-!
# Verifying an image

Builds a policy from the configuration, loads the image out of its carrier and verifies it. With
the signature stage on, the image must carry and be signed under the configured key; otherwise
its digest must be the expected one.
-/

namespace SignedBoot.Command

variable {m : Type → Type} [Monad m]

def expectation (p : PolicySettings) : Except CommandFault Bytes :=
  match p.expectedDigest with
  | none => if p.signatureStage then .ok [] else .error .digestMissing
  | some digits =>
    match Hex.decode digits.toUTF8.toList with
    | .error e => .error (.digestMalformed e)
    | .ok expected =>
      if ¬ p.signatureStage ∧ expected.length > 32 then .error .digestTooLong else .ok expected

/-- The key under which signatures are checked, when they are. -/
def pinnedKey (files : FileAccess m) (s : Settings) :
    ExceptT CommandFault m (Option ImageKey) := do
  if s.policy.signatureStage then
    match s.policy.publicKey with
    | some file => return some (← files.loadPublicKey (s.path file))
    | none => throw .publicKeyMissing
  else return none

def digestPolicy (p : PolicySettings) (expected : Bytes) : Policy :=
  { Policy.ofDigestOps .sha256 with
    expected
    tokenLength := p.tokenLength
    options := ⟨false, p.copyDigest, .unspecified⟩ }

/-- The policy of a configuration, given its key and its expectation. -/
def policy (p : PolicySettings) (key : Option ImageKey) (expected : Bytes) : Policy :=
  match key with
  | none => digestPolicy p expected
  | some key =>
    { digestPolicy p expected with
      key := some key.descriptor
      signatureOps := some .rsa
      schemes := .rsa
      template := .sha256 p.saltLength
      options := ⟨true, p.copyDigest, .ofMode p.mode⟩ }

def report (v : VerifiedImage) : List String :=
  ["PASS",
    "  total length: " ++ Hex.marked v.totalLength.toNat,
    "  signed tags:  " ++ toString v.index.length] ++
  v.digest.toList.map fun d => "  digest:       " ++ Hex.text d.bytes

def verify (files : FileAccess m) (args : Arguments) : ExceptT CommandFault m String := do
  let config ← args.require "config"
  let path ← args.require "image"
  let settings ← files.loadSettings config
  let key ← pinnedKey files settings
  let expected ← expectation settings.policy
  let contents ← files.require path (.imageUnreadable path)
  let verifier := BootVerifier.ofPolicy (policy settings.policy key expected)
  let (result, _) :=
    verifier.loadAndVerify Storage.memory contents settings.carrier contents.length .quiet
  match result with
  | .ok verified => return Listing.text (report verified)
  | .error fault => throw (.verification path fault)

end SignedBoot.Command
