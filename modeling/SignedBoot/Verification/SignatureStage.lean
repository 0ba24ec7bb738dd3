import SignedBoot.Rsa.PublicKey
import SignedBoot.Verification.Trace

/-!
# The signature stage

Three operations recover an encoded message from a signature, with a work area between them; a
fourth cleans up, once, when one of the three fails. `SignatureOps.rsa` is the standard operation
set, the RSA public operation.
-/

namespace SignedBoot

def maxRsaByteSize : Nat := 512

abbrev WorkArea := Bytes

/-- The encoded message that a run publishes. -/
structure EncodedMessage where
  bytes : Bytes
  length_le : bytes.length ≤ maxRsaByteSize

namespace EncodedMessage

def empty : EncodedMessage := ⟨[], Nat.zero_le _⟩

/-- Publishes a byte string in place of the message, unless it is too long. -/
def set (m : EncodedMessage) (b : Bytes) : Except Fault Unit × EncodedMessage :=
  if h : b.length ≤ maxRsaByteSize then (.ok (), ⟨b, h⟩) else (.error .signatureLength, m)

end EncodedMessage

/-- The operations that recover an encoded message. Each yields its result and what it leaves
behind. -/
structure SignatureOps where
  init : Candidate → SignatureInput → WorkArea → Except Fault Unit × WorkArea
  update : Candidate → SignatureInput → WorkArea → Except Fault Unit × WorkArea
  finalize : Candidate → SignatureInput → WorkArea → EncodedMessage →
    Except Fault Unit × WorkArea × EncodedMessage
  cleanup : Candidate → SignatureInput → WorkArea → WorkArea

/-- What a run of the signature stage leaves. -/
structure SignatureRun where
  result : Except Fault Unit
  /-- The published message, which a failed run may have as well. -/
  message : EncodedMessage
  trace : Trace

namespace SignatureOps

/-- Runs the three operations, up to the first that fails, and then cleans up if one failed. -/
def run (ops : SignatureOps) (candidate : Candidate) (input : SignatureInput) : SignatureRun :=
  let call (step : SignatureStep) : TraceItem := .signatureCall step candidate input
  let fail (step : SignatureStep) (work : WorkArea) (message : EncodedMessage) (calls : Trace) :
      SignatureRun :=
    { result := .error step.fault
      message
      trace := calls ++ [.cleanupCall candidate input work (ops.cleanup candidate input work)] }
  match ops.init candidate input [] with
  | (.error _, work) => fail .init work .empty [call .init]
  | (.ok (), work) =>
    match ops.update candidate input work with
    | (.error _, work) => fail .update work .empty [call .init, call .update]
    | (.ok (), work) =>
      match ops.finalize candidate input work .empty with
      | (.error _, work, message) =>
        fail .finalize work message [call .init, call .update, call .finalize]
      | (.ok (), _, message) =>
        ⟨.ok (), message, [call .init, call .update, call .finalize]⟩

/-- The checks on the inputs before the public operation. -/
def checkInput (input : SignatureInput) : Except Fault Unit :=
  if input.request ≠ verifyRequest then .error .initFailed
  else if input.key.byteLength > maxRsaByteSize ∨ input.key.modulus.headD 0 = 0 then
    .error .keyInvalid
  else if input.expected.length ≠ input.key.byteLength then .error .signatureLength
  else if (PublicKey.ofDescriptor? input.key).isNone then .error .keyInvalid
  else .ok ()

/-- The public operation on a signature, in as many octets as the modulus has. -/
def recoverMessage (input : SignatureInput) : Except Fault Bytes :=
  match PublicKey.ofDescriptor? input.key with
  | none => .error .keyInvalid
  | some key =>
    let s := beValue input.expected
    if s ≥ key.modulus then .error .signatureOutOfRange
    else .ok (be key.byteLength (key.apply s))

/-- The standard operations. -/
def rsa : SignatureOps where
  init _ input work :=
    match checkInput input with
    | .ok () => (.ok (), [])
    | .error f => (.error f, work)
  update _ input work :=
    match recoverMessage input with
    | .ok em => (.ok (), em)
    | .error f => (.error f, work)
  finalize _ _ work message :=
    match message.set work with
    | (.ok (), message) => (.ok (), [], message)
    | (.error f, message) => (.error f, work, message)
  cleanup _ _ _ := []

end SignatureOps

end SignedBoot
