import Mathlib
import SignedBoot.Proofs.Machine.Encodings
import SignedBoot.Proofs.Machine.Stages
import SignedBoot.Proofs.Verification.Verdict
import SignedBoot.Verification.BootVerifier

/-!
# The verdict on a machine

A verification run on a message, from the digest to the comparison of the tokens, on a machine whose
steps can fail. Under the standard operations it gives the outcome and the digest of `Policy.verify`
(`verifyMessage_eq`).
-/

namespace SignedBoot

/-- The standard operations and schemes. All else in a policy is left open. -/
structure Policy.Standard (p : Policy) : Prop where
  digestOps : p.digestOps = .sha256
  signatureOps : p.signatureOps = some .rsa
  schemes : p.schemes = .rsa

namespace Machine

variable (space : AddressSpace)

/-! ### Verdicts -/

def compare (p : Policy) (observed reference : Bytes) (mismatch : Fault) : Run Unit :=
  let n := p.tokenLength.toNat
  if n = 0 ∨ n > 32 ∨ n > observed.length ∨ n > reference.length then .fault .tokenLengthInvalid
  else do
    let observed ← rangeTo observed n
    let reference ← rangeTo reference n
    if observed = reference then .value () else .fault mismatch

def checkDigest (p : Policy) (digest : Digest) : Run Unit :=
  if p.tokenLength.toNat ≠ p.expected.length then .fault .tokenLengthInvalid
  else compare p digest.bytes p.expected .digestMismatch

def recoverTokens (mode : SignatureMode) (em : Bytes) (digest : Digest) (template : Template)
    (modulusBits : Nat) : Run Tokens :=
  match mode with
  | .pss => recoverPss space em digest template modulusBits
  | .pkcs1 => recoverPkcs1 space em digest template

def checkMessage (p : Policy) (key : KeyDescriptor) (published : Buffer) (digest : Digest) :
    Run Unit := do
  let mode ← .ofExcept p.options.mode.resolve
  let em ← published.content
  let bits ← modulusBits space key
  let tokens ← recoverTokens space mode em digest p.template bits
  compare p tokens.recovered.bytes tokens.reference.bytes .signatureMismatch

/-- The signature stage and the verdict on what it publishes, whose length is reported even when
the stage has failed. -/
def judgeSignature (p : Policy) (message : Gather) (digest : Digest) : Run Unit :=
  match p.key with
  | none => .fault .keyMissing
  | some key => do
    match ← (signatureStage ⟨p.expected, message, verifyRequest, key⟩).attempt with
    | .error f => do
      let _ ← Buffer.empty.content
      .fault f
    | .ok published => do
      let _ ← published.content
      checkMessage space p key published digest

/-- The verdict on a message, and the digest that the run leaves behind. -/
def verifyMessage (p : Policy) (c : VerifyContext) : Run (Except Fault Unit × Option Digest) :=
  match c.digestInput? p with
  | none => .value (.error .hashInputMissing, c.digestOut)
  | some message => do
    let _ ← gatherLength space message
    match ← (digestStage space message).attempt with
    | .error f => .value (.error f, c.digestOut)
    | .ok digest => do
      let verdict ←
        (if p.options.signatureStage then judgeSignature space p c.image digest
        else checkDigest p digest).attempt
      .value (verdict, (p.keepDigest c digest).digestOut)

theorem compare_eq (p : Policy) (observed reference : Bytes) (mismatch : Fault) :
    compare p observed reference mismatch =
      .ofExcept (p.compare observed reference mismatch) := by
  refine Run.check_eq fun hlength => ?_
  rw [rangeTo_eq (by omega), rangeTo_eq (by omega), Run.ofExcept_ite]
  rfl

theorem checkDigest_eq (p : Policy) (digest : Digest) :
    checkDigest p digest = .ofExcept (p.checkDigest digest) := by
  exact Run.check_eq fun _ => compare_eq p _ _ _

theorem recoverTokens_eq (mode : SignatureMode) {em : Bytes} (h : em.length < space.size)
    (digest : Digest) (template : Template) (modulusBits : Nat) :
    recoverTokens space mode em digest template modulusBits =
      .ofExcept (mode.recover em digest template modulusBits) := by
  cases mode with
  | pss => exact recoverPss_eq space em digest template modulusBits
  | pkcs1 => exact recoverPkcs1_eq space h digest template modulusBits

theorem checkMessage_eq {p : Policy} (hp : p.schemes = .rsa) {key : KeyDescriptor} {em : Bytes}
    (hkey : key.byteLength ≤ maxRsaByteSize) (hem : em.length ≤ maxRsaByteSize)
    (digest : Digest) :
    checkMessage space p key (.holding em) digest = .ofExcept (p.checkMessage key em digest) := by
  have hspace := space.two_pow_le
  rw [maxRsaByteSize] at hkey hem
  rw [checkMessage, Policy.checkMessage, hp, Buffer.content_holding, Run.ofExcept_bind]
  congr 1
  funext mode
  rw [Run.value_bind, modulusBits_eq space (by omega), Run.value_bind,
    recoverTokens_eq space mode (by omega), SchemeTable.select_rsa]
  change _ = Run.ofExcept (mode.recover em digest p.template key.modulusBits >>= _)
  rw [Run.ofExcept_bind]
  congr 1
  funext tokens
  exact compare_eq p _ _ _

/-- The signature stage only succeeds under a key that fits the work area. -/
theorem byteLength_le_of_run_rsa {candidate : Candidate} {input : SignatureInput}
    (h : (SignatureOps.rsa.run candidate input).result = .ok ()) :
    input.key.byteLength ≤ maxRsaByteSize :=
  have hcheck := (SignatureOps.run_rsa_eq_ok_iff.mp ⟨h, rfl⟩).1
  (SignatureOps.checkInput_eq_ok_iff.mp hcheck).2.1

theorem judgeSignature_eq {p : Policy} (hp : p.Standard) (c : VerifyContext) (digest : Digest) :
    judgeSignature space p c.image digest = .ofExcept (p.signatureStage c digest).1 := by
  unfold judgeSignature Policy.signatureStage
  rw [hp.signatureOps]
  cases p.key with
  | none => rfl
  | some key =>
    dsimp only
    rw [(signatureStage_eq c.candidate _).1, Run.attempt_ofExcept, Run.value_bind]
    cases hrun : (SignatureOps.rsa.run c.candidate
      ⟨p.expected, c.image, verifyRequest, key⟩).result with
    | error f =>
      change (Buffer.empty.content >>= _) = _
      rw [Buffer.content_empty]
      rfl
    | ok u =>
      have hkey := byteLength_le_of_run_rsa hrun
      have hem := (SignatureOps.rsa.run c.candidate
        ⟨p.expected, c.image, verifyRequest, key⟩).message.length_le
      change (Buffer.content (.holding _) >>= _) = _
      rw [Buffer.content_holding, Run.value_bind]
      exact checkMessage_eq space hp.schemes hkey hem digest

theorem verifyMessage_eq {p : Policy} (hp : p.Standard) {c : VerifyContext}
    (h : ∀ message ∈ c.digestInput? p, message.length < space.size) :
    verifyMessage space p c =
      .value ((p.verify c).outcome, (p.verify c).context.digestOut) := by
  unfold verifyMessage Policy.verify Policy.digestStage
  cases hinput : c.digestInput? p with
  | none => rfl
  | some message =>
    have hlength : message.length < space.size := h message hinput
    dsimp only
    rw [gatherLength_eq space hlength, Run.value_bind, hp.digestOps,
      digestStage_eq space hlength c.candidate, Run.attempt_ofExcept, Run.value_bind]
    rcases DigestOps.sha256.run c.candidate message with ⟨_ | digest, calls⟩
    · rfl
    dsimp only
    have hjudge : (if p.options.signatureStage then judgeSignature space p c.image digest
        else checkDigest p digest) = .ofExcept (p.judge c digest).1 := by
      rw [judgeSignature_eq space hp, checkDigest_eq, Policy.judge]
      split <;> rfl
    rw [hjudge, Run.attempt_ofExcept]
    rfl

end Machine

end SignedBoot
