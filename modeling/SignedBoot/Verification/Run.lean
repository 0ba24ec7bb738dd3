import SignedBoot.Verification.Policy

/-!
# Verification runs

A run takes a candidate through the stages of a policy. It yields the verdict, the trace of what
was done, and the context with the digest copied into it if the policy says so.
-/

namespace SignedBoot

/-- The message that the digest stage takes. -/
inductive DigestSource
  | candidate
  | policy
deriving DecidableEq, Repr

/-- What a run is about, and what it leaves for the runs after it. -/
structure VerifyContext where
  slot : UInt32
  image : Gather
  source : DigestSource
  digestOut : Option Digest
  observers : Observers

namespace VerifyContext

def ofImage (slot : UInt32) (image : Gather) (observers : Observers) : VerifyContext :=
  { slot, image, source := .candidate, digestOut := none, observers }

def candidate (c : VerifyContext) : Candidate := ⟨c.slot, c.image⟩

/-- The message for the digest stage, unless the policy lacks the one asked for. -/
def digestInput? (c : VerifyContext) (p : Policy) : Option Gather :=
  match c.source with
  | .candidate => some c.image
  | .policy => p.hashInput

end VerifyContext

structure VerifyRun where
  outcome : Except Fault Unit
  context : VerifyContext
  trace : Trace

namespace Policy

def digestStage (p : Policy) (c : VerifyContext) : Except Fault Digest × Trace :=
  match c.digestInput? p with
  | none => (.error .hashInputMissing, [])
  | some message =>
    let (digest, calls) := p.digestOps.run c.candidate message
    (digest,
      c.observers.notice .digest .enter ++ calls ++ c.observers.notice .digest .exit ++
        c.observers.report .digest (resultWord digest) 32)

/-- The signature stage with its notices and its report, and the verdict on what it recovers. -/
def signatureStage (p : Policy) (c : VerifyContext) (digest : Digest) :
    Except Fault Unit × Trace :=
  match p.key, p.signatureOps with
  | none, _ => (.error .keyMissing, [])
  | some _, none => (.error .signatureOpsMissing, [])
  | some key, some ops =>
    let run := ops.run c.candidate ⟨p.expected, c.image, verifyRequest, key⟩
    let em := run.message.bytes
    (run.result.bind fun () => p.checkMessage key em digest,
      c.observers.notice .signature .enter ++ run.trace ++ c.observers.notice .signature .exit ++
        c.observers.report .signature (resultWord run.result) (UInt32.ofNat em.length))

def keepDigest (p : Policy) (c : VerifyContext) (digest : Digest) : VerifyContext :=
  if p.options.copyDigest then { c with digestOut := some digest } else c

/-- The verdict on a digest, and what the way to it adds to the trace. -/
def judge (p : Policy) (c : VerifyContext) (digest : Digest) : Except Fault Unit × Trace :=
  if p.options.signatureStage then p.signatureStage c digest else (p.checkDigest digest, [])

/-- The end of a run: the verdict is reported. -/
def conclude (p : Policy) (c : VerifyContext) (outcome : Except Fault Unit) (trace : Trace) :
    VerifyRun :=
  ⟨outcome, c, trace ++ c.observers.report .verdict (resultWord outcome) p.tokenLength⟩

def verify (p : Policy) (c : VerifyContext) : VerifyRun :=
  match p.digestStage c with
  | (.error f, trace) => p.conclude c (.error f) trace
  | (.ok digest, trace) =>
    let (outcome, rest) := p.judge c digest
    p.conclude (p.keepDigest c digest) outcome (trace ++ rest)

end Policy

end SignedBoot
