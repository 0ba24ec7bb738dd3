import SignedBoot.Hash.Sha256
import SignedBoot.Verification.Trace

/-!
# The digest stage

Three operations over one message make a digest, with a scratch area between them. The stage
stops at the first operation that fails. `DigestOps.sha256` is the standard operation set: the
scratch records the length of the message that was prepared, and only a message of that length
is hashed.
-/

namespace SignedBoot

/-- The memory that the digest operations of one run share. -/
@[ext]
structure Scratch where
  bytes : Block 64
  used : Nat
deriving DecidableEq

namespace Scratch

def byteSize : Nat := 64

def empty : Scratch := ⟨.zero 64, 0⟩

def recordByteSize : Nat := 8

/-- The area that holds the record of a message length and nothing else. -/
def ofLength (length : Nat) : Scratch :=
  ⟨.ofPadded 64 (le recordByteSize length), recordByteSize⟩

def length? (s : Scratch) : Option Nat :=
  if s.used = recordByteSize then some (leValue (s.bytes.bytes.take recordByteSize)) else none

end Scratch

/-- The operations that make a digest. Each yields its result and what it leaves behind. -/
structure DigestOps where
  prepare : Candidate → Gather → Scratch → Except Fault Unit × Scratch
  digest : Candidate → Gather → Scratch → Digest → Except Fault Unit × Digest
  finish : Candidate → Gather → Scratch → Except Fault Unit × Scratch

namespace DigestOps

/-- Runs the three operations over a message, up to the first that fails. -/
def run (ops : DigestOps) (candidate : Candidate) (message : Gather) :
    Except Fault Digest × Trace :=
  let call (step : DigestStep) : TraceItem := .digestCall step candidate message
  match ops.prepare candidate message .empty with
  | (.error _, _) => (.error DigestStep.prepare.fault, [call .prepare])
  | (.ok (), scratch) =>
    match ops.digest candidate message scratch (.zero 32) with
    | (.error _, _) => (.error DigestStep.digest.fault, [call .prepare, call .digest])
    | (.ok (), digest) =>
      match ops.finish candidate message scratch with
      | (.error _, _) =>
        (.error DigestStep.finish.fault, [call .prepare, call .digest, call .finish])
      | (.ok (), _) => (.ok digest, [call .prepare, call .digest, call .finish])

def hashSegments (message : Gather) : Digest :=
  (message.segments.toList.foldl Sha256.Hasher.update Sha256.Hasher.start).finish

theorem hashSegments_eq (message : Gather) :
    hashSegments message = SignedBoot.sha256 message.bytes := by
  rw [hashSegments, Sha256.Hasher.foldl_update, SignedBoot.sha256, Gather.bytes]

def sha256 : DigestOps where
  prepare _ message _ := (.ok (), .ofLength message.length)
  digest _ message scratch digest :=
    if scratch.length? = some message.length then (.ok (), hashSegments message)
    else (.error .digestFailed, digest)
  finish _ _ _ := (.ok (), .empty)

end DigestOps

end SignedBoot
