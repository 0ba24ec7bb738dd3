import SignedBoot.Container.Key
import SignedBoot.Container.SignedMessage

/-!
# Traces of a verification

A verification runs a digest stage and, when the policy asks for it, a signature stage. What an
observer or an operation set can see of it is a trace: notices that a stage starts or ends, words
reported after each stage, and the operations called with their arguments.
-/

namespace SignedBoot

/-- The stages that observers can tell apart. -/
inductive Stage
  | digest
  | signature
  | verdict
deriving DecidableEq, Repr

def Stage.id : Stage → UInt32
  | .digest => 7
  | .signature => 8
  | .verdict => 0

inductive StageEvent
  | enter
  | exit
deriving DecidableEq, Repr

def StageEvent.word : StageEvent → UInt32
  | .enter => 1
  | .exit => 0

/-- What every operation is told about the verification it serves. -/
structure Candidate where
  slot : UInt32
  image : Gather

/-- The operations of the digest stage, in the order of their calls. -/
inductive DigestStep
  | prepare
  | digest
  | finish
deriving DecidableEq, Repr

namespace DigestStep

def name : DigestStep → String
  | .prepare => "prepare"
  | .digest => "digest"
  | .finish => "finish"

def fault : DigestStep → Fault
  | .prepare => .prepareFailed
  | .digest => .digestFailed
  | .finish => .finishFailed

end DigestStep

/-- The operations of the signature stage, in the order of their calls. -/
inductive SignatureStep
  | init
  | update
  | finalize
deriving DecidableEq, Repr

namespace SignatureStep

def name : SignatureStep → String
  | .init => "init"
  | .update => "update"
  | .finalize => "finalize"

def fault : SignatureStep → Fault
  | .init => .initFailed
  | .update => .updateFailed
  | .finalize => .finalizeFailed

end SignatureStep

def verifyRequest : UInt32 := 1

structure SignatureInput where
  expected : Bytes
  image : Gather
  request : UInt32
  key : KeyDescriptor

inductive TraceItem
  | notice (stage : Stage) (event : StageEvent)
  /-- A result word and a length; the reserved word is zero. -/
  | report (stage : Stage) (reserved result length : UInt32)
  | digestCall (step : DigestStep) (candidate : Candidate) (message : Gather)
  | signatureCall (step : SignatureStep) (candidate : Candidate) (input : SignatureInput)
  /-- The cleanup of the signature stage, with what the work area held before and holds after. -/
  | cleanupCall (candidate : Candidate) (input : SignatureInput) (before after : Bytes)

abbrev Trace := List TraceItem

structure Observers where
  notices : Bool
  reports : Bool
deriving DecidableEq

namespace Observers

def quiet : Observers := ⟨false, false⟩

def all : Observers := ⟨true, true⟩

def notice (o : Observers) (stage : Stage) (event : StageEvent) : Trace :=
  if o.notices then [.notice stage event] else []

def report (o : Observers) (stage : Stage) (result length : UInt32) : Trace :=
  if o.reports then [.report stage 0 result length] else []

end Observers

end SignedBoot
