import Mathlib
import SignedBoot.Verification.Run

/-!
# The course of a run

The rules by which a run goes from stage to stage, with everything it does on the way in order.
Every run follows these rules whatever the operations are and at whatever step they fail
(`Policy.run_follows_course`). Observers have no part in the rules: they choose which of the items
are seen.
-/

namespace SignedBoot

/-! ### The digest operations -/

namespace DigestOps

/-- The steps taken over a message, up to the first that fails, and the step or the digest that
they end in. -/
inductive Course (ops : DigestOps) (candidate : Candidate) (message : Gather) :
    List DigestStep → Except DigestStep Digest → Prop
  | prepareFails {f : Fault} {scratch : Scratch}
      (hp : ops.prepare candidate message .empty = (.error f, scratch)) :
      Course ops candidate message [.prepare] (.error .prepare)
  | digestFails {f : Fault} {scratch : Scratch} {digest : Digest}
      (hp : ops.prepare candidate message .empty = (.ok (), scratch))
      (hd : ops.digest candidate message scratch (.zero 32) = (.error f, digest)) :
      Course ops candidate message [.prepare, .digest] (.error .digest)
  | finishFails {f : Fault} {scratch scratch' : Scratch} {digest : Digest}
      (hp : ops.prepare candidate message .empty = (.ok (), scratch))
      (hd : ops.digest candidate message scratch (.zero 32) = (.ok (), digest))
      (hf : ops.finish candidate message scratch = (.error f, scratch')) :
      Course ops candidate message [.prepare, .digest, .finish] (.error .finish)
  | done {scratch scratch' : Scratch} {digest : Digest}
      (hp : ops.prepare candidate message .empty = (.ok (), scratch))
      (hd : ops.digest candidate message scratch (.zero 32) = (.ok (), digest))
      (hf : ops.finish candidate message scratch = (.ok (), scratch')) :
      Course ops candidate message [.prepare, .digest, .finish] (.ok digest)

variable {ops : DigestOps} {candidate : Candidate} {message : Gather}

theorem Course.run_eq {steps : List DigestStep} {ending : Except DigestStep Digest}
    (h : ops.Course candidate message steps ending) :
    ops.run candidate message =
      (ending.mapError DigestStep.fault, steps.map (.digestCall · candidate message)) := by
  cases h with
  | prepareFails hp => simp only [run, hp]; rfl
  | digestFails hp hd => simp only [run, hp, hd]; rfl
  | finishFails hp hd hf => simp only [run, hp, hd, hf]; rfl
  | done hp hd hf => simp only [run, hp, hd, hf]; rfl

theorem exists_course (ops : DigestOps) (candidate : Candidate) (message : Gather) :
    ∃ steps ending, ops.Course candidate message steps ending := by
  rcases hp : ops.prepare candidate message .empty with ⟨f | _, scratch⟩
  · exact ⟨_, _, .prepareFails hp⟩
  rcases hd : ops.digest candidate message scratch (.zero 32) with ⟨f | _, digest⟩
  · exact ⟨_, _, .digestFails hp hd⟩
  rcases hf : ops.finish candidate message scratch with ⟨f | _, scratch'⟩
  · exact ⟨_, _, .finishFails hp hd hf⟩
  · exact ⟨_, _, .done hp hd hf⟩

end DigestOps

/-! ### The signature operations -/

namespace SignatureOps

/-- The one cleanup of a work area. -/
def cleanupItem (ops : SignatureOps) (candidate : Candidate) (input : SignatureInput)
    (work : WorkArea) : TraceItem :=
  .cleanupCall candidate input work (ops.cleanup candidate input work)

/-- The steps taken on an input, up to the first that fails, the cleanups after them, of which
there is one if a step failed and none if not, what is published, and the step that failed. -/
inductive Course (ops : SignatureOps) (candidate : Candidate) (input : SignatureInput) :
    List SignatureStep → Trace → EncodedMessage → Except SignatureStep Unit → Prop
  | initFails {f : Fault} {work : WorkArea}
      (hi : ops.init candidate input [] = (.error f, work)) :
      Course ops candidate input [.init] [ops.cleanupItem candidate input work] .empty
        (.error .init)
  | updateFails {f : Fault} {work work' : WorkArea}
      (hi : ops.init candidate input [] = (.ok (), work))
      (hu : ops.update candidate input work = (.error f, work')) :
      Course ops candidate input [.init, .update] [ops.cleanupItem candidate input work'] .empty
        (.error .update)
  | finalizeFails {f : Fault} {work work' work'' : WorkArea} {message : EncodedMessage}
      (hi : ops.init candidate input [] = (.ok (), work))
      (hu : ops.update candidate input work = (.ok (), work'))
      (hf : ops.finalize candidate input work' .empty = (.error f, work'', message)) :
      Course ops candidate input [.init, .update, .finalize]
        [ops.cleanupItem candidate input work''] message (.error .finalize)
  | done {work work' work'' : WorkArea} {message : EncodedMessage}
      (hi : ops.init candidate input [] = (.ok (), work))
      (hu : ops.update candidate input work = (.ok (), work'))
      (hf : ops.finalize candidate input work' .empty = (.ok (), work'', message)) :
      Course ops candidate input [.init, .update, .finalize] [] message (.ok ())

variable {ops : SignatureOps} {candidate : Candidate} {input : SignatureInput}

theorem Course.run_eq {steps : List SignatureStep} {cleanups : Trace} {message : EncodedMessage}
    {ending : Except SignatureStep Unit}
    (h : ops.Course candidate input steps cleanups message ending) :
    ops.run candidate input = ⟨ending.mapError SignatureStep.fault, message,
      steps.map (.signatureCall · candidate input) ++ cleanups⟩ := by
  cases h with
  | initFails hi => simp only [run, hi]; rfl
  | updateFails hi hu => simp only [run, hi, hu]; rfl
  | finalizeFails hi hu hf => simp only [run, hi, hu, hf]; rfl
  | done hi hu hf => simp only [run, hi, hu, hf]; rfl

theorem exists_course (ops : SignatureOps) (candidate : Candidate) (input : SignatureInput) :
    ∃ steps cleanups message ending, ops.Course candidate input steps cleanups message ending := by
  rcases hi : ops.init candidate input [] with ⟨f | _, work⟩
  · exact ⟨_, _, _, _, .initFails hi⟩
  rcases hu : ops.update candidate input work with ⟨f | _, work'⟩
  · exact ⟨_, _, _, _, .updateFails hi hu⟩
  rcases hf : ops.finalize candidate input work' .empty with ⟨f | _, work'', message⟩
  · exact ⟨_, _, _, _, .finalizeFails hi hu hf⟩
  · exact ⟨_, _, _, _, .done hi hu hf⟩

end SignatureOps

/-! ### Observers -/

/-- Whether observers let an item be seen. What is called is seen by the operations themselves. -/
def Observers.sees (o : Observers) : TraceItem → Bool
  | .notice _ _ => o.notices
  | .report _ _ _ _ => o.reports
  | _ => true

/-- What is left of a trace when only some observers are there. -/
def Trace.seenBy (t : Trace) (o : Observers) : Trace := t.filter o.sees

theorem Trace.seenBy_append (t u : Trace) (o : Observers) :
    (t ++ u).seenBy o = t.seenBy o ++ u.seenBy o := by
  rw [seenBy, seenBy, seenBy, List.filter_append]

theorem Observers.notice_eq_seenBy (o : Observers) (stage : Stage) (event : StageEvent) :
    o.notice stage event = Trace.seenBy [.notice stage event] o := by
  cases h : o.notices <;> simp [notice, Trace.seenBy, sees, h]

theorem Observers.report_eq_seenBy (o : Observers) (stage : Stage) (result length : UInt32) :
    o.report stage result length = Trace.seenBy [.report stage 0 result length] o := by
  cases h : o.reports <;> simp [report, Trace.seenBy, sees, h]

/-- The notices around the calls of a stage, and the report after it. -/
def Stage.around (stage : Stage) (calls : Trace) (result length : UInt32) : Trace :=
  [.notice stage .enter] ++ calls ++ [.notice stage .exit] ++ [.report stage 0 result length]

theorem Stage.seenBy_around {calls : Trace} {o : Observers} (h : calls.seenBy o = calls)
    (stage : Stage) (result length : UInt32) :
    (stage.around calls result length).seenBy o =
      o.notice stage .enter ++ calls ++ o.notice stage .exit ++ o.report stage result length := by
  rw [around, Trace.seenBy_append, Trace.seenBy_append, Trace.seenBy_append, h,
    o.notice_eq_seenBy, o.notice_eq_seenBy, o.report_eq_seenBy]

def VerifyContext.observedBy (c : VerifyContext) (o : Observers) : VerifyContext :=
  { c with observers := o }

/-! ### Whole runs -/

namespace Policy

/-- What the digest stage of a policy does over a message, and its ending. -/
inductive DigestCourse (p : Policy) (c : VerifyContext) : Trace → Except DigestStep Digest → Prop
  | intro {message : Gather} {steps : List DigestStep} {ending : Except DigestStep Digest}
      (hm : c.digestInput? p = some message)
      (hd : p.digestOps.Course c.candidate message steps ending) :
      DigestCourse p c
        (Stage.digest.around (steps.map (.digestCall · c.candidate message))
          (resultWord (ending.mapError DigestStep.fault)) 32)
        ending

/-- What the signature stage of a policy does under a key, what it publishes, and its ending. -/
inductive SignatureCourse (p : Policy) (c : VerifyContext) (key : KeyDescriptor)
    (ops : SignatureOps) : Trace → EncodedMessage → Except SignatureStep Unit → Prop
  | intro {steps : List SignatureStep} {cleanups : Trace} {message : EncodedMessage}
      {ending : Except SignatureStep Unit}
      (h : ops.Course c.candidate ⟨p.expected, c.image, verifyRequest, key⟩ steps cleanups
        message ending) :
      SignatureCourse p c key ops
        (Stage.signature.around
          (steps.map
            (.signatureCall · c.candidate ⟨p.expected, c.image, verifyRequest, key⟩) ++ cleanups)
          (resultWord (ending.mapError SignatureStep.fault)) (UInt32.ofNat message.bytes.length))
        message ending

/-- The outcome of a run and all that it does before the verdict is reported. -/
inductive Course (p : Policy) (c : VerifyContext) : Except Fault Unit → Trace → Prop
  | inputMissing (hm : c.digestInput? p = none) : Course p c (.error .hashInputMissing) []
  | digestFails {items : Trace} {step : DigestStep} (hd : p.DigestCourse c items (.error step)) :
      Course p c (.error step.fault) items
  | unsigned {items : Trace} {digest : Digest} (hd : p.DigestCourse c items (.ok digest))
      (hs : p.options.signatureStage = false) : Course p c (p.checkDigest digest) items
  | keyMissing {items : Trace} {digest : Digest} (hd : p.DigestCourse c items (.ok digest))
      (hs : p.options.signatureStage = true) (hk : p.key = none) :
      Course p c (.error .keyMissing) items
  | opsMissing {items : Trace} {digest : Digest} {key : KeyDescriptor}
      (hd : p.DigestCourse c items (.ok digest)) (hs : p.options.signatureStage = true)
      (hk : p.key = some key) (ho : p.signatureOps = none) :
      Course p c (.error .signatureOpsMissing) items
  | signatureFails {items rest : Trace} {digest : Digest} {key : KeyDescriptor}
      {ops : SignatureOps} {message : EncodedMessage} {step : SignatureStep}
      (hd : p.DigestCourse c items (.ok digest)) (hs : p.options.signatureStage = true)
      (hk : p.key = some key) (ho : p.signatureOps = some ops)
      (hr : p.SignatureCourse c key ops rest message (.error step)) :
      Course p c (.error step.fault) (items ++ rest)
  | signed {items rest : Trace} {digest : Digest} {key : KeyDescriptor} {ops : SignatureOps}
      {message : EncodedMessage} (hd : p.DigestCourse c items (.ok digest))
      (hs : p.options.signatureStage = true) (hk : p.key = some key)
      (ho : p.signatureOps = some ops) (hr : p.SignatureCourse c key ops rest message (.ok ())) :
      Course p c (p.checkMessage key message.bytes digest) (items ++ rest)

variable {p : Policy} {c : VerifyContext}

theorem DigestCourse.digestStage_eq {items : Trace} {ending : Except DigestStep Digest}
    (h : p.DigestCourse c items ending) (o : Observers) :
    p.digestStage (c.observedBy o) =
      (ending.mapError DigestStep.fault, items.seenBy o) := by
  obtain @⟨message, steps, ending, hm, hd⟩ := h
  have hinput : (c.observedBy o).digestInput? p = some message := hm
  have hrun : p.digestOps.run (c.observedBy o).candidate message = _ := hd.run_eq
  have hseen : Trace.seenBy (steps.map (.digestCall · c.candidate message)) o =
      steps.map (.digestCall · c.candidate message) := by
    simp [Trace.seenBy, Observers.sees]
  simp only [digestStage, hinput, hrun]
  rw [Stage.seenBy_around hseen]
  rfl

theorem SignatureCourse.signatureStage_eq {key : KeyDescriptor} {ops : SignatureOps}
    {items : Trace} {message : EncodedMessage} {ending : Except SignatureStep Unit}
    (hk : p.key = some key) (ho : p.signatureOps = some ops)
    (h : p.SignatureCourse c key ops items message ending) (digest : Digest) (o : Observers) :
    p.signatureStage (c.observedBy o) digest =
      ((ending.mapError SignatureStep.fault).bind fun () => p.checkMessage key message.bytes digest,
        items.seenBy o) := by
  obtain @⟨steps, cleanups, message, ending, hr⟩ := h
  have hrun : ops.run (c.observedBy o).candidate
      ⟨p.expected, (c.observedBy o).image, verifyRequest, key⟩ = _ := hr.run_eq
  have hcleanups : cleanups.seenBy o = cleanups := by
    cases hr <;> rfl
  have hseen : Trace.seenBy (steps.map (.signatureCall · c.candidate
      ⟨p.expected, c.image, verifyRequest, key⟩) ++ cleanups) o =
        steps.map (.signatureCall · c.candidate ⟨p.expected, c.image, verifyRequest, key⟩) ++
          cleanups := by
    rw [Trace.seenBy_append, hcleanups]
    simp [Trace.seenBy, Observers.sees]
  simp only [signatureStage, hk, ho, hrun]
  rw [Stage.seenBy_around hseen]
  rfl

theorem exists_digestCourse {message : Gather} (hm : c.digestInput? p = some message) :
    ∃ items ending, p.DigestCourse c items ending := by
  obtain ⟨steps, ending, hd⟩ := p.digestOps.exists_course c.candidate message
  exact ⟨_, ending, .intro hm hd⟩

theorem exists_course (p : Policy) (c : VerifyContext) :
    ∃ outcome items, p.Course c outcome items := by
  cases hm : c.digestInput? p with
  | none => exact ⟨_, _, .inputMissing hm⟩
  | some message =>
    obtain ⟨items, ending, hd⟩ := exists_digestCourse hm
    cases ending with
    | error step => exact ⟨_, _, .digestFails hd⟩
    | ok digest =>
      cases hs : p.options.signatureStage with
      | false => exact ⟨_, _, .unsigned hd hs⟩
      | true =>
        cases hk : p.key with
        | none => exact ⟨_, _, .keyMissing hd hs hk⟩
        | some key =>
          cases ho : p.signatureOps with
          | none => exact ⟨_, _, .opsMissing hd hs hk ho⟩
          | some ops =>
            obtain ⟨steps, cleanups, message, ending, hr⟩ :=
              ops.exists_course c.candidate ⟨p.expected, c.image, verifyRequest, key⟩
            cases ending with
            | error step => exact ⟨_, _, .signatureFails hd hs hk ho (.intro hr)⟩
            | ok u => exact ⟨_, _, .signed hd hs hk ho (.intro hr)⟩

/-- The digest stage makes the digest that the judge is given. -/
theorem verify_of_digestCourse {items : Trace} {digest : Digest}
    (h : p.DigestCourse c items (.ok digest)) (o : Observers) :
    (p.verify (c.observedBy o)).outcome = (p.judge (c.observedBy o) digest).1 ∧
      (p.verify (c.observedBy o)).trace =
        items.seenBy o ++ (p.judge (c.observedBy o) digest).2 ++
          o.report .verdict (resultWord (p.judge (c.observedBy o) digest).1) p.tokenLength := by
  have hobservers : (p.keepDigest (c.observedBy o) digest).observers = o := by
    rw [keepDigest]
    split <;> rfl
  simp only [verify, h.digestStage_eq o, Except.mapError, conclude, hobservers]
  exact ⟨trivial, trivial⟩

/-- A run does what its rules say, as far as its observers let it be seen, and reports its verdict
in the end. -/
theorem Course.verify_eq {outcome : Except Fault Unit} {items : Trace}
    (h : p.Course c outcome items) (o : Observers) :
    (p.verify (c.observedBy o)).outcome = outcome ∧
      (p.verify (c.observedBy o)).trace =
        (items ++ [TraceItem.report .verdict 0 (resultWord outcome) p.tokenLength]).seenBy o := by
  rw [Trace.seenBy_append, ← o.report_eq_seenBy]
  cases h with
  | inputMissing hm =>
    have hinput : (c.observedBy o).digestInput? p = none := hm
    simp only [verify, digestStage, hinput]
    exact ⟨rfl, rfl⟩
  | digestFails hd =>
    rw [verify, hd.digestStage_eq o]
    exact ⟨rfl, rfl⟩
  | unsigned hd hs =>
    simpa [judge, hs] using verify_of_digestCourse hd o
  | keyMissing hd hs hk =>
    simpa [judge, hs, signatureStage, hk] using verify_of_digestCourse hd o
  | opsMissing hd hs hk ho =>
    simpa [judge, hs, signatureStage, hk, ho] using verify_of_digestCourse hd o
  | signatureFails hd hs hk ho hr =>
    have hstage := hr.signatureStage_eq hk ho
    simpa [judge, hs, hstage, Trace.seenBy_append, Except.mapError, Except.bind] using
      verify_of_digestCourse hd o
  | signed hd hs hk ho hr =>
    have hstage := hr.signatureStage_eq hk ho
    simpa [judge, hs, hstage, Trace.seenBy_append, Except.mapError, Except.bind] using
      verify_of_digestCourse hd o

end Policy

end SignedBoot
