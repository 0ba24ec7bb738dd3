import Mathlib
import SignedBoot.Proofs.Calls
import SignedBoot.Proofs.Verification.DigestOnly

/-!
# Digests that are copied out

One context serves many runs, and its digest is all that a run leaves to the next. Under a policy
that copies digests it is the one made last, whatever became of the run that made it
(`Policy.keepsLastDigest_afterRuns`). The boot verifier starts every image without a digest, so
what it says of an image is not what it knew of another.
-/

namespace SignedBoot

/-! ### One run -/

/-- The three digest operations all succeed over a message, and leave this digest. -/
def DigestOps.Makes (ops : DigestOps) (candidate : Candidate) (message : Gather)
    (digest : Digest) : Prop :=
  ∃ scratch scratch', ops.prepare candidate message .empty = (.ok (), scratch) ∧
    ops.digest candidate message scratch (.zero 32) = (.ok (), digest) ∧
    ops.finish candidate message scratch = (.ok (), scratch')

theorem DigestOps.run_eq_ok_iff {ops : DigestOps} {candidate : Candidate} {message : Gather}
    {digest : Digest} :
    (ops.run candidate message).1 = .ok digest ↔ ops.Makes candidate message digest := by
  constructor
  · intro h
    obtain ⟨steps, ending, hcourse⟩ := ops.exists_course candidate message
    rw [hcourse.run_eq] at h
    cases hcourse with
    | prepareFails => cases h
    | digestFails => cases h
    | finishFails => cases h
    | done hp hd hf =>
      cases h
      exact ⟨_, _, hp, hd, hf⟩
  · rintro ⟨scratch, scratch', hp, hd, hf⟩
    rw [(Course.done hp hd hf).run_eq]
    rfl

/-- The standard operations make the digest of the message and no other. -/
theorem DigestOps.makes_sha256_iff {candidate : Candidate} {message : Gather} {digest : Digest}
    (h : message.bytes.length < 2 ^ 64) :
    sha256.Makes candidate message digest ↔ digest = SignedBoot.sha256 message.bytes := by
  rw [← run_eq_ok_iff, run_sha256 h, Except.ok.injEq, eq_comm]

/-- The operations and schemes of a policy as they are at one run. Operations may have a state of
their own, so they need not be at the next run what they were at this. -/
structure Operations where
  digestOps : DigestOps
  signatureOps : Option SignatureOps
  schemes : SchemeTable

namespace Policy

def withOperations (p : Policy) (o : Operations) : Policy :=
  { p with digestOps := o.digestOps, signatureOps := o.signatureOps, schemes := o.schemes }

/-- The operations of a policy make this digest of what a run takes. -/
def MakesDigest (p : Policy) (c : VerifyContext) (digest : Digest) : Prop :=
  ∃ message, c.digestInput? p = some message ∧ p.digestOps.Makes c.candidate message digest

variable {p : Policy} {c : VerifyContext}

theorem digestStage_eq_ok_iff {digest : Digest} :
    (p.digestStage c).1 = .ok digest ↔ p.MakesDigest c digest := by
  unfold digestStage MakesDigest
  cases c.digestInput? p with
  | none => simp
  | some message =>
    simp only [Option.some.injEq, exists_eq_left']
    exact DigestOps.run_eq_ok_iff

theorem MakesDigest.context_verify {digest : Digest} (h : p.MakesDigest c digest) :
    (p.verify c).context = p.keepDigest c digest :=
  context_verify_of_digestStage (digestStage_eq_ok_iff.mpr h)

/-- A run that makes no digest, because it has no message or one of the operations fails, leaves
its context as it was. -/
theorem context_verify_of_makes_none (h : ∀ digest, ¬ p.MakesDigest c digest) :
    (p.verify c).context = c := by
  rw [verify]
  rcases hd : p.digestStage c with ⟨result, trace⟩
  cases result with
  | error f => rfl
  | ok digest => exact absurd (digestStage_eq_ok_iff.mp (congrArg Prod.fst hd)) (h digest)

/-- A run changes nothing of its context but the digest. -/
theorem exists_context_verify_eq (p : Policy) (c : VerifyContext) :
    ∃ digestOut, (p.verify c).context = { c with digestOut } := by
  by_cases h : ∃ digest, p.MakesDigest c digest
  · obtain ⟨digest, hdigest⟩ := h
    rw [hdigest.context_verify, keepDigest]
    split
    · exact ⟨some digest, rfl⟩
    · exact ⟨c.digestOut, rfl⟩
  · rw [not_exists] at h
    exact ⟨c.digestOut, context_verify_of_makes_none h⟩

end Policy

/-! ### Runs in a row -/

/-- What is set in a context for a run, and the operations as they are at that run. -/
structure RunStart where
  slot : UInt32
  image : Gather
  source : DigestSource
  observers : Observers
  operations : Operations

namespace RunStart

variable (s : RunStart) (p : Policy) (c : VerifyContext)

def policy : Policy := p.withOperations s.operations

/-- The context that a run is given, with the digest that the runs before it left. -/
def context : VerifyContext := ⟨s.slot, s.image, s.source, c.digestOut, s.observers⟩

/-- One run on a context: how it went, and the context after it. -/
def perform : VerifyRun × VerifyContext :=
  let run := (s.policy p).verify (s.context c)
  (run, run.context)

/-- The three digest operations all succeed in a run and leave this digest. -/
def Makes (digest : Digest) : Prop :=
  (s.policy p).MakesDigest ⟨s.slot, s.image, s.source, none, s.observers⟩ digest

/-- What earlier runs left has no part in the digest of a run. -/
theorem makesDigest_context_iff {digest : Digest} :
    (s.policy p).MakesDigest (s.context c) digest ↔ s.Makes p digest := Iff.rfl

end RunStart

namespace Policy

/-- What a context is after runs on it. -/
def afterRuns (p : Policy) (c : VerifyContext) (starts : List RunStart) : VerifyContext :=
  afterCalls (fun s c => s.perform p c) c starts

/-- The last run that made a digest made this one. -/
def LastMade (p : Policy) (starts : List RunStart) (digest : Digest) : Prop :=
  ∃ earlier s later, starts = earlier ++ s :: later ∧ s.Makes p digest ∧
    ∀ t ∈ later, ∀ d, ¬ t.Makes p d

def NoneMade (p : Policy) (starts : List RunStart) : Prop :=
  ∀ s ∈ starts, ∀ digest, ¬ s.Makes p digest

/-- The digest in a context after some runs: the one made last if the policy copies digests and one
was made, else the one from before. -/
structure KeepsLastDigest (p : Policy) (c : VerifyContext) (starts : List RunStart)
    (c' : VerifyContext) : Prop where
  lastMade : p.options.copyDigest = true → ∀ digest, p.LastMade starts digest →
    c'.digestOut = some digest
  noneMade : p.NoneMade starts → c'.digestOut = c.digestOut
  notCopied : p.options.copyDigest = false → c'.digestOut = c.digestOut

variable {p : Policy}

theorem lastMade_concat_iff {starts : List RunStart} {s : RunStart} {digest : Digest} :
    p.LastMade (starts ++ [s]) digest ↔
      s.Makes p digest ∨ p.LastMade starts digest ∧ ∀ d, ¬ s.Makes p d := by
  constructor
  · rintro ⟨earlier, t, later, hstarts, hmakes, hlater⟩
    rcases later.eq_nil_or_concat' with rfl | ⟨later, u, rfl⟩
    · obtain ⟨-, hs⟩ := List.append_inj' hstarts rfl
      cases hs
      exact .inl hmakes
    · rw [← List.cons_append, ← List.append_assoc] at hstarts
      obtain ⟨hbefore, hs⟩ := List.append_inj' hstarts rfl
      cases hs
      rw [List.forall_mem_append, List.forall_mem_singleton] at hlater
      exact .inr ⟨⟨earlier, t, later, hbefore, hmakes, hlater.1⟩, hlater.2⟩
  · rintro (hmakes | ⟨⟨earlier, t, later, rfl, hmakes, hlater⟩, hs⟩)
    · exact ⟨starts, s, [], rfl, hmakes, List.forall_mem_nil _⟩
    · refine ⟨earlier, t, later ++ [s], by rw [List.append_assoc, List.cons_append], hmakes, ?_⟩
      rw [List.forall_mem_append, List.forall_mem_singleton]
      exact ⟨hlater, hs⟩

theorem noneMade_concat_iff {starts : List RunStart} {s : RunStart} :
    p.NoneMade (starts ++ [s]) ↔ p.NoneMade starts ∧ ∀ d, ¬ s.Makes p d := by
  rw [NoneMade, List.forall_mem_append, List.forall_mem_singleton]
  rfl

/-- One more run keeps to the rule. -/
theorem KeepsLastDigest.perform {c c' : VerifyContext} {starts : List RunStart}
    (h : p.KeepsLastDigest c starts c') (s : RunStart) :
    p.KeepsLastDigest c (starts ++ [s]) (s.perform p c').2 := by
  by_cases hmakes : ∃ digest, s.Makes p digest
  · obtain ⟨digest, hdigest⟩ := hmakes
    have hcontext : (s.perform p c').2 = (s.policy p).keepDigest (s.context c') digest :=
      ((s.makesDigest_context_iff p c').mpr hdigest).context_verify
    have hcopy : (s.policy p).options.copyDigest = p.options.copyDigest := rfl
    rw [hcontext, keepDigest, hcopy]
    refine ⟨fun hflag other hlast => ?_, fun hnone => ?_, fun hflag => ?_⟩
    · rw [if_pos hflag]
      rcases lastMade_concat_iff.mp hlast with hother | ⟨-, hnone⟩
      · have hfirst := digestStage_eq_ok_iff.mpr hdigest
        rw [digestStage_eq_ok_iff.mpr hother] at hfirst
        exact congrArg some (Except.ok.inj hfirst).symm
      · exact absurd hdigest (hnone digest)
    · exact absurd hdigest ((noneMade_concat_iff.mp hnone).2 digest)
    · rw [hflag]
      exact h.notCopied hflag
  · rw [not_exists] at hmakes
    have hcontext : (s.perform p c').2 = s.context c' :=
      context_verify_of_makes_none fun d => mt (s.makesDigest_context_iff p c').mp (hmakes d)
    rw [hcontext]
    refine ⟨fun hflag digest hlast => ?_, fun hnone => ?_, h.notCopied⟩
    · rcases lastMade_concat_iff.mp hlast with hdigest | ⟨hlast, -⟩
      · exact absurd hdigest (hmakes digest)
      · exact h.lastMade hflag digest hlast
    · exact h.noneMade (noneMade_concat_iff.mp hnone).1

theorem keepsLastDigest_afterRuns (p : Policy) (c : VerifyContext) (starts : List RunStart) :
    p.KeepsLastDigest c starts (p.afterRuns c starts) := by
  refine afterCalls_induction ?_ (fun starts s c' h => h.perform s) starts
  refine ⟨fun _ digest hlast => ?_, fun _ => rfl, fun _ => rfl⟩
  obtain ⟨earlier, s, later, hstarts, -⟩ := hlast
  exact absurd hstarts.symm (List.append_ne_nil_of_right_ne_nil _ (List.cons_ne_nil _ _))

end Policy

/-! ### Images in a row -/

/-- An image for a boot verifier, and the operations as they are when it is verified. -/
structure ImageCall where
  bytes : Bytes
  carrier : Carrier
  observers : Observers
  operations : Operations

namespace BootVerifier

def withOperations (v : BootVerifier) (o : Operations) : BootVerifier :=
  { v with policy := v.policy.withOperations o }

/-- One image on a boot verifier: what is said of it, and the verifier after it. -/
def perform (call : ImageCall) (v : BootVerifier) :
    (Except Fault VerifiedImage × Trace) × BootVerifier :=
  ((v.withOperations call.operations).verify call.bytes call.carrier call.observers, v)

/-- What is said of an image that passed has the digest that was made of the signed message of this
image if the policy copies digests, and none if not. -/
def OwnDigest (v : BootVerifier) (call : ImageCall) (answer : Except Fault VerifiedImage × Trace) :
    Prop :=
  ∀ r, answer.1 = .ok r → ∃ i index message digest,
    BootImage.parse call.bytes call.carrier = .ok i ∧ i.signedIndex = .ok index ∧
    i.signedMessage index = .ok message ∧
    call.operations.digestOps.Makes ⟨v.slot, message⟩ message digest ∧
    (call.operations.digestOps = .sha256 → digest = sha256 i.message) ∧
    r.digest = if v.policy.options.copyDigest then some digest else none

theorem ownDigest_perform (v : BootVerifier) (call : ImageCall) :
    v.OwnDigest call (perform call v).1 := by
  intro r hr
  obtain ⟨x, hx, hpasses⟩ := verify_eq_ok_iff.mp ⟨r, hr⟩
  obtain ⟨hparse, hindex, ⟨k, s, -, -, hpolicy⟩, hm⟩ := prepare_eq_ok_iff.mp hx
  obtain ⟨hops, hoptions⟩ := imagePolicy_keeps hpolicy
  obtain ⟨digest, hdigest, -⟩ := Policy.outcome_verify_eq_ok_iff.mp hpasses
  obtain ⟨message, hmessage, hmakes⟩ := Policy.digestStage_eq_ok_iff.mp hdigest
  obtain rfl : x.message = message := Option.some.inj hmessage
  rw [hops] at hmakes
  replace hmakes : call.operations.digestOps.Makes ⟨v.slot, x.message⟩ x.message digest := hmakes
  refine ⟨x.image, x.index, x.message, digest, hparse, hindex, hm, hmakes, fun hsha => ?_, ?_⟩
  · have hi := (BootImage.wellFormed_of_parse hparse).1
    have hbytes := BootImage.bytes_of_signedMessage hi hindex hm
    rw [hsha, DigestOps.makes_sha256_iff (BootImage.length_bytes_lt hi hbytes), hbytes] at hmakes
    exact hmakes
  · have hcontext := Policy.context_verify_of_digestStage hdigest
    simp only [perform, verify, hx, hpasses, hcontext, Except.map, Except.ok.injEq] at hr
    rw [← hr, Policy.keepDigest, hoptions]
    change (if v.policy.options.copyDigest then _ else _ : VerifyContext).digestOut = _
    split <;> rfl

/-- Each image of a row gets a digest of its own, wherever in the row it stands. -/
theorem ownDigest_answers (v : BootVerifier) (calls : List ImageCall) :
    List.Forall₂ (fun call answer => v.OwnDigest call answer.1) calls
      (answers perform v calls) := by
  induction calls with
  | nil => exact .nil
  | cons call calls ih => exact .cons (v.ownDigest_perform call) ih

theorem exists_perform_eq_ok {p : Policy} (hp : p.DigestOnly) {call : ImageCall}
    (hcall : p.withOperations call.operations = p) (slot : UInt32) {i : BootImage}
    (hi : AcceptsDigest p call.bytes call.carrier i) :
    ∃ r, (perform call ⟨p, slot⟩).1.1 = .ok r := by
  rw [perform, withOperations, hcall]
  exact (verify_digestOnly_eq_ok_iff (v := ⟨p, slot⟩) hp).mpr ⟨i, hi⟩

end BootVerifier

/-- Of runs on one context under one policy, whatever is verified and with whatever operations, the
digest in the context is that of the last run that made one if the policy copies digests, and stays
what it was if not. A run changes nothing else. What the boot verifier says of images in a row has
their own digests. -/
theorem Policy.runs_keep_last_digest (p : Policy) :
    (∀ c starts, p.KeepsLastDigest c starts (p.afterRuns c starts)) ∧
      (∀ (o : Operations) c, ∃ digestOut,
        ((p.withOperations o).verify c).context = { c with digestOut }) ∧
      ∀ slot calls, List.Forall₂ (fun call answer => BootVerifier.OwnDigest ⟨p, slot⟩ call answer.1)
        calls (answers BootVerifier.perform ⟨p, slot⟩ calls) :=
  ⟨p.keepsLastDigest_afterRuns, fun o => (p.withOperations o).exists_context_verify_eq,
    fun slot => BootVerifier.ownDigest_answers ⟨p, slot⟩⟩

/-- A policy that copies digests and, for want of a key, accepts nothing. -/
def keyless : Policy :=
  { Policy.ofDigestOps .sha256 with
    options := .decode (PolicyFlag.signatureStage ||| PolicyFlag.copyDigest) }

/-- A run over three octets. -/
def shortRun (ops : DigestOps) : RunStart :=
  ⟨0, .single [1, 2, 3], .candidate, .quiet, ⟨ops, none, .empty⟩⟩

/-- Operations that refuse to start. -/
def refusingOps : DigestOps := { DigestOps.sha256 with
  prepare := fun _ _ scratch => (.error .prepareFailed, scratch) }

/-- The policy that expects the opening octets of the digest of an image, and copies the digest. -/
def copyingDigest : Policy :=
  { BootVerifier.shortDigest with options := .decode PolicyFlag.copyDigest }

def keyThenSignatureCall : ImageCall :=
  ⟨(BootImage.ofTags BootImage.keyThenSignature).encode, .unbounded, .quiet,
    ⟨.sha256, none, .empty⟩⟩

/-- A digest stays when its run fails after it was made, and when the run after that makes none. An
image that passes gets its digest. -/
theorem runs_keep_last_digest_keyless :
    ((shortRun .sha256).perform keyless (.ofImage 0 .empty .quiet)).1.outcome =
        .error .keyMissing ∧
      (keyless.afterRuns (.ofImage 0 .empty .quiet)
        [shortRun .sha256, shortRun refusingOps]).digestOut = some (sha256 [1, 2, 3]) ∧
      ∃ r, (BootVerifier.perform keyThenSignatureCall ⟨copyingDigest, 0⟩).1.1 = .ok r ∧
        r.digest = some (sha256 (BootImage.ofTags BootImage.keyThenSignature).message) := by
  have hmakes : (shortRun .sha256).Makes keyless (sha256 [1, 2, 3]) :=
    ⟨_, rfl, (DigestOps.makes_sha256_iff (by decide)).mpr rfl⟩
  have hrefused : ∀ d, ¬ (shortRun refusingOps).Makes keyless d := by
    rintro d ⟨message, -, scratch, scratch', hprepare, -⟩
    cases hprepare
  have hexpects : copyingDigest.ExpectsDigest
      (sha256 (BootImage.ofTags BootImage.keyThenSignature).message) := by
    refine ⟨by decide, by decide, ?_, rfl⟩
    rw [copyingDigest, BootVerifier.shortDigest, List.length_take, Block.length_bytes]
    rfl
  have hdigestOnly : copyingDigest.DigestOnly := ⟨rfl, rfl⟩
  have haccepts : BootVerifier.AcceptsDigest copyingDigest keyThenSignatureCall.bytes
      keyThenSignatureCall.carrier (BootImage.ofTags BootImage.keyThenSignature) :=
    ⟨BootImage.parse_keyThenSignature, by decide, ⟨_, rfl⟩, ⟨_, rfl⟩, hexpects⟩
  obtain ⟨r, hr⟩ := BootVerifier.exists_perform_eq_ok hdigestOnly rfl 0 haccepts
  refine ⟨rfl, (keyless.runs_keep_last_digest.1 _ _).lastMade rfl _ ?_, r, hr, ?_⟩
  · exact ⟨[], _, [shortRun refusingOps], rfl, hmakes, List.forall_mem_singleton.mpr hrefused⟩
  · have hanswers := copyingDigest.runs_keep_last_digest.2.2 0 [keyThenSignatureCall]
    obtain ⟨i, index, message, digest, hparse, -, -, -, hdigest, hcopied⟩ :=
      (List.forall₂_cons.mp hanswers).1 r hr
    obtain rfl : BootImage.ofTags BootImage.keyThenSignature = i :=
      Except.ok.inj (BootImage.parse_keyThenSignature.symm.trans hparse)
    rw [hcopied, hdigest rfl]
    rfl

end SignedBoot
