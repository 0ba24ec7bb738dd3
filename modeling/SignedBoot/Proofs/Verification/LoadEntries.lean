import Mathlib
import SignedBoot.Proofs.Container.Coverage
import SignedBoot.Proofs.Container.ImageOctets
import SignedBoot.Proofs.Generation.Layout
import SignedBoot.Proofs.Verification.Acceptance

/-!
# What a passed image loads

The digest stage of a successful run is fed one message and nothing else
(`Policy.digestCalls_verify`). The load entries of an image that passed name octets that stand at
the same offsets in that message.
-/

namespace SignedBoot

/-! ### What is fed to the digest stage -/

/-- A call of the digest stage: the operation and the message it is given. -/
def TraceItem.digestCall? : TraceItem → Option (DigestStep × Gather)
  | .digestCall step _ message => some (step, message)
  | _ => none

def Trace.digestCalls (t : Trace) : List (DigestStep × Gather) :=
  t.filterMap TraceItem.digestCall?

@[simp]
theorem Trace.digestCalls_append (t u : Trace) :
    digestCalls (t ++ u) = digestCalls t ++ digestCalls u := List.filterMap_append

@[simp]
theorem Observers.digestCalls_notice (o : Observers) (stage : Stage) (event : StageEvent) :
    Trace.digestCalls (o.notice stage event) = [] := by
  rw [notice]
  split <;> rfl

@[simp]
theorem Observers.digestCalls_report (o : Observers) (stage : Stage) (result length : UInt32) :
    Trace.digestCalls (o.report stage result length) = [] := by
  rw [report]
  split <;> rfl

theorem DigestOps.digestCalls_run {ops : DigestOps} {candidate : Candidate} {message : Gather}
    {digest : Digest} (h : (ops.run candidate message).1 = .ok digest) :
    Trace.digestCalls (ops.run candidate message).2 =
      [(.prepare, message), (.digest, message), (.finish, message)] := by
  unfold run at h ⊢
  split at h
  · cases h
  · dsimp only at h ⊢
    split at h
    · cases h
    · split at h
      · cases h
      · rfl

theorem SignatureOps.digestCalls_run (ops : SignatureOps) (candidate : Candidate)
    (input : SignatureInput) : Trace.digestCalls (ops.run candidate input).trace = [] := by
  unfold run
  split
  · rfl
  · dsimp only
    split
    · rfl
    · split <;> rfl

namespace Policy

theorem digestCalls_signatureStage (p : Policy) (c : VerifyContext) (digest : Digest) :
    Trace.digestCalls (p.signatureStage c digest).2 = [] := by
  unfold signatureStage
  split
  · rfl
  · rfl
  · simp [SignatureOps.digestCalls_run]

theorem digestCalls_judge (p : Policy) (c : VerifyContext) (digest : Digest) :
    Trace.digestCalls (p.judge c digest).2 = [] := by
  rw [judge]
  split
  · exact digestCalls_signatureStage p c digest
  · rfl

theorem digestCalls_digestStage {p : Policy} {c : VerifyContext} {message : Gather}
    (hm : c.digestInput? p = some message) {digest : Digest}
    (h : (p.digestStage c).1 = .ok digest) :
    Trace.digestCalls (p.digestStage c).2 =
      [(.prepare, message), (.digest, message), (.finish, message)] := by
  simp only [digestStage, hm] at h ⊢
  simp [DigestOps.digestCalls_run h]

/-- A run that succeeds feeds its message to each digest operation once and no other message to
any of them. -/
theorem digestCalls_verify {p : Policy} {c : VerifyContext} {message : Gather}
    (hm : c.digestInput? p = some message) (h : (p.verify c).outcome = .ok ()) :
    Trace.digestCalls (p.verify c).trace =
      [(.prepare, message), (.digest, message), (.finish, message)] := by
  obtain ⟨digest, hdigest, -⟩ := outcome_verify_eq_ok_iff.mp h
  have hcalls := digestCalls_digestStage hm hdigest
  rw [verify]
  rcases hstage : p.digestStage c with ⟨result, trace⟩
  rw [hstage] at hdigest hcalls
  dsimp only at hdigest hcalls
  rw [hdigest]
  simp [conclude, digestCalls_judge, hcalls]

end Policy

/-! ### What is loaded -/

namespace BootImage

/-- An entry names the same octets in the image and in its signed message. -/
theorem slice_message_of_mem {i : BootImage} (hi : i.WellFormed) {e : LoadEntry}
    (he : e ∈ i.descriptor.entries) :
    slice i.encode e.offset.toNat e.size.toNat = slice i.message e.offset.toNat e.size.toNat ∧
      (slice i.encode e.offset.toNat e.size.toNat).length = e.size.toNat := by
  obtain ⟨-, hle⟩ := hi.entries e he
  -- entries end where the body does, and the body opens both the image and the message
  rw [LoadEntry.limit, ← hi.length_body] at hle
  rw [encode_eq, message, slice_append_of_le_length _ hle, slice_append_of_le_length _ hle]
  exact ⟨rfl, length_slice hle⟩

theorem parse_descriptor {i : BootImage} (hi : i.WellFormed) :
    Descriptor.parse .header (slice i.encode 0x44 (declaredDescriptorLength i.encode)) =
      .ok i.descriptor := by
  obtain ⟨hlength, hregion, -⟩ := declared_encode hi.descriptor_length
  rw [hlength, hregion]
  exact Descriptor.parse_eq_ok_iff.mpr ⟨hi.descriptor, rfl⟩

end BootImage

/-- What is known of a passed image: it loads what its descriptor lists, in place, and all of that
stands in the message. -/
structure LoadsFrom (b : Bytes) (i : BootImage) (m : Gather) (r : VerifiedImage) : Prop where
  message : i.signedMessage r.index = .ok m
  descriptor : Descriptor.parse .header (slice b 0x44 (declaredDescriptorLength b)) =
    .ok i.descriptor
  entries : r.entries = i.descriptor.entries
  entries_le : r.entries.length ≤ 8
  bounds : ∀ e ∈ r.entries, 1 ≤ e.size.toNat ∧ e.offset.toNat + e.size.toNat < 2 ^ 32 ∧
    i.payloadOffset ≤ e.offset.toNat ∧ e.offset.toNat + e.size.toNat ≤ i.trailerOffset
  loaded : ∀ e ∈ r.entries,
    slice b e.offset.toNat e.size.toNat = slice m.bytes e.offset.toNat e.size.toNat ∧
      (slice b e.offset.toNat e.size.toNat).length = e.size.toNat
  totalLength : r.totalLength.toNat = b.length
  walk : (TagCursor.start b i.trailerOffset).tags = .ok i.placedTags
  index : r.index.entries.toList =
    (i.placedTags.filter fun p => p.kind = .layout ∨ p.kind = .key).map BootImage.indexEntry

namespace BootVerifier

/-- The image, the message and the run behind a result. -/
theorem exists_prepared_of_verify {v : BootVerifier} {b : Bytes} {carrier : Carrier}
    {observers : Observers} {r : VerifiedImage} {trace : Trace}
    (h : v.verify b carrier observers = (.ok r, trace)) :
    ∃ x, v.prepare b carrier = .ok x ∧
      (x.policy.verify (.ofImage v.slot x.message observers)).outcome = .ok () ∧
      trace = (x.policy.verify (.ofImage v.slot x.message observers)).trace ∧
      r.index = x.index ∧ r.totalLength = x.image.header.totalLength ∧
      r.entries = x.image.descriptor.entries := by
  obtain ⟨x, hx, hrun⟩ := verify_eq_ok_iff.mp ⟨r, congrArg Prod.fst h⟩
  simp only [verify, hx, hrun, Except.map] at h
  obtain ⟨hr, rfl⟩ := Prod.mk.inj h
  cases hr
  exact ⟨x, hx, hrun, rfl, rfl, rfl, rfl⟩

/-- Whatever the policy and its operations are, what an image that passed says to load stands in
the message that was digested. -/
theorem verify_loads_from_digested_message {v : BootVerifier} {b : Bytes} {carrier : Carrier}
    {observers : Observers} {r : VerifiedImage} {trace : Trace}
    (h : v.verify b carrier observers = (.ok r, trace)) :
    ∃ i message, BootImage.parse b carrier = .ok i ∧ LoadsFrom b i message r ∧
      Trace.digestCalls trace = [(.prepare, message), (.digest, message), (.finish, message)] := by
  obtain ⟨x, hx, hrun, rfl, hindex, htotal, hentries⟩ := exists_prepared_of_verify h
  obtain ⟨hparse, hxi, -, hxm⟩ := prepare_eq_ok_iff.mp hx
  obtain ⟨hi, -, rfl⟩ := BootImage.wellFormed_of_parse hparse
  obtain ⟨-, -, hlist⟩ := BootImage.of_signedIndex_eq_ok hxi
  have hbytes := BootImage.bytes_of_signedMessage hi hxi hxm
  refine ⟨x.image, x.message, hparse, ⟨?_, BootImage.parse_descriptor hi, hentries, ?_, ?_, ?_, ?_,
    BootImage.tags_start_encode hi, ?_⟩, Policy.digestCalls_verify rfl hrun⟩
  · rw [hindex]
    exact hxm
  · rw [hentries]
    exact hi.descriptor.entries_le
  · rw [hentries]
    intro e he
    obtain ⟨hsize, hlimit⟩ := e.sound_iff.mp (hi.descriptor.sound e he)
    exact ⟨hsize, hlimit, hi.entries e he⟩
  · rw [hentries, hbytes]
    intro e he
    exact BootImage.slice_message_of_mem hi he
  · rw [htotal, hi.length_encode]
    rfl
  · simp only [hindex, hlist, BootImage.placedSigned, TagKind.isSigned_eq]

/-- Operations that touch no octet of what they are fed and leave the digest as it is. -/
def idleOps : DigestOps where
  prepare _ _ scratch := (.ok (), scratch)
  digest _ _ _ digest := (.ok (), digest)
  finish _ _ scratch := (.ok (), scratch)

/-- The policy that expects the digest that is there from the start. -/
def idlePolicy : Policy := (Policy.ofDigestOps idleOps).forExpected (Block.zero 32).bytes

theorem exists_prepare_overlapping : ∃ index message,
    (ofPolicy idlePolicy).prepare Recipe.overlappingImage.image.encode .unbounded =
      .ok ⟨Recipe.overlappingImage.image, index, idlePolicy, message⟩ := by
  have hi := Recipe.wellFormed_overlapping
  have hparse := BootImage.parse_encode hi
    (Recipe.fits_unbounded_finish _ _ Recipe.countable_overlapping)
  obtain ⟨index, hindex, -⟩ := BootImage.signedIndex_of_le
    (i := Recipe.overlappingImage.image) (by decide)
  obtain ⟨message, hmessage, -⟩ := BootImage.exists_signedMessage hi hindex
  exact ⟨index, message, prepare_eq_ok_iff.mpr
    ⟨hparse, hindex, ⟨_, _, rfl, rfl, rfl⟩, hmessage⟩⟩

theorem overlapping_loads_from_digested_message : ∃ r trace i message,
    (ofPolicy idlePolicy).verify Recipe.overlappingImage.image.encode .unbounded .all =
      (.ok r, trace) ∧
    BootImage.parse Recipe.overlappingImage.image.encode .unbounded = .ok i ∧
    LoadsFrom Recipe.overlappingImage.image.encode i message r ∧
    Trace.digestCalls trace = [(.prepare, message), (.digest, message), (.finish, message)] := by
  obtain ⟨index, message, hx⟩ := exists_prepare_overlapping
  have hstage : idlePolicy.options.signatureStage = false := by decide
  have hcheck : idlePolicy.checkDigest (.zero 32) = .ok () := by decide
  have hpasses : (idlePolicy.verify (.ofImage 0 message .all)).outcome = .ok () := by
    refine Policy.outcome_verify_eq_ok_iff.mpr ⟨.zero 32, rfl, ?_⟩
    simp only [Policy.judge, hstage, hcheck, Bool.false_eq_true, if_false]
  obtain ⟨r, hr⟩ := verify_eq_ok_iff.mpr ⟨_, hx, hpasses⟩
  rcases hv : (ofPolicy idlePolicy).verify Recipe.overlappingImage.image.encode .unbounded .all
    with ⟨result, trace⟩
  rw [hv] at hr
  obtain rfl : result = .ok r := hr
  obtain ⟨i, m, hparse, hloads, hcalls⟩ := verify_loads_from_digested_message hv
  exact ⟨r, trace, i, m, rfl, hparse, hloads, hcalls⟩

end BootVerifier

end SignedBoot
