import Mathlib
import SignedBoot.Proofs.Container.SignatureBodies
import SignedBoot.Proofs.Verification.Acceptance
import SignedBoot.Proofs.Verification.Course

/-!
# Policies without a signature stage

Such a policy compares the digest of the message with the digest it expects. Its key, its
signature operations and schemes, its template and its mode have no part in that, and neither have
the signatures of an image (`BootVerifier.digest_only_verdict`).
-/

namespace SignedBoot

/-! ### The stages -/

/-- Whether an item belongs to the signature stage. -/
def TraceItem.ofSignatureStage : TraceItem → Bool
  | .notice stage _ => stage = .signature
  | .report stage _ _ _ => stage = .signature
  | .digestCall _ _ _ => false
  | .signatureCall _ _ _ => true
  | .cleanupCall _ _ _ _ => true

namespace Policy

/-- The standard digest operations, and no signature stage. -/
structure DigestOnly (p : Policy) : Prop where
  digestOps : p.digestOps = .sha256
  noStage : p.options.signatureStage = false

/-- Two policies compare as many octets with the same expected ones, and copy digests alike. -/
structure ComparesAlike (p q : Policy) : Prop where
  expected : p.expected = q.expected
  tokenLength : p.tokenLength = q.tokenLength
  copyDigest : p.options.copyDigest = q.options.copyDigest

variable {p q : Policy} {slot : UInt32} {message : Gather} {observers : Observers}

theorem DigestOnly.judge_eq (hp : p.DigestOnly) (c : VerifyContext) (digest : Digest) :
    p.judge c digest = (p.checkDigest digest, []) := by
  simp [judge, hp.noStage]

theorem DigestOnly.verify_eq (hp : p.DigestOnly) (hq : q.DigestOnly) (h : p.ComparesAlike q) :
    p.verify (.ofImage slot message observers) = q.verify (.ofImage slot message observers) := by
  have hstage : p.digestStage (.ofImage slot message observers) =
      q.digestStage (.ofImage slot message observers) := by
    simp only [digestStage, VerifyContext.digestInput?, VerifyContext.ofImage, hp.digestOps,
      hq.digestOps]
  have hcheck : p.checkDigest = q.checkDigest := by
    funext digest
    simp only [checkDigest, compare, h.expected, h.tokenLength]
  have hkeep : p.keepDigest = q.keepDigest := by
    funext c digest
    simp only [keepDigest, h.copyDigest]
  have hconclude : p.conclude = q.conclude := by
    funext c outcome trace
    simp only [conclude, h.tokenLength]
  simp only [verify, hstage, hp.judge_eq, hq.judge_eq, hcheck, hkeep, hconclude]

theorem DigestCourse.ofSignatureStage_eq_false {c : VerifyContext} {items : Trace}
    {ending : Except DigestStep Digest} (h : p.DigestCourse c items ending) :
    ∀ item ∈ items, item.ofSignatureStage = false := by
  cases h
  intro item hitem
  simp only [Stage.around, List.mem_append, List.mem_map, List.mem_singleton] at hitem
  rcases hitem with ((rfl | ⟨step, -, rfl⟩) | rfl) | rfl <;> rfl

theorem DigestOnly.ofSignatureStage_eq_false (hp : p.DigestOnly) {c : VerifyContext}
    {outcome : Except Fault Unit} {items : Trace} (h : p.Course c outcome items) :
    ∀ item ∈ items, item.ofSignatureStage = false := by
  cases h with
  | inputMissing hm => simp
  | digestFails hd => exact hd.ofSignatureStage_eq_false
  | unsigned hd hs => exact hd.ofSignatureStage_eq_false
  | keyMissing hd hs hk => simp [hp.noStage] at hs
  | opsMissing hd hs hk ho => simp [hp.noStage] at hs
  | signatureFails hd hs hk ho hr => simp [hp.noStage] at hs
  | signed hd hs hk ho hr => simp [hp.noStage] at hs

/-- No run of such a policy comes to the signature stage. -/
theorem DigestOnly.trace_verify (hp : p.DigestOnly) (c : VerifyContext) :
    ∀ item ∈ (p.verify c).trace, item.ofSignatureStage = false := by
  obtain ⟨outcome, items, hcourse⟩ := exists_course p c
  have htrace : (p.verify c).trace = _ := (hcourse.verify_eq c.observers).2
  intro item hitem
  rw [htrace] at hitem
  rcases List.mem_append.mp (List.mem_of_mem_filter hitem) with hitem | hitem
  · exact hp.ofSignatureStage_eq_false hcourse item hitem
  · rw [List.mem_singleton.mp hitem]
    rfl

/-- A digest starts with the octets that a policy expects, as many as it compares. -/
structure ExpectsDigest (p : Policy) (digest : Digest) : Prop where
  one_le : 1 ≤ p.tokenLength.toNat
  le_digest : p.tokenLength.toNat ≤ 32
  length_expected : p.expected.length = p.tokenLength.toNat
  expected : p.expected = digest.bytes.take p.tokenLength.toNat

theorem checkDigest_eq_ok_iff {digest : Digest} :
    p.checkDigest digest = .ok () ↔ p.ExpectsDigest digest := by
  unfold checkDigest
  by_cases hlength : p.tokenLength.toNat = p.expected.length
  · have htake : p.expected.take p.tokenLength.toNat = p.expected := by
      rw [hlength, List.take_length]
    rw [if_neg (not_not.mpr hlength), compare_eq_ok_iff]
    constructor
    · intro h
      exact ⟨h.one_le, h.le_digest, hlength.symm, htake.symm.trans h.take_eq.symm⟩
    · intro h
      have hdigest : p.tokenLength.toNat ≤ digest.bytes.length := by
        rw [digest.length_bytes]
        exact h.le_digest
      exact ⟨h.one_le, h.le_digest, hdigest, hlength.le, h.expected.symm.trans htake.symm⟩
  · rw [if_pos hlength]
    constructor
    · intro h
      cases h
    · intro h
      exact absurd h.length_expected.symm hlength

theorem DigestOnly.outcome_image_eq_ok_iff (hp : p.DigestOnly) {i : BootImage}
    (hi : i.WellFormed) {x : SignedIndex} (hx : i.signedIndex = .ok x)
    (hm : i.signedMessage x = .ok message) :
    (p.verify (.ofImage slot message observers)).outcome = .ok () ↔
      p.ExpectsDigest (sha256 i.message) := by
  have hbytes := BootImage.bytes_of_signedMessage hi hx hm
  have hlength := BootImage.length_bytes_lt hi hbytes
  have hdigest := digestStage_ofImage hp.digestOps hlength slot observers
  rw [outcome_verify_of_digestStage hdigest, hp.judge_eq, checkDigest_eq_ok_iff, hbytes]

end Policy

/-! ### Images -/

namespace BootImage

/-- What a policy without a signature stage takes from an image. -/
def gathered (i : BootImage) : Except Fault (SignedIndex × Gather) := do
  let index ← i.signedIndex
  let _ ← i.keyTag
  let _ ← i.signatureTag
  let message ← i.signedMessage index
  return (index, message)

theorem gathered_eq_of_blank_eq {i j : BootImage} (hi : i.WellFormed) (hj : j.WellFormed)
    (h : i.blank = j.blank) : i.gathered = j.gathered := by
  have hindex : i.signedIndex = j.signedIndex := by
    rw [← i.signedIndex_blank, h, j.signedIndex_blank]
  have hkey : i.keyTag = j.keyTag := by
    rw [← i.keyTag_blank, h, j.keyTag_blank]
  have hsignature : i.signatureTag.map (fun _ => SignatureTag.mk (.zero 256)) =
      j.signatureTag.map fun _ => ⟨.zero 256⟩ := by
    rw [← i.signatureTag_blank, h, j.signatureTag_blank]
  rw [gathered, gathered, ← hindex, ← hkey]
  cases hx : i.signedIndex with
  | error f => rfl
  | ok x =>
    cases i.keyTag with
    | error f => rfl
    | ok k =>
      change (i.signatureTag >>= fun _ => i.signedMessage x >>= fun m => .ok (x, m)) =
        j.signatureTag >>= fun _ => j.signedMessage x >>= fun m => .ok (x, m)
      rw [signedMessage_eq_of_blank_eq hi hj h hx]
      exact bind_eq_of_map_eq hsignature _

end BootImage

namespace BootVerifier

theorem imagePolicy_of_noStage {p : Policy} (h : p.options.signatureStage = false) (k : KeyTag)
    (s : SignatureTag) : imagePolicy p k s = .ok p := by
  rw [imagePolicy, h]
  rfl

theorem prepare_eq_gathered {v : BootVerifier} (hv : v.policy.DigestOnly) {b : Bytes}
    {carrier : Carrier} {i : BootImage} (h : BootImage.parse b carrier = .ok i) :
    v.prepare b carrier = i.gathered.map fun x => ⟨i, x.1, v.policy, x.2⟩ := by
  have hpolicy := imagePolicy_of_noStage hv.noStage
  have hparse : ∀ k : BootImage → Except Fault Prepared, (Except.ok i >>= k) = k i := fun _ => rfl
  have hok : ∀ k : Policy → Except Fault Prepared, (Except.ok v.policy >>= k) = k v.policy :=
    fun _ => rfl
  change _ = (fun x : SignedIndex × Gather => Prepared.mk i x.1 v.policy x.2) <$> i.gathered
  simp only [prepare, h, hpolicy, hparse, hok, BootImage.gathered, map_bind, map_pure]

/-- Two such policies that compare alike do the same on images that differ in their signatures. -/
theorem verify_eq_of_blank_eq {p q : Policy} (hp : p.DigestOnly) (hq : q.DigestOnly)
    (hpq : p.ComparesAlike q) {a b : Bytes} {ca cb : Carrier} {i j : BootImage}
    (ha : BootImage.parse a ca = .ok i) (hb : BootImage.parse b cb = .ok j)
    (h : i.blank = j.blank) (slot : UInt32) (observers : Observers) :
    verify ⟨p, slot⟩ a ca observers = verify ⟨q, slot⟩ b cb observers := by
  have hi := (BootImage.wellFormed_of_parse ha).1
  have hj := (BootImage.wellFormed_of_parse hb).1
  have hheader : i.header = j.header := by
    rw [← i.header_blank, h, j.header_blank]
  have hdescriptor : i.descriptor = j.descriptor := by
    rw [← i.descriptor_blank, h, j.descriptor_blank]
  have hgathered := BootImage.gathered_eq_of_blank_eq hi hj h
  rw [verify, verify, prepare_eq_gathered hp ha, prepare_eq_gathered hq hb, hgathered]
  cases j.gathered with
  | error f => rfl
  | ok x => simp only [Except.map, hp.verify_eq hq hpq, hheader, hdescriptor]

/-! ### Verdicts -/

/-- An image that such a policy accepts: few of its tags are signed, it carries one key and one
signature, whatever they are, and its message has the digest that is expected. -/
structure AcceptsDigest (p : Policy) (b : Bytes) (carrier : Carrier) (i : BootImage) : Prop where
  parsed : BootImage.parse b carrier = .ok i
  few : i.signedTags.length ≤ 4
  key : ∃ k, i.tags.filterMap Tag.key? = [k]
  signature : ∃ s, i.signatureTags = [s]
  digest : p.ExpectsDigest (sha256 i.message)

theorem verify_digestOnly_eq_ok_iff {v : BootVerifier} (hv : v.policy.DigestOnly) {b : Bytes}
    {carrier : Carrier} {observers : Observers} :
    (∃ r, (v.verify b carrier observers).1 = .ok r) ↔ ∃ i, AcceptsDigest v.policy b carrier i := by
  rw [verify_eq_ok_iff]
  constructor
  · rintro ⟨x, hx, hrun⟩
    obtain ⟨hparse, hindex, ⟨k, s, hk, hs, hpolicy⟩, hm⟩ := prepare_eq_ok_iff.mp hx
    have hi := (BootImage.wellFormed_of_parse hparse).1
    rw [imagePolicy_of_noStage hv.noStage] at hpolicy
    have hp : x.policy = v.policy := (Except.ok.inj hpolicy).symm
    rw [hp, hv.outcome_image_eq_ok_iff hi hindex hm] at hrun
    exact ⟨x.image, hparse, (BootImage.of_signedIndex_eq_ok hindex).1, ⟨k, hk⟩, ⟨s, hs⟩, hrun⟩
  · rintro ⟨i, h⟩
    have hi := (BootImage.wellFormed_of_parse h.parsed).1
    obtain ⟨k, hk⟩ := h.key
    obtain ⟨s, hs⟩ := h.signature
    obtain ⟨x, hx, -⟩ := BootImage.signedIndex_of_le h.few
    obtain ⟨m, hm, -⟩ := BootImage.exists_signedMessage hi hx
    refine ⟨⟨i, x, v.policy, m⟩, prepare_eq_ok_iff.mpr ⟨h.parsed, hx, ⟨k, s, hk, hs, ?_⟩, hm⟩, ?_⟩
    · exact imagePolicy_of_noStage hv.noStage k s
    · exact (hv.outcome_image_eq_ok_iff hi hx hm).mpr h.digest

theorem trace_verify_digestOnly {v : BootVerifier} (hv : v.policy.DigestOnly) (b : Bytes)
    (carrier : Carrier) (observers : Observers) :
    ∀ item ∈ (v.verify b carrier observers).2, item.ofSignatureStage = false := by
  rw [verify]
  cases hx : v.prepare b carrier with
  | error f => simp
  | ok x =>
    obtain ⟨-, -, ⟨k, s, -, -, hpolicy⟩, -⟩ := prepare_eq_ok_iff.mp hx
    rw [imagePolicy_of_noStage hv.noStage] at hpolicy
    have hp : x.policy = v.policy := (Except.ok.inj hpolicy).symm
    have htrace := hv.trace_verify (.ofImage v.slot x.message observers)
    rw [← hp] at htrace
    exact htrace

/-- A policy without a signature stage accepts an image when the digest of its message is the one
that the policy expects, and does nothing of the signature stage. All else in the policy and in
the signatures can be exchanged, and results and traces stay the same. -/
theorem digest_only_verdict {p : Policy} (hp : p.DigestOnly) (slot : UInt32)
    (observers : Observers) :
    (∀ b carrier, (∃ r, (verify ⟨p, slot⟩ b carrier observers).1 = .ok r) ↔
      ∃ i, AcceptsDigest p b carrier i) ∧
    (∀ b carrier, ∀ item ∈ (verify ⟨p, slot⟩ b carrier observers).2,
      item.ofSignatureStage = false) ∧
    ∀ q : Policy, q.DigestOnly → p.ComparesAlike q →
      ∀ a b ca cb i j, BootImage.parse a ca = .ok i → BootImage.parse b cb = .ok j →
        i.SameButBodies a b →
          verify ⟨p, slot⟩ a ca observers = verify ⟨q, slot⟩ b cb observers := by
  refine ⟨fun b carrier => verify_digestOnly_eq_ok_iff hp, fun b carrier =>
    trace_verify_digestOnly hp b carrier observers, ?_⟩
  intro q hq hpq a b ca cb i j ha hb hsame
  obtain ⟨hi, -, rfl⟩ := BootImage.parse_eq_ok_iff.mp ha
  obtain ⟨hj, -, rfl⟩ := BootImage.parse_eq_ok_iff.mp hb
  have hblank := (BootImage.sameButBodies_iff_blank_eq hi hj).mp hsame
  exact verify_eq_of_blank_eq hp hq hpq ha hb hblank slot observers

section

open BootImage

/-- The policy that expects the opening four octets of the digest of `keyThenSignature`. -/
def shortDigest : Policy :=
  { Policy.ofDigestOps .sha256 with
    expected := (sha256 (ofTags keyThenSignature).message).bytes.take 4
    tokenLength := 4 }

/-- The same with all that belongs to a signature stage but the stage itself, and with both of the
modes. -/
def shortDigestWithKey : Policy :=
  { shortDigest with
    key := some ⟨[], 0⟩
    signatureOps := some .rsa
    schemes := .rsa
    hashInput := some .empty
    options := .decode 0x6000000 }

/-- The tags of `keyThenSignature` with another signature. -/
def keyThenZeros : List Tag := [.key someKey, .signature ⟨.zero 256⟩]

theorem parse_keyThenZeros :
    parse (ofTags keyThenZeros).encode .unbounded = .ok (ofTags keyThenZeros) :=
  parse_ofTags_of_few (by simp [keyThenZeros, Tag.WellFormed, wellFormed_someKey]) (by decide)

theorem shortDigest_verdict :
    shortDigest.DigestOnly ∧ shortDigestWithKey.DigestOnly ∧
      shortDigest.ComparesAlike shortDigestWithKey ∧
      (∃ r, (verify ⟨shortDigest, 0⟩ (ofTags keyThenSignature).encode .unbounded
        .all).1 = .ok r) ∧
      (ofTags keyThenSignature).SameButBodies
        (ofTags keyThenSignature).encode (ofTags keyThenZeros).encode ∧
      verify ⟨shortDigest, 0⟩ (ofTags keyThenSignature).encode .unbounded .all =
        verify ⟨shortDigestWithKey, 0⟩ (ofTags keyThenZeros).encode .unbounded .all := by
  have hp : shortDigest.DigestOnly := ⟨rfl, rfl⟩
  have hq : shortDigestWithKey.DigestOnly := ⟨rfl, rfl⟩
  have hpq : shortDigest.ComparesAlike shortDigestWithKey := ⟨rfl, rfl, rfl⟩
  have hi := (wellFormed_of_parse parse_keyThenSignature).1
  have hj := (wellFormed_of_parse parse_keyThenZeros).1
  have hsame := (sameButBodies_iff_blank_eq hi hj).mpr (blank_ofTags_eq rfl)
  have hexpects :
      shortDigest.ExpectsDigest (sha256 (ofTags keyThenSignature).message) := by
    refine ⟨by decide, by decide, ?_, rfl⟩
    rw [shortDigest, List.length_take, Block.length_bytes]
    rfl
  obtain ⟨haccepts, -, hinfluence⟩ := digest_only_verdict hp 0 .all
  refine ⟨hp, hq, hpq, ?_, hsame, ?_⟩
  · exact (haccepts _ _).mpr ⟨_, parse_keyThenSignature, by decide, ⟨_, rfl⟩, ⟨_, rfl⟩,
      hexpects⟩
  · exact hinfluence _ hq hpq _ _ _ _ _ _ parse_keyThenSignature parse_keyThenZeros hsame

end

end BootVerifier

end SignedBoot
