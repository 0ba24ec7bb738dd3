import Mathlib
import SignedBoot.Proofs.Container.TrailerScans
import SignedBoot.Proofs.Verification.Operations
import SignedBoot.Proofs.Verification.Verdict
import SignedBoot.Verification.BootVerifier

/-!
# Which images pass

An image passes a policy that pins a key exactly when it is authentic: it is well-formed, it
carries that key and one signature, and the signature opens to the message of the image.
-/

namespace SignedBoot

/-! ### What an image carries -/

namespace BootImage

theorem WellFormed.key {i : BootImage} (hi : i.WellFormed) {k : KeyTag}
    (h : i.tags.filterMap Tag.key? = [k]) : k.WellFormed := by
  have hk : k ∈ i.tags.filterMap Tag.key? := by
    rw [h]
    exact List.mem_singleton_self k
  obtain ⟨t, ht, htk⟩ := List.mem_filterMap.mp hk
  have hw := hi.tags t ht
  cases t with
  | layout t => cases htk
  | key t =>
    cases htk
    exact hw
  | signature t => cases htk

end BootImage

/-! ### The verifier -/

/-- The digest stage of a run over an image makes the digest of the message. -/
theorem Policy.digestStage_ofImage {p : Policy} (hd : p.digestOps = .sha256) {message : Gather}
    (h : message.bytes.length < 2 ^ 64) (slot : UInt32) (observers : Observers) :
    (p.digestStage (.ofImage slot message observers)).1 = .ok (sha256 message.bytes) := by
  have hinput : (VerifyContext.ofImage slot message observers).digestInput? p = some message := rfl
  simp only [digestStage, hinput, hd]
  exact DigestOps.run_sha256 h _

namespace BootVerifier

theorem prepare_eq_ok_iff {v : BootVerifier} {b : Bytes} {carrier : Carrier} {x : Prepared} :
    v.prepare b carrier = .ok x ↔ BootImage.parse b carrier = .ok x.image ∧
      x.image.signedIndex = .ok x.index ∧
      (∃ k s, x.image.tags.filterMap Tag.key? = [k] ∧ x.image.signatureTags = [s] ∧
        imagePolicy v.policy k s = .ok x.policy) ∧
      x.image.signedMessage x.index = .ok x.message := by
  simp only [prepare, bind_eq_ok_iff, BootImage.keyTag_eq_ok_iff, BootImage.signatureTag_eq_ok_iff]
  constructor
  · rintro ⟨image, hparse, index, hindex, k, hk, s, hs, policy, hp, message, hm, h⟩
    cases h
    exact ⟨hparse, hindex, ⟨k, s, hk, hs, hp⟩, hm⟩
  · rintro ⟨hparse, hindex, ⟨k, s, hk, hs, hp⟩, hm⟩
    exact ⟨x.image, hparse, x.index, hindex, k, hk, s, hs, x.policy, hp, x.message, hm, rfl⟩

/-- The policy for an image is the given one up to its expectation. -/
theorem imagePolicy_keeps {p q : Policy} {k : KeyTag} {s : SignatureTag}
    (h : imagePolicy p k s = .ok q) : q.digestOps = p.digestOps ∧ q.options = p.options := by
  unfold imagePolicy at h
  split at h
  · obtain ⟨u, -, hq⟩ := bind_eq_ok_iff.mp h
    cases hq
    exact ⟨rfl, rfl⟩
  · cases h
    exact ⟨rfl, rfl⟩

theorem verify_eq_ok_iff {v : BootVerifier} {b : Bytes} {carrier : Carrier}
    {observers : Observers} :
    (∃ r, (v.verify b carrier observers).1 = .ok r) ↔ ∃ x, v.prepare b carrier = .ok x ∧
      (x.policy.verify (.ofImage v.slot x.message observers)).outcome = .ok () := by
  rw [verify]
  cases v.prepare b carrier with
  | error f => simp
  | ok x =>
    simp only [Except.ok.injEq, exists_eq_left']
    cases (x.policy.verify (.ofImage v.slot x.message observers)).outcome with
    | error f => simp [Except.map]
    | ok u => simp [Except.map]

/-- What is known of an image that passed is what it says, with the digest of its message if the
policy copies digests. -/
theorem verified_eq {v : BootVerifier} (hd : v.policy.digestOps = .sha256) {b : Bytes}
    {carrier : Carrier} {observers : Observers} {r : VerifiedImage}
    (h : (v.verify b carrier observers).1 = .ok r) :
    ∃ i index, BootImage.parse b carrier = .ok i ∧ i.signedIndex = .ok index ∧
      r = ⟨if v.policy.options.copyDigest then some (sha256 i.message) else none, index,
        i.header.totalLength, i.descriptor.entries⟩ := by
  obtain ⟨x, hx, hrun⟩ := verify_eq_ok_iff.mp ⟨r, h⟩
  obtain ⟨hparse, hindex, ⟨k, s, -, -, hpolicy⟩, hm⟩ := prepare_eq_ok_iff.mp hx
  obtain ⟨hi, -, -⟩ := BootImage.wellFormed_of_parse hparse
  obtain ⟨hops, hoptions⟩ := imagePolicy_keeps hpolicy
  have hbytes := BootImage.bytes_of_signedMessage hi hindex hm
  have hlength := BootImage.length_bytes_lt hi hbytes
  have hdigest := Policy.digestStage_ofImage (hops.trans hd) hlength v.slot observers
  have hcontext := Policy.context_verify_of_digestStage hdigest
  refine ⟨x.image, x.index, hparse, hindex, ?_⟩
  simp only [verify, hx, hrun, hcontext, Except.map, Except.ok.injEq] at h
  rw [← h, Policy.keepDigest, hoptions, hbytes]
  split <;> rfl

end BootVerifier

/-! ### Pinned policies -/

/-- The standard operations and schemes, the signature stage switched on by a flag word, and a
pinned key. The mode, the template and the number of compared octets are left open. -/
structure Policy.Pins (p : Policy) (word : UInt32) (pinned : KeyDescriptor) : Prop where
  options : p.options = .decode word
  stage : PolicyOptions.hasFlag word PolicyFlag.signatureStage = true
  digestOps : p.digestOps = .sha256
  signatureOps : p.signatureOps = some .rsa
  schemes : p.schemes = .rsa
  key : p.key = some pinned

/-- The policy that pins a key and compares whole hashes, with a flag word. -/
def Policy.pinning (word : UInt32) (pinned : KeyDescriptor) : Policy where
  key := some pinned
  signatureOps := some .rsa
  template := .standard
  digestOps := .sha256
  schemes := .rsa
  hashInput := none
  expected := []
  options := .decode word
  tokenLength := 32

/-- A pinned policy that can be met: the pinned modulus is odd, one mode is selected, the template
is for SHA-256, and a part of the hash that there is gets compared. -/
structure Policy.Sane (p : Policy) (word : UInt32) (pinned : KeyDescriptor) (mode : SignatureMode) :
    Prop extends p.Pins word pinned where
  odd : beValue pinned.modulus % 2 = 1
  onlyMode : PolicyOptions.OnlyMode word mode
  hashLength : p.template.hashLength = 32
  one_le : 1 ≤ p.tokenLength.toNat
  le_digest : p.tokenLength.toNat ≤ 32

theorem Policy.pins_pinning (word : UInt32) (pinned : KeyDescriptor)
    (h : PolicyOptions.hasFlag word PolicyFlag.signatureStage = true) :
    (pinning word pinned).Pins word pinned := ⟨rfl, h, rfl, rfl, rfl, rfl⟩

namespace Policy.Pins

variable {p : Policy} {word : UInt32} {pinned : KeyDescriptor}

theorem signatureStage_eq_true (hp : p.Pins word pinned) : p.options.signatureStage = true := by
  rw [hp.options]
  exact hp.stage

theorem imagePolicy_eq_ok_iff (hp : p.Pins word pinned) {k : KeyTag} {s : SignatureTag}
    {q : Policy} :
    BootVerifier.imagePolicy p k s = .ok q ↔
      pinned = k.key ∧ q = p.forExpected s.signature.bytes := by
  simp only [BootVerifier.imagePolicy, hp.signatureStage_eq_true, if_true, bind_eq_ok_iff,
    BootVerifier.checkPinned, hp.key]
  by_cases hk : pinned = k.key
  · rw [if_pos hk]
    constructor
    · rintro ⟨u, -, h⟩
      cases h
      exact ⟨hk, rfl⟩
    · rintro ⟨-, rfl⟩
      exact ⟨(), rfl, rfl⟩
  · rw [if_neg hk]
    constructor
    · rintro ⟨u, h, -⟩
      cases h
    · rintro ⟨h, -⟩
      exact absurd h hk

theorem imagePolicy_of_ne (hp : p.Pins word pinned) {k : KeyTag} (hk : pinned ≠ k.key)
    (s : SignatureTag) : BootVerifier.imagePolicy p k s = .error .keyMismatch := by
  simp only [BootVerifier.imagePolicy, hp.signatureStage_eq_true, if_true, BootVerifier.checkPinned,
    hp.key, if_neg hk]
  rfl

end Policy.Pins

/-- A signature opens under a key to an encoding of the message: raised to the public exponent it
is taken apart, in the one mode selected, into hashes that agree as far as they are compared. -/
structure Policy.Opens (p : Policy) (word : UInt32) (k : KeyTag) (s : SignatureTag)
    (message : Bytes) : Prop where
  odd : k.modulusValue % 2 = 1
  lt_modulus : beValue s.signature.bytes < k.modulusValue
  encoding : ∃ mode tokens, PolicyOptions.OnlyMode word mode ∧
    mode.recover (be 256 (beValue s.signature.bytes ^ k.exponent.toNat % k.modulusValue))
      (sha256 message) p.template 2048 = .ok tokens ∧
    1 ≤ p.tokenLength.toNat ∧ p.tokenLength.toNat ≤ 32 ∧
    tokens.recovered.bytes.take p.tokenLength.toNat =
      tokens.reference.bytes.take p.tokenLength.toNat

/-- The run over a message succeeds exactly when the signature of the image opens to it. -/
theorem Policy.Pins.outcome_eq_ok_iff {p : Policy} {word : UInt32} {k : KeyTag}
    (hp : p.Pins word k.key) (hk : k.WellFormed) {message : Gather}
    (hm : message.bytes.length < 2 ^ 64) {s : SignatureTag} {slot : UInt32}
    {observers : Observers} :
    ((p.forExpected s.signature.bytes).verify (.ofImage slot message observers)).outcome =
      .ok () ↔ p.Opens word k s message.bytes := by
  have hdigest := Policy.digestStage_ofImage (p := p.forExpected s.signature.bytes) hp.digestOps
    hm slot observers
  have hstage : (p.forExpected s.signature.bytes).options.signatureStage = true :=
    hp.signatureStage_eq_true
  have hmode : ∀ mode, (p.forExpected s.signature.bytes).options.mode.resolve = .ok mode ↔
      PolicyOptions.OnlyMode word mode := by
    intro mode
    rw [← PolicyOptions.resolve_decode_eq_ok_iff, ← hp.options]
    rfl
  have hkey : (p.forExpected s.signature.bytes).key = some k.key := hp.key
  have hops : (p.forExpected s.signature.bytes).signatureOps = some .rsa := hp.signatureOps
  have hschemes : (p.forExpected s.signature.bytes).schemes = .rsa := hp.schemes
  simp only [Policy.outcome_verify_eq_ok_iff, hdigest, Except.ok.injEq, exists_eq_left',
    Policy.judge, hstage, if_true, Policy.signatureStage_eq_ok_iff hkey hops,
    Policy.checkMessage_eq_ok_iff hschemes, hmode, hk.modulusBits_key, Policy.agree_digests_iff]
  constructor
  · rintro ⟨em, hrun, mode, tokens, honly, hrecover, hagree⟩
    obtain ⟨hodd, hlt, rfl⟩ := (SignatureOps.run_rsa_key_eq_ok_iff hk).mp hrun
    exact ⟨hodd, hlt, mode, tokens, honly, hrecover, hagree⟩
  · rintro ⟨hodd, hlt, mode, tokens, honly, hrecover, hagree⟩
    exact ⟨_, (SignatureOps.run_rsa_key_eq_ok_iff hk).mpr ⟨hodd, hlt, rfl⟩, mode, tokens, honly,
      hrecover, hagree⟩

theorem Policy.Pins.outcome_image_eq_ok_iff {p : Policy} {word : UInt32} {k : KeyTag}
    (hp : p.Pins word k.key) {i : BootImage} (hi : i.WellFormed)
    (hk : i.tags.filterMap Tag.key? = [k]) {x : SignedIndex} (hx : i.signedIndex = .ok x)
    {message : Gather} (hm : i.signedMessage x = .ok message) {s : SignatureTag} {slot : UInt32}
    {observers : Observers} :
    ((p.forExpected s.signature.bytes).verify (.ofImage slot message observers)).outcome =
      .ok () ↔ p.Opens word k s i.message := by
  have hbytes := BootImage.bytes_of_signedMessage hi hx hm
  have hlength := BootImage.length_bytes_lt hi hbytes
  rw [hp.outcome_eq_ok_iff (hi.key hk) hlength, hbytes]

/-- An image with the pinned key in its one key tag, and in its one signature tag a signature that
opens to the signed message. -/
structure Policy.Authentic (p : Policy) (word : UInt32) (pinned : KeyDescriptor) (i : BootImage)
    (k : KeyTag) (s : SignatureTag) : Prop where
  signedTags_le : i.signedTags.length ≤ 4
  keyTag : i.tags.filterMap Tag.key? = [k]
  signatureTag : i.tags.filterMap Tag.signature? = [s]
  exponent : k.exponent = pinned.exponent
  modulus : k.modulus.bytes = pinned.modulus
  opens : p.Opens word k s i.message

namespace BootVerifier

/-- An image passes exactly when it is authentic, whatever the slot, the observers, the
expectation and the hash input of the policy are. -/
theorem passes_iff_authentic {v : BootVerifier} {b : Bytes} {carrier : Carrier}
    {observers : Observers} {word : UInt32} {pinned : KeyDescriptor}
    (hp : v.policy.Pins word pinned) :
    (∃ r, (v.verify b carrier observers).1 = .ok r) ↔
      ∃ i k s, BootImage.parse b carrier = .ok i ∧ v.policy.Authentic word pinned i k s := by
  rw [verify_eq_ok_iff]
  constructor
  · rintro ⟨x, hx, hrun⟩
    obtain ⟨hparse, hindex, ⟨k, s, hk, hs, hpolicy⟩, hm⟩ := prepare_eq_ok_iff.mp hx
    obtain ⟨hi, -, -⟩ := BootImage.wellFormed_of_parse hparse
    obtain ⟨hkey, hq⟩ := hp.imagePolicy_eq_ok_iff.mp hpolicy
    obtain ⟨hle, -, -⟩ := BootImage.of_signedIndex_eq_ok hindex
    rw [hkey] at hp
    rw [hq, hp.outcome_image_eq_ok_iff hi hk hindex hm] at hrun
    exact ⟨x.image, k, s, hparse, hle, hk, hs, by rw [hkey]; rfl, by rw [hkey]; rfl, hrun⟩
  · rintro ⟨i, k, s, hparse, hauthentic⟩
    obtain ⟨hi, -, -⟩ := BootImage.wellFormed_of_parse hparse
    have hkey : pinned = k.key := by
      rw [KeyTag.key, hauthentic.exponent, hauthentic.modulus]
    obtain ⟨index, hindex, -⟩ := BootImage.signedIndex_of_le hauthentic.signedTags_le
    obtain ⟨message, hm, -⟩ := BootImage.exists_signedMessage hi hindex
    refine ⟨⟨i, index, v.policy.forExpected s.signature.bytes, message⟩, ?_, ?_⟩
    · exact prepare_eq_ok_iff.mpr ⟨hparse, hindex, ⟨k, s, hauthentic.keyTag,
        hauthentic.signatureTag, hp.imagePolicy_eq_ok_iff.mpr ⟨hkey, rfl⟩⟩, hm⟩
    · rw [hkey] at hp
      exact (hp.outcome_image_eq_ok_iff hi hauthentic.keyTag hindex hm).mpr hauthentic.opens

end BootVerifier

/-! ### Images with the pinned key -/

/-- The octets are an image with few enough signed tags. -/
structure BootImage.Indexed (b : Bytes) (carrier : Carrier) (i : BootImage) : Prop where
  parse : BootImage.parse b carrier = .ok i
  signedTags_le : i.signedTags.length ≤ indexCapacity

/-- The octets are an image with one key and one signature. -/
structure BootImage.Tagged (b : Bytes) (carrier : Carrier) (i : BootImage) (k : KeyTag)
    (s : SignatureTag) : Prop extends Indexed b carrier i where
  keyTag : i.tags.filterMap Tag.key? = [k]
  signatureTag : i.signatureTags = [s]

namespace BootVerifier

/-- With the pinned key in its key tag an image gets to the stages. -/
theorem exists_prepare {v : BootVerifier} {word : UInt32} {pinned : KeyDescriptor}
    (hp : v.policy.Pins word pinned) {b : Bytes} {carrier : Carrier} {i : BootImage} {k : KeyTag}
    {s : SignatureTag} (h : BootImage.Tagged b carrier i k s) (hk : pinned = k.key) :
    ∃ index message, message.bytes = i.message ∧
      v.prepare b carrier =
        .ok ⟨i, index, v.policy.forExpected s.signature.bytes, message⟩ := by
  obtain ⟨hi, -, -⟩ := BootImage.wellFormed_of_parse h.parse
  obtain ⟨index, hindex, -⟩ := BootImage.signedIndex_of_le h.signedTags_le
  obtain ⟨message, hm, -, hbytes⟩ := BootImage.exists_signedMessage hi hindex
  refine ⟨index, message, hbytes, prepare_eq_ok_iff.mpr ⟨h.parse, hindex, ?_, hm⟩⟩
  exact ⟨k, s, h.keyTag, h.signatureTag, hp.imagePolicy_eq_ok_iff.mpr ⟨hk, rfl⟩⟩

/-- With the pinned key in its key tag an image passes exactly when its signature opens to the
message. -/
theorem passes_iff_opens {v : BootVerifier} {word : UInt32} {b : Bytes} {carrier : Carrier}
    {i : BootImage} {k : KeyTag} {s : SignatureTag} (hp : v.policy.Pins word k.key)
    (h : BootImage.Tagged b carrier i k s) (observers : Observers) :
    (∃ r, (v.verify b carrier observers).1 = .ok r) ↔ v.policy.Opens word k s i.message := by
  obtain ⟨hi, -, -⟩ := BootImage.wellFormed_of_parse h.parse
  obtain ⟨index, message, hbytes, hprepare⟩ := exists_prepare hp h rfl
  have hm := BootImage.length_bytes_lt hi hbytes
  rw [verify_eq_ok_iff, ← hbytes]
  simpa only [hprepare, Except.ok.injEq, exists_eq_left'] using
    hp.outcome_eq_ok_iff (hi.key h.keyTag) hm

end BootVerifier

end SignedBoot
