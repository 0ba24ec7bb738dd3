import Mathlib
import SignedBoot.Proofs.Container.FormatFaults
import SignedBoot.Proofs.Verification.Acceptance

/-!
# Why images are rejected

Under a policy that is sound in itself only the image decides, and a rejection names the first
thing wrong with it (`BootVerifier.rejects_with_firstFault`).
-/

namespace SignedBoot

/-! ### Faults of the parts -/

/-- Under a template for SHA-256 whose DigestInfo fits, a scheme finds fault with the encoding
alone. -/
theorem SignatureMode.recover_failsWith {template : Template} (hh : template.hashLength = 32)
    (hi : template.infoLength.toNat ≤ 24) (mode : SignatureMode) (em : Bytes) (digest : Digest)
    (bits : Nat) :
    FailsWith (· = Fault.signatureEncoding) (mode.recover em digest template bits) := by
  cases mode with
  | pss =>
    simp only [recover, Pss.recover, if_neg (not_not.mpr hh)]
    refine .ite rfl (.ite rfl (.ite rfl ?_))
    unfold Pss.recoverExact
    dsimp only
    split
    · refine .ite rfl ?_
      split
      · exact .ok _
      · exact .error rfl
    · exact .error rfl
  | pkcs1 =>
    simp only [recover, Pkcs1.recover, if_neg (not_not.mpr hh), Template.digestInfo?, if_pos hi]
    refine .ite rfl ?_
    split
    · split
      · exact .ok _
      · exact .error rfl
    · exact .error rfl

namespace BootImage

theorem keyTag_of_nil {i : BootImage} (h : i.tags.filterMap Tag.key? = []) :
    i.keyTag = .error .keyTagMissing := by
  rw [keyTag_eq_sole, sole_of_nil h]

theorem keyTag_of_two_le {i : BootImage} (h : 2 ≤ (i.tags.filterMap Tag.key?).length) :
    i.keyTag = .error .keyTagDuplicate := by
  rw [keyTag_eq_sole, sole_of_two_le h]

theorem signatureTag_of_nil {i : BootImage} (h : i.signatureTags = []) :
    i.signatureTag = .error .signatureTagMissing := by
  rw [signatureTag_eq_sole, sole_of_nil h]

theorem signatureTag_of_two_le {i : BootImage} (h : 2 ≤ i.signatureTags.length) :
    i.signatureTag = .error .signatureTagDuplicate := by
  rw [signatureTag_eq_sole, sole_of_two_le h]

end BootImage

/-! ### The order of the checks -/

/-- The encoded message that a signature opens to under a key. -/
def KeyTag.opened (k : KeyTag) (s : SignatureTag) : Bytes :=
  be 256 (beValue s.signature.bytes ^ k.exponent.toNat % k.modulusValue)

namespace Policy

/-- The first check that an image fails, with the fault it is rejected with. Each rule but the
first asks that all checks before its own have passed. -/
inductive FirstFault (p : Policy) (pinned : KeyDescriptor) (mode : SignatureMode) (b : Bytes)
    (carrier : Carrier) : Fault → Prop
  | unparsed {f : Fault} (h : BootImage.parse b carrier = .error f) :
      FirstFault p pinned mode b carrier f
  | indexFull {i : BootImage} (h : BootImage.parse b carrier = .ok i)
      (hl : indexCapacity < i.signedTags.length) : FirstFault p pinned mode b carrier .indexFull
  | keyMissing {i : BootImage} (h : BootImage.Indexed b carrier i)
      (hk : i.tags.filterMap Tag.key? = []) : FirstFault p pinned mode b carrier .keyTagMissing
  | keyDuplicate {i : BootImage} (h : BootImage.Indexed b carrier i)
      (hk : 2 ≤ (i.tags.filterMap Tag.key?).length) :
      FirstFault p pinned mode b carrier .keyTagDuplicate
  | signatureMissing {i : BootImage} {k : KeyTag} (h : BootImage.Indexed b carrier i)
      (hk : i.tags.filterMap Tag.key? = [k]) (hs : i.signatureTags = []) :
      FirstFault p pinned mode b carrier .signatureTagMissing
  | signatureDuplicate {i : BootImage} {k : KeyTag} (h : BootImage.Indexed b carrier i)
      (hk : i.tags.filterMap Tag.key? = [k]) (hs : 2 ≤ i.signatureTags.length) :
      FirstFault p pinned mode b carrier .signatureTagDuplicate
  | keyMismatch {i : BootImage} {k : KeyTag} {s : SignatureTag}
      (h : BootImage.Tagged b carrier i k s) (hk : pinned ≠ k.key) :
      FirstFault p pinned mode b carrier .keyMismatch
  | outOfRange {i : BootImage} {k : KeyTag} {s : SignatureTag}
      (h : BootImage.Tagged b carrier i k s) (hk : pinned = k.key)
      (hs : k.modulusValue ≤ beValue s.signature.bytes) :
      FirstFault p pinned mode b carrier .updateFailed
  | encoding {i : BootImage} {k : KeyTag} {s : SignatureTag} {f : Fault}
      (h : BootImage.Tagged b carrier i k s) (hk : pinned = k.key)
      (hs : beValue s.signature.bytes < k.modulusValue)
      (he : mode.recover (k.opened s) (sha256 i.message) p.template 2048 = .error f) :
      FirstFault p pinned mode b carrier .signatureEncoding
  | mismatch {i : BootImage} {k : KeyTag} {s : SignatureTag} {tokens : Tokens}
      (h : BootImage.Tagged b carrier i k s) (hk : pinned = k.key)
      (hs : beValue s.signature.bytes < k.modulusValue)
      (he : mode.recover (k.opened s) (sha256 i.message) p.template 2048 = .ok tokens)
      (ht : tokens.recovered.bytes.take p.tokenLength.toNat ≠
        tokens.reference.bytes.take p.tokenLength.toNat) :
      FirstFault p pinned mode b carrier .signatureMismatch

variable {p : Policy} {word : UInt32} {pinned : KeyDescriptor} {mode : SignatureMode}

theorem Sane.compare_eq (hp : p.Sane word pinned mode) (x y : Digest) (mismatch : Fault) :
    p.compare x.bytes y.bytes mismatch =
      if x.bytes.take p.tokenLength.toNat = y.bytes.take p.tokenLength.toNat then .ok ()
      else .error mismatch := by
  have h1 := hp.one_le
  have h2 := hp.le_digest
  have hx := x.length_bytes
  have hy := y.length_bytes
  exact if_neg (by omega)

/-- Only a pinned policy's mode, template and comparison decide on an encoded message. -/
theorem Sane.checkMessage_eq (hp : p.Sane word pinned mode) (key : KeyDescriptor) (em : Bytes)
    (digest : Digest) :
    p.checkMessage key em digest =
      (mode.recover em digest p.template key.modulusBits).bind fun tokens =>
        p.compare tokens.recovered.bytes tokens.reference.bytes .signatureMismatch := by
  have hmode : p.options.mode.resolve = .ok mode := by
    rw [hp.options]
    exact PolicyOptions.resolve_decode_eq_ok_iff.mpr hp.onlyMode
  simp only [checkMessage, hmode, hp.schemes, SchemeTable.select_rsa]
  rfl

/-- The verdict on a signature under a pinned policy, when the image has the pinned key. -/
theorem Sane.outcome_eq {k : KeyTag} (hp : p.Sane word k.key mode) (hk : k.WellFormed)
    {message : Gather} (hm : message.bytes.length < 2 ^ 64) (s : SignatureTag) (slot : UInt32)
    (observers : Observers) :
    ((p.forExpected s.signature.bytes).verify (.ofImage slot message observers)).outcome =
      if k.modulusValue ≤ beValue s.signature.bytes then .error .updateFailed
      else (mode.recover (k.opened s) (sha256 message.bytes) p.template 2048).bind fun tokens =>
        p.compare tokens.recovered.bytes tokens.reference.bytes .signatureMismatch := by
  have hdigest := digestStage_ofImage (p := p.forExpected s.signature.bytes) hp.digestOps hm slot
    observers
  have hstage : (p.forExpected s.signature.bytes).options.signatureStage = true :=
    hp.signatureStage_eq_true
  have hkey : (p.forExpected s.signature.bytes).key = some k.key := hp.key
  have hops : (p.forExpected s.signature.bytes).signatureOps = some .rsa := hp.signatureOps
  have hodd : k.modulusValue % 2 = 1 := hp.odd
  rw [outcome_verify_of_digestStage hdigest, judge, if_pos hstage]
  simp only [signatureStage, hkey, hops]
  by_cases hs : k.modulusValue ≤ beValue s.signature.bytes
  · rw [if_pos hs]
    have hrun := SignatureOps.run_rsa_key_of_le hk hodd hs
      (VerifyContext.ofImage slot message observers).candidate message
    exact congrArg (Except.bind · _) hrun
  · rw [if_neg hs]
    have hrun : (SignatureOps.rsa.run (VerifyContext.ofImage slot message observers).candidate
          ⟨s.signature.bytes, message, verifyRequest, k.key⟩).result = .ok () ∧
        (SignatureOps.rsa.run (VerifyContext.ofImage slot message observers).candidate
          ⟨s.signature.bytes, message, verifyRequest, k.key⟩).message.bytes = k.opened s :=
      (SignatureOps.run_rsa_key_eq_ok_iff hk).mpr ⟨hodd, not_le.mp hs, rfl⟩
    obtain ⟨hresult, hpublished⟩ := hrun
    have hcheck := hp.checkMessage_eq k.key (k.opened s) (sha256 message.bytes)
    rw [hk.modulusBits_key] at hcheck
    refine (congrArg (Except.bind · _) hresult).trans ?_
    exact (congrArg (p.checkMessage k.key · (sha256 message.bytes)) hpublished).trans hcheck

end Policy

namespace BootVerifier

variable {v : BootVerifier} {b : Bytes} {carrier : Carrier} {word : UInt32}
  {pinned : KeyDescriptor} {mode : SignatureMode}

theorem verify_of_prepare_error {f : Fault} (h : v.prepare b carrier = .error f)
    (observers : Observers) : v.verify b carrier observers = (.error f, []) := by
  rw [verify, h]

/-- The verdict on an image with the pinned key. -/
theorem verify_of_tagged (hp : v.policy.Sane word pinned mode) {i : BootImage} {k : KeyTag}
    {s : SignatureTag} (h : BootImage.Tagged b carrier i k s) (hk : pinned = k.key)
    (observers : Observers) :
    ∃ r, (v.verify b carrier observers).1 =
      (if k.modulusValue ≤ beValue s.signature.bytes then .error .updateFailed
        else (mode.recover (k.opened s) (sha256 i.message) v.policy.template 2048).bind
          fun tokens => v.policy.compare tokens.recovered.bytes tokens.reference.bytes
            .signatureMismatch).map fun () => r := by
  obtain ⟨hi, -, -⟩ := BootImage.wellFormed_of_parse h.parse
  obtain ⟨index, message, hbytes, hprepare⟩ := exists_prepare hp.toPins h hk
  have hm := BootImage.length_bytes_lt hi hbytes
  subst hk
  have houtcome := hp.outcome_eq (hi.key h.keyTag) hm s v.slot observers
  rw [hbytes] at houtcome
  rw [verify, hprepare]
  dsimp only
  rw [houtcome]
  exact ⟨_, rfl⟩

/-- Once the signed tags are indexed, the tags are asked for and the key is checked. -/
theorem prepare_of_indexed {i : BootImage} (h : BootImage.Indexed b carrier i) :
    ∃ index, v.prepare b carrier = do
      let key ← i.keyTag
      let signature ← i.signatureTag
      let policy ← imagePolicy v.policy key signature
      let message ← i.signedMessage index
      return ⟨i, index, policy, message⟩ := by
  obtain ⟨index, hindex, -⟩ := BootImage.signedIndex_of_le h.signedTags_le
  refine ⟨index, ?_⟩
  rw [prepare, h.parse]
  change (i.signedIndex >>= _) = _
  rw [hindex]
  rfl

/-- Each rule is carried out by the verifier. -/
theorem verify_of_firstFault (hp : v.policy.Sane word pinned mode)
    (hinfo : v.policy.template.infoLength.toNat ≤ 24) {f : Fault}
    (h : v.policy.FirstFault pinned mode b carrier f) (observers : Observers) :
    (v.verify b carrier observers).1 = .error f := by
  have hearly (hf : v.prepare b carrier = .error f) : (v.verify b carrier observers).1 = .error f :=
    congrArg Prod.fst (verify_of_prepare_error hf observers)
  cases h with
  | unparsed h =>
    apply hearly
    rw [prepare, h]
    rfl
  | @indexFull i h hl =>
    apply hearly
    rw [prepare, h]
    change (i.signedIndex >>= _) = _
    rw [BootImage.signedIndex_of_lt hl]
    rfl
  | keyMissing h hk =>
    apply hearly
    obtain ⟨index, hprepare⟩ := prepare_of_indexed (v := v) h
    rw [hprepare, BootImage.keyTag_of_nil hk]
    rfl
  | keyDuplicate h hk =>
    apply hearly
    obtain ⟨index, hprepare⟩ := prepare_of_indexed (v := v) h
    rw [hprepare, BootImage.keyTag_of_two_le hk]
    rfl
  | signatureMissing h hk hs =>
    apply hearly
    obtain ⟨index, hprepare⟩ := prepare_of_indexed (v := v) h
    rw [hprepare, BootImage.keyTag_eq_ok_iff.mpr hk, BootImage.signatureTag_of_nil hs]
    rfl
  | signatureDuplicate h hk hs =>
    apply hearly
    obtain ⟨index, hprepare⟩ := prepare_of_indexed (v := v) h
    rw [hprepare, BootImage.keyTag_eq_ok_iff.mpr hk, BootImage.signatureTag_of_two_le hs]
    rfl
  | @keyMismatch i k s h hk =>
    apply hearly
    obtain ⟨index, hprepare⟩ := prepare_of_indexed (v := v) h.toIndexed
    rw [hprepare, BootImage.keyTag_eq_ok_iff.mpr h.keyTag,
      BootImage.signatureTag_eq_ok_iff.mpr h.signatureTag]
    change (imagePolicy v.policy k s >>= _) = _
    rw [hp.imagePolicy_of_ne hk s]
    rfl
  | outOfRange h hk hs =>
    obtain ⟨r, hr⟩ := verify_of_tagged hp h hk observers
    rw [hr, if_pos hs]
    rfl
  | encoding h hk hs he =>
    obtain ⟨r, hr⟩ := verify_of_tagged hp h hk observers
    obtain rfl := SignatureMode.recover_failsWith hp.hashLength hinfo mode _ _ _ _ he
    rw [hr, if_neg (not_le.mpr hs), he]
    rfl
  | @mismatch i k s tokens h hk hs he ht =>
    obtain ⟨r, hr⟩ := verify_of_tagged hp h hk observers
    have hcompare := hp.compare_eq tokens.recovered tokens.reference .signatureMismatch
    rw [if_neg ht] at hcompare
    rw [hr, if_neg (not_le.mpr hs), he]
    exact congrArg (Except.map fun () => r) hcompare

/-- An image on which no rule fits is accepted. -/
theorem firstFault_or_passes (hp : v.policy.Sane word pinned mode) (b : Bytes) (carrier : Carrier)
    (observers : Observers) :
    (∃ f, v.policy.FirstFault pinned mode b carrier f) ∨
      ∃ r, (v.verify b carrier observers).1 = .ok r := by
  rcases hparse : BootImage.parse b carrier with f | i
  · exact .inl ⟨f, .unparsed hparse⟩
  rcases Nat.lt_or_ge indexCapacity i.signedTags.length with hl | hl
  · exact .inl ⟨_, .indexFull hparse hl⟩
  have hindexed : BootImage.Indexed b carrier i := ⟨hparse, hl⟩
  rcases hkeys : i.tags.filterMap Tag.key? with _ | ⟨k, _ | ⟨k', ks⟩⟩
  · exact .inl ⟨_, .keyMissing hindexed hkeys⟩
  rotate_left
  · exact .inl ⟨_, .keyDuplicate hindexed (by simp [hkeys])⟩
  rcases hsigs : i.signatureTags with _ | ⟨s, _ | ⟨s', ss⟩⟩
  · exact .inl ⟨_, .signatureMissing hindexed hkeys hsigs⟩
  rotate_left
  · exact .inl ⟨_, .signatureDuplicate hindexed hkeys (by simp [hsigs])⟩
  have htagged : BootImage.Tagged b carrier i k s := ⟨hindexed, hkeys, hsigs⟩
  by_cases hkey : pinned = k.key
  rotate_left
  · exact .inl ⟨_, .keyMismatch htagged hkey⟩
  rcases Nat.lt_or_ge (beValue s.signature.bytes) k.modulusValue with hs | hs
  rotate_left
  · exact .inl ⟨_, .outOfRange htagged hkey hs⟩
  rcases he : mode.recover (k.opened s) (sha256 i.message) v.policy.template 2048 with f | tokens
  · exact .inl ⟨_, .encoding htagged hkey hs he⟩
  by_cases ht : tokens.recovered.bytes.take v.policy.tokenLength.toNat =
      tokens.reference.bytes.take v.policy.tokenLength.toNat
  rotate_left
  · exact .inl ⟨_, .mismatch htagged hkey hs he ht⟩
  obtain ⟨r, hr⟩ := verify_of_tagged hp htagged hkey observers
  have hcompare := hp.compare_eq tokens.recovered tokens.reference .signatureMismatch
  rw [if_pos ht] at hcompare
  refine .inr ⟨r, ?_⟩
  rw [hr, if_neg (not_le.mpr hs), he]
  exact congrArg (Except.map fun () => r) hcompare

end BootVerifier

/-- What images are rejected with: faults of the format, a full index, a verification, and of the
operations only the one that raises the signature. -/
structure Fault.OfImage (f : Fault) : Prop where
  kind_ne : f.kind ≠ .config
  updateFailed : f.code.word.toNat / 0x10000 = 5 → f = .updateFailed

theorem Fault.IsFormat.ofImage {f : Fault} (h : f.IsFormat) : f.OfImage := by
  have hkind : f.code.kind = .format := h
  refine ⟨?_, fun hc => ?_⟩
  · rw [kind, hkind]
    decide
  · rw [ErrorCode.kind, hc] at hkind
    cases hkind

theorem Policy.FirstFault.ofImage {p : Policy} {pinned : KeyDescriptor} {mode : SignatureMode}
    {b : Bytes} {carrier : Carrier} {f : Fault} (h : p.FirstFault pinned mode b carrier f) :
    f.OfImage := by
  cases h with
  | unparsed h => exact (BootImage.parse_failsWith_format b carrier f h).ofImage
  | _ => exact ⟨by decide, by decide⟩

namespace BootVerifier

/-- A sound pinned policy rejects an image with the fault of the first check that it fails, which
is never one of the policy, and runs no stage before the pinned key was found in the image. -/
theorem rejects_with_firstFault {v : BootVerifier} {word : UInt32} {pinned : KeyDescriptor}
    {mode : SignatureMode} (hp : v.policy.Sane word pinned mode)
    (hinfo : v.policy.template.infoLength.toNat ≤ 24) (b : Bytes) (carrier : Carrier)
    (observers : Observers) :
    (∀ f, (v.verify b carrier observers).1 = .error f ↔
        v.policy.FirstFault pinned mode b carrier f) ∧
      (∀ f, (v.verify b carrier observers).1 = .error f → f.OfImage) ∧
      ((v.verify b carrier observers).2 ≠ [] →
        ∃ i k s, BootImage.Tagged b carrier i k s ∧ pinned = k.key) := by
  have hiff : ∀ f, (v.verify b carrier observers).1 = .error f ↔
      v.policy.FirstFault pinned mode b carrier f := by
    intro f
    refine ⟨fun hf => ?_, fun hf => verify_of_firstFault hp hinfo hf observers⟩
    rcases firstFault_or_passes hp b carrier observers with ⟨g, hg⟩ | ⟨r, hr⟩
    · have hverdict := verify_of_firstFault hp hinfo hg observers
      rw [hf] at hverdict
      cases hverdict
      exact hg
    · rw [hf] at hr
      cases hr
  refine ⟨hiff, fun f hf => ((hiff f).mp hf).ofImage, fun htrace => ?_⟩
  rcases hprepare : v.prepare b carrier with f | x
  · rw [verify_of_prepare_error hprepare observers] at htrace
    exact absurd rfl htrace
  · obtain ⟨hparse, hindex, ⟨k, s, hk, hs, hpolicy⟩, -⟩ := prepare_eq_ok_iff.mp hprepare
    obtain ⟨hle, -, -⟩ := BootImage.of_signedIndex_eq_ok hindex
    exact ⟨x.image, k, s, ⟨⟨hparse, hle⟩, hk, hs⟩, (hp.imagePolicy_eq_ok_iff.mp hpolicy).1⟩

/-- The modulus of a key put in the place of a signature under it is just too large. -/
theorem modulus_as_signature_rejected :
    (Policy.pinning 0x4000001 BootImage.someKey.key).Sane 0x4000001 BootImage.someKey.key .pkcs1 ∧
      (Policy.pinning 0x4000001 BootImage.someKey.key).template.infoLength.toNat ≤ 24 ∧
      ((ofPolicy (.pinning 0x4000001 BootImage.someKey.key)).verify
        (BootImage.ofTags [.key BootImage.someKey, .signature ⟨BootImage.someKey.modulus⟩]).encode
        .unbounded .all).1 = .error .updateFailed := by
  have hmode : PolicyOptions.OnlyMode 0x4000001 .pkcs1 := by
    intro m
    cases m <;> decide
  have hp : (Policy.pinning 0x4000001 BootImage.someKey.key).Sane 0x4000001
      BootImage.someKey.key .pkcs1 :=
    { Policy.pins_pinning 0x4000001 BootImage.someKey.key (by decide) with
      odd := by decide +kernel
      onlyMode := hmode
      hashLength := rfl
      one_le := by decide
      le_digest := by decide }
  have htags : ∀ t ∈ [Tag.key BootImage.someKey, .signature ⟨BootImage.someKey.modulus⟩],
      t.WellFormed := by
    simp [Tag.WellFormed, BootImage.wellFormed_someKey]
  have hparse := BootImage.parse_ofTags_of_few htags (by decide)
  have htagged := BootImage.Tagged.mk ⟨hparse, by decide⟩ rfl rfl
  have hinfo : (Policy.pinning 0x4000001 BootImage.someKey.key).template.infoLength.toNat ≤ 24 := by
    decide
  exact ⟨hp, hinfo, ((rejects_with_firstFault (v := ofPolicy _) hp hinfo _ _ _).1 _).mpr
    (.outOfRange htagged rfl le_rfl)⟩

end BootVerifier

end SignedBoot
