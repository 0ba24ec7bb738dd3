import Mathlib
import SignedBoot.Proofs.Encoding.Pkcs1
import SignedBoot.Proofs.Encoding.PssOctets
import SignedBoot.Proofs.Generation.RoundTrip
import SignedBoot.Proofs.Generation.SigningKeys
import SignedBoot.Proofs.Verification.Acceptance

/-!
# Signed images pass

What a signer must do for the images that are generated with it to pass a policy that pins its key:
open, under that key, to an encoding of the digest it is given. Every recipe that the index and the
descriptor have room for then makes an image that passes (`Recipe.signed_image_passes`).
-/

namespace SignedBoot

/-! ### Encodings of a digest -/

/-- The encoded messages of a digest for a key of 2048 bits, octet by octet, in each mode under a
template. -/
inductive SignatureMode.Encodes (template : Template) (digest : Digest) :
    SignatureMode → Bytes → Prop
  | pss {salt em : Bytes} (hs : salt.length = template.saltLength.toNat)
      (hem : EmsaPss.IsEncoding digest salt 2047 em) : Encodes template digest .pss em
  | pkcs1 (hp : template.infoLength.toNat ≤ 24) :
      Encodes template digest .pkcs1 ([0x00, 0x01] ++
        List.replicate (256 - template.infoLength.toNat - 35) 0xff ++ [0x00] ++
        template.info.bytes.take template.infoLength.toNat ++ digest.bytes)

namespace SignatureMode.Encodes

variable {template : Template} {digest : Digest} {mode : SignatureMode} {em : Bytes}

theorem length_eq (h : mode.Encodes template digest em) : em.length = 256 := by
  cases h with
  | pss hs hem =>
    rw [hem.length_eq, ← Pss.encodedLength_eq_ceilDiv]
    rfl
  | pkcs1 hp =>
    simp
    omega

/-- Taken apart, an encoding gives the same hash twice. -/
theorem exists_recover (h : mode.Encodes template digest em) (hh : template.hashLength = 32) :
    ∃ hash, mode.recover em digest template 2048 = .ok ⟨hash, hash⟩ := by
  cases h with
  | pss hs hem =>
    obtain ⟨hroom, rfl⟩ := Pss.isEncoding_iff.mp hem
    exact ⟨_, Pss.recover_encode hh (by decide) (by decide) hroom hs 0⟩
  | pkcs1 hp =>
    obtain ⟨hinfo, hlength⟩ := Pkcs1.digestInfo?_eq_some hp
    rw [← Pkcs1.encode_eq_octets hlength]
    exact ⟨digest, Pkcs1.recover_encode hh hinfo (by omega) digest digest 2048⟩

end SignatureMode.Encodes

/-- What a padding makes for a key of 2048 bits is an encoding, as far as the salt of 32 octets
goes by the template. -/
theorem Padding.encodes {n : Nat} (hn : bitLength n = 2048) {mode : SignatureMode}
    {saltLength : UInt8} (hs : mode = .pss → saltLength = 32) (salt : Block 32) (digest : Digest) :
    mode.Encodes (.sha256 saltLength) digest ((ofMode salt mode).encode digest n) := by
  cases mode with
  | pss =>
    obtain rfl := hs rfl
    have hsalt : salt.bytes.length = 32 := salt.length_bytes
    simp only [ofMode, encode, hn]
    exact .pss hsalt (Pss.isEncoding_encode (by rw [hsalt]; decide))
  | pkcs1 =>
    have hoctets : octetLength n = 256 := by
      rw [octetLength, hn]
    have hp : (Template.sha256 saltLength).infoLength.toNat ≤ 24 := Nat.le_of_ble_eq_true rfl
    have hlength : Template.sha256Info.length = 19 := rfl
    simp only [ofMode, encode, hoctets]
    rw [Pkcs1.encode_eq_octets hlength]
    exact .pkcs1 hp

/-! ### Signers -/

/-- What a signer returns for a digest opens under its key to an encoding of the digest. -/
inductive Signer.SignsDigest (signer : Signer) (mode : SignatureMode) (template : Template)
    (digest : Digest) : Prop
  | intro (s : Block 256) (em : Bytes) (hs : signer.sign? digest = some s)
      (hlt : beValue s.bytes < beValue signer.key.modulus.bytes)
      (hem : mode.Encodes template digest em)
      (hroot : beValue s.bytes ^ signer.key.exponent.toNat % beValue signer.key.modulus.bytes =
        beValue em)

/-- A signing key signs a digest when its padding is an encoding of the digest. -/
theorem SigningKey.signsDigest {key : PrivateKey} {k : SigningKey} (hk : ofPrivate key = .ok k)
    {padding : Padding} {digest : Digest} {s : Block 256} (hs : k.sign? padding digest = some s)
    {mode : SignatureMode} {template : Template}
    (hem : mode.Encodes template digest (padding.encode digest key.modulus)) :
    (Signer.ofSigningKey k padding).SignsDigest mode template digest := by
  obtain ⟨hmodulus, -, -⟩ := ofPrivate_eq_ok_iff.mp hk
  obtain ⟨rfl, hn, he⟩ := image_of_ofPrivate hk
  obtain ⟨hlt, hroot⟩ := root_of_sign? hmodulus.le hs
  refine .intro s _ hs ?_ hem ?_
  · exact hlt.trans_eq hn.symm
  · change beValue s.bytes ^ k.image.exponent.toNat % beValue k.image.modulus.bytes = _
    rw [he, hn, hroot]

/-- With two primes a key of 2048 bits signs every digest in both modes. -/
theorem SigningKey.signsDigest_standard {key : PrivateKey} {k : SigningKey}
    (hk : ofPrivate key = .ok k) (hprimes : key.TwoPrimes) (hn : bitLength key.modulus = 2048)
    (salt : Block 32) (mode : SignatureMode) (digest : Digest) :
    (Signer.ofSigningKey k (.ofMode salt mode)).SignsDigest mode .standard digest := by
  obtain ⟨hmodulus, -, -⟩ := ofPrivate_eq_ok_iff.mp hk
  obtain ⟨rfl, -, -⟩ := image_of_ofPrivate hk
  obtain ⟨s, hs⟩ := exists_sign? hprimes hmodulus (.ofMode salt mode) digest
  exact signsDigest hk hs (Padding.encodes hn (fun _ => rfl) salt digest)

/-- The policy that pins the key of a signing key can be met. -/
theorem SigningKey.sane_pinning {key : PrivateKey} {k : SigningKey} (hk : ofPrivate key = .ok k)
    {word : UInt32} {mode : SignatureMode}
    (hstage : PolicyOptions.hasFlag word PolicyFlag.signatureStage = true)
    (hmode : PolicyOptions.OnlyMode word mode) :
    (Policy.pinning word k.image.descriptor).Sane word k.image.descriptor mode := by
  obtain ⟨-, hn, -⟩ := image_of_ofPrivate hk
  obtain ⟨-, -, hodd, -, -⟩ := key.sound
  exact { Policy.pins_pinning word _ hstage with
    odd := (congrArg (· % 2) hn).trans hodd
    onlyMode := hmode
    hashLength := rfl
    one_le := Nat.le_of_ble_eq_true rfl
    le_digest := le_rfl }

/-- The signature of a digest by such a signer opens to every message with that digest. -/
theorem Policy.Sane.opens {p : Policy} {word : UInt32} {key : ImageKey} {mode : SignatureMode}
    (hp : p.Sane word key.descriptor mode) {s : Block 256} {em message : Bytes}
    (hlt : beValue s.bytes < beValue key.modulus.bytes)
    (hem : mode.Encodes p.template (sha256 message) em)
    (hroot : beValue s.bytes ^ key.exponent.toNat % beValue key.modulus.bytes = beValue em) :
    p.Opens word (Recipe.keyTag key) ⟨s⟩ message := by
  obtain ⟨hash, hrecover⟩ := hem.exists_recover hp.hashLength
  have hopened : be 256 (beValue s.bytes ^ key.exponent.toNat % beValue key.modulus.bytes) =
      em := by
    rw [hroot, ← hem.length_eq]
    exact be_beValue em
  refine ⟨hp.odd, hlt, mode, ⟨hash, hash⟩, hp.onlyMode, ?_, hp.one_le, hp.le_digest, rfl⟩
  exact (congrArg (mode.recover · (sha256 message) p.template 2048) hopened).trans hrecover

/-! ### Recipes -/

namespace Recipe

variable {r : Recipe} {entries : List LoadEntry}

/-- A recipe for a signed image that keeps every rule: its load entries lie in the payload, and the
descriptor, the regions and the index have room for what it asks for. -/
structure Bootable (r : Recipe) (entries : List LoadEntry) : Prop where
  payloadEntries : r.payloadEntries = .ok entries
  entries_le : entries.length ≤ 8
  inside : ∀ e ∈ entries, 1 ≤ e.size.toNat ∧ e.offset.toNat + e.size.toNat ≤ r.payload.length
  regionCount_le : r.regionCount.toNat ≤ r.regionMode.maxCount
  layoutTags_le : r.layoutTags ≤ 3
  keyTags : r.keyTags = 1
  signatureTag : r.signatureTag = true

theorem Bootable.countable_iff (h : r.Bootable entries) :
    r.Countable entries ↔ r.totalLength entries < UInt32.size := by
  constructor
  · exact Countable.totalLength_lt
  · intro hl
    have htrailer : r.trailerOffset entries ≤ r.totalLength entries := by
      rw [totalLength, Nat.add_assoc]
      exact Nat.le_add_right _ _
    exact ⟨h.entries_le, h.regionCount_le, htrailer.trans_lt hl, hl⟩

/-- Offsets inside a payload that is counted in words are words themselves. -/
theorem Bootable.rebases (h : r.Bootable entries) (hc : r.Countable entries) : Rebases entries := by
  intro e he
  have hlt := hc.trailerOffset_lt
  have hinside := h.inside e he
  rw [trailerOffset] at hlt
  omega

theorem Bootable.wellFormed (h : r.Bootable entries) (hc : r.Countable entries) {key : ImageKey}
    (hk : key.Carriable) (s : Block 256) :
    (r.finish key entries (some s)).image.WellFormed := by
  have hsuits : r.Suits (some s) := h.signatureTag.symm
  exact (wellFormed_finish_iff hc hsuits (h.rebases hc)).mpr ⟨h.inside, fun _ => hk⟩

/-- The image of such a recipe has one key tag, with the key of its signer, and one signature. -/
theorem Bootable.tagged (h : r.Bootable entries) (hc : r.Countable entries) {key : ImageKey}
    (hk : key.Carriable) (s : Block 256) {carrier : Carrier}
    (hfits : carrier.Fits (r.finish key entries (some s)).image.totalLength) :
    BootImage.Tagged (r.finish key entries (some s)).image.encode carrier
      (r.finish key entries (some s)).image (keyTag key) ⟨s⟩ := by
  have htags : (r.finish key entries (some s)).image.tags =
      List.replicate r.layoutTags (.layout (r.layoutTag (r.descriptor entries))) ++
        [.key (keyTag key), .signature ⟨s⟩] := by
    change r.signedTags (r.descriptor entries) key ++ [.signature ⟨s⟩] = _
    rw [signedTags, h.keyTags, List.append_assoc]
    rfl
  have hlayouts {α : Type} (f : Tag → Option α)
      (hf : f (.layout (r.layoutTag (r.descriptor entries))) = none) :
      (List.replicate r.layoutTags (.layout (r.layoutTag (r.descriptor entries)))).filterMap f =
        [] :=
    List.filterMap_replicate_of_none hf
  refine ⟨⟨BootImage.parse_encode (h.wellFormed hc hk s) hfits, ?_⟩, ?_, ?_⟩
  · have hle := h.layoutTags_le
    rw [signedTags_finish, signedTags, h.keyTags]
    simp only [List.length_append, List.length_replicate, indexCapacity]
    omega
  · rw [htags, List.filterMap_append, hlayouts _ rfl]
    rfl
  · rw [BootImage.signatureTags, htags, List.filterMap_append, hlayouts _ rfl]
    rfl

/-- Whether the recipe gets its image is only a matter of its length. -/
theorem Bootable.exists_generate_iff (h : r.Bootable entries) {signer : Signer}
    {mode : SignatureMode} {template : Template}
    (hs : ∀ i, r.unsigned signer.key = .ok i → signer.SignsDigest mode template (sha256 i.encode)) :
    (∃ g, r.generate signer = .ok g) ↔ r.totalLength entries < UInt32.size := by
  rw [← h.countable_iff]
  constructor
  · rintro ⟨g, hg⟩
    obtain ⟨entries', signature, he, hc, -, -⟩ := generate_eq_ok_iff.mp hg
    obtain rfl := Except.ok.inj (he.symm.trans h.payloadEntries)
    exact hc
  · intro hc
    obtain ⟨s, em, hsign, -, -, -⟩ :=
      hs _ (unsigned_eq_ok_iff.mpr ⟨entries, h.payloadEntries, hc, rfl⟩)
    exact ⟨_, generate_eq_ok_iff.mpr
      ⟨entries, some s, h.payloadEntries, hc, .signed s h.signatureTag hsign, rfl⟩⟩

theorem fits_unbounded_of_generate {signer : Signer} {g : GeneratedImage}
    (hg : r.generate signer = .ok g) : Carrier.unbounded.Fits g.image.encode.length := by
  obtain ⟨entries', signature, -, hc, hsigns, rfl⟩ := generate_eq_ok_iff.mp hg
  rw [length_encode_finish signer.key hc hsigns.suits,
    ← totalLength_finish signer.key signature hc]
  exact fits_unbounded_finish signer.key signature hc

/-- The image that such a signer makes carries its key, and a signature that opens to the signed
message. -/
theorem Bootable.exists_opens {signer : Signer} {mode : SignatureMode} {p : Policy} {word : UInt32}
    (hr : r.Bootable entries) (hk : signer.key.Carriable)
    (hp : p.Sane word signer.key.descriptor mode)
    (hs : ∀ i, r.unsigned signer.key = .ok i → signer.SignsDigest mode p.template (sha256 i.encode))
    {g : GeneratedImage} (hg : r.generate signer = .ok g) {carrier : Carrier}
    (hfits : carrier.Fits g.image.encode.length) :
    ∃ s, BootImage.Tagged g.image.encode carrier g.image (keyTag signer.key) s ∧
      p.Opens word (keyTag signer.key) s g.image.message := by
  obtain ⟨entries', signature, he, hc, hsigns, rfl⟩ := generate_eq_ok_iff.mp hg
  obtain rfl := Except.ok.inj (he.symm.trans hr.payloadEntries)
  cases hsigns with
  | unsigned htag =>
    rw [hr.signatureTag] at htag
    cases htag
  | signed s htag hsign =>
    obtain ⟨s', em, hsign', hlt, hem, hroot⟩ :=
      hs _ (unsigned_eq_ok_iff.mpr ⟨_, hr.payloadEntries, hc, rfl⟩)
    obtain rfl := Option.some.inj (hsign.symm.trans hsign')
    rw [(hr.wellFormed hc hk s).length_encode] at hfits
    refine ⟨⟨s⟩, hr.tagged hc hk s hfits, ?_⟩
    rw [message_finish]
    exact hp.opens hlt hem hroot

/-- A signer that opens to an encoding of the digest makes images that pass every policy that pins
its key in that mode, and what is known of a passed image is what went into it. -/
theorem signed_image_passes {signer : Signer} {mode : SignatureMode} {v : BootVerifier}
    {word : UInt32} (hr : r.Bootable entries) (hk : signer.key.Carriable)
    (hp : v.policy.Sane word signer.key.descriptor mode)
    (hs : ∀ i, r.unsigned signer.key = .ok i →
      signer.SignsDigest mode v.policy.template (sha256 i.encode)) :
    ((∃ g, r.generate signer = .ok g) ↔ r.totalLength entries < UInt32.size) ∧
      ∀ g, r.generate signer = .ok g → ∀ carrier : Carrier, carrier.Fits g.image.encode.length →
        ∀ observers, ∃ x, (v.verify g.image.encode carrier observers).1 = .ok x ∧
          x.digest = (if PolicyOptions.hasFlag word PolicyFlag.copyDigest then some g.digest
            else none) ∧
          x.totalLength.toNat = g.image.encode.length ∧
          x.entries.map (fun e => (e.offset.toNat, e.size.toNat)) =
            entries.map fun e => (payloadOffset entries + e.offset.toNat, e.size.toNat) := by
  refine ⟨hr.exists_generate_iff hs, ?_⟩
  intro g hg carrier hfits observers
  obtain ⟨s, htagged, hopens⟩ := hr.exists_opens hk hp hs hg hfits
  obtain ⟨x, hx⟩ := (BootVerifier.passes_iff_opens hp.toPins htagged observers).mpr hopens
  obtain ⟨i, index, hparse, -, rfl⟩ := BootVerifier.verified_eq hp.digestOps hx
  obtain rfl := Except.ok.inj (htagged.parse.symm.trans hparse)
  obtain ⟨hw, -, -⟩ := BootImage.wellFormed_of_parse htagged.parse
  obtain ⟨entries', signature, he, hc, -, rfl⟩ := generate_eq_ok_iff.mp hg
  obtain rfl := Except.ok.inj (he.symm.trans hr.payloadEntries)
  refine ⟨_, hx, ?_, hw.length_encode.symm,
    @entries_finish r _ signature signer.key (hr.rebases hc)⟩
  rw [hp.options, message_finish]
  rfl

theorem bootable_overlapping : overlapping.Bootable [⟨0, 4⟩, ⟨2, 2⟩] :=
  ⟨rfl, by decide, acceptable_overlapping.entries, by decide, by decide, rfl, rfl⟩

/-- Under the key of 2048 bits the recipe gets an image in both modes. -/
theorem exists_generate_overlapping {k : SigningKey}
    (hk : SigningKey.ofPrivate PrivateKey.full = .ok k) (mode : SignatureMode) :
    ∃ g, overlapping.generate (.ofSigningKey k (.ofMode (.zero 32) mode)) = .ok g :=
  (bootable_overlapping.exists_generate_iff fun i _ =>
    SigningKey.signsDigest_standard hk PrivateKey.twoPrimes_full PrivateKey.bitLength_full
      (.zero 32) mode (sha256 i.encode)).mpr countable_overlapping.totalLength_lt

theorem overlapping_signed_passes : ∃ k g,
    SigningKey.ofPrivate PrivateKey.full = .ok k ∧
      overlapping.Bootable [⟨0, 4⟩, ⟨2, 2⟩] ∧ k.image.Carriable ∧
      (Policy.pinning 0x2000003 k.image.descriptor).Sane 0x2000003 k.image.descriptor .pss ∧
      (∀ i, overlapping.unsigned k.image = .ok i →
        (Signer.ofSigningKey k (.pss (.zero 32))).SignsDigest .pss .standard (sha256 i.encode)) ∧
      overlapping.generate (.ofSigningKey k (.pss (.zero 32))) = .ok g ∧
      ∃ x, ((BootVerifier.ofPolicy (.pinning 0x2000003 k.image.descriptor)).verify g.image.encode
        .unbounded .all).1 = .ok x ∧ x.digest = some g.digest := by
  obtain ⟨k, hk⟩ := SigningKey.exists_ofPrivate_full
  have hcarriable := (SigningKey.carriable_image_iff hk).mpr PrivateKey.bitLength_full
  have hmode : PolicyOptions.OnlyMode 0x2000003 .pss := by
    intro m
    cases m <;> decide
  have hsane := SigningKey.sane_pinning hk (by decide) hmode
  have hsigns := SigningKey.signsDigest_standard hk PrivateKey.twoPrimes_full
    PrivateKey.bitLength_full (.zero 32) .pss
  obtain ⟨-, hpasses⟩ := @signed_image_passes _ _ (.ofSigningKey k (.pss (.zero 32))) .pss
    (.ofPolicy (.pinning 0x2000003 k.image.descriptor)) 0x2000003 bootable_overlapping hcarriable
    hsane fun i _ => hsigns (sha256 i.encode)
  obtain ⟨g, hg⟩ := exists_generate_overlapping hk .pss
  obtain ⟨x, hx, hdigest, -, -⟩ := hpasses g hg .unbounded (fits_unbounded_of_generate hg) .all
  exact ⟨k, g, hk, bootable_overlapping, hcarriable, hsane, fun i _ => hsigns _, hg, x, hx, hdigest⟩

end Recipe

/-- Under one policy an image with a signature by the pinned key is authentic and passes, and an
image with another key does not pass. -/
theorem BootVerifier.signed_image_passes_and_other_key_fails : ∃ k g s,
    SigningKey.ofPrivate PrivateKey.full = .ok k ∧
      Recipe.overlapping.generate (.ofSigningKey k .pkcs1) = .ok g ∧
      (Policy.pinning 0x4000001 k.image.descriptor).Pins 0x4000001 k.image.descriptor ∧
      BootImage.parse g.image.encode .unbounded = .ok g.image ∧
      (Policy.pinning 0x4000001 k.image.descriptor).Authentic 0x4000001 k.image.descriptor g.image
        (Recipe.keyTag k.image) s ∧
      (∃ r, ((ofPolicy (.pinning 0x4000001 k.image.descriptor)).verify g.image.encode .unbounded
        .all).1 = .ok r) ∧
      ¬ ∃ r, ((ofPolicy (.pinning 0x4000001 k.image.descriptor)).verify
        (BootImage.ofTags BootImage.keyThenSignature).encode .unbounded .all).1 = .ok r := by
  obtain ⟨k, hk⟩ := SigningKey.exists_ofPrivate_full
  have hcarriable := (SigningKey.carriable_image_iff hk).mpr PrivateKey.bitLength_full
  have hmode : PolicyOptions.OnlyMode 0x4000001 .pkcs1 := by
    intro m
    cases m <;> decide
  have hsane := SigningKey.sane_pinning hk (by decide) hmode
  have hpins := hsane.toPins
  obtain ⟨g, hg⟩ := Recipe.exists_generate_overlapping hk .pkcs1
  have hsigns := SigningKey.signsDigest_standard hk PrivateKey.twoPrimes_full
    PrivateKey.bitLength_full (.zero 32) .pkcs1
  obtain ⟨s, htagged, hopens⟩ := Recipe.bootable_overlapping.exists_opens hcarriable hsane
    (fun i _ => hsigns (sha256 i.encode)) hg (Recipe.fits_unbounded_of_generate hg)
  have hauthentic : (Policy.pinning 0x4000001 k.image.descriptor).Authentic 0x4000001
      k.image.descriptor g.image (Recipe.keyTag k.image) s :=
    ⟨htagged.signedTags_le, htagged.keyTag, htagged.signatureTag, rfl, rfl, hopens⟩
  refine ⟨k, g, s, hk, hg, hpins, htagged.parse, hauthentic,
    (passes_iff_authentic hpins).mpr ⟨_, _, _, htagged.parse, hauthentic⟩, fun hpasses => ?_⟩
  obtain ⟨i, other, s', hparse, hother⟩ := (passes_iff_authentic hpins).mp hpasses
  rw [BootImage.parse_keyThenSignature] at hparse
  cases hparse
  obtain rfl : BootImage.someKey = other := List.singleton_inj.mp hother.keyTag
  have hexponent := congrArg UInt32.toNat hother.exponent
  change 3 = k.image.exponent.toNat at hexponent
  rw [(SigningKey.image_of_ofPrivate hk).2.2] at hexponent
  exact absurd hexponent (by decide)

end SignedBoot
