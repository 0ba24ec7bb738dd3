import Mathlib
import SignedBoot.Proofs.Command.SignThenVerify
import SignedBoot.Proofs.Verification.DigestOnly

/-!
# What a configuration lets pass

The verify command passes an image in two ways and no others (`Command.verify_passes_iff`). With the
signature stage on, the configuration names a public key and the boot verifier accepts the image as
signed under it, whatever digest the configuration expects. With the stage off, the digest of the
image starts with the octets that the configuration expects, as many as it compares.
-/

namespace SignedBoot

namespace BootVerifier

/-! ### Signed images -/

/-- An image carries one key, which is this one, and one signature, which opens under it in one mode
with a salt of one length, as far as hashes are compared. -/
structure SignedUnder (key : ImageKey) (mode : SignatureMode) (saltLength : UInt8)
    (compared : UInt32) (i : BootImage) (k : KeyTag) (s : SignatureTag) : Prop where
  signedTags_le : i.signedTags.length ≤ 4
  keyTag : i.tags.filterMap Tag.key? = [k]
  signatureTag : i.signatureTags = [s]
  key_eq : k.key = key.descriptor
  odd : k.modulusValue % 2 = 1
  lt_modulus : beValue s.signature.bytes < k.modulusValue
  one_le : 1 ≤ compared.toNat
  le_digest : compared.toNat ≤ 32
  encoding : ∃ tokens,
    mode.recover (be 256 (beValue s.signature.bytes ^ k.exponent.toNat % k.modulusValue))
      (sha256 i.message) (.sha256 saltLength) 2048 = .ok tokens ∧
    tokens.recovered.bytes.take compared.toNat = tokens.reference.bytes.take compared.toNat

/-- A policy in the signature mode: it pins the key, selects the mode, takes the template of SHA-256
with salts of one length, and compares so many octets. What it expects, whether it copies digests
and what else it hashes are left open. -/
structure SignaturePolicy (key : ImageKey) (mode : SignatureMode) (saltLength : UInt8)
    (compared : UInt32) (p : Policy) : Prop where
  pins : ∃ word, p.Pins word key.descriptor ∧ PolicyOptions.OnlyMode word mode
  template : p.template = .sha256 saltLength
  tokenLength : p.tokenLength = compared

variable {key : ImageKey} {mode : SignatureMode} {saltLength : UInt8} {compared : UInt32}

theorem SignaturePolicy.passes_iff {p : Policy}
    (hp : SignaturePolicy key mode saltLength compared p) (slot : UInt32) (b : Bytes)
    (carrier : Carrier) (observers : Observers) :
    (∃ r, (verify ⟨p, slot⟩ b carrier observers).1 = .ok r) ↔ ∃ i k s,
      BootImage.parse b carrier = .ok i ∧ SignedUnder key mode saltLength compared i k s := by
  obtain ⟨⟨word, hpins, honly⟩, htemplate, rfl⟩ := hp
  constructor
  · intro hpasses
    obtain ⟨x, hx, -⟩ := verify_eq_ok_iff.mp hpasses
    obtain ⟨hparse, hindex, ⟨k, s, hk, hs, hpolicy⟩, -⟩ := prepare_eq_ok_iff.mp hx
    obtain ⟨hle, -, -⟩ := BootImage.of_signedIndex_eq_ok hindex
    have hkey := (hpins.imagePolicy_eq_ok_iff.mp hpolicy).1
    rw [hkey] at hpins
    obtain ⟨hodd, hlt, mode', tokens, honly', hrecover, hone, hmax, hagree⟩ :=
      (passes_iff_opens (v := ⟨p, slot⟩) hpins ⟨⟨hparse, hle⟩, hk, hs⟩ observers).mp hpasses
    obtain rfl : mode' = mode := (honly mode').mp ((honly' mode').mpr rfl)
    rw [htemplate] at hrecover
    exact ⟨x.image, k, s, hparse, hle, hk, hs, hkey.symm, hodd, hlt, hone, hmax, tokens, hrecover,
      hagree⟩
  · rintro ⟨i, k, s, hparse, hle, hk, hs, hkey, hodd, hlt, hone, hmax, tokens, hrecover, hagree⟩
    rw [← hkey] at hpins
    rw [← htemplate] at hrecover
    exact (passes_iff_opens (v := ⟨p, slot⟩) hpins ⟨⟨hparse, hle⟩, hk, hs⟩ observers).mpr
      ⟨hodd, hlt, mode, tokens, honly, hrecover, hone, hmax, hagree⟩

end BootVerifier

namespace Command

open BootVerifier (SignedUnder SignaturePolicy)

variable {σ : Type} {store : FileStore σ} {t : σ} {image : String} {settings : Settings}

theorem signaturePolicy_policy (p : PolicySettings) (key : ImageKey) (expected : Bytes) :
    SignaturePolicy key p.mode p.saltLength p.tokenLength (policy p (some key) expected) := by
  obtain ⟨word, hdecode, hstage, honly⟩ := exists_decode_eq p.copyDigest p.mode
  exact ⟨⟨word, ⟨hdecode.symm, hstage, rfl, rfl, rfl, rfl⟩, honly⟩, rfl, rfl⟩

theorem digestOnly_policy (p : PolicySettings) (expected : Bytes) :
    (policy p none expected).DigestOnly := ⟨rfl, rfl⟩

/-! ### Both ways to pass -/

/-- An image file is loaded from the carrier's base. -/
def LoadsImage (store : FileStore σ) (t : σ) (image : String) (carrier : Carrier) (b : Bytes) :
    Prop :=
  ∃ contents, store.read? t image = some contents ∧
    Storage.memory.load contents carrier contents.length = .ok b

/-- With the signature stage on: the public key is given, a digest that is expected is written well,
and the boot verifier accepts the image under every policy for the key, the mode and the salts. -/
structure PassesSigned (store : FileStore σ) (t : σ) (image : String) (settings : Settings)
    (file : String) (key : PublicKey) (carried : ImageKey) (b : Bytes) : Prop where
  publicKey : settings.policy.publicKey = some file
  document : store.HoldsPublicKey t (settings.path file) key
  ofParts : ImageKey.ofParts key.modulus key.exponent = .ok carried
  digits : ∀ digits, settings.policy.expectedDigest = some digits →
    ∃ x, Hex.decode digits.toUTF8.toList = .ok x
  loaded : LoadsImage store t image settings.carrier b
  accepted : ∀ p slot observers, SignaturePolicy carried settings.policy.mode
    settings.policy.saltLength settings.policy.tokenLength p →
      ∃ r, (BootVerifier.verify ⟨p, slot⟩ b settings.carrier observers).1 = .ok r

/-- With the signature stage off: a digest is expected, written in as many octets as are compared,
the image has the parts of one that is verified, and the digest of its signed message starts with
these octets. -/
structure PassesDigest (store : FileStore σ) (t : σ) (image : String) (settings : Settings)
    (digits : String) (expected : Bytes) (b : Bytes) (i : BootImage) : Prop where
  expectedDigest : settings.policy.expectedDigest = some digits
  decode : Hex.decode digits.toUTF8.toList = .ok expected
  length_expected : expected.length = settings.policy.tokenLength.toNat
  one_le : 1 ≤ settings.policy.tokenLength.toNat
  le_digest : settings.policy.tokenLength.toNat ≤ 32
  loaded : LoadsImage store t image settings.carrier b
  parsed : BootImage.parse b settings.carrier = .ok i
  signedTags_le : i.signedTags.length ≤ 4
  key : ∃ k, i.tags.filterMap Tag.key? = [k]
  signature : ∃ s, i.signatureTags = [s]
  starts : expected <+: (sha256 i.message).bytes

theorem loadAndVerify_eq_ok_iff {v : BootVerifier} {contents : Bytes} {carrier : Carrier}
    {room : Nat} {observers : Observers} {r : VerifiedImage} :
    (v.loadAndVerify Storage.memory contents carrier room observers).1 = .ok r ↔
      ∃ b, Storage.memory.load contents carrier room = .ok b ∧
        (v.verify b carrier observers).1 = .ok r := by
  rw [BootVerifier.loadAndVerify]
  cases Storage.memory.load contents carrier room <;> simp

/-- An image file is loaded, and accepted under the policy that a configuration makes. -/
def PassesPolicy (store : FileStore σ) (t : σ) (image : String) (settings : Settings) : Prop :=
  ∃ key expected b, Pinned store t settings key ∧ expectation settings.policy = .ok expected ∧
    LoadsImage store t image settings.carrier b ∧
    ∃ r, ((BootVerifier.ofPolicy (policy settings.policy key expected)).verify b
      settings.carrier .quiet).1 = .ok r

theorem passes_iff_passesPolicy {args : Arguments} :
    (∃ output, (runOn t (verify store.access args)).1 = .ok output) ↔
      ∃ config image settings, args.require "config" = .ok config ∧
        args.require "image" = .ok image ∧ store.HoldsSettings t config settings ∧
        PassesPolicy store t image settings := by
  constructor
  · rintro ⟨output, h⟩
    obtain ⟨-, config, image, settings, r, hconfig, himage, ⟨hsettings, key, expected, contents,
      hpinned, hexpected, hread, hr⟩, -⟩ := runOn_verify_eq_ok_iff.mp (Prod.ext h rfl)
    obtain ⟨b, hload, hverify⟩ := loadAndVerify_eq_ok_iff.mp hr
    exact ⟨config, image, settings, hconfig, himage, hsettings, key, expected, b, hpinned,
      hexpected, ⟨contents, hread, hload⟩, r, hverify⟩
  · rintro ⟨config, image, settings, hconfig, himage, hsettings, key, expected, b, hpinned,
      hexpected, ⟨contents, hread, hload⟩, r, hverify⟩
    have hr := loadAndVerify_eq_ok_iff.mpr ⟨b, hload, hverify⟩
    exact ⟨_, congrArg Prod.fst (runOn_verify_eq_ok_iff.mpr ⟨rfl, config, image, settings, r,
      hconfig, himage, ⟨hsettings, key, expected, contents, hpinned, hexpected, hread, hr⟩, rfl⟩)⟩

theorem passesPolicy_iff_signed (hstage : settings.policy.signatureStage = true) :
    PassesPolicy store t image settings ↔
      ∃ file key carried b, PassesSigned store t image settings file key carried b := by
  constructor
  · rintro ⟨pinned, expected, b, hpinned, hexpected, hload, hpasses⟩
    have hdigits := (exists_expectation_iff hstage).mp ⟨expected, hexpected⟩
    cases hpinned with
    | signed _ hfile hkey hcarried =>
      refine ⟨_, _, _, b, hfile, hkey, hcarried, hdigits, hload, fun p slot observers hp => ?_⟩
      rw [hp.passes_iff]
      exact ((signaturePolicy_policy settings.policy _ expected).passes_iff _ _ _ _).mp hpasses
    | unsigned hoff => exact absurd hstage (Bool.eq_false_iff.mp hoff)
  · rintro ⟨file, key, carried, b, h⟩
    obtain ⟨expected, hexpected⟩ := (exists_expectation_iff hstage).mpr h.digits
    exact ⟨some carried, expected, b, .signed hstage h.publicKey h.document h.ofParts, hexpected,
      h.loaded, h.accepted _ _ _ (signaturePolicy_policy settings.policy carried expected)⟩

theorem expectation_eq_ok_iff {p : PolicySettings} (h : p.signatureStage = false)
    {expected : Bytes} :
    expectation p = .ok expected ↔ ∃ digits, p.expectedDigest = some digits ∧
      Hex.decode digits.toUTF8.toList = .ok expected ∧ expected.length ≤ 32 := by
  unfold expectation
  cases p.expectedDigest with
  | none => simp [h]
  | some digits =>
    simp only [h, Bool.false_eq_true, not_false_eq_true, true_and, Option.some.injEq,
      exists_eq_left']
    cases Hex.decode digits.toUTF8.toList with
    | error e => simp
    | ok b =>
      change (if b.length > 32 then Except.error CommandFault.digestTooLong else .ok b) = _ ↔ _
      by_cases hlong : b.length > 32
      · rw [if_pos hlong]
        constructor
        · intro h
          cases h
        · rintro ⟨hb, hle⟩
          cases hb
          omega
      · rw [if_neg hlong]
        constructor
        · intro h
          cases h
          exact ⟨rfl, not_lt.mp hlong⟩
        · rintro ⟨hb, -⟩
          cases hb
          rfl

theorem passesPolicy_iff_digest (hstage : settings.policy.signatureStage = false) :
    PassesPolicy store t image settings ↔
      ∃ digits expected b i, PassesDigest store t image settings digits expected b i := by
  simp only [PassesPolicy, expectation_eq_ok_iff hstage]
  constructor
  · rintro ⟨pinned, expected, b, hpinned, ⟨digits, hdigits, hdecode, -⟩, hload, hpasses⟩
    cases hpinned with
    | signed hon _ _ _ => exact absurd hon (Bool.eq_false_iff.mp hstage)
    | unsigned _ =>
      obtain ⟨i, hparse, hfew, hkey, hsignature, hexpects⟩ :=
        (BootVerifier.verify_digestOnly_eq_ok_iff (digestOnly_policy _ expected)).mp hpasses
      refine ⟨digits, expected, b, i, hdigits, hdecode, hexpects.length_expected, hexpects.one_le,
        hexpects.le_digest, hload, hparse, hfew, hkey, hsignature, ?_⟩
      exact List.prefix_iff_eq_take.mpr (hexpects.length_expected ▸ hexpects.expected)
  · rintro ⟨digits, expected, b, i, h⟩
    refine ⟨none, expected, b, .unsigned hstage, ⟨digits, h.expectedDigest, h.decode, ?_⟩,
      h.loaded, ?_⟩
    · rw [h.length_expected]
      exact h.le_digest
    · refine (BootVerifier.verify_digestOnly_eq_ok_iff (digestOnly_policy _ expected)).mpr
        ⟨i, h.parsed, h.signedTags_le, h.key, h.signature, h.one_le, h.le_digest,
          h.length_expected, ?_⟩
      have htake := List.prefix_iff_eq_take.mp h.starts
      rw [h.length_expected] at htake
      exact htake

/-- On any file system the verify command passes an image exactly when its arguments name a
configuration and an image and, with the signature stage on, the image is accepted as signed under
the key of the configuration, or, with the stage off, has the digest that the configuration expects.
The boot verifier accepts as signed what carries the key and a signature that opens under it,
whatever the policy expects besides. -/
theorem verify_passes_iff (store : FileStore σ) (t : σ) (args : Arguments) :
    ((∃ output, (runOn t (verify store.access args)).1 = .ok output) ↔
      ∃ config image settings, args.require "config" = .ok config ∧
        args.require "image" = .ok image ∧ store.HoldsSettings t config settings ∧
        if settings.policy.signatureStage then
          ∃ file key carried b, PassesSigned store t image settings file key carried b
        else ∃ digits expected b i, PassesDigest store t image settings digits expected b i) ∧
    ∀ key mode saltLength compared p, SignaturePolicy key mode saltLength compared p →
      ∀ slot b carrier observers,
        (∃ r, (BootVerifier.verify ⟨p, slot⟩ b carrier observers).1 = .ok r) ↔ ∃ i k s,
          BootImage.parse b carrier = .ok i ∧ SignedUnder key mode saltLength compared i k s := by
  refine ⟨passes_iff_passesPolicy.trans ?_, fun key mode saltLength compared p hp slot b carrier
    observers => hp.passes_iff slot b carrier observers⟩
  refine exists_congr fun config => exists_congr fun image => exists_congr fun settings =>
    and_congr_right fun _ => and_congr_right fun _ => and_congr_right fun _ => ?_
  cases hstage : settings.policy.signatureStage with
  | true =>
    rw [if_pos rfl]
    exact passesPolicy_iff_signed hstage
  | false =>
    rw [if_neg Bool.false_ne_true]
    exact passesPolicy_iff_digest hstage

/-! ### An expected digest and a missing key -/

/-- A configuration that compares one octet of the digest. -/
def oneOctet : String := "[policy]\ntoken_len = 1\nexpected_digest = \"e0\"\n"

/-- The same with the signature stage on, and no key to check signatures under. -/
def oneOctetSigned : String :=
  "[policy]\nstage8 = true\ntoken_len = 1\nexpected_digest = \"e0\"\n"

def oneOctetSettings (signatureStage : Bool) : Settings where
  policy := ⟨none, .pss, signatureStage, false, 1, 32, some "e0"⟩
  carrier := .unbounded
  privateKey := none
  directory := ""

/-- Both configurations with an image. -/
def oneOctetTree : FileTree where
  files := [(["d"], oneOctet.toUTF8.toList), (["s"], oneOctetSigned.toUTF8.toList),
    (["i"], (BootImage.ofTags BootImage.keyThenSignature).encode)]

open FileTree in
theorem read?_oneOctetTree {name : String} (h : name ∈ ["d", "s", "i"]) :
    oneOctetTree.read? name = oneOctetTree.files.lookup [name] := by
  have htop : TopName name := by
    simp only [List.mem_cons, List.not_mem_nil, or_false] at h
    rcases h with rfl | rfl | rfl
    all_goals exact ⟨by cbv, by cbv, by decide, by decide, by decide⟩
  rw [FileTree.read?, htop.place?_eq]
  rfl

theorem holdsSettings_oneOctetTree :
    FileTree.store.HoldsSettings oneOctetTree "d" (oneOctetSettings false) ∧
      FileTree.store.HoldsSettings oneOctetTree "s" (oneOctetSettings true) := by
  have hunsigned : Settings.parse oneOctet "" = .ok (oneOctetSettings false) := by cbv
  have hsigned : Settings.parse oneOctetSigned "" = .ok (oneOctetSettings true) := by cbv
  have hparent {name : String} (h : name ∈ ["d", "s"]) : Path.parent name = "" := by
    simp only [List.mem_cons, List.not_mem_nil, or_false] at h
    rcases h with rfl | rfl <;> cbv
  constructor
  · refine FileStore.holdsSettings_of_read? (read?_oneOctetTree (by decide)) ?_
    rw [hparent (by decide)]
    exact hunsigned
  · refine FileStore.holdsSettings_of_read? (read?_oneOctetTree (by decide)) ?_
    rw [hparent (by decide)]
    exact hsigned

/-- An image whose digest is the expected one passes, and no longer does so once a signature is
asked for and no key is given. -/
theorem expected_digest_passes_unsigned_only :
    (∃ output, (runOn oneOctetTree
        (verify FileTree.access [("config", "d"), ("image", "i")])).1 = .ok output) ∧
      ¬ ∃ output, (runOn oneOctetTree
        (verify FileTree.access [("config", "s"), ("image", "i")])).1 = .ok output := by
  obtain ⟨hunsigned, hsigned⟩ := holdsSettings_oneOctetTree
  constructor
  · obtain ⟨hi, hfits, -⟩ := BootImage.wellFormed_of_parse BootImage.parse_keyThenSignature
    have hstarts : [0xe0] =
        (sha256 (BootImage.ofTags BootImage.keyThenSignature).message).bytes.take 1 := by
      decide +kernel
    refine (verify_passes_iff FileTree.store oneOctetTree _).1.mpr ⟨"d", "i", _, rfl, rfl,
      hunsigned, "e0", [0xe0], _, _, rfl, by cbv, rfl, by decide, by decide,
      ⟨_, read?_oneOctetTree (by decide), hi.load_memory rfl hfits⟩,
      BootImage.parse_keyThenSignature, by decide, ⟨_, rfl⟩, ⟨_, rfl⟩, ?_⟩
    exact List.prefix_iff_eq_take.mpr hstarts
  · intro hpasses
    obtain ⟨config, image, settings, hconfig, -, hsettings, hverdict⟩ :=
      (verify_passes_iff FileTree.store oneOctetTree _).1.mp hpasses
    obtain rfl : "s" = config := Except.ok.inj hconfig
    obtain rfl := hsigned.unique hsettings
    obtain ⟨file, key, carried, b, h⟩ := hverdict
    exact absurd h.publicKey (by simp [oneOctetSettings])

end Command

end SignedBoot
