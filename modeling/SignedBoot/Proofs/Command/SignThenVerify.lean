import Mathlib
import SignedBoot.Proofs.Command.Runs
import SignedBoot.Proofs.Loading
import SignedBoot.Proofs.Verification.Completeness

/-!
# Creating an image and verifying it

An image is created and verified under one configuration. Creating salts every PSS signature with 32
octets, and verifying asks for a salt of the length that the configuration names, so the created
image passes exactly when these agree (`Command.created_verifies_iff`).
-/

namespace SignedBoot

/-! ### What the signature opens to -/

/-- In the one mode that takes a salt, an encoding under a salt of 32 octets is recovered under no
other salt length. -/
theorem Pss.saltLength_of_recover {digest : Digest} {salt : Block 32} {template : Template}
    (hh : template.hashLength = 32) {hash : Digest}
    (h : recover (encode digest salt.bytes 2047) digest template 2048 = .ok ⟨hash, hash⟩) :
    template.saltLength = 32 := by
  have hroom : salt.bytes.length + 34 ≤ encodedLength 2047 := by
    rw [salt.length_bytes]
    decide
  have hlength : (encode digest salt.bytes 2047).length = encodedLength 2047 :=
    length_encode hroom
  have hmax : (encode digest salt.bytes 2047).length ≤ maxLength := by
    rw [hlength]
    decide
  rw [recover_eq_recoverExact hh (by decide) hlength hmax] at h
  obtain ⟨hroom', salt', hsalt', hencode⟩ := recoverExact_agrees_iff.mp ⟨hash, h⟩
  have hsalt := encode_inj hroom (hsalt' ▸ hroom') hencode
  apply UInt8.toNat_inj.mp
  rw [← hsalt', ← hsalt, salt.length_bytes]
  rfl

/-- A signature made with a salt of 32 octets opens to its message exactly when the template asks
for such a salt, or the mode for none. -/
theorem SigningKey.opens_iff {key : PrivateKey} {k : SigningKey} (hk : ofPrivate key = .ok k)
    (hbits : bitLength key.modulus = 2048) {p : Policy} {word : UInt32} {mode : SignatureMode}
    (hp : p.Sane word k.image.descriptor mode) {saltLength : UInt8}
    (ht : p.template = .sha256 saltLength) (htoken : p.tokenLength = 32) {salt : Block 32}
    {message : Bytes} {s : Block 256} (hs : k.sign? (.ofMode salt mode) (sha256 message) = some s) :
    p.Opens word (Recipe.keyTag k.image) ⟨s⟩ message ↔ (mode = .pss → saltLength = 32) := by
  obtain ⟨hmodulus, -, -⟩ := ofPrivate_eq_ok_iff.mp hk
  obtain ⟨rfl, hn, he⟩ := image_of_ofPrivate hk
  obtain ⟨hlt, hroot⟩ := root_of_sign? hmodulus.le hs
  constructor
  · rintro hopens rfl
    obtain ⟨-, -, mode, tokens, honly, hrecover, -, -, hagree⟩ := hopens
    obtain rfl : mode = .pss := (hp.onlyMode mode).mp ((honly mode).mpr rfl)
    have hlength : (Padding.encode (.ofMode salt .pss) (sha256 message) k.key.modulus).length =
        256 := (@Padding.encodes _ hbits .pss 32 (fun _ => rfl) salt (sha256 message)).length_eq
    have hopened : be 256 (beValue s.bytes ^ k.image.exponent.toNat %
        beValue k.image.modulus.bytes) = Pss.encode (sha256 message) salt.bytes 2047 := by
      rw [he, hn, hroot, ← hlength, be_beValue, Padding.ofMode, Padding.encode, hbits]
    -- whole hashes are compared, so those that agree are equal
    have htokens : tokens.recovered = tokens.reference := by
      apply Block.ext
      have htake (d : Digest) : d.bytes.take p.tokenLength.toNat = d.bytes := by
        rw [htoken]
        exact List.take_of_length_le d.length_bytes.le
      rw [← htake tokens.recovered, hagree, htake]
    obtain ⟨hash, reference⟩ := tokens
    obtain rfl : hash = reference := htokens
    have hrecover' := hopened ▸ hrecover
    have hsalt := Pss.saltLength_of_recover hp.hashLength hrecover'
    rw [ht] at hsalt
    exact hsalt
  · intro hsalt
    have hencodes := Padding.encodes hbits hsalt salt (sha256 message)
    rw [← ht] at hencodes
    refine hp.opens (hlt.trans_eq hn.symm) hencodes ?_
    rw [he, hn, hroot]

/-! ### The recipe of a payload -/

theorem Recipe.bootable_ofPayload {payload : Bytes} {entries : List LoadEntry}
    (h : (ofPayload payload).payloadEntries = .ok entries)
    (hc : (ofPayload payload).Countable entries) : (ofPayload payload).Bootable entries where
  payloadEntries := h
  entries_le := hc.entries_le
  inside e he := by
    obtain ⟨hoffset, hpos, hsize⟩ := entries_ofPayload h e he
    refine ⟨hpos, ?_⟩
    rw [hoffset, hsize, Nat.zero_add]
    exact le_rfl
  regionCount_le := hc.regionCount_le
  layoutTags_le := Nat.succ_le_succ (Nat.zero_le 2)
  keyTags := rfl
  signatureTag := rfl

namespace Command

/-! ### The policy of a configuration -/

theorem exists_decode_eq (copyDigest : Bool) (mode : SignatureMode) :
    ∃ word, PolicyOptions.decode word = ⟨true, copyDigest, .ofMode mode⟩ ∧
      PolicyOptions.hasFlag word PolicyFlag.signatureStage = true ∧
      PolicyOptions.OnlyMode word mode := by
  refine ⟨PolicyFlag.signatureStage ||| (if copyDigest then PolicyFlag.copyDigest else 0) |||
    mode.flag, ?_⟩
  refine ⟨?_, ?_, fun m => ?_⟩ <;> cases copyDigest <;> cases mode <;> try cases m
  all_goals decide

/-- With a key, a configuration gives a policy that pins it, whatever digest it expects. -/
theorem exists_sane_policy (p : PolicySettings) {key : ImageKey}
    (hodd : beValue key.modulus.bytes % 2 = 1) (hone : 1 ≤ p.tokenLength.toNat)
    (hle : p.tokenLength.toNat ≤ 32) (expected : Bytes) :
    ∃ word, (policy p (some key) expected).Sane word key.descriptor p.mode := by
  obtain ⟨word, hdecode, hstage, hmode⟩ := exists_decode_eq p.copyDigest p.mode
  exact ⟨word,
    { options := hdecode.symm
      stage := hstage
      digestOps := rfl
      signatureOps := rfl
      schemes := rfl
      key := rfl
      odd := hodd
      onlyMode := hmode
      hashLength := rfl
      one_le := hone
      le_digest := hle }⟩

/-- With the signature stage on, an expected digest has to be written well and is of no other
matter. -/
theorem exists_expectation_iff {p : PolicySettings} (h : p.signatureStage = true) :
    (∃ expected, expectation p = .ok expected) ↔
      ∀ digits, p.expectedDigest = some digits →
        ∃ b, Hex.decode digits.toUTF8.toList = .ok b := by
  unfold expectation
  cases p.expectedDigest with
  | none => simp [h]
  | some digits =>
    simp only [h, not_true_eq_false, false_and, if_false, Option.some.injEq, forall_eq']
    cases Hex.decode digits.toUTF8.toList with
    | error e => simp only [reduceCtorEq, exists_false]
    | ok b => exact ⟨fun _ => ⟨b, rfl⟩, fun _ => ⟨b, rfl⟩⟩

/-- Loaded and verified under the policy of a configuration with its key, a signed payload passes
exactly when the configuration asks for a salt of 32 octets, or its mode for none. -/
theorem signed_payload_passes_iff {key : PrivateKey} {k : SigningKey}
    (hk : SigningKey.ofPrivate key = .ok k) (hbits : bitLength key.modulus = 2048)
    {p : PolicySettings} (htoken : p.tokenLength = 32) {salt : Block 32} {payload : Bytes}
    {g : GeneratedImage}
    (hg : (Recipe.ofPayload payload).generate (.ofSigningKey k (.ofMode salt p.mode)) = .ok g)
    (expected : Bytes) :
    (∃ r, ((BootVerifier.ofPolicy (policy p (some k.image) expected)).loadAndVerify Storage.memory
      g.image.encode .unbounded g.image.encode.length .quiet).1 = .ok r) ↔
      (p.mode = .pss → p.saltLength = 32) := by
  have hcarriable := (SigningKey.carriable_image_iff hk).mpr hbits
  have hodd : beValue k.image.modulus.bytes % 2 = 1 := by
    rw [(SigningKey.image_of_ofPrivate hk).2.1]
    exact key.sound.2.2.1
  have htokenNat : p.tokenLength.toNat = 32 := by
    rw [htoken]
    rfl
  obtain ⟨word, hp⟩ := exists_sane_policy p hodd (by omega) htokenNat.le expected
  have hfits := Recipe.fits_unbounded_of_generate hg
  obtain ⟨entries, signature, hentries, hc, hsigns, rfl⟩ := Recipe.generate_eq_ok_iff.mp hg
  cases hsigns with
  | unsigned htag => cases htag
  | signed s htag hs =>
    have hr := Recipe.bootable_ofPayload hentries hc
    have hw := hr.wellFormed hc hcarriable s
    change Carrier.unbounded.Fits
      ((Recipe.ofPayload payload).finish k.image entries (some s)).image.encode.length at hfits
    rw [hw.length_encode] at hfits
    have htagged := hr.tagged hc hcarriable s hfits
    have hload := hw.load_memory rfl hfits
    have hpins : (BootVerifier.ofPolicy (policy p (some k.image) expected)).policy.Pins word
        (Recipe.keyTag k.image).key := hp.toPins
    have hpasses := BootVerifier.passes_iff_opens hpins htagged .quiet
    rw [Recipe.message_finish] at hpasses
    rw [← SigningKey.opens_iff hk hbits hp rfl htoken hs]
    simp only [Signer.ofSigningKey, BootVerifier.loadAndVerify, hload]
    exact hpasses

/-! ### Both commands -/

variable {σ : Type} {store : FileStore σ}

/-- A configuration with which images can be signed and verified: the signature stage is on, the
carrier is the unbounded one, whole hashes are compared, and its two documents hold the halves of
one key of 2048 bits. -/
structure SigningSetup (store : FileStore σ) (t : σ) (config : String) (settings : Settings)
    (key : PrivateKey) : Prop where
  config : store.HoldsSettings t config settings
  signatureStage : settings.policy.signatureStage = true
  carrier : settings.carrier = .unbounded
  tokenLength : settings.policy.tokenLength = 32
  privateKey : ∃ file, settings.privateKey = some file ∧
    store.HoldsPrivateKey t (settings.path file) key
  bitLength_modulus : bitLength key.modulus = 2048
  publicKey : ∃ file k, settings.policy.publicKey = some file ∧
    store.HoldsPublicKey t (settings.path file) k ∧
    k.modulus = key.modulus ∧ k.exponent = key.exponent

/-- What is written to another file than that of the public key leaves the pinned key. -/
theorem SigningSetup.pinned_of_write {same : σ → String → String → Prop}
    (hstore : store.Lawful same) {t u : σ} {config : String} {settings : Settings}
    {key : PrivateKey} (h : SigningSetup store t config settings key) {k : SigningKey}
    (hk : SigningKey.ofPrivate key = .ok k) {out : String} {contents : Bytes}
    (hwrite : store.write t out contents = (true, u))
    (hpublic : ∀ file, settings.policy.publicKey = some file →
      ¬ same t out (settings.path file)) : Pinned store u settings (some k.image) := by
  obtain ⟨file, half, hfile, ⟨text, htext, hhalf⟩, hn, he⟩ := h.publicKey
  rw [← hstore.text?_other hwrite (hpublic file hfile)] at htext
  refine .signed h.signatureStage hfile ⟨text, htext, hhalf⟩ ?_
  rw [hn, he]
  exact SigningKey.ofParts_of_ofPrivate hk

/-- On every lawful file system a created image passes exactly when its mode takes no salt or the
configuration asks for one of 32 octets, and the expected digest of the configuration, if it has
one, is written well. -/
theorem created_verifies_iff {same : σ → String → String → Prop} (hstore : store.Lawful same)
    {t u : σ} {salt : Block 32} {args args' : Arguments} {config out output : String}
    {settings : Settings} {key : PrivateKey} (h : SigningSetup store t config settings key)
    (hargs : args.require "config" = .ok config ∧ args.require "out" = .ok out)
    (hargs' : args'.require "config" = .ok config ∧ args'.require "image" = .ok out)
    (hconfig : ¬ same t out config)
    (hpublic : ∀ file, settings.policy.publicKey = some file →
      ¬ same t out (settings.path file))
    (hcreate : runOn t (create store.access salt args) = (.ok output, u)) :
    (∃ report, runOn u (verify store.access args') = (.ok report, u)) ↔
      (settings.policy.mode = .pss → settings.policy.saltLength = 32) ∧
        ∀ digits, settings.policy.expectedDigest = some digits →
          ∃ b, Hex.decode digits.toUTF8.toList = .ok b := by
  -- what the two runs read is the same: the settings, both halves of the key, and the image
  obtain ⟨rfl, config', payload, out', settings', key', g, hargConfig, -, hargOut, hcreates⟩ :=
    runOn_create_eq_ok_iff.mp hcreate
  obtain rfl := Except.ok.inj (hargs.1.symm.trans hargConfig)
  obtain rfl := Except.ok.inj (hargs.2.symm.trans hargOut)
  obtain rfl := h.config.unique hcreates.config
  obtain ⟨file, hfile, hprivate⟩ := h.privateKey
  obtain ⟨file', hfile', hprivate'⟩ := hcreates.signing
  obtain rfl := Option.some.inj (hfile.symm.trans hfile')
  obtain rfl := hprivate.unique hprivate'
  obtain ⟨contents, k, hread, hk, hg⟩ := hcreates.generated
  have hwritten := hcreates.written
  have hpinned := h.pinned_of_write hstore hk hwritten hpublic
  have himage : store.read? u out = some g.image.encode := hstore.read_written hwritten
  have hsettings : store.HoldsSettings u config settings := by
    obtain ⟨text, htext, hparse⟩ := h.config
    rw [← hstore.text?_other hwritten hconfig] at htext
    exact ⟨text, htext, hparse⟩
  have hpasses := signed_payload_passes_iff hk h.bitLength_modulus h.tokenLength hg
  rw [← exists_expectation_iff h.signatureStage]
  constructor
  · rintro ⟨report, hverify⟩
    obtain ⟨-, config', image, settings', r, hargConfig', hargImage, hverifies, -⟩ :=
      runOn_verify_eq_ok_iff.mp hverify
    obtain rfl := Except.ok.inj (hargs'.1.symm.trans hargConfig')
    obtain rfl := Except.ok.inj (hargs'.2.symm.trans hargImage)
    obtain rfl := hsettings.unique hverifies.config
    obtain ⟨key', expected, contents', hpinned', hexpected, hread', hr⟩ := hverifies.passes
    obtain rfl := hpinned.unique hpinned'
    obtain rfl := Option.some.inj (himage.symm.trans hread')
    rw [h.carrier] at hr
    exact ⟨(hpasses expected).mp ⟨r, hr⟩, expected, hexpected⟩
  · rintro ⟨hsalt, expected, hexpected⟩
    obtain ⟨r, hr⟩ := (hpasses expected).mpr hsalt
    rw [← h.carrier] at hr
    exact ⟨_, runOn_verify_eq_ok_iff.mpr ⟨rfl, config, out, settings, r, hargs'.1, hargs'.2,
      ⟨hsettings, some k.image, expected, g.image.encode, hpinned, hexpected, himage, hr⟩, rfl⟩⟩

/-! ### A configuration with other salts -/

/-- A configuration that asks for salts of 20 octets. -/
def shortSalts : String :=
  "[policy]\npublic_key = \"p\"\nstage8 = true\nsalt_len = 20\n[signing]\nprivate_key = \"k\"\n"

def shortSaltSettings : Settings where
  policy := ⟨some "p", .pss, true, false, 32, 20, none⟩
  carrier := .unbounded
  privateKey := some "k"
  directory := ""

/-- The public half of a key of 2048 bits. -/
def publicFull : PublicKey where
  modulus := PrivateKey.full.modulus
  exponent := PrivateKey.full.exponent
  sound := PrivateKey.full.sound
  bitLength_le := by
    rw [PrivateKey.bitLength_full]
    decide

/-- The configuration with both halves of a key and a payload. -/
def shortSaltTree : FileTree where
  files := [(["c"], shortSalts.toUTF8.toList), (["k"], PrivateKey.full.document),
    (["p"], publicFull.document), (["b"], [0x13, 0x37])]

open FileTree in
/-- Each file of this tree, and the image, is at the top. -/
theorem topName_of_mem {name : String} (h : name ∈ ["c", "k", "p", "b", "o"]) : TopName name := by
  simp only [List.mem_cons, List.not_mem_nil, or_false] at h
  rcases h with rfl | rfl | rfl | rfl | rfl
  all_goals exact ⟨by cbv, by cbv, by decide, by decide, by decide⟩

theorem read?_shortSaltTree {name : String} (h : name ∈ ["c", "k", "p", "b", "o"]) :
    shortSaltTree.read? name = shortSaltTree.files.lookup [name] := by
  rw [FileTree.read?, (topName_of_mem h).place?_eq]
  rfl

theorem signingSetup_shortSaltTree :
    SigningSetup FileTree.store shortSaltTree "c" shortSaltSettings PrivateKey.full where
  config := by
    refine FileStore.holdsSettings_of_read? (read?_shortSaltTree (by decide)) ?_
    have hparent : Path.parent "c" = "" := by cbv
    have hparse : Settings.parse shortSalts "" = .ok shortSaltSettings := by cbv
    rw [hparent]
    exact hparse
  signatureStage := rfl
  carrier := rfl
  tokenLength := rfl
  privateKey := by
    have hpath : shortSaltSettings.path "k" = "k" := by cbv
    refine ⟨"k", rfl, FileStore.holdsPrivateKey_of_read? ?_ (by decide +kernel)⟩
    rw [hpath]
    exact read?_shortSaltTree (by decide)
  bitLength_modulus := PrivateKey.bitLength_full
  publicKey := by
    have hpath : shortSaltSettings.path "p" = "p" := by cbv
    refine ⟨"p", publicFull, rfl, FileStore.holdsPublicKey_of_read? ?_, rfl, rfl⟩
    rw [hpath]
    exact read?_shortSaltTree (by decide)

theorem exists_created_shortSalts : ∃ u, runOn shortSaltTree (create FileTree.access (.zero 32)
    [("config", "c"), ("payload", "b"), ("out", "o")]) = (.ok "", u) := by
  obtain ⟨k, hk⟩ := SigningKey.exists_ofPrivate_full
  obtain ⟨g, hg⟩ := SigningKey.exists_generate hk PrivateKey.twoPrimes_full (.pss (.zero 32))
    [0x13, 0x37] (List.cons_ne_nil _ _) (by decide)
  obtain ⟨u, hu⟩ := (topName_of_mem (by decide : "o" ∈ _)).exists_write? (t := shortSaltTree)
    (by simp [FileTree.isDirectory, shortSaltTree, List.isPrefixOf]) g.image.encode
  have h := signingSetup_shortSaltTree
  refine ⟨u, runOn_create_eq_ok_iff.mpr ⟨rfl, "c", "b", "o", shortSaltSettings, PrivateKey.full, g,
    rfl, rfl, rfl, h.config, h.privateKey, ⟨[0x13, 0x37], k, ?_, hk, hg⟩,
    FileTree.store_write_eq_true_iff.mpr hu⟩⟩
  exact read?_shortSaltTree (by decide)

/-- With this configuration an image is created, and it does not verify. -/
theorem short_salt_image_not_verified :
    ∃ u, runOn shortSaltTree (create FileTree.access (.zero 32)
        [("config", "c"), ("payload", "b"), ("out", "o")]) = (.ok "", u) ∧
      ¬ ∃ report, runOn u (verify FileTree.access [("config", "c"), ("image", "o")]) =
        (.ok report, u) := by
  obtain ⟨u, hcreate⟩ := exists_created_shortSalts
  have hplace {name : String} (h : name ∈ ["c", "k", "p", "b", "o"]) :
      shortSaltTree.place? name = some [name] := (topName_of_mem h).place?_eq _
  have hconfig : shortSaltTree.place? "o" ≠ shortSaltTree.place? "c" := by
    rw [hplace (by decide), hplace (by decide)]
    decide
  have hpublic : ∀ file, shortSaltSettings.policy.publicKey = some file →
      shortSaltTree.place? "o" ≠ shortSaltTree.place? (shortSaltSettings.path file) := by
    rintro file hfile
    obtain rfl := Option.some.inj hfile
    have hpath : shortSaltSettings.path "p" = "p" := by cbv
    rw [hpath, hplace (by decide), hplace (by decide)]
    decide
  refine ⟨u, hcreate, fun hverifies => ?_⟩
  obtain ⟨hsalt, -⟩ := (created_verifies_iff FileTree.lawful_store signingSetup_shortSaltTree
    ⟨rfl, rfl⟩ ⟨rfl, rfl⟩ hconfig hpublic hcreate).mp hverifies
  exact absurd (hsalt rfl) (by decide)

end Command

end SignedBoot
