import Mathlib
import SignedBoot.Proofs.Generation.Layout
import SignedBoot.Proofs.Powers
import SignedBoot.Proofs.Rsa.Signing

/-!
# Which signing keys an image can carry

A signing key is checked by the number of its octets, a key tag by the top bit of its modulus. The
images that are signed with a modulus of 2041 to 2047 bits are therefore made and not accepted.
-/

namespace SignedBoot

theorem SigningKey.ofPrivate_eq_ok_iff {key : PrivateKey} {k : SigningKey} :
    ofPrivate key = .ok k ↔ octetLength key.modulus = 256 ∧ octetLength key.exponent ≤ 4 ∧
      k = ⟨key, beBlock 256 key.modulus, UInt32.ofNat key.exponent⟩ := by
  unfold ofPrivate PrivateKey.byteLength ImageKey.ofParts
  constructor
  · intro h
    split at h
    · cases h
    rename_i hmodulus
    split at h
    · cases h
    split at h
    · cases h
    rename_i hexponent
    cases h
    exact ⟨not_not.mp hmodulus, not_lt.mp hexponent, rfl⟩
  · rintro ⟨hmodulus, hexponent, rfl⟩
    rw [if_neg (not_not.mpr hmodulus), if_neg (by omega), if_neg (not_lt.mpr hexponent)]
    rfl

theorem SigningKey.ofParts_of_ofPrivate {key : PrivateKey} {k : SigningKey}
    (h : ofPrivate key = .ok k) : ImageKey.ofParts key.modulus key.exponent = .ok k.image := by
  unfold ofPrivate at h
  split at h
  · cases h
  · cases hparts : ImageKey.ofParts key.modulus key.exponent with
    | error f =>
      rw [hparts] at h
      cases h
    | ok image =>
      rw [hparts] at h
      cases h
      rfl

namespace Recipe

variable {payload : Bytes} {entries : List LoadEntry}

/-- The one entry of a payload without a list of entries is the payload as a whole. -/
theorem entries_ofPayload (h : (ofPayload payload).payloadEntries = .ok entries) :
    ∀ e ∈ entries, e.offset.toNat = 0 ∧ 1 ≤ e.size.toNat ∧ e.size.toNat = payload.length := by
  unfold payloadEntries at h
  split at h
  · rename_i hsome
    cases hsome
  · split at h
    · cases h
      intro e he
      cases he
    · rename_i hne
      split at h
      · rename_i hlt
        cases h
        intro e he
        obtain rfl := List.mem_singleton.mp he
        have hsize := UInt32.toNat_ofNat_of_lt' hlt
        exact ⟨rfl, (List.length_pos_iff.mpr hne).trans_eq hsize.symm, hsize⟩
      · cases h

theorem rebases_ofPayload (h : (ofPayload payload).payloadEntries = .ok entries)
    (hc : (ofPayload payload).Countable entries) : Rebases entries := by
  intro e he
  have hlt := hc.trailerOffset_lt
  rw [trailerOffset] at hlt
  rw [(entries_ofPayload h e he).1]
  omega

/-- With a payload alone only the key is left to the caller. -/
theorem acceptable_ofPayload_iff {key : ImageKey}
    (h : (ofPayload payload).payloadEntries = .ok entries) :
    (ofPayload payload).Acceptable key entries ↔ key.Carriable := by
  constructor
  · intro ha
    exact ha.key Nat.one_pos
  · intro hkey
    refine ⟨?_, fun _ => hkey⟩
    intro e he
    obtain ⟨hoffset, hpos, hsize⟩ := entries_ofPayload h e he
    refine ⟨hpos, ?_⟩
    rw [hoffset, hsize, Nat.zero_add]
    exact le_rfl

/-- Whether the image of a payload alone is accepted depends on the key of the signer. -/
theorem generated_ofPayload_parses_iff {signer : Signer} {g : GeneratedImage}
    (hg : (ofPayload payload).generate signer = .ok g) :
    (∃ i, BootImage.parse g.image.encode .unbounded = .ok i) ↔ signer.key.Carriable := by
  obtain ⟨entries, signature, hentries, hcount, hsigns, rfl⟩ := generate_eq_ok_iff.mp hg
  rw [parses_finish_iff hcount hsigns.suits (rebases_ofPayload hentries hcount),
    acceptable_ofPayload_iff hentries]

theorem countable_ofPayload (hne : payload ≠ []) (hl : payload.length ≤ 0x80000000) :
    ∃ entries, (ofPayload payload).payloadEntries = .ok entries ∧
      (ofPayload payload).Countable entries := by
  have hsize : UInt32.size = 0x100000000 := rfl
  have hlt : payload.length < UInt32.size := by omega
  have hentries : (ofPayload payload).payloadEntries =
      .ok [⟨0, UInt32.ofNat payload.length⟩] := by
    change (if payload = [] then _ else if payload.length < UInt32.size then _ else _) = _
    rw [if_neg hne, if_pos hlt]
    rfl
  have htrailer : (ofPayload payload).trailerOffset [⟨0, UInt32.ofNat payload.length⟩] =
      0x54 + payload.length := rfl
  have htags : (ofPayload payload).tagsLength = 0x874 := by
    simp [tagsLength, ofPayload, TagKind.byteSize]
  have hsignature : (ofPayload payload).signatureLength = 0x13c := rfl
  refine ⟨_, hentries, Nat.succ_le_succ (Nat.zero_le 7), ?_, ?_, ?_⟩
  · change (1 : UInt16).toNat ≤ RegionMode.ranges.maxCount
    decide
  · omega
  · rw [totalLength]
    omega

end Recipe

namespace SigningKey

/-- The key of an image stands for the numbers of its signing key. -/
theorem image_of_ofPrivate {key : PrivateKey} {k : SigningKey} (h : ofPrivate key = .ok k) :
    k.key = key ∧ beValue k.image.modulus.bytes = key.modulus ∧
      k.image.exponent.toNat = key.exponent := by
  obtain ⟨hmodulus, hexponent, rfl⟩ := ofPrivate_eq_ok_iff.mp h
  have hle : bitLength key.modulus ≤ 8 * 256 := (bitLength_of_octetLength hmodulus).2
  have hbits : bitLength key.exponent ≤ 32 := by
    rw [octetLength] at hexponent
    omega
  exact ⟨rfl, beValue_beBlock (bitLength_le_iff.mp hle),
    UInt32.toNat_ofNat_of_lt' (bitLength_le_iff.mp hbits)⟩

/-- Of what a key tag asks, a signing key leaves the top bit of the modulus open. -/
theorem carriable_image_iff {key : PrivateKey} {k : SigningKey} (h : ofPrivate key = .ok k) :
    k.image.Carriable ↔ bitLength key.modulus = 2048 := by
  obtain ⟨-, hvalue, hword⟩ := image_of_ofPrivate h
  obtain ⟨hmodulus, -, -⟩ := ofPrivate_eq_ok_iff.mp h
  have hle : bitLength key.modulus ≤ 8 * 256 := (bitLength_of_octetLength hmodulus).2
  obtain ⟨-, -, -, hodd, hge, -⟩ := key.sound
  constructor
  · intro hc
    have htop := hc.top_bit
    rw [hvalue, ← lt_bitLength_iff] at htop
    omega
  · intro hbits
    refine ⟨?_, ?_, ?_⟩
    · rw [hvalue, ← lt_bitLength_iff, hbits]
      decide
    · rw [hword]
      exact hodd
    · rw [hword]
      omega

/-- With two primes every payload of moderate length gets its image. -/
theorem exists_generate {key : PrivateKey} {k : SigningKey} (hk : ofPrivate key = .ok k)
    (hprimes : key.TwoPrimes) (padding : Padding) (payload : Bytes) (hne : payload ≠ [])
    (hl : payload.length ≤ 0x80000000) :
    ∃ g, (Recipe.ofPayload payload).generate (.ofSigningKey k padding) = .ok g := by
  obtain ⟨hmodulus, -, rfl⟩ := ofPrivate_eq_ok_iff.mp hk
  obtain ⟨entries, hentries, hcount⟩ := Recipe.countable_ofPayload hne hl
  obtain ⟨s, hs⟩ := exists_sign? (k := ⟨key, _⟩) hprimes hmodulus padding _
  exact ⟨_, Recipe.generate_eq_ok_iff.mpr
    ⟨entries, some s, hentries, hcount, .signed s rfl hs, rfl⟩⟩

/-- The image of a payload alone is accepted exactly when the signing key has all of its 2048
bits. -/
theorem generated_parses_iff_bitLength {key : PrivateKey} {k : SigningKey} {padding : Padding}
    {payload : Bytes} {g : GeneratedImage} (hk : ofPrivate key = .ok k)
    (hg : (Recipe.ofPayload payload).generate (.ofSigningKey k padding) = .ok g) :
    (∃ i, BootImage.parse g.image.encode .unbounded = .ok i) ↔ bitLength key.modulus = 2048 :=
  (Recipe.generated_ofPayload_parses_iff hg).trans (carriable_image_iff hk)

end SigningKey

/-! ### Keys of 2047 and of 2048 bits -/

namespace PrivateKey

/-- The private exponent inverts 65537 modulo the least common multiple of the two group orders. -/
def short : PrivateKey where
  modulus := (2 ^ 853 * 3 ^ 108 + 1) * (2 ^ 65 * 3 ^ 604 + 1)
  exponent := 65537
  privateExponent := (43721 * (2 ^ 853 * 3 ^ 604) + 1) / 65537
  p := 2 ^ 853 * 3 ^ 108 + 1
  q := 2 ^ 65 * 3 ^ 604 + 1
  sound := by decide +kernel
  one_lt_p := by decide +kernel
  one_lt_q := by decide +kernel
  modulus_eq := rfl
  inverse_p := by decide +kernel
  inverse_q := by decide +kernel

theorem prime_shared : (2 ^ 853 * 3 ^ 108 + 1).Prime :=
  prime_of_generator 853 108 5 short.one_lt_p (by decide +kernel) (by decide +kernel)
    (by decide +kernel)

theorem twoPrimes_short : short.TwoPrimes where
  prime_p := prime_shared
  prime_q := prime_of_generator 65 604 5 short.one_lt_q (by decide +kernel) (by decide +kernel)
    (by decide +kernel)
  ne := by decide +kernel

theorem bitLength_short : bitLength short.modulus = 2047 := by decide +kernel

theorem octetLength_short : octetLength short.modulus = 256 := by
  rw [octetLength, bitLength_short]

/-- A key that shares a prime with the one before and has all of 2048 bits. -/
def full : PrivateKey where
  modulus := (2 ^ 853 * 3 ^ 108 + 1) * (2 ^ 207 * 3 ^ 515 + 1)
  exponent := 65537
  privateExponent := (47378 * (2 ^ 853 * 3 ^ 515) + 1) / 65537
  p := 2 ^ 853 * 3 ^ 108 + 1
  q := 2 ^ 207 * 3 ^ 515 + 1
  sound := by decide +kernel
  one_lt_p := by decide +kernel
  one_lt_q := by decide +kernel
  modulus_eq := rfl
  inverse_p := by decide +kernel
  inverse_q := by decide +kernel

theorem twoPrimes_full : full.TwoPrimes where
  prime_p := prime_shared
  prime_q := prime_of_generator 207 515 5 full.one_lt_q (by decide +kernel) (by decide +kernel)
    (by decide +kernel)
  ne := by decide +kernel

theorem bitLength_full : bitLength full.modulus = 2048 := by decide +kernel

theorem octetLength_full : octetLength full.modulus = 256 := by
  rw [octetLength, bitLength_full]

end PrivateKey

namespace SigningKey

theorem exists_ofPrivate_short : ∃ k, ofPrivate PrivateKey.short = .ok k :=
  ⟨_, ofPrivate_eq_ok_iff.mpr ⟨PrivateKey.octetLength_short, by decide, rfl⟩⟩

theorem exists_ofPrivate_full : ∃ k, ofPrivate PrivateKey.full = .ok k :=
  ⟨_, ofPrivate_eq_ok_iff.mpr ⟨PrivateKey.octetLength_full, by decide, rfl⟩⟩

/-- With two primes a payload of two octets gets its image. -/
theorem exists_generate_pair {key : PrivateKey} {k : SigningKey} (hk : ofPrivate key = .ok k)
    (hprimes : key.TwoPrimes) :
    ∃ g, (Recipe.ofPayload [0x13, 0x37]).generate (.ofSigningKey k .pkcs1) = .ok g :=
  exists_generate hk hprimes .pkcs1 _ (List.cons_ne_nil _ _) (by decide)

/-- Of two keys that both sign, the one with all of its bits has its image accepted. -/
theorem short_and_full_key_parse_iff_bitLength :
    (∃ k g, ofPrivate PrivateKey.short = .ok k ∧
      (Recipe.ofPayload [0x13, 0x37]).generate (.ofSigningKey k .pkcs1) = .ok g ∧
      ((∃ i, BootImage.parse g.image.encode .unbounded = .ok i) ↔
        bitLength PrivateKey.short.modulus = 2048) ∧
      bitLength PrivateKey.short.modulus = 2047) ∧
    ∃ k g i, ofPrivate PrivateKey.full = .ok k ∧
      (Recipe.ofPayload [0x13, 0x37]).generate (.ofSigningKey k .pkcs1) = .ok g ∧
      bitLength PrivateKey.full.modulus = 2048 ∧
      BootImage.parse g.image.encode .unbounded = .ok i := by
  constructor
  · obtain ⟨k, hk⟩ := exists_ofPrivate_short
    obtain ⟨g, hg⟩ := exists_generate_pair hk PrivateKey.twoPrimes_short
    exact ⟨k, g, hk, hg, generated_parses_iff_bitLength hk hg, PrivateKey.bitLength_short⟩
  · obtain ⟨k, hk⟩ := exists_ofPrivate_full
    obtain ⟨g, hg⟩ := exists_generate_pair hk PrivateKey.twoPrimes_full
    obtain ⟨i, hi⟩ := (generated_parses_iff_bitLength hk hg).mpr PrivateKey.bitLength_full
    exact ⟨k, g, i, hk, hg, PrivateKey.bitLength_full, hi⟩

/-- A key of 2047 bits is taken and signs, and no image that it signs for is accepted. -/
theorem short_key_signs_rejected_image :
    ∃ k g, ofPrivate PrivateKey.short = .ok k ∧
      (Recipe.ofPayload [0x13, 0x37]).generate (.ofSigningKey k .pkcs1) = .ok g ∧
      ¬ ∃ i, BootImage.parse g.image.encode .unbounded = .ok i := by
  obtain ⟨k, hk⟩ := exists_ofPrivate_short
  obtain ⟨g, hg⟩ := exists_generate_pair hk PrivateKey.twoPrimes_short
  have hkey : (Signer.ofSigningKey k .pkcs1).key = k.image := rfl
  refine ⟨k, g, hk, hg, ?_⟩
  rw [Recipe.generated_ofPayload_parses_iff hg, hkey, carriable_image_iff hk,
    PrivateKey.bitLength_short]
  decide

end SigningKey

end SignedBoot
