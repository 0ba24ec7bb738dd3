import Mathlib
import SignedBoot.Encoding.Pkcs1

/-!
# Taking EMSA-PKCS1-v1_5 encodings apart

The hash stands at the end of an encoding and its frame before it, so `Pkcs1.recover` gives back
what `Pkcs1.encode` put in, and nothing else is taken apart. A hash has one encoding of each
length (`Pkcs1.recover_iff_octets`).
-/

namespace SignedBoot.Pkcs1

variable {info : Bytes} {length : Nat}

theorem length_frame (h : info.length + 35 ≤ length) :
    (frame info length).length = length - 32 := by
  simp only [frame, List.length_append, List.length_cons, List.length_replicate]
  omega

theorem length_encode (h : info.length + 35 ≤ length) (digest : Digest) :
    (encode info digest length).length = length := by
  rw [encode, List.length_append, length_frame h, digest.length_bytes]
  omega

/-- The octets of an encoded message in order. -/
theorem encode_eq_octets {n : Nat} (h : info.length = n) (digest : Digest) :
    encode info digest length = [0x00, 0x01] ++ List.replicate (length - n - 35) 0xff ++ [0x00] ++
      info ++ digest.bytes := by
  simp [encode, frame, h]

/-- An encoding with enough padding is taken apart into its hash. -/
theorem recover_encode {template : Template} (hh : template.hashLength = 32)
    (hinfo : template.digestInfo? = some info) (h : info.length + 43 ≤ length)
    (hash digest : Digest) (bits : Nat) :
    recover (encode info hash length) digest template bits = .ok ⟨hash, digest⟩ := by
  have hframed : info.length + 35 ≤ length := by omega
  have hlength := length_encode hframed hash
  have hframe := length_frame hframed
  have hdrop : (encode info hash length).drop (length - 32) = hash.bytes ++ [] := by
    rw [List.append_nil]
    exact List.drop_left' hframe
  have htake : (encode info hash length).take (length - 32) = frame info length :=
    List.take_left' hframe
  have hpadding : ¬ length < info.length + 32 + minPadding + 3 := by
    simp only [minPadding]
    omega
  simp only [recover, hh, hinfo, hlength, hdrop, htake, Block.read?_append, if_neg hpadding]
  rfl

/-- What is taken apart is an encoding with enough padding, and the tokens are its hash and the
digest. -/
theorem recover_eq_ok_iff {template : Template} (hh : template.hashLength = 32)
    (hinfo : template.digestInfo? = some info) {em : Bytes} {digest : Digest} {bits : Nat}
    {tokens : Tokens} :
    recover em digest template bits = .ok tokens ↔
      info.length + 43 ≤ em.length ∧ em = encode info tokens.recovered em.length ∧
        tokens.reference = digest := by
  constructor
  · intro h
    simp only [recover, hh, hinfo, ne_eq, not_true_eq_false, if_false] at h
    split at h
    · cases h
    rename_i hpadding
    rw [minPadding] at hpadding
    split at h
    · rename_i hash hread
      split at h
      · rename_i hframe
        cases h
        refine ⟨by omega, ?_, rfl⟩
        rw [encode, ← hframe, ← List.append_nil hash.bytes, ← Block.read?_eq_some_iff.mp hread,
          List.take_append_drop]
      · cases h
    · cases h
  · rintro ⟨hlength, hem, rfl⟩
    rw [hem]
    exact recover_encode hh hinfo hlength tokens.recovered tokens.reference bits

theorem digestInfo?_eq_some {template : Template} (hp : template.infoLength.toNat ≤ 24) :
    template.digestInfo? = some (template.info.bytes.take template.infoLength.toNat) ∧
      (template.info.bytes.take template.infoLength.toNat).length = template.infoLength.toNat := by
  refine ⟨if_pos hp, ?_⟩
  rw [List.length_take, template.info.length_bytes]
  omega

theorem length_le_of_digestInfo? {template : Template} (h : template.digestInfo? = some info) :
    info.length ≤ 24 := by
  by_cases hp : template.infoLength.toNat ≤ 24
  · obtain ⟨hinfo, hlength⟩ := digestInfo?_eq_some hp
    rw [hinfo] at h
    cases h
    exact hlength.le.trans hp
  · rw [Template.digestInfo?, if_neg hp] at h
    cases h

/-- A message is taken apart exactly when each of its octets is the one that the encoding of a hash
has there, with eight or more octets of padding. The tokens are this hash and the digest, and of the
messages of one length there is one for each hash. -/
theorem recover_iff_octets {template : Template} (hh : template.hashLength = 32)
    (hp : template.infoLength.toNat ≤ 24) (digest : Digest) (bits : Nat) :
    (∀ em tokens, recover em digest template bits = .ok tokens ↔
        (em = [0x00, 0x01] ++
            List.replicate (em.length - template.infoLength.toNat - 35) 0xff ++ [0x00] ++
            template.info.bytes.take template.infoLength.toNat ++ tokens.recovered.bytes ∧
          8 ≤ em.length - template.infoLength.toNat - 35) ∧ tokens.reference = digest) ∧
      ∀ (hash : Digest) length, template.infoLength.toNat + 43 ≤ length →
        ∃! em, em.length = length ∧
          ∃ tokens, recover em digest template bits = .ok tokens ∧ tokens.recovered = hash := by
  obtain ⟨hinfo, hlength⟩ := digestInfo?_eq_some hp
  have hiff (em : Bytes) (tokens : Tokens) : recover em digest template bits = .ok tokens ↔ _ :=
    recover_eq_ok_iff hh hinfo
  rw [hlength] at hiff
  constructor
  · intro em tokens
    rw [hiff, encode_eq_octets hlength]
    constructor
    · rintro ⟨hpadding, hoctets, hreference⟩
      exact ⟨⟨hoctets, by omega⟩, hreference⟩
    · rintro ⟨⟨hoctets, hpadding⟩, hreference⟩
      exact ⟨by omega, hoctets, hreference⟩
  · intro hash length h
    have hframed : (template.info.bytes.take template.infoLength.toNat).length + 35 ≤ length := by
      omega
    refine ⟨encode _ hash length, ⟨length_encode hframed hash, ⟨hash, digest⟩, ?_, rfl⟩, ?_⟩
    · exact recover_encode hh hinfo (by omega) hash digest bits
    · rintro em ⟨rfl, tokens, hrecover, rfl⟩
      exact ((hiff em tokens).mp hrecover).2.1

/-- The least padding that is enough, and the same message with one octet of it moved behind the
hash. -/
theorem least_padding_recovered :
    Template.standard.hashLength = 32 ∧ Template.standard.infoLength.toNat ≤ 24 ∧
      recover ([0x00, 0x01] ++ List.replicate 8 0xff ++ [0x00] ++ Template.sha256Info ++
        (Block.filled 32 0x5a).bytes) (.zero 32) .standard 0 =
          .ok ⟨.filled 32 0x5a, .zero 32⟩ ∧
      ∀ tokens, recover ([0x00, 0x01] ++ List.replicate 7 0xff ++ [0x00] ++ Template.sha256Info ++
        (Block.filled 32 0x5a).bytes ++ [0xff]) (.zero 32) .standard 0 ≠ .ok tokens := by
  have hp : Template.standard.infoLength.toNat ≤ 24 := by decide
  have hiff := (recover_iff_octets rfl hp (.zero 32) 0).1
  refine ⟨rfl, hp, (hiff _ _).mpr (by decide), fun tokens h => ?_⟩
  obtain ⟨⟨hoctets, -⟩, -⟩ := (hiff _ tokens).mp h
  have hpadding := congrArg (fun em => em[9]?) hoctets
  change some (0x00 : UInt8) = some 0xff at hpadding
  exact absurd hpadding (by decide)

end SignedBoot.Pkcs1
