import Mathlib
import SignedBoot.Proofs.Rsa.KeySize
import SignedBoot.Verification.DigestStage
import SignedBoot.Verification.SignatureStage

/-!
# The standard operations

When runs of the standard operation sets succeed and what they yield: the digest operations make
the SHA-256 digest of the message, and the signature operations raise the signature to the public
exponent.
-/

namespace SignedBoot

/-! ### The digest operations -/

/-- The record of a length that a word can hold gives the length back. -/
theorem Scratch.length?_ofLength {n : Nat} (h : n < 2 ^ 64) :
    (Scratch.ofLength n).length? = some n := by
  have hl : (le recordByteSize n).length = recordByteSize := length_le _ _
  have htake : (Block.ofPadded 64 (le recordByteSize n)).bytes.take recordByteSize =
      le recordByteSize n := by
    rw [Block.ofPadded, List.take_take, min_eq_left (by decide)]
    exact List.take_left' hl
  have hrange : octetRange recordByteSize = 2 ^ 64 := by
    rw [octetRange_eq]
    decide
  rw [length?, ofLength, if_pos rfl, htake, leValue_le, hrange, Nat.mod_eq_of_lt h]

theorem DigestOps.run_sha256 {message : Gather} (h : message.bytes.length < 2 ^ 64)
    (candidate : Candidate) :
    (sha256.run candidate message).1 = .ok (SignedBoot.sha256 message.bytes) := by
  rw [← message.length_eq] at h
  have hrecord := Scratch.length?_ofLength h
  simp only [run, sha256, hrecord, if_true, hashSegments_eq]

/-! ### The signature operations -/

namespace SignatureOps

theorem checkInput_eq_ok_iff {input : SignatureInput} :
    checkInput input = .ok () ↔ input.request = verifyRequest ∧
      input.key.byteLength ≤ maxRsaByteSize ∧ input.key.modulus.headD 0 ≠ 0 ∧
      input.expected.length = input.key.byteLength ∧
      ∃ k, PublicKey.ofDescriptor? input.key = some k := by
  unfold checkInput
  constructor
  · intro h
    split at h
    · cases h
    rename_i hrequest
    split at h
    · cases h
    rename_i hmodulus
    split at h
    · cases h
    rename_i hlength
    split at h
    · cases h
    rename_i hkey
    rw [not_or, not_lt] at hmodulus
    rw [Option.isNone_iff_eq_none] at hkey
    exact ⟨not_not.mp hrequest, hmodulus.1, hmodulus.2, not_not.mp hlength,
      Option.ne_none_iff_exists'.mp hkey⟩
  · rintro ⟨hrequest, hle, hhead, hlength, k, hk⟩
    have hmodulus : ¬ (input.key.byteLength > maxRsaByteSize ∨
        input.key.modulus.headD 0 = 0) := by
      rw [not_or]
      exact ⟨not_lt.mpr hle, hhead⟩
    rw [if_neg (not_not.mpr hrequest), if_neg hmodulus, if_neg (not_not.mpr hlength), hk]
    rfl

theorem recoverMessage_eq_ok_iff {input : SignatureInput} {em : Bytes} :
    recoverMessage input = .ok em ↔ ∃ k, PublicKey.ofDescriptor? input.key = some k ∧
      beValue input.expected < k.modulus ∧
      em = be (octetLength k.modulus) (beValue input.expected ^ k.exponent % k.modulus) := by
  unfold recoverMessage
  constructor
  · intro h
    split at h
    · cases h
    rename_i k hk
    dsimp only at h
    split at h
    · cases h
    rename_i hlt
    cases h
    exact ⟨k, hk, not_le.mp hlt, by rw [PublicKey.apply, powMod_eq]; rfl⟩
  · rintro ⟨k, hk, hlt, rfl⟩
    simp only [hk]
    rw [if_neg (not_le.mpr hlt), PublicKey.apply, powMod_eq]
    rfl

/-- A run of the standard operations publishes a message exactly when its inputs pass, the public
operation yields that message, and it fits. -/
theorem run_rsa_eq_ok_iff {candidate : Candidate} {input : SignatureInput} {em : Bytes} :
    ((rsa.run candidate input).result = .ok () ∧ (rsa.run candidate input).message.bytes = em) ↔
      checkInput input = .ok () ∧ recoverMessage input = .ok em ∧ em.length ≤ maxRsaByteSize := by
  cases hcheck : checkInput input with
  | error f =>
    simp [run, rsa, hcheck]
  | ok u =>
    cases hrecover : recoverMessage input with
    | error f =>
      simp [run, rsa, hcheck, hrecover]
    | ok em' =>
      by_cases hl : em'.length ≤ maxRsaByteSize
      · simp only [run, rsa, hcheck, hrecover, EncodedMessage.set, hl, dif_pos, true_and,
          Except.ok.injEq]
        constructor
        · rintro rfl
          exact ⟨rfl, hl⟩
        · rintro ⟨rfl, -⟩
          rfl
      · simp only [run, rsa, hcheck, hrecover, EncodedMessage.set, hl, dif_neg, not_false_eq_true,
          true_and, Except.ok.injEq]
        constructor
        · rintro ⟨h, -⟩
          cases h
        · rintro ⟨rfl, h⟩
          exact absurd h hl

/-- Under the key of a key tag a run succeeds exactly on signatures below an odd modulus. -/
theorem run_rsa_key_eq_ok_iff {t : KeyTag} (ht : t.WellFormed) {candidate : Candidate}
    {image : Gather} {s : Block 256} {em : Bytes} :
    ((rsa.run candidate ⟨s.bytes, image, verifyRequest, t.key⟩).result = .ok () ∧
      (rsa.run candidate ⟨s.bytes, image, verifyRequest, t.key⟩).message.bytes = em) ↔
      t.modulusValue % 2 = 1 ∧ beValue s.bytes < t.modulusValue ∧
        em = be 256 (beValue s.bytes ^ t.exponent.toNat % t.modulusValue) := by
  rw [run_rsa_eq_ok_iff, checkInput_eq_ok_iff, recoverMessage_eq_ok_iff]
  constructor
  · rintro ⟨⟨-, -, -, -, k, hk⟩, ⟨k', hk', hlt, hem⟩, -⟩
    have hodd := ht.odd_of_ofDescriptor?_key hk
    obtain ⟨l, hl, hn, he⟩ := ht.ofDescriptor?_key_of_odd hodd
    have hkl : k' = l := Option.some.inj (hk'.symm.trans hl)
    rw [hkl, hn] at hlt
    rw [hkl, hn, he, ht.octetLength_modulus] at hem
    exact ⟨hodd, hlt, hem⟩
  · rintro ⟨hodd, hlt, rfl⟩
    obtain ⟨k, hk, hn, he⟩ := ht.ofDescriptor?_key_of_odd hodd
    have hbytes : t.key.byteLength = 256 := t.modulus.length_bytes
    refine ⟨⟨rfl, ?_, ht.headD_ne_zero, ?_, k, hk⟩, ⟨k, hk, ?_, ?_⟩, ?_⟩
    · rw [hbytes]
      decide
    · rw [hbytes]
      exact s.length_bytes
    · rw [hn]
      exact hlt
    · rw [hn, he, ht.octetLength_modulus]
    · rw [length_be]
      decide

/-- Under the key of a key tag with an odd modulus every input passes its checks. -/
theorem checkInput_key {t : KeyTag} (ht : t.WellFormed) (hodd : t.modulusValue % 2 = 1)
    (image : Gather) (s : Block 256) :
    checkInput ⟨s.bytes, image, verifyRequest, t.key⟩ = .ok () := by
  obtain ⟨k, hk, -, -⟩ := ht.ofDescriptor?_key_of_odd hodd
  have hbytes : t.key.byteLength = 256 := t.modulus.length_bytes
  refine checkInput_eq_ok_iff.mpr ⟨rfl, ?_, ht.headD_ne_zero, ?_, k, hk⟩
  · rw [hbytes]
    decide
  · rw [hbytes]
    exact s.length_bytes

/-- A signature that is not below an odd modulus makes the second operation fail. -/
theorem run_rsa_key_of_le {t : KeyTag} (ht : t.WellFormed) (hodd : t.modulusValue % 2 = 1)
    {s : Block 256} (hs : t.modulusValue ≤ beValue s.bytes) (candidate : Candidate)
    (image : Gather) :
    (rsa.run candidate ⟨s.bytes, image, verifyRequest, t.key⟩).result = .error .updateFailed := by
  obtain ⟨k, hk, hn, -⟩ := ht.ofDescriptor?_key_of_odd hodd
  have hrecover : recoverMessage ⟨s.bytes, image, verifyRequest, t.key⟩ =
      .error .signatureOutOfRange := by
    simp only [recoverMessage, hk, hn]
    exact if_pos hs
  simp only [run, rsa, checkInput_key ht hodd, hrecover]
  rfl

end SignatureOps

end SignedBoot
