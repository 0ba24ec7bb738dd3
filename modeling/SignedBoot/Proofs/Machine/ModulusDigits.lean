import Mathlib
import SignedBoot.Proofs.Encoding.Pss
import SignedBoot.Proofs.Machine.Stages
import SignedBoot.Proofs.Verification.SignatureCalls

/-!
# The digits of a modulus and the length of messages

The number of digits that is counted for a modulus is that of its value, on a machine as well. The
length of a PSS encoding follows from it, and a message that the standard operations publish is
never shorter, so it is up to the template alone whether messages of its length can be taken apart
(`KeyDescriptor.modulusBits_and_published_length`).
-/

namespace SignedBoot

/-! ### Digits -/

theorem two_pow_le_and_lt_iff {n : Nat} (hn : n ≠ 0) {b : Nat} :
    2 ^ (b - 1) ≤ n ∧ n < 2 ^ b ↔ b = bitLength n := by
  have hpos : 0 < bitLength n := lt_bitLength_iff.mpr (Nat.one_le_iff_ne_zero.mpr hn)
  rw [← lt_bitLength_iff, ← bitLength_le_iff]
  omega

namespace KeyDescriptor

theorem modulusBits_eq_bitLength (k : KeyDescriptor) :
    k.modulusBits = bitLength (beValue k.modulus) :=
  numeralBits_eq k.modulus

theorem Accepted.one_le_modulusBits {k : KeyDescriptor} (h : k.Accepted) : 1 ≤ k.modulusBits := by
  obtain ⟨⟨-, hlt, -⟩, -⟩ := h
  rw [modulusBits_eq_bitLength]
  exact lt_bitLength_iff.mpr (Nat.one_le_of_lt hlt)

/-- A modulus without zeros in front has as many octets as its value needs. -/
theorem octetLength_eq_byteLength {k : KeyDescriptor} (h : k.modulus.headD 0 ≠ 0) :
    octetLength (beValue k.modulus) = k.byteLength := by
  rw [octetLength, ← modulusBits_eq_bitLength, modulusBits, byteLength]
  cases hmodulus : k.modulus with
  | nil => simp [hmodulus] at h
  | cons x rest =>
    rw [hmodulus, List.headD_cons] at h
    have hx : x.toNat ≠ 0 := fun h0 => h (UInt8.toNat_inj.mp h0)
    have hlow : 0 < bitLength x.toNat := lt_bitLength_iff.mpr (Nat.one_le_iff_ne_zero.mpr hx)
    have hhigh : bitLength x.toNat ≤ 8 := bitLength_le_iff.mpr x.toNat_lt
    rw [numeralBits, if_neg h, List.length_cons]
    omega

end KeyDescriptor

/-! ### Lengths that PSS takes -/

namespace Pss

/-- An encoding for a modulus needs no more octets than the modulus does. -/
theorem encodedLength_le_octetLength (n : Nat) :
    encodedLength (bitLength n - 1) ≤ octetLength n := by
  rw [encodedLength, octetLength]
  omega

/-- Among the messages of a length there is one that can be taken apart. -/
def TakesLength (digest : Digest) (template : Template) (modulusBits length : Nat) : Prop :=
  ∃ em tokens, em.length = length ∧ recover em digest template modulusBits = .ok tokens

theorem bounds_of_recover {em : Bytes} {digest : Digest} {template : Template} {modulusBits : Nat}
    {tokens : Tokens} (h : recover em digest template modulusBits = .ok tokens) :
    template.hashLength = 32 ∧ 1 ≤ modulusBits ∧ encodedLength (modulusBits - 1) ≤ em.length ∧
      encodedLength (modulusBits - 1) ≤ maxLength ∧
      template.saltLength.toNat + 34 ≤ encodedLength (modulusBits - 1) := by
  unfold recover at h
  split at h
  · cases h
  rename_i hhash
  split at h
  · cases h
  rename_i hbits
  dsimp only at h
  split at h
  · cases h
  rename_i hlength
  split at h
  · cases h
  obtain ⟨hsalt, -⟩ := recoverExact_eq_ok_iff.mp h
  exact ⟨not_not.mp hhash, by omega, by omega, by omega, hsalt⟩

theorem takesLength_iff {digest : Digest} {template : Template} {modulusBits length : Nat} :
    TakesLength digest template modulusBits length ↔
      template.hashLength = 32 ∧ 1 ≤ modulusBits ∧ encodedLength (modulusBits - 1) ≤ length ∧
        encodedLength (modulusBits - 1) ≤ maxLength ∧
        template.saltLength.toNat + 34 ≤ encodedLength (modulusBits - 1) := by
  constructor
  · rintro ⟨em, tokens, rfl, h⟩
    exact bounds_of_recover h
  · rintro ⟨hhash, hbits, hle, hmax, hsalt⟩
    obtain ⟨salt, hl⟩ : ∃ salt : Bytes, salt.length = template.saltLength.toNat :=
      ⟨_, List.length_replicate (a := 0)⟩
    rw [← hl] at hsalt
    have hlength : (encode digest salt (modulusBits - 1)).length = _ := length_encode hsalt
    refine ⟨_, _, ?_, recover_encode hhash (by omega) hmax hsalt hl
      (length - encodedLength (modulusBits - 1))⟩
    rw [List.length_append, List.length_replicate, hlength]
    omega

end Pss

/-! ### Published messages -/

namespace SignatureOps

variable {candidate : Candidate} {input : SignatureInput} {work work' : WorkArea}

theorem rsa_init_eq_ok_iff :
    rsa.init candidate input work = (.ok (), work') ↔ input.Admissible ∧ work' = [] := by
  rw [← checkInput_eq_ok_iff_admissible]
  cases hcheck : checkInput input with
  | ok u => simp [rsa, hcheck, eq_comm]
  | error f => simp [rsa, hcheck]

theorem rsa_update_eq_ok_iff :
    rsa.update candidate input work = (.ok (), work') ↔ input.Opens ∧ work' = input.opened := by
  constructor
  · intro h
    cases hrecover : recoverMessage input with
    | error f => simp [rsa, hrecover] at h
    | ok em =>
      have hopens := opens_of_recoverMessage hrecover
      rw [recoverMessage_of_opens hopens] at hrecover
      cases hrecover
      simp only [rsa, recoverMessage_of_opens hopens, Prod.mk.injEq, true_and] at h
      exact ⟨hopens, h.symm⟩
  · rintro ⟨hopens, rfl⟩
    simp only [rsa, recoverMessage_of_opens hopens]

theorem rsa_finalize_of_length_le (h : work.length ≤ maxRsaByteSize) (message : EncodedMessage) :
    rsa.finalize candidate input work message = (.ok (), [], ⟨work, h⟩) := by
  simp only [rsa, EncodedMessage.set, dif_pos h]

end SignatureOps

/-- The message of an admissible input is as long as its modulus. -/
theorem SignatureInput.Admissible.length_opened {input : SignatureInput} (h : input.Admissible) :
    input.opened.length = input.key.byteLength := by
  obtain ⟨-, -, -, hhead, -, -⟩ := h
  rw [opened, length_be, KeyDescriptor.octetLength_eq_byteLength hhead]

/-- The digits of a modulus are those of its value, zeros in front or not, and a machine counts them
without a trap. A message that is published behind an `init` and an `update` with success is as long
as the modulus, no shorter than an encoding for these digits, and its length can be taken apart
under exactly the templates whose hash is one of SHA-256 and whose salt fits the encoding. -/
theorem KeyDescriptor.modulusBits_and_published_length :
    (∀ k : KeyDescriptor, (beValue k.modulus = 0 → k.modulusBits = 0) ∧
      (beValue k.modulus ≠ 0 → ∀ b, 2 ^ (b - 1) ≤ beValue k.modulus ∧ beValue k.modulus < 2 ^ b ↔
        b = k.modulusBits) ∧
      (∀ zeros, modulusBits ⟨List.replicate zeros 0 ++ k.modulus, k.exponent⟩ = k.modulusBits) ∧
      ∀ space : Machine.AddressSpace, 8 * k.byteLength < space.size →
        Machine.modulusBits space k = .value k.modulusBits) ∧
    ∀ (c₁ c₂ c₃ : Candidate) (input : SignatureInput) work work₁ work₂ message,
      SignatureOps.rsa.init c₁ input work = (.ok (), work₁) →
      SignatureOps.rsa.update c₂ input work₁ = (.ok (), work₂) →
      ∃ published, SignatureOps.rsa.finalize c₃ input work₂ message = (.ok (), [], published) ∧
        published.bytes.length = input.key.byteLength ∧
        (input.key.modulusBits - 1) ⌈/⌉ 8 ≤ published.bytes.length ∧
        ∀ digest template,
          Pss.TakesLength digest template input.key.modulusBits published.bytes.length ↔
            template.hashLength = 32 ∧
              32 + template.saltLength.toNat + 2 ≤ (input.key.modulusBits - 1) ⌈/⌉ 8 := by
  constructor
  · intro k
    rw [modulusBits_eq_bitLength]
    refine ⟨fun h => by rw [h]; rfl, fun h b => two_pow_le_and_lt_iff h, fun zeros => ?_, ?_⟩
    · rw [modulusBits_eq_bitLength, beValue_replicate_append]
    · intro space h
      rw [Machine.modulusBits_eq space h, modulusBits_eq_bitLength]
  · intro c₁ c₂ c₃ input work work₁ work₂ message hinit hupdate
    obtain ⟨hadmissible, -⟩ := SignatureOps.rsa_init_eq_ok_iff.mp hinit
    obtain ⟨hopens, rfl⟩ := SignatureOps.rsa_update_eq_ok_iff.mp hupdate
    have hmax := hopens.length_opened_le
    have hdigits := hopens.1.one_le_modulusBits
    have hle : Pss.encodedLength (input.key.modulusBits - 1) ≤ input.opened.length := by
      rw [modulusBits_eq_bitLength, SignatureInput.opened, length_be]
      exact Pss.encodedLength_le_octetLength _
    refine ⟨_, SignatureOps.rsa_finalize_of_length_le hmax message,
      hadmissible.length_opened, ?_, ?_⟩
    · rwa [Pss.encodedLength_eq_ceilDiv] at hle
    · intro digest template
      rw [Pss.takesLength_iff, ← Pss.encodedLength_eq_ceilDiv]
      change _ ∧ _ ∧ _ ≤ input.opened.length ∧ _ ≤ 512 ∧ _ ↔ _
      constructor
      · rintro ⟨hhash, -, -, -, hsalt⟩
        exact ⟨hhash, by omega⟩
      · rintro ⟨hhash, hsalt⟩
        exact ⟨hhash, hdigits, hle, hle.trans hmax, by omega⟩

/-- A signature under the modulus `2 ^ 528 + 1`, whose encodings have one octet less. -/
def narrowInput : SignatureInput :=
  ⟨be 67 2, .empty, verifyRequest, ⟨be 67 (2 ^ 528 + 1), 3⟩⟩

theorem published_length_narrowInput :
    SignatureOps.rsa.init ⟨0, .empty⟩ narrowInput [] = (.ok (), []) ∧
      SignatureOps.rsa.update ⟨0, .empty⟩ narrowInput [] = (.ok (), narrowInput.opened) ∧
      narrowInput.key.modulusBits = 529 ∧
      ∃ published : EncodedMessage, published.bytes.length = 67 ∧
        Pss.TakesLength (.zero 32) .standard 529 published.bytes.length := by
  have hinit : SignatureOps.rsa.init ⟨0, .empty⟩ narrowInput [] = (.ok (), []) :=
    SignatureOps.rsa_init_eq_ok_iff.mpr ⟨by decide +kernel, rfl⟩
  have hupdate : SignatureOps.rsa.update ⟨0, .empty⟩ narrowInput [] =
      (.ok (), narrowInput.opened) :=
    SignatureOps.rsa_update_eq_ok_iff.mpr ⟨by decide +kernel, rfl⟩
  have hbits : narrowInput.key.modulusBits = 529 := by decide +kernel
  obtain ⟨published, -, hlength, -, htakes⟩ :=
    KeyDescriptor.modulusBits_and_published_length.2 _ _ ⟨0, .empty⟩ narrowInput [] [] _ .empty
      hinit hupdate
  rw [hbits] at htakes
  exact ⟨hinit, hupdate, hbits, published, hlength.trans (length_be _ _),
    (htakes _ _).mpr ⟨rfl, by decide⟩⟩

end SignedBoot
