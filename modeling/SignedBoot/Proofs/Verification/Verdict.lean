import Mathlib
import SignedBoot.Encoding.Standard
import SignedBoot.Proofs.Outcome
import SignedBoot.Verification.Run

/-!
# Verdicts

When the parts of a verification run succeed: the comparison of two hashes, the choice of a mode,
the check of an encoded message, and the run as a whole. Notices, reports and the digest copy have
no part in it.
-/

namespace SignedBoot

/-! ### Modes -/

/-- Of the mode flags exactly the one of this mode is set. -/
def PolicyOptions.OnlyMode (word : UInt32) (mode : SignatureMode) : Prop :=
  ∀ m : SignatureMode, hasFlag word m.flag = true ↔ m = mode

theorem PolicyOptions.resolve_decode_eq_ok_iff {word : UInt32} {mode : SignatureMode} :
    (decode word).mode.resolve = .ok mode ↔ OnlyMode word mode := by
  have hmodes : OnlyMode word mode ↔
      (hasFlag word SignatureMode.pss.flag = true ↔ SignatureMode.pss = mode) ∧
        (hasFlag word SignatureMode.pkcs1.flag = true ↔ SignatureMode.pkcs1 = mode) := by
    constructor
    · intro h
      exact ⟨h .pss, h .pkcs1⟩
    · rintro ⟨hpss, hpkcs1⟩ m
      cases m with
      | pss => exact hpss
      | pkcs1 => exact hpkcs1
  rw [hmodes, decode]
  cases hasFlag word SignatureMode.pss.flag <;> cases hasFlag word SignatureMode.pkcs1.flag <;>
    cases mode <;> simp [ModeSelection.ofFlags, ModeSelection.resolve]

/-- What the standard scheme of a mode makes of an encoded message. -/
def SignatureMode.recover : SignatureMode → Bytes → Digest → Template → Nat → Except Fault Tokens
  | .pss => Pss.recover
  | .pkcs1 => Pkcs1.recover

theorem SchemeTable.select_rsa (mode : SignatureMode) :
    SchemeTable.rsa.select mode = .ok ⟨mode, mode.recover⟩ := by
  cases mode <;> rfl

namespace Policy

/-! ### Comparison -/

/-- Both hashes have the octets that are compared, at least one of them, and agree on them. -/
structure Agree (p : Policy) (observed reference : Bytes) : Prop where
  one_le : 1 ≤ p.tokenLength.toNat
  le_digest : p.tokenLength.toNat ≤ 32
  le_observed : p.tokenLength.toNat ≤ observed.length
  le_reference : p.tokenLength.toNat ≤ reference.length
  take_eq : observed.take p.tokenLength.toNat = reference.take p.tokenLength.toNat

theorem compare_eq_ok_iff {p : Policy} {observed reference : Bytes} {mismatch : Fault} :
    p.compare observed reference mismatch = .ok () ↔ p.Agree observed reference := by
  simp only [compare]
  constructor
  · intro h
    split at h
    · cases h
    rename_i hlength
    split at h
    · rename_i htake
      simp only [not_or, not_lt] at hlength
      exact ⟨Nat.one_le_iff_ne_zero.mpr hlength.1, hlength.2.1, hlength.2.2.1, hlength.2.2.2,
        htake⟩
    · cases h
  · intro h
    have h1 := h.one_le
    have h2 := h.le_digest
    have h3 := h.le_observed
    have h4 := h.le_reference
    rw [if_neg (by omega), if_pos h.take_eq]

theorem agree_digests_iff {p : Policy} {x y : Digest} :
    p.Agree x.bytes y.bytes ↔ 1 ≤ p.tokenLength.toNat ∧ p.tokenLength.toNat ≤ 32 ∧
      x.bytes.take p.tokenLength.toNat = y.bytes.take p.tokenLength.toNat := by
  constructor
  · intro h
    exact ⟨h.one_le, h.le_digest, h.take_eq⟩
  · rintro ⟨h1, h2, h3⟩
    refine ⟨h1, h2, ?_, ?_, h3⟩
    · rw [x.length_bytes]
      exact h2
    · rw [y.length_bytes]
      exact h2

/-! ### The signature stage -/

theorem checkMessage_eq_ok_iff {p : Policy} (hs : p.schemes = .rsa) {key : KeyDescriptor}
    {em : Bytes} {digest : Digest} :
    p.checkMessage key em digest = .ok () ↔ ∃ mode tokens, p.options.mode.resolve = .ok mode ∧
      mode.recover em digest p.template key.modulusBits = .ok tokens ∧
      p.Agree tokens.recovered.bytes tokens.reference.bytes := by
  simp only [checkMessage, bind_eq_ok_iff, hs, SchemeTable.select_rsa, Except.ok.injEq,
    exists_eq_left', compare_eq_ok_iff]
  constructor
  · rintro ⟨mode, hmode, tokens, htokens, hagree⟩
    exact ⟨mode, tokens, hmode, htokens, hagree⟩
  · rintro ⟨mode, tokens, hmode, htokens, hagree⟩
    exact ⟨mode, hmode, tokens, htokens, hagree⟩

theorem signatureStage_eq_ok_iff {p : Policy} {key : KeyDescriptor} {ops : SignatureOps}
    (hk : p.key = some key) (ho : p.signatureOps = some ops) {c : VerifyContext}
    {digest : Digest} :
    (p.signatureStage c digest).1 = .ok () ↔ ∃ em,
      ((ops.run c.candidate ⟨p.expected, c.image, verifyRequest, key⟩).result = .ok () ∧
        (ops.run c.candidate ⟨p.expected, c.image, verifyRequest, key⟩).message.bytes = em) ∧
      p.checkMessage key em digest = .ok () := by
  simp only [signatureStage, hk, ho]
  generalize ops.run c.candidate ⟨p.expected, c.image, verifyRequest, key⟩ = run
  change (run.result >>= fun _ => p.checkMessage key run.message.bytes digest) = .ok () ↔ _
  rw [bind_eq_ok_iff]
  constructor
  · rintro ⟨u, hresult, hcheck⟩
    exact ⟨run.message.bytes, ⟨hresult, rfl⟩, hcheck⟩
  · rintro ⟨em, ⟨hresult, rfl⟩, hcheck⟩
    exact ⟨(), hresult, hcheck⟩

/-! ### Whole runs -/

/-- A run that has a digest ends with the verdict on it. -/
theorem outcome_verify_of_digestStage {p : Policy} {c : VerifyContext} {digest : Digest}
    (h : (p.digestStage c).1 = .ok digest) : (p.verify c).outcome = (p.judge c digest).1 := by
  rw [verify]
  rcases hd : p.digestStage c with ⟨result, trace⟩
  rw [hd] at h
  cases h
  rfl

/-- A run that has a digest keeps it if the policy says so, whatever the verdict is. -/
theorem context_verify_of_digestStage {p : Policy} {c : VerifyContext} {digest : Digest}
    (h : (p.digestStage c).1 = .ok digest) : (p.verify c).context = p.keepDigest c digest := by
  rw [verify]
  rcases hd : p.digestStage c with ⟨result, trace⟩
  rw [hd] at h
  cases h
  rfl

/-- A run succeeds when its digest stage makes a digest and the verdict on it is good. -/
theorem outcome_verify_eq_ok_iff {p : Policy} {c : VerifyContext} :
    (p.verify c).outcome = .ok () ↔
      ∃ digest, (p.digestStage c).1 = .ok digest ∧ (p.judge c digest).1 = .ok () := by
  rw [verify]
  rcases p.digestStage c with ⟨result, trace⟩
  cases result with
  | error f => simp [conclude]
  | ok digest => simp [conclude]

end Policy

end SignedBoot
