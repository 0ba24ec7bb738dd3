import Mathlib
import SignedBoot.Proofs.Machine.Stages
import SignedBoot.Proofs.Verification.SignatureCalls

/-!
# Calls of the signature operations on a machine

The work area and the published message are areas of 512 octets that every call finds as the calls
before it have left them. A shorter message does not cover what a longer one has left behind, and
no call reads it (`SignatureOps.rsa_calls`).
-/

namespace SignedBoot

namespace Machine

/-! ### Areas in use -/

/-- An area whose octets in use are a byte string. -/
structure Buffer.Holds (b : Buffer) (x : Bytes) : Prop where
  length_octets : b.octets.length = 512
  content : b.content = .value x

theorem Buffer.holds_empty : empty.Holds [] := ⟨List.length_replicate, content_empty⟩

/-- A byte string at the front of an area that keeps the octets behind it. -/
theorem Buffer.holds_over {area x : Bytes} (harea : area.length = 512) (hx : x.length ≤ 512) :
    Buffer.Holds ⟨x ++ area.drop x.length, x.length⟩ x := by
  constructor
  case length_octets =>
    rw [List.length_append, List.length_drop, harea]
    omega
  case content => exact rangeTo_append x _

/-- The public operation, onto the work area as it is. -/
def applyKeyOver (work : Buffer) (input : SignatureInput) : Run Buffer :=
  match PublicKey.ofDescriptor? input.key with
  | none => .fault .keyInvalid
  | some key =>
    let s := beValue input.expected
    if s ≥ key.modulus then .fault .signatureOutOfRange
    else
      let m := key.apply s
      alignNumeralOver work.octets (be (max 1 (octetLength m)) m) key.byteLength

/-- Copies the encoded message onto the area where it is published. -/
def publishOver (message work : Buffer) : Run Buffer := do
  let em ← work.content
  if message.octets.length < em.length then .fault .signatureLength
  else do
    let octets ← write message.octets 0 em.length em
    .value ⟨octets, em.length⟩

theorem applyKeyOver_of_ok {work : Buffer} {input : SignatureInput} {em : Bytes}
    (hwork : work.octets.length = 512) (h : SignatureOps.recoverMessage input = .ok em) :
    ∃ work', applyKeyOver work input = .value work' ∧ work'.Holds em := by
  unfold SignatureOps.recoverMessage at h
  unfold applyKeyOver
  cases hkey : PublicKey.ofDescriptor? input.key with
  | none => simp [hkey] at h
  | some key =>
    by_cases hrange : beValue input.expected ≥ key.modulus
    · simp [hkey, hrange] at h
    · simp only [hkey, if_neg hrange, Except.ok.injEq] at h ⊢
      obtain ⟨padding, length, hlength, hpadding, hmax, hbe⟩ :=
        PublicKey.exists_padding key (beValue input.expected)
      have hem : em.length = padding + length := by
        rw [← h, length_be, hpadding]
      rw [hbe] at h
      rw [← hlength, hpadding, alignNumeralOver_eq hwork (length_be length _) hmax,
        ← List.append_assoc, h, ← hem]
      exact ⟨_, rfl, Buffer.holds_over hwork (hem.trans_le hmax)⟩

theorem applyKeyOver_of_error {work : Buffer} {input : SignatureInput} {f : Fault}
    (h : SignatureOps.recoverMessage input = .error f) :
    applyKeyOver work input = .fault f := by
  unfold SignatureOps.recoverMessage at h
  unfold applyKeyOver
  cases hkey : PublicKey.ofDescriptor? input.key with
  | none =>
    rw [hkey] at h
    cases h
    rfl
  | some key =>
    by_cases hrange : beValue input.expected ≥ key.modulus
    · simp only [hkey, if_pos hrange] at h ⊢
      cases h
      rfl
    · simp [hkey, hrange] at h

theorem publishOver_of_holds {message work : Buffer} {x : Bytes}
    (hmessage : message.octets.length = 512) (hwork : work.Holds x) (hx : x.length ≤ 512) :
    ∃ message', publishOver message work = .value message' ∧ message'.Holds x := by
  have hfits : ¬ message.octets.length < x.length := by omega
  have hwrite : write message.octets 0 x.length x =
      .value (x ++ message.octets.drop x.length) := write_front rfl (by omega)
  rw [publishOver, hwork.content, Run.value_bind, if_neg hfits, hwrite]
  exact ⟨_, rfl, Buffer.holds_over hmessage hx⟩

/-! ### Calls -/

abbrev SignatureAreas := SignatureState Buffer Buffer

/-- Both areas as they are at first. -/
def SignatureAreas.start : SignatureAreas := ⟨.empty, .empty⟩

/-- The state as areas have it. -/
def areas : SignatureView Buffer Buffer := ⟨.empty, Buffer.Holds, Buffer.Holds⟩

def performSignature :
    SignatureCall → SignatureAreas → Run (Except Fault Unit × SignatureAreas)
  | .init _ input, a => do
    match ← (checkInput input).attempt with
    | .ok () => .value (.ok (), { a with work := .empty })
    | .error f => .value (.error f, a)
  | .update _ input, a => do
    match ← (applyKeyOver a.work input).attempt with
    | .ok work => .value (.ok (), { a with work })
    | .error f => .value (.error f, a)
  | .finalize _ _, a => do
    match ← (publishOver a.message a.work).attempt with
    | .ok message => .value (.ok (), ⟨.empty, message⟩)
    | .error f => .value (.error f, a)
  | .cleanup _ _, a => .value (.ok (), { a with work := .empty })

/-- What a sequence of calls leaves in the areas. -/
def afterSignatureCalls (a : SignatureAreas) (calls : List SignatureCall) : Run SignatureAreas :=
  calls.foldlM (fun a c => do let answer ← performSignature c a; .value answer.2) a

/-- Areas that hold what a state has. -/
structure Matches (a : SignatureAreas) (s : SignatureState WorkArea EncodedMessage) : Prop where
  work : a.work.Holds s.work
  message : a.message.Holds s.message.bytes

theorem matches_start : Matches .start ⟨[], .empty⟩ := ⟨Buffer.holds_empty, Buffer.holds_empty⟩

/-- A call on areas ends as it does on their contents, and by the same rules. -/
def Follows (before : List SignatureCall) (a : SignatureAreas)
    (s : SignatureState WorkArea EncodedMessage) (c : SignatureCall) : Prop :=
  ∃ a', performSignature c a = .value ((SignatureOps.rsa.perform c s).1, a') ∧
    Matches a' (SignatureOps.rsa.perform c s).2 ∧
    SignatureAnswer areas before a c ((SignatureOps.rsa.perform c s).1, a')

section Follows

open SignatureOps

variable {before : List SignatureCall} {a : SignatureAreas}
  {s : SignatureState WorkArea EncodedMessage}

theorem follows_init (ha : Matches a s) (candidate : Candidate) (input : SignatureInput) :
    Follows before a s (.init candidate input) := by
  simp only [Follows, performSignature, checkInput_eq, Run.attempt_ofExcept, Run.value_bind]
  cases hcheck : SignatureOps.checkInput input with
  | ok u =>
    have hinput := checkInput_eq_ok_iff_admissible.mp hcheck
    simp only [perform, rsa, hcheck]
    exact ⟨_, rfl, ⟨Buffer.holds_empty, ha.message⟩, .begun hinput⟩
  | error f =>
    have hinput : ¬ input.Admissible := by simp [← checkInput_eq_ok_iff_admissible, hcheck]
    simp only [perform, rsa, hcheck]
    exact ⟨_, rfl, ha, .refused hinput f⟩

theorem follows_update (ha : Matches a s) (candidate : Candidate) (input : SignatureInput) :
    Follows before a s (.update candidate input) := by
  simp only [Follows, performSignature]
  by_cases hinput : input.Opens
  · have hrecover := recoverMessage_of_opens hinput
    obtain ⟨work, hwork, hem⟩ := applyKeyOver_of_ok ha.work.length_octets hrecover
    simp only [hwork, Run.attempt, Run.value_bind, perform, rsa, hrecover]
    exact ⟨_, rfl, ⟨hem, ha.message⟩, .opened hinput hem⟩
  · cases hrecover : recoverMessage input with
    | ok em => exact absurd (opens_of_recoverMessage hrecover) hinput
    | error f =>
      simp only [applyKeyOver_of_error hrecover, Run.attempt, Run.value_bind, perform, rsa,
        hrecover]
      exact ⟨_, rfl, ha, .unopened hinput f⟩

theorem follows_finalize (ha : Matches a s) (hs : s.work = pending before)
    (candidate : Candidate) (input : SignatureInput) :
    Follows before a s (.finalize candidate input) := by
  have hlength : s.work.length ≤ maxRsaByteSize := by
    rw [hs]
    exact length_pending_le before
  obtain ⟨message, hmessage, hem⟩ := publishOver_of_holds ha.message.length_octets ha.work hlength
  simp only [Follows, performSignature, hmessage, Run.attempt, Run.value_bind, perform, rsa,
    EncodedMessage.set, dif_pos hlength]
  exact ⟨_, rfl, ⟨Buffer.holds_empty, hem⟩, .published (hs ▸ hem)⟩

theorem follows_call (ha : Matches a s) (hs : s.work = pending before) (c : SignatureCall) :
    Follows before a s c := by
  cases c with
  | init candidate input => exact follows_init ha candidate input
  | update candidate input => exact follows_update ha candidate input
  | finalize candidate input => exact follows_finalize ha hs candidate input
  | cleanup candidate input => exact ⟨_, rfl, ⟨Buffer.holds_empty, ha.message⟩, .cleaned⟩

end Follows

/-- No sequence of calls is trapped, and the areas hold after it what the state has. -/
theorem exists_afterSignatureCalls (before : List SignatureCall) {a : SignatureAreas}
    {s : SignatureState WorkArea EncodedMessage} (ha : Matches a s)
    (hs : s.work = pending before) (calls : List SignatureCall) :
    ∃ a', afterSignatureCalls a calls = .value a' ∧
      Matches a' (afterCalls SignatureOps.rsa.perform s calls) := by
  induction calls generalizing before a s with
  | nil => exact ⟨a, rfl, ha⟩
  | cons c calls ih =>
    obtain ⟨a', hc, ha', -⟩ := follows_call ha hs c
    have hs' := (SignatureOps.signatureAnswer_perform hs c).work_pending rfl hs
    obtain ⟨a'', hcalls, ha''⟩ := ih (before ++ [c]) ha' hs'
    refine ⟨a'', ?_, ha''⟩
    rw [afterSignatureCalls, List.foldlM_cons, hc]
    exact hcalls

end Machine

/-- The signature operations, called in any order and each on an input of its own. What the work
area holds after some calls is pending, and the next call ends by the rules of `SignatureAnswer`.
On areas that keep what earlier calls have left in them, no call is trapped, and each ends by the
same rules with the same result. -/
theorem SignatureOps.rsa_calls (before : List SignatureCall) (c : SignatureCall) :
    (pending before).length ≤ 512 ∧
      (afterCalls rsa.perform ⟨[], .empty⟩ before).work = pending before ∧
      SignatureAnswer .contents before (afterCalls rsa.perform ⟨[], .empty⟩ before) c
        (rsa.perform c (afterCalls rsa.perform ⟨[], .empty⟩ before)) ∧
      ∃ a a', Machine.afterSignatureCalls .start before = .value a ∧
        Machine.Matches a (afterCalls rsa.perform ⟨[], .empty⟩ before) ∧
        Machine.performSignature c a =
          .value ((rsa.perform c (afterCalls rsa.perform ⟨[], .empty⟩ before)).1, a') ∧
        SignatureAnswer Machine.areas before a c
          ((rsa.perform c (afterCalls rsa.perform ⟨[], .empty⟩ before)).1, a') := by
  have hwork := work_afterCalls before
  obtain ⟨a, hbefore, ha⟩ := Machine.exists_afterSignatureCalls [] Machine.matches_start rfl before
  obtain ⟨a', hc, -, hanswer⟩ := Machine.follows_call ha hwork c
  exact ⟨length_pending_le before, hwork, signatureAnswer_perform hwork c,
    a, a', hbefore, ha, hc, hanswer⟩

end SignedBoot
