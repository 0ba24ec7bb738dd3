import Mathlib
import SignedBoot.Proofs.Calls
import SignedBoot.Proofs.Verification.Operations

/-!
# Calls of the signature operations

The standard signature operations on one work area and one published message, called in any order
and each on an input of its own. How a call ends depends on its input alone, and what the last
operation publishes is what the latest update has opened since the work area was emptied.
-/

namespace SignedBoot

/-! ### Inputs -/

namespace SignatureInput

/-- The inputs on which a run begins. -/
def Admissible (input : SignatureInput) : Prop :=
  input.request = 1 ∧ 1 ≤ input.key.byteLength ∧ input.key.byteLength ≤ 512 ∧
    input.key.modulus.headD 0 ≠ 0 ∧ input.expected.length = input.key.byteLength ∧
    input.key.Accepted

instance (input : SignatureInput) : Decidable input.Admissible :=
  inferInstanceAs (Decidable (_ ∧ _))

/-- The inputs whose signature can be opened. -/
def Opens (input : SignatureInput) : Prop :=
  input.key.Accepted ∧ beValue input.expected < beValue input.key.modulus

instance (input : SignatureInput) : Decidable input.Opens := inferInstanceAs (Decidable (_ ∧ _))

/-- The signature raised to the exponent, in as many octets as the modulus needs. -/
def opened (input : SignatureInput) : Bytes :=
  be (octetLength (beValue input.key.modulus))
    (beValue input.expected ^ input.key.exponent.toNat % beValue input.key.modulus)

theorem Opens.length_opened_le {input : SignatureInput} (h : input.Opens) :
    input.opened.length ≤ 512 := by
  have hbits := h.1.2
  rw [opened, length_be, octetLength]
  omega

end SignatureInput

theorem SignatureOps.checkInput_eq_ok_iff_admissible {input : SignatureInput} :
    checkInput input = .ok () ↔ input.Admissible := by
  rw [checkInput_eq_ok_iff]
  constructor
  · rintro ⟨hrequest, hle, hhead, hlength, key, hkey⟩
    refine ⟨hrequest, ?_, hle, hhead, hlength, KeyDescriptor.accepted_of_ofDescriptor? hkey⟩
    unfold KeyDescriptor.byteLength
    cases hmodulus : input.key.modulus with
    | nil => simp [hmodulus] at hhead
    | cons x rest => simp
  · rintro ⟨hrequest, -, hle, hhead, hlength, haccepted⟩
    obtain ⟨key, hkey, -, -⟩ := haccepted.exists_publicKey
    exact ⟨hrequest, hle, hhead, hlength, key, hkey⟩

theorem SignatureOps.recoverMessage_of_opens {input : SignatureInput} (h : input.Opens) :
    recoverMessage input = .ok input.opened := by
  obtain ⟨key, hkey, hn, he⟩ := h.1.exists_publicKey
  refine recoverMessage_eq_ok_iff.mpr ⟨key, hkey, ?_, ?_⟩
  · rw [hn]
    exact h.2
  · rw [hn, he, SignatureInput.opened]

theorem SignatureOps.opens_of_recoverMessage {input : SignatureInput} {em : Bytes}
    (h : recoverMessage input = .ok em) : input.Opens := by
  obtain ⟨key, hkey, hlt, -⟩ := recoverMessage_eq_ok_iff.mp h
  have haccepted := KeyDescriptor.accepted_of_ofDescriptor? hkey
  obtain ⟨key', hkey', hn, -⟩ := haccepted.exists_publicKey
  obtain rfl := Option.some.inj (hkey.symm.trans hkey')
  exact ⟨haccepted, hn ▸ hlt⟩

/-! ### Sequences of calls -/

/-- A call of a signature operation. -/
inductive SignatureCall
  | init (candidate : Candidate) (input : SignatureInput)
  | update (candidate : Candidate) (input : SignatureInput)
  | finalize (candidate : Candidate) (input : SignatureInput)
  | cleanup (candidate : Candidate) (input : SignatureInput)

namespace SignatureCall

/-- The calls that empty the work area. -/
def empties : SignatureCall → Bool
  | .init _ input => input.Admissible
  | .update _ _ => false
  | .finalize _ _ => true
  | .cleanup _ _ => true

/-- The message that an update opens, if it succeeds. -/
def opened? : SignatureCall → Option Bytes
  | .update _ input => if input.Opens then some input.opened else none
  | _ => none

end SignatureCall

/-- The message that the latest update with success has opened since the work area was emptied, and
the empty one if there is no such update. -/
def pending (calls : List SignatureCall) : Bytes :=
  ((calls.reverse.takeWhile fun c => !c.empties).findSome? SignatureCall.opened?).getD []

theorem pending_concat (calls : List SignatureCall) (c : SignatureCall) :
    pending (calls ++ [c]) = if c.empties then [] else c.opened?.getD (pending calls) := by
  by_cases hc : c.empties
  · simp [pending, hc]
  · cases hopened : c.opened? with
    | none => simp [pending, hc, hopened]
    | some em => simp [pending, hc, hopened]

theorem length_pending_le (calls : List SignatureCall) : (pending calls).length ≤ 512 := by
  induction calls using List.reverseRecOn with
  | nil => simp [pending]
  | append_singleton calls c ih =>
    rw [pending_concat]
    cases c with
    | init candidate input =>
      by_cases h : input.Admissible
      · simp [SignatureCall.empties, h]
      · simpa [SignatureCall.empties, SignatureCall.opened?, h] using ih
    | update candidate input =>
      by_cases h : input.Opens
      · simpa [SignatureCall.empties, SignatureCall.opened?, h] using h.length_opened_le
      · simpa [SignatureCall.empties, SignatureCall.opened?, h] using ih
    | finalize candidate input => simp [SignatureCall.empties]
    | cleanup candidate input => simp [SignatureCall.empties]

/-! ### How a call ends -/

/-- The memory that the signature operations of a run share, in some form. -/
structure SignatureState (ω μ : Type) where
  work : ω
  message : μ

/-- The byte strings that the memory of the signature operations stands for. -/
structure SignatureView (ω μ : Type) where
  empty : ω
  work : ω → Bytes → Prop
  message : μ → Bytes → Prop

section Rules

variable {ω μ : Type}

/-- How a call ends that comes behind others, on the state that those left. -/
inductive SignatureAnswer (view : SignatureView ω μ) (before : List SignatureCall)
    (s : SignatureState ω μ) : SignatureCall → Except Fault Unit × SignatureState ω μ → Prop
  | begun {candidate : Candidate} {input : SignatureInput} (h : input.Admissible) :
      SignatureAnswer view before s (.init candidate input) (.ok (), { s with work := view.empty })
  | refused {candidate : Candidate} {input : SignatureInput} (h : ¬ input.Admissible)
      (f : Fault) : SignatureAnswer view before s (.init candidate input) (.error f, s)
  | opened {candidate : Candidate} {input : SignatureInput} {work : ω} (h : input.Opens)
      (hwork : view.work work input.opened) :
      SignatureAnswer view before s (.update candidate input) (.ok (), { s with work })
  | unopened {candidate : Candidate} {input : SignatureInput} (h : ¬ input.Opens) (f : Fault) :
      SignatureAnswer view before s (.update candidate input) (.error f, s)
  | published {candidate : Candidate} {input : SignatureInput} {message : μ}
      (h : view.message message (pending before)) :
      SignatureAnswer view before s (.finalize candidate input) (.ok (), ⟨view.empty, message⟩)
  | cleaned {candidate : Candidate} {input : SignatureInput} :
      SignatureAnswer view before s (.cleanup candidate input)
        (.ok (), { s with work := view.empty })

/-- After a call as before it, the work area holds what is pending. -/
theorem SignatureAnswer.work_pending {view : SignatureView ω μ} {before : List SignatureCall}
    {s : SignatureState ω μ} {c : SignatureCall} {answer : Except Fault Unit × SignatureState ω μ}
    (hempty : view.work view.empty []) (hs : view.work s.work (pending before))
    (h : SignatureAnswer view before s c answer) :
    view.work answer.2.work (pending (before ++ [c])) := by
  rw [pending_concat]
  cases h with
  | begun h => simpa [SignatureCall.empties, h] using hempty
  | refused h f => simpa [SignatureCall.empties, SignatureCall.opened?, h] using hs
  | opened h hwork => simpa [SignatureCall.empties, SignatureCall.opened?, h] using hwork
  | unopened h f => simpa [SignatureCall.empties, SignatureCall.opened?, h] using hs
  | published h => simpa [SignatureCall.empties] using hempty
  | cleaned => simpa [SignatureCall.empties] using hempty

end Rules

/-! ### The standard operations -/

/-- The state as the signature operations have it. -/
def SignatureView.contents : SignatureView WorkArea EncodedMessage where
  empty := []
  work w b := w = b
  message m b := m.bytes = b

namespace SignatureOps

def perform (ops : SignatureOps) :
    SignatureCall → SignatureState WorkArea EncodedMessage →
      Except Fault Unit × SignatureState WorkArea EncodedMessage
  | .init candidate input, s =>
    let (result, work) := ops.init candidate input s.work
    (result, { s with work })
  | .update candidate input, s =>
    let (result, work) := ops.update candidate input s.work
    (result, { s with work })
  | .finalize candidate input, s =>
    let (result, work, message) := ops.finalize candidate input s.work s.message
    (result, ⟨work, message⟩)
  | .cleanup candidate input, s => (.ok (), { s with work := ops.cleanup candidate input s.work })

theorem signatureAnswer_perform {before : List SignatureCall}
    {s : SignatureState WorkArea EncodedMessage} (hs : s.work = pending before)
    (c : SignatureCall) : SignatureAnswer .contents before s c (rsa.perform c s) := by
  cases c with
  | init candidate input =>
    cases hcheck : checkInput input with
    | ok u =>
      simp only [perform, rsa, hcheck]
      exact .begun (checkInput_eq_ok_iff_admissible.mp hcheck)
    | error f =>
      have hnot : ¬ input.Admissible := by simp [← checkInput_eq_ok_iff_admissible, hcheck]
      simp only [perform, rsa, hcheck]
      exact .refused hnot f
  | update candidate input =>
    by_cases h : input.Opens
    · simp only [perform, rsa, recoverMessage_of_opens h]
      exact .opened h rfl
    · cases hrecover : recoverMessage input with
      | ok em => exact absurd (opens_of_recoverMessage hrecover) h
      | error f =>
        simp only [perform, rsa, hrecover]
        exact .unopened h f
  | finalize candidate input =>
    have hlength : s.work.length ≤ maxRsaByteSize := by
      rw [hs]
      exact length_pending_le before
    simp only [perform, rsa, EncodedMessage.set, dif_pos hlength]
    exact .published hs
  | cleanup candidate input => exact .cleaned

/-- After any calls the work area holds what is pending. -/
theorem work_afterCalls (calls : List SignatureCall) :
    (afterCalls rsa.perform ⟨[], .empty⟩ calls).work = pending calls := by
  refine afterCalls_induction
    (P := fun calls (s : SignatureState WorkArea EncodedMessage) => s.work = pending calls)
    rfl ?_ calls
  intro before c s hs
  exact (signatureAnswer_perform hs c).work_pending rfl hs

end SignatureOps

end SignedBoot
