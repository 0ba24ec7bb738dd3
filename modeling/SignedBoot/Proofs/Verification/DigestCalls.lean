import Mathlib
import SignedBoot.Proofs.Calls
import SignedBoot.Proofs.Verification.Operations

/-!
# Calls of the digest operations

The standard digest operations on one scratch area, called in any order and on any messages. The
record in the scratch area is all that a call sees of the calls before it, and of a message it
sees the octets and not how they are cut into segments (`DigestOps.sha256_calls`).
-/

namespace SignedBoot

/-- A call of a digest operation. The length of its message is a number of 64 binary digits. -/
structure DigestCall where
  step : DigestStep
  candidate : Candidate
  message : Gather
  length_lt : message.length < 2 ^ 64

/-- What the digest operations work on. -/
structure DigestState where
  scratch : Scratch
  digest : Digest

/-- The length that the latest call to prepare or to finish has prepared for, if it prepared. -/
def preparedLength? (calls : List DigestCall) : Option Nat :=
  match (calls.filter fun c => c.step ≠ .digest).getLast? with
  | some ⟨.prepare, _, message, _⟩ => some message.length
  | _ => none

namespace DigestOps

def perform (ops : DigestOps) (c : DigestCall) (s : DigestState) :
    Except Fault Unit × DigestState :=
  match c.step with
  | .prepare =>
    let (result, scratch) := ops.prepare c.candidate c.message s.scratch
    (result, { s with scratch })
  | .digest =>
    let (result, digest) := ops.digest c.candidate c.message s.scratch s.digest
    (result, { s with digest })
  | .finish =>
    let (result, scratch) := ops.finish c.candidate c.message s.scratch
    (result, { s with scratch })

/-! ### One call -/

theorem perform_prepare {c : DigestCall} (h : c.step = .prepare) (s : DigestState) :
    sha256.perform c s = (.ok (), { s with scratch := .ofLength c.message.length }) := by
  simp only [perform, h, sha256]

theorem perform_finish {c : DigestCall} (h : c.step = .finish) (s : DigestState) :
    sha256.perform c s = (.ok (), { s with scratch := .empty }) := by
  simp only [perform, h, sha256]

theorem perform_digest {c : DigestCall} (h : c.step = .digest) (s : DigestState) :
    sha256.perform c s =
      if s.scratch.length? = some c.message.length then
        (.ok (), { s with digest := SignedBoot.sha256 c.message.bytes })
      else (.error .digestFailed, s) := by
  by_cases hlength : s.scratch.length? = some c.message.length
  · simp [perform, h, sha256, hlength, hashSegments_eq]
  · simp [perform, h, sha256, hlength]

/-- Two calls of one operation on the same octets. -/
def SameOctets (c d : DigestCall) : Prop := c.step = d.step ∧ c.message.bytes = d.message.bytes

theorem perform_eq_of_sameOctets (c d : DigestCall) (s : DigestState) (h : SameOctets c d) :
    sha256.perform c s = sha256.perform d s := by
  obtain ⟨hstep, hbytes⟩ := h
  have hlength : c.message.length = d.message.length := by
    rw [Gather.length_eq, Gather.length_eq, hbytes]
  cases hd : d.step with
  | prepare => rw [perform_prepare hd, perform_prepare (hstep.trans hd), hlength]
  | digest => rw [perform_digest hd, perform_digest (hstep.trans hd), hlength, hbytes]
  | finish => rw [perform_finish hd, perform_finish (hstep.trans hd)]

/-! ### The record -/

theorem preparedLength?_concat (calls : List DigestCall) (c : DigestCall) :
    preparedLength? (calls ++ [c]) =
      match c.step with
      | .prepare => some c.message.length
      | .digest => preparedLength? calls
      | .finish => none := by
  rcases c with ⟨step, candidate, message, hlt⟩
  cases step with
  | prepare => simp [preparedLength?]
  | digest => simp [preparedLength?]
  | finish => simp [preparedLength?]

/-- A call keeps the record of what the calls so far have prepared for. -/
theorem length?_perform {calls : List DigestCall} {s : DigestState}
    (hs : s.scratch.length? = preparedLength? calls) (c : DigestCall) :
    (sha256.perform c s).2.scratch.length? = preparedLength? (calls ++ [c]) := by
  rw [preparedLength?_concat]
  cases hc : c.step with
  | prepare =>
    rw [perform_prepare hc]
    exact Scratch.length?_ofLength c.length_lt
  | digest =>
    rw [perform_digest hc]
    split <;> exact hs
  | finish =>
    rw [perform_finish hc]
    rfl

theorem length?_afterCalls (digest : Digest) (calls : List DigestCall) :
    (afterCalls sha256.perform ⟨.empty, digest⟩ calls).scratch.length? =
      preparedLength? calls := by
  refine afterCalls_induction
    (P := fun calls (s : DigestState) => s.scratch.length? = preparedLength? calls) rfl ?_ calls
  intro before c s hs
  exact length?_perform hs c

/-! ### Any calls -/

/-- How a call ends that comes behind others, on the state that those left. -/
structure DigestAnswer (before : List DigestCall) (c : DigestCall) (s : DigestState)
    (answer : Except Fault Unit × DigestState) : Prop where
  ok_iff (h : c.step = .digest) :
    answer.1 = .ok () ↔ preparedLength? before = some c.message.length
  made (h : c.step = .digest) (hok : answer.1 = .ok ()) :
    answer.2 = { s with digest := SignedBoot.sha256 c.message.bytes }
  failed (h : c.step = .digest) (hfail : answer.1 ≠ .ok ()) : answer = (.error .digestFailed, s)
  other (h : c.step ≠ .digest) : answer.1 = .ok () ∧ answer.2.digest = s.digest

theorem digestAnswer_perform {before : List DigestCall} {s : DigestState}
    (hs : s.scratch.length? = preparedLength? before) (c : DigestCall) :
    DigestAnswer before c s (sha256.perform c s) := by
  cases hc : c.step with
  | prepare =>
    rw [perform_prepare hc]
    constructor <;> simp [hc]
  | finish =>
    rw [perform_finish hc]
    constructor <;> simp [hc]
  | digest =>
    rw [perform_digest hc, hs]
    by_cases hlength : preparedLength? before = some c.message.length
    · constructor <;> simp [hc, hlength]
    · constructor <;> simp [hc, hlength]

/-- The digest operations, called in any order on one scratch area that is empty at first. A
digest is made only of a message whose length was prepared, and it is the digest of the octets of
that message, so messages of the same octets can take each other's place in every call. -/
theorem sha256_calls :
    (∀ (digest : Digest) (before : List DigestCall) (c : DigestCall),
      DigestAnswer before c (afterCalls sha256.perform ⟨.empty, digest⟩ before)
        (sha256.perform c (afterCalls sha256.perform ⟨.empty, digest⟩ before))) ∧
      ∀ (s : DigestState) (calls calls' : List DigestCall),
        List.Forall₂ SameOctets calls calls' →
          answers sha256.perform s calls = answers sha256.perform s calls' := by
  constructor
  · intro digest before c
    exact digestAnswer_perform (length?_afterCalls digest before) c
  · intro s calls calls' h
    exact answers_eq_of_forall₂ perform_eq_of_sameOctets h s

/-- A call on a message that holds three octets as they are cut. -/
def callOn (step : DigestStep) (message : Gather) (h : message.length = 3) : DigestCall :=
  ⟨step, ⟨0, .empty⟩, message, by rw [h]; decide⟩

def uncut : Gather := .single [1, 2, 3]

def cutInThree : Gather := ⟨⟨[[1], [], [2, 3]], by decide⟩⟩

theorem sha256_calls_cutInThree :
    List.Forall₂ SameOctets [callOn .prepare uncut rfl, callOn .digest cutInThree rfl]
        [callOn .prepare cutInThree rfl, callOn .digest uncut rfl] ∧
      answers sha256.perform ⟨.empty, .zero 32⟩
          [callOn .prepare uncut rfl, callOn .digest cutInThree rfl] =
        answers sha256.perform ⟨.empty, .zero 32⟩
          [callOn .prepare cutInThree rfl, callOn .digest uncut rfl] ∧
      (sha256.perform (callOn .digest cutInThree rfl)
        (afterCalls sha256.perform ⟨.empty, .zero 32⟩ [callOn .prepare uncut rfl])).1 = .ok () := by
  have hsame : List.Forall₂ SameOctets [callOn .prepare uncut rfl, callOn .digest cutInThree rfl]
      [callOn .prepare cutInThree rfl, callOn .digest uncut rfl] :=
    .cons ⟨rfl, rfl⟩ (.cons ⟨rfl, rfl⟩ .nil)
  exact ⟨hsame, sha256_calls.2 _ _ _ hsame, ((sha256_calls.1 _ _ _).ok_iff rfl).mpr rfl⟩

end DigestOps

end SignedBoot
