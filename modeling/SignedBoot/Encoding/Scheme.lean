import SignedBoot.Encoding.Template
import SignedBoot.Fault
import SignedBoot.Hash.Sha256

/-!
# Signature modes and schemes

A scheme takes an encoded message apart and returns two hashes that are equal exactly when the
signature is good: the one recovered from the message and the one it must equal.
-/

namespace SignedBoot

inductive SignatureMode
  | pss
  | pkcs1
deriving DecidableEq, Repr

def SignatureMode.name : SignatureMode → String
  | .pss => "RsaPssSha256"
  | .pkcs1 => "RsaPkcs1v15Sha256"

/-- The two hashes that decide a verdict. -/
structure Tokens where
  recovered : Digest
  reference : Digest
deriving DecidableEq

/-- A way to take encoded messages apart under one mode. -/
structure Scheme where
  mode : SignatureMode
  /-- The tokens of an encoded message for a digest, a template and a modulus bit length. -/
  recover : (em : Bytes) → Digest → Template → (modulusBits : Nat) → Except Fault Tokens

/-- The schemes that a policy has installed, one slot for each mode. -/
structure SchemeTable where
  pss : Option Scheme
  pkcs1 : Option Scheme

namespace SchemeTable

def empty : SchemeTable := ⟨none, none⟩

def slot (t : SchemeTable) : SignatureMode → Option Scheme
  | .pss => t.pss
  | .pkcs1 => t.pkcs1

/-- The scheme for a mode. A scheme in the slot of another mode counts as missing. -/
def select (t : SchemeTable) (mode : SignatureMode) : Except Fault Scheme :=
  match t.slot mode with
  | some s => if s.mode = mode then .ok s else .error .schemeMissing
  | none => .error .schemeMissing

end SchemeTable

end SignedBoot
