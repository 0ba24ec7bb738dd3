import SignedBoot.Encoding.Scheme

/-!
# EMSA-PSS

The probabilistic encoding over SHA-256 with the mask generator MGF1. `Pss.encode` builds an encoded
message from a salt, and `Pss.recover` takes one apart.
-/

namespace SignedBoot.Pss

def maxLength : Nat := 512

def trailer : UInt8 := 0xbc

def separator : UInt8 := 0x01

/-- The first `n` octets of the mask that MGF1 generates from a seed. -/
def mask (seed : Bytes) (n : Nat) : Bytes :=
  ((List.range ((n + 31) / 32)).flatMap fun i => (sha256 (seed ++ be 4 i)).bytes).take n

def xor (a b : Bytes) : Bytes := List.zipWith (· ^^^ ·) a b

/-- The length of an encoded message of the given number of bits. -/
def encodedLength (bits : Nat) : Nat := (bits + 7) / 8

/-- The bits of the first octet that an encoded message of the given number of bits may use. -/
def topMask (bits : Nat) : UInt8 := 0xff >>> UInt8.ofNat (8 * encodedLength bits - bits)

def clearTop (bits : Nat) : Bytes → Bytes
  | [] => []
  | x :: rest => (x &&& topMask bits) :: rest

/-- The hash of eight zero octets, a digest and a salt. -/
def saltedHash (digest : Digest) (salt : Bytes) : Digest :=
  sha256 (List.replicate 8 0 ++ (digest.bytes ++ salt))

/-- The encoded message of a digest under a salt, for the given number of bits. -/
def encode (digest : Digest) (salt : Bytes) (bits : Nat) : Bytes :=
  let h := saltedHash digest salt
  let zeros := encodedLength bits - salt.length - 34
  let db := List.replicate zeros 0 ++ separator :: salt
  clearTop bits (xor db (mask h.bytes db.length)) ++ (h.bytes ++ [trailer])

/-- Splits an unmasked block into zeros of a fixed length, the separator and the salt. -/
def salt? (saltLength : Nat) (db : Bytes) : Option Bytes :=
  let zeros := db.length - saltLength - 1
  match db.drop zeros with
  | x :: salt => if (db.take zeros).all (· = 0) ∧ x = separator then some salt else none
  | [] => none

/-- The tokens of an encoded message of exactly the length that its bits need. -/
def recoverExact (em : Bytes) (digest : Digest) (saltLength bits : Nat) : Except Fault Tokens :=
  let dbLength := encodedLength bits - 33
  let maskedDb := em.take dbLength
  match Block.read? 32 (em.drop dbLength) with
  | some (h, [x]) =>
    if encodedLength bits < 32 + saltLength + 2 ∨ x ≠ trailer ∨ clearTop bits maskedDb ≠ maskedDb
    then .error .signatureEncoding
    else
      match salt? saltLength (clearTop bits (xor maskedDb (mask h.bytes dbLength))) with
      | some salt => .ok ⟨h, saltedHash digest salt⟩
      | none => .error .signatureEncoding
  | _ => .error .signatureEncoding

/-- The tokens of an encoded message, which may be longer than its bits need by leading zeros. -/
def recover (em : Bytes) (digest : Digest) (template : Template) (modulusBits : Nat) :
    Except Fault Tokens :=
  if template.hashLength ≠ 32 then .error .templateInvalid
  else if modulusBits = 0 then .error .signatureEncoding
  else
    let bits := modulusBits - 1
    let length := encodedLength bits
    if length > em.length ∨ length > maxLength then .error .signatureEncoding
    else if (em.take (em.length - length)).any (· ≠ 0) then .error .signatureEncoding
    else recoverExact (em.drop (em.length - length)) digest template.saltLength.toNat bits

def scheme : Scheme := ⟨.pss, recover⟩

end SignedBoot.Pss
