import SignedBoot.Encoding.Scheme

/-!
# EMSA-PKCS1-v1_5

The deterministic encoding: octets of ones, a DigestInfo and the hash. `Pkcs1.encode` builds an
encoded message, and `Pkcs1.recover` reads the hash off its end.
-/

namespace SignedBoot.Pkcs1

def minPadding : Nat := 8

/-- The octets before the hash in an encoded message of `length` octets. -/
def frame (info : Bytes) (length : Nat) : Bytes :=
  0x00 :: 0x01 :: (List.replicate (length - info.length - 35) 0xff ++ 0x00 :: info)

def encode (info : Bytes) (digest : Digest) (length : Nat) : Bytes :=
  frame info length ++ digest.bytes

/-- The tokens of an encoded message: the hash at its end, to be equal to the digest. -/
def recover (em : Bytes) (digest : Digest) (template : Template) (_ : Nat) :
    Except Fault Tokens :=
  if template.hashLength ≠ 32 then .error .templateInvalid
  else
    match template.digestInfo? with
    | none => .error .templateInvalid
    | some info =>
      if em.length < info.length + 32 + minPadding + 3 then .error .signatureEncoding
      else
        match Block.read? 32 (em.drop (em.length - 32)) with
        | some (h, []) =>
          if em.take (em.length - 32) = frame info em.length then .ok ⟨h, digest⟩
          else .error .signatureEncoding
        | _ => .error .signatureEncoding

def scheme : Scheme := ⟨.pkcs1, recover⟩

end SignedBoot.Pkcs1
