import SignedBoot.Keys.Der
import SignedBoot.Keys.Pem
import SignedBoot.Rsa.PrivateKey

/-!
# Key documents

Public keys come as a SubjectPublicKeyInfo and private keys as a PKCS#8 PrivateKeyInfo, both in
armour.
-/

namespace SignedBoot

namespace KeyDocument

def algorithm : Bytes :=
  [0x30, 0x0d, 0x06, 0x09, 0x2a, 0x86, 0x48, 0x86, 0xf7, 0x0d, 0x01, 0x01, 0x01, 0x05, 0x00]

def publicLabel : Bytes := ascii "PUBLIC KEY"

def privateLabel : Bytes := ascii "PRIVATE KEY"

def attributesTag : UInt8 := 0xa0

def publicKeyTag : UInt8 := 0x81

def skipAttributes? : (count : Nat) → Bytes → Option Bytes
  | 0, b => some b
  | count + 1, b =>
    match b with
    | [] => some []
    | x :: _ =>
      if x = attributesTag ∨ x = 0x80 then do
        let (_, rest) ← Der.value? b
        skipAttributes? count rest
      else some b

/-- Whether a byte string is a run of constructed context-specific values of one value each. -/
def areExtensions : (count : Nat) → Bytes → Bool
  | 0, b => b = []
  | count + 1, b =>
    match b with
    | [] => true
    | _ =>
      match Der.value? b with
      | none => false
      | some ((tag, x), rest) =>
        0xa0 ≤ tag ∧ tag < 0xc0 ∧ (Der.value? x).any (fun inner => inner.2 = []) ∧
          areExtensions count rest

/-- The fields behind the key in a private key: attributes, the public key if the version calls
for one, and extensions. -/
def checkRest (hasPublicKey : Bool) (b : Bytes) : Option Unit := do
  let b ← skipAttributes? b.length b
  let rest ←
    if b.head? = some publicKeyTag then do
      let (x, rest) ← Der.contents? publicKeyTag b
      let _ ← Der.bitStringOctets? x
      if hasPublicKey then pure rest else none
    else if hasPublicKey ∨ b.head? = some 0xa1 then none
    else pure b
  if areExtensions rest.length rest then return () else none

def publicParts? (b : Bytes) : Option (Nat × Nat) := do
  let b ← Der.whole? Der.sequenceTag b
  let b ← dropFront? algorithm b
  let bits ← Der.whole? Der.bitStringTag b
  let octets ← Der.bitStringOctets? bits
  let key ← Der.whole? Der.sequenceTag octets
  match ← Der.unsignedMany? 2 key with
  | [n, e] => return (n, e)
  | _ => none

def privateNumbers? (b : Bytes) : Option (List Nat) := do
  let key ← Der.whole? Der.sequenceTag b
  match ← Der.unsignedMany? 9 key with
  | 0 :: numbers => return numbers
  | _ => none

def privateKey? (b : Bytes) : Option PrivateKey := do
  let b ← Der.whole? Der.sequenceTag b
  let (version, b) ← Der.unsigned? b
  let b ← dropFront? algorithm b
  let (key, rest) ← Der.contents? Der.octetStringTag b
  if version > 1 then none
  else do
    checkRest (version = 1) rest
    match ← privateNumbers? key with
    | n :: e :: d :: p :: q :: _ => PrivateKey.ofParts? n e d p q
    | _ => none

end KeyDocument

def PublicKey.ofPem? (b : Bytes) : Option PublicKey := do
  let (n, e) ← KeyDocument.publicParts? (← Pem.decode? KeyDocument.publicLabel b)
  PublicKey.ofParts? n e

def PrivateKey.ofPem? (b : Bytes) : Option PrivateKey := do
  KeyDocument.privateKey? (← Pem.decode? KeyDocument.privateLabel b)

end SignedBoot
