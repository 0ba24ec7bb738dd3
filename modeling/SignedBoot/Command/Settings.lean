import SignedBoot.Command.Path
import SignedBoot.Container.Carrier
import SignedBoot.Encoding.Scheme
import SignedBoot.Toml.Document

/-!
# Settings

The settings of the commands: a policy, the carrier around the image, and the key to sign with.
They are read from a TOML document, in which keys without a meaning are left alone.
-/

namespace SignedBoot

def SignatureMode.keyword : SignatureMode → String
  | .pss => "pss"
  | .pkcs1 => "pkcs1v15"

def SignatureMode.ofKeyword? (word : String) : Option SignatureMode :=
  [SignatureMode.pss, .pkcs1].find? fun mode => mode.keyword = word

structure PolicySettings where
  publicKey : Option String
  mode : SignatureMode
  signatureStage : Bool
  copyDigest : Bool
  tokenLength : UInt32
  saltLength : UInt8
  expectedDigest : Option String

structure Settings where
  policy : PolicySettings
  carrier : Carrier
  privateKey : Option String
  directory : String

/-- Why a document holds no settings. -/
inductive SettingsFault
  | malformed
  | unknownMode (word : String)
deriving DecidableEq

namespace Settings

open Toml (Value Fields)

def word? (v : Value) : Option UInt32 := (v.below? UInt32.size).map UInt32.ofNat

def octet? (v : Value) : Option UInt8 := (v.below? 256).map UInt8.ofNat

def policy? (v : Value) : Option (String × (SignatureMode → PolicySettings)) := do
  let f ← v.fields?
  let publicKey ← f.optional? 0 "public_key" Value.text?
  let mode ← f.withDefault? 1 "mode" SignatureMode.pss.keyword Value.text?
  let signatureStage ← f.withDefault? 2 "stage8" false Value.boolean?
  let copyDigest ← f.withDefault? 3 "copy_digest" false Value.boolean?
  let tokenLength ← f.withDefault? 4 "token_len" 32 word?
  let saltLength ← f.withDefault? 5 "salt_len" 32 octet?
  let expectedDigest ← f.optional? 6 "expected_digest" Value.text?
  return (mode, fun mode =>
    { publicKey, mode, signatureStage, copyDigest, tokenLength, saltLength, expectedDigest })

def carrier? (v : Value) : Option Carrier := do
  let f ← v.fields?
  let base ← f.withDefault? 0 "base" Carrier.unbounded.base word?
  let loadedLength ← f.withDefault? 1 "loaded_len" Carrier.unbounded.loadedLength word?
  let limit ← f.withDefault? 2 "limit" Carrier.unbounded.limit word?
  return { base, loadedLength, limit }

def signing? (v : Value) : Option String := do
  let f ← v.fields?
  f.required? 0 "private_key" Value.text?

/-- The settings in a document's text, given the directory of the document. -/
def parse (text directory : String) : Except SettingsFault Settings :=
  let parts : Option ((String × (SignatureMode → PolicySettings)) × Carrier × Option String) := do
    let f := Fields.named (← Toml.parse? text)
    let policy ← f.required? 0 "policy" policy?
    let carrier ← f.withDefault? 1 "carrier" .unbounded carrier?
    let privateKey ← f.optional? 2 "signing" signing?
    return (policy, carrier, privateKey)
  match parts with
  | none => .error .malformed
  | some ((word, policy), carrier, privateKey) =>
    match SignatureMode.ofKeyword? word with
    | none => .error (.unknownMode word)
    | some mode => .ok { policy := policy mode, carrier, privateKey, directory }

/-- A path as the commands see it, from a path seen from the document. -/
def path (s : Settings) (file : String) : String := Path.join s.directory file

end Settings

end SignedBoot
