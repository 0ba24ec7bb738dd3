import SignedBoot.Command.Settings
import SignedBoot.Fault
import SignedBoot.Generation.Recipe
import SignedBoot.Text.Quoted

/-!
# Why commands fail

A message names what was tried, then the cause, with colons between them. Of a cause that lies
outside, in a file, a configuration document or a key document, a message names the class only.
-/

namespace SignedBoot

inductive OutsideCause
  /-- A file cannot be read or written, or holds no text where text is asked for. -/
  | file
  /-- A text is no configuration document, or one of the wrong shape. -/
  | document
  /-- A text is no key document, or holds no sound key. -/
  | key
deriving DecidableEq

def OutsideCause.name : OutsideCause → String
  | .file => "<io>"
  | .document => "<toml>"
  | .key => "<key>"

inductive CommandFault
  | argumentMissing (name : String)
  | configUnreadable (path : String)
  | configInvalid (path : String) (fault : SettingsFault)
  /-- The configuration names no private key. -/
  | signingMissing
  | publicKeyUnreadable (path : String)
  | publicKeyMalformed (path : String)
  | privateKeyUnreadable (path : String)
  | privateKeyMalformed (path : String)
  | key (fault : KeyFault)
  | payloadUnreadable (path : String)
  | recipe (fault : RecipeFault)
  | imageUnwritable (path : String)
  | imageUnreadable (path : String)
  | imageTooLarge
  | imageInvalid (path : String) (fault : Fault)
  | verification (path : String) (fault : Fault)
  /-- The signature stage is on, and the configuration names no public key. -/
  | publicKeyMissing
  | digestMalformed (error : Hex.DecodeError)
  /-- The signature stage is off, and the configuration has no expected digest. -/
  | digestMissing
  | digestTooLong
deriving DecidableEq

def SettingsFault.message : SettingsFault → String
  | .malformed => OutsideCause.document.name
  | .unknownMode word => "Unknown signature mode \"" ++ word ++ "\""

def Hex.DecodeError.message : Hex.DecodeError → String
  | .oddLength => "Odd number of digits"
  | .invalidDigit octet position =>
    "Invalid character " ++ Quoted.character octet ++ " at position " ++ toString position

namespace CommandFault

def message : CommandFault → String
  | argumentMissing name => name ++ " arg not specified"
  | configUnreadable path =>
    "Failed to read the config file " ++ path ++ ": " ++ OutsideCause.file.name
  | configInvalid path fault => "Failed to parse config file " ++ path ++ ": " ++ fault.message
  | signingMissing => "[signing] section missing from config"
  | publicKeyUnreadable path =>
    "Failed to read public key PEM file " ++ path ++ ": " ++ OutsideCause.file.name
  | publicKeyMalformed path =>
    "Failed to parse public key " ++ path ++ ": " ++ OutsideCause.key.name
  | privateKeyUnreadable path =>
    "Failed to read private key PEM file " ++ path ++ ": " ++ OutsideCause.file.name
  | privateKeyMalformed path =>
    "Failed to parse private key " ++ path ++ ": " ++ OutsideCause.key.name
  | key fault => fault.message
  | payloadUnreadable path => "Failed to read payload " ++ path ++ ": " ++ OutsideCause.file.name
  | recipe fault => fault.message
  | imageUnwritable path => "Failed to write image " ++ path ++ ": " ++ OutsideCause.file.name
  | imageUnreadable path => "Failed to read image " ++ path ++ ": " ++ OutsideCause.file.name
  | imageTooLarge => RecipeFault.imageTooLarge.message
  | imageInvalid path fault => "Invalid boot0 image " ++ path ++ ": " ++ fault.message
  | verification path fault => "Verification of " ++ path ++ " failed: " ++ fault.message
  | publicKeyMissing => "stage8 requires policy.public_key"
  | digestMalformed error => "Invalid expected_digest: " ++ error.message
  | digestMissing => "policy.expected_digest is required when stage8 is disabled"
  | digestTooLong => "expected_digest is longer than a SHA-256 digest"

def imageFault? : CommandFault → Option Fault
  | imageInvalid _ fault => some fault
  | verification _ fault => some fault
  | _ => none

end CommandFault

end SignedBoot
