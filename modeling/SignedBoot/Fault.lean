import SignedBoot.Text.Hex

/-!
# Faults and their codes

A fault is the cause for which an image, a policy or an operation is refused. Each fault has a
non-zero code whose upper half word is its class, and a code has one text.
-/

namespace SignedBoot

inductive ErrorKind
  | format
  | capacity
  | config
  | verification
  | other
deriving DecidableEq, Repr

def ErrorKind.name : ErrorKind → String
  | .format => "Format"
  | .capacity => "Capacity"
  | .config => "Config"
  | .verification => "Verification"
  | .other => "Other"

structure ErrorCode where
  word : UInt32
  word_ne_zero : word ≠ 0
deriving DecidableEq

namespace ErrorCode

/-- The word as an error code; zero means success and is none. -/
def ofWord? (word : UInt32) : Option ErrorCode :=
  if h : word ≠ 0 then some ⟨word, h⟩ else none

/-- The class that the upper half word selects. Failed stage operations count as verification. -/
def kind (code : ErrorCode) : ErrorKind :=
  match code.word.toNat / 0x10000 with
  | 1 => .format
  | 2 => .capacity
  | 3 => .config
  | 4 => .verification
  | 5 => .verification
  | _ => .other

/-- The text of an error: its word in eight digits and its class. -/
def text (code : ErrorCode) : String :=
  "boot0 error 0x" ++ Hex.padded 8 code.word.toNat ++ " (" ++ code.kind.name ++ ")"

end ErrorCode

inductive Fault
  | headerTruncated
  | headerTypeMismatch
  | headerMagicAMismatch
  | headerMagicBMismatch
  | headerTagBlockMismatch
  /-- The size word does not describe a region inside the image. -/
  | headerSizeInvalid
  | descriptorTruncated
  | descriptorVersion
  | descriptorCount
  /-- The descriptor region is too long, or too short for its entries. -/
  | descriptorSize
  | descriptorEntryInvalid
  | totalMismatch
  | carrierOverflow
  | trailerOffsetInvalid
  /-- A tag, or a region of the image, runs past the end. -/
  | tagTruncated
  | tagUnknown
  | tagLengthMismatch
  | regionModeInvalid
  | regionCountInvalid
  | keyTagInvalid
  | signatureTagInvalid
  | keyTagMissing
  | keyTagDuplicate
  | signatureTagMissing
  | signatureTagDuplicate
  | storageRead
  | bufferTooSmall
  | entryOutOfBounds
  | indexFull
  | gatherFull
  | keyMissing
  | signatureOpsMissing
  | modeAmbiguous
  | modeUnspecified
  | schemeMissing
  /-- The comparison length is zero, too long, or not that of the expected digest. -/
  | tokenLengthInvalid
  | hashInputMissing
  | templateInvalid
  /-- The key is not one that signatures are checked under. -/
  | keyInvalid
  | digestMismatch
  | signatureMismatch
  | signatureEncoding
  | signatureOutOfRange
  | signatureLength
  | keyMismatch
  | prepareFailed
  | digestFailed
  | finishFailed
  | initFailed
  | updateFailed
  | finalizeFailed
  | foreign (code : ErrorCode)
deriving DecidableEq

namespace Fault

def code : Fault → ErrorCode
  | headerTruncated => ⟨0x00010001, by decide⟩
  | headerTypeMismatch => ⟨0x00010002, by decide⟩
  | headerMagicAMismatch => ⟨0x00010003, by decide⟩
  | headerMagicBMismatch => ⟨0x00010004, by decide⟩
  | headerTagBlockMismatch => ⟨0x00010005, by decide⟩
  | headerSizeInvalid => ⟨0x00010006, by decide⟩
  | descriptorTruncated => ⟨0x00010007, by decide⟩
  | descriptorVersion => ⟨0x00010008, by decide⟩
  | descriptorCount => ⟨0x00010009, by decide⟩
  | descriptorSize => ⟨0x0001000a, by decide⟩
  | descriptorEntryInvalid => ⟨0x0001000b, by decide⟩
  | totalMismatch => ⟨0x0001000c, by decide⟩
  | carrierOverflow => ⟨0x0001000d, by decide⟩
  | trailerOffsetInvalid => ⟨0x0001000e, by decide⟩
  | tagTruncated => ⟨0x0001000f, by decide⟩
  | tagUnknown => ⟨0x00010010, by decide⟩
  | tagLengthMismatch => ⟨0x00010011, by decide⟩
  | regionModeInvalid => ⟨0x00010012, by decide⟩
  | regionCountInvalid => ⟨0x00010013, by decide⟩
  | keyTagInvalid => ⟨0x00010014, by decide⟩
  | signatureTagInvalid => ⟨0x00010015, by decide⟩
  | keyTagMissing => ⟨0x00010016, by decide⟩
  | keyTagDuplicate => ⟨0x00010017, by decide⟩
  | signatureTagMissing => ⟨0x00010018, by decide⟩
  | signatureTagDuplicate => ⟨0x00010019, by decide⟩
  | storageRead => ⟨0x0001001a, by decide⟩
  | bufferTooSmall => ⟨0x0001001b, by decide⟩
  | entryOutOfBounds => ⟨0x0001001c, by decide⟩
  | indexFull => ⟨0x00020001, by decide⟩
  | gatherFull => ⟨0x00020002, by decide⟩
  | keyMissing => ⟨0x00030001, by decide⟩
  | signatureOpsMissing => ⟨0x00030002, by decide⟩
  | modeAmbiguous => ⟨0x00030003, by decide⟩
  | modeUnspecified => ⟨0x00030004, by decide⟩
  | schemeMissing => ⟨0x00030005, by decide⟩
  | tokenLengthInvalid => ⟨0x00030006, by decide⟩
  | hashInputMissing => ⟨0x00030007, by decide⟩
  | templateInvalid => ⟨0x00030008, by decide⟩
  | keyInvalid => ⟨0x00030009, by decide⟩
  | digestMismatch => ⟨0x00040001, by decide⟩
  | signatureMismatch => ⟨0x00040002, by decide⟩
  | signatureEncoding => ⟨0x00040003, by decide⟩
  | signatureOutOfRange => ⟨0x00040004, by decide⟩
  | signatureLength => ⟨0x00040005, by decide⟩
  | keyMismatch => ⟨0x00040006, by decide⟩
  | prepareFailed => ⟨0x00050001, by decide⟩
  | digestFailed => ⟨0x00050002, by decide⟩
  | finishFailed => ⟨0x00050003, by decide⟩
  | initFailed => ⟨0x00050004, by decide⟩
  | updateFailed => ⟨0x00050005, by decide⟩
  | finalizeFailed => ⟨0x00050006, by decide⟩
  | foreign code => code

def kind (f : Fault) : ErrorKind := f.code.kind

def message (f : Fault) : String := f.code.text

end Fault

/-- The report word of a result: zero for success, else the code of the fault. -/
def resultWord {α : Type} : Except Fault α → UInt32
  | .ok _ => 0
  | .error f => f.code.word

end SignedBoot
