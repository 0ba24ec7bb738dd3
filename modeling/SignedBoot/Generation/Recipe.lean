import SignedBoot.Container.SignedMessage
import SignedBoot.Generation.Signer

/-!
# Generating images

A recipe lists what goes into an image. Generating lays the parts out, hashes everything before
the signature tag, and appends the signature over that digest.
-/

namespace SignedBoot

structure Recipe where
  payload : Bytes
  /-- Load entries relative to the payload; without a list, one entry covers the whole payload. -/
  entries : Option (List LoadEntry)
  layoutTags : Nat
  keyTags : Nat
  signatureTag : Bool
  regionMode : RegionMode
  regionCount : UInt16

/-- Why a recipe makes no image. -/
inductive RecipeFault
  | tooManyEntries
  | regionCountTooLarge (count : UInt16) (mode : RegionMode)
  /-- The trailer offset is no word. -/
  | payloadTooLarge
  /-- The total length is no word. -/
  | imageTooLarge
  | signingFailed
deriving DecidableEq

/-- The reason why a length is no word. -/
def RecipeFault.outOfRange : String := "out of range integral type conversion attempted"

def RecipeFault.message : RecipeFault → String
  | .tooManyEntries =>
    "At most " ++ toString DescriptorPlace.header.maxEntries ++ " load entries are supported"
  | .regionCountTooLarge count mode =>
    "Region count " ++ toString count.toNat ++ " too large for " ++ mode.name
  | .payloadTooLarge => "Payload too large: " ++ outOfRange
  | .imageTooLarge => "Image too large: " ++ outOfRange
  | .signingFailed => "<key>"

/-- A finished image with its offsets. -/
structure GeneratedImage where
  image : BootImage
  digest : Digest
  signatureOffset : Option Nat

namespace Recipe

def ofPayload (payload : Bytes) : Recipe where
  payload := payload
  entries := none
  layoutTags := 1
  keyTags := 1
  signatureTag := true
  regionMode := .ranges
  regionCount := 1

/-- The load entries relative to the payload. -/
def payloadEntries (r : Recipe) : Except RecipeFault (List LoadEntry) :=
  match r.entries with
  | some entries => .ok entries
  | none =>
    if r.payload = [] then .ok []
    else if r.payload.length < UInt32.size then .ok [⟨0, UInt32.ofNat r.payload.length⟩]
    else .error .payloadTooLarge

/-- The length of a descriptor region without slack. -/
def descriptorLength (entries : List LoadEntry) : Nat :=
  Descriptor.headByteSize + entries.length * LoadEntry.byteSize

def payloadOffset (entries : List LoadEntry) : Nat := Header.byteSize + descriptorLength entries

def rebase (entries : List LoadEntry) : List LoadEntry :=
  entries.map fun e => ⟨UInt32.ofNat (payloadOffset entries) + e.offset, e.size⟩

/-- The octets of the region entries: the load entries over and over, or the first sectors. -/
def regionOctets (mode : RegionMode) (count : Nat) (entries : List LoadEntry) : Bytes :=
  match mode with
  | .ranges =>
    (List.range count).flatMap fun i =>
      match entries[i % entries.length]? with
      | some e => e.encode
      | none => []
  | .sectors => (List.range count).map UInt8.ofNat

def layoutTag (r : Recipe) (d : Descriptor) : LayoutTag where
  reserved0 := 0
  reserved1 := 0
  typeWord := imageType
  window := .ofPadded Descriptor.windowByteSize d.encode
  region :=
    { mode := r.regionMode
      count := r.regionCount
      entries := .ofPadded 0x100 (regionOctets r.regionMode r.regionCount.toNat d.entries) }

def keyTag (key : ImageKey) : KeyTag where
  reserved0 := 0
  reserved1 := 0
  exponent := key.exponent
  modulus := key.modulus
  tail := .zero 0x234

def signedTags (r : Recipe) (d : Descriptor) (key : ImageKey) : List Tag :=
  List.replicate r.layoutTags (.layout (r.layoutTag d)) ++
    List.replicate r.keyTags (.key (keyTag key))

def tagsLength (r : Recipe) : Nat :=
  r.layoutTags * TagKind.layout.byteSize + r.keyTags * TagKind.key.byteSize

/-- The image without its signature tag, whose header counts the signature tag all the same. -/
def unsigned (r : Recipe) (key : ImageKey) : Except RecipeFault BootImage := do
  let entries ← r.payloadEntries
  if entries.length > DescriptorPlace.header.maxEntries then throw .tooManyEntries
  if r.regionCount.toNat > r.regionMode.maxCount then
    throw (.regionCountTooLarge r.regionCount r.regionMode)
  let trailerOffset := payloadOffset entries + r.payload.length
  if trailerOffset ≥ UInt32.size then throw .payloadTooLarge
  let signatureLength := if r.signatureTag then TagKind.signature.byteSize else 0
  let total := trailerOffset + r.tagsLength + signatureLength
  if total ≥ UInt32.size then throw .imageTooLarge
  let descriptor : Descriptor := ⟨UInt32.ofNat trailerOffset, rebase entries, []⟩
  return {
    header :=
      { Header.template with
        sizeWord := UInt32.ofNat (descriptorLength entries)
        totalLength := UInt32.ofNat total }
    descriptor
    payload := r.payload
    tags := r.signedTags descriptor key }

def generate (r : Recipe) (signer : Signer) : Except RecipeFault GeneratedImage := do
  let image ← r.unsigned signer.key
  let message := image.encode
  let digest := sha256 message
  if r.signatureTag then
    match signer.sign? digest with
    | none => throw .signingFailed
    | some signature =>
      return {
        image := { image with tags := image.tags ++ [.signature ⟨signature⟩] }
        digest
        signatureOffset := some message.length }
  else return { image, digest, signatureOffset := none }

end Recipe

end SignedBoot
