import SignedBoot.Container.Carrier
import SignedBoot.Container.Trailer

/-!
# Boot images

A boot image is its fixed header, a descriptor, a payload and a trailer of tags, one behind the
other. `BootImage.parse` takes a byte string apart and `BootImage.encode` puts it together again.
-/

namespace SignedBoot

structure BootImage where
  header : Header
  descriptor : Descriptor
  payload : Bytes
  tags : List Tag
deriving DecidableEq

namespace BootImage

/-- The offset one past the descriptor region, where the payload starts. -/
def payloadOffset (i : BootImage) : Nat := i.header.bodyOffset

/-- The offset of the first tag, as the descriptor declares it. -/
def trailerOffset (i : BootImage) : Nat := i.descriptor.trailerOffset.toNat

def totalLength (i : BootImage) : Nat := i.header.totalLength.toNat

def body (i : BootImage) : Bytes := i.header.encode ++ (i.descriptor.encode ++ i.payload)

def encode (i : BootImage) : Bytes := i.body ++ i.tags.flatMap Tag.encode

def placedTags (i : BootImage) : List PlacedTag := placeTags i.trailerOffset i.tags

/-- Parses an image that fills a byte string and fits its carrier. -/
def parse (b : Bytes) (carrier : Carrier) : Except Fault BootImage := do
  let (header, rest) ← Header.read b
  header.validate
  carrier.checkFit header.totalLength
  if b.length ≠ header.totalLength.toNat then throw .totalMismatch
  let descriptor ← Descriptor.parse .header (rest.take header.descriptorLength)
  let trailerOffset := descriptor.trailerOffset.toNat
  if trailerOffset < header.bodyOffset ∨ header.totalLength.toNat < trailerOffset then
    throw .trailerOffsetInvalid
  if ¬ ∀ e ∈ descriptor.entries, e.Within header.bodyOffset trailerOffset then
    throw .entryOutOfBounds
  let body := rest.drop header.descriptorLength
  let payloadLength := trailerOffset - header.bodyOffset
  let tags ← readTags (body.drop payloadLength)
  return { header, descriptor, payload := body.take payloadLength, tags }

def region (i : BootImage) (offset size : Nat) : Except Fault Bytes :=
  if offset + size ≤ i.encode.length then .ok (slice i.encode offset size)
  else .error .tagTruncated

def keyTag (i : BootImage) : Except Fault KeyTag :=
  match i.tags.filterMap Tag.key? with
  | [] => .error .keyTagMissing
  | [t] => .ok t
  | _ => .error .keyTagDuplicate

def signatureTag (i : BootImage) : Except Fault SignatureTag :=
  match i.tags.filterMap Tag.signature? with
  | [] => .error .signatureTagMissing
  | [t] => .ok t
  | _ => .error .signatureTagDuplicate

end BootImage

end SignedBoot
