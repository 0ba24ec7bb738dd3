import SignedBoot.Command.Load
import SignedBoot.Container.SignedMessage

/-!
# Inspecting an image

Lists the parts of an image: the header, the descriptor, the tags, and the regions that the
signature covers, unless there are too many of them.
-/

namespace SignedBoot

def Hex.marked (n : Nat) : String := "0x" ++ Hex.numeral n

/-- A number in at least `width` hexadecimal digits behind its mark. -/
def Hex.markedPadded (width n : Nat) : String := "0x" ++ Hex.padded width n

namespace Listing

def header (h : Header) : List String :=
  ["Header",
    "  type:            " ++ Hex.markedPadded 8 h.typeWord.toNat,
    "  magic:           " ++ Hex.markedPadded 8 h.magicA.toNat ++ " " ++
      Hex.markedPadded 8 h.magicB.toNat,
    "  total length:    " ++ Hex.marked h.totalLength.toNat,
    "  descriptor len:  " ++ Hex.marked h.descriptorLength]

def entry (e : LoadEntry) (i : Nat) : String :=
  "  load entry " ++ toString i ++ ":    " ++ Hex.marked e.offset.toNat ++ " + " ++
    Hex.marked e.size.toNat

def descriptor (d : Descriptor) : List String :=
  ["Descriptor",
    "  version:         " ++ toString Descriptor.version.toNat,
    "  trailer offset:  " ++ Hex.marked d.trailerOffset.toNat] ++
  d.entries.zipIdx.map fun (e, i) => entry e i

def tagDetail : Tag → String
  | .layout t =>
    "regions Some(" ++ t.region.mode.name ++ ") x " ++ toString t.region.count.toNat
  | .key t => "rsa-" ++ toString KeyTag.keyBits.toNat ++ " e=" ++ toString t.exponent.toNat
  | .signature _ => "sig_len=" ++ toString SignatureTag.signatureLength.toNat

def tag (p : PlacedTag) : String :=
  "  " ++ Hex.markedPadded 6 p.offset ++ " " ++ p.kind.name ++ " (" ++ Hex.marked p.size ++
    " bytes) " ++ tagDetail p.tag

def region (e : IndexEntry) : String :=
  "  tag " ++ toString e.tagId ++ " at " ++ Hex.marked e.offset ++ " (" ++ Hex.marked e.size ++
    " bytes)"

def regions (i : BootImage) : List String :=
  match i.signedIndex with
  | .ok index => "Signed regions" :: index.entries.toList.map region
  | .error _ => []

def image (i : BootImage) : List String :=
  header i.header ++ descriptor i.descriptor ++ "Tags" :: i.placedTags.map tag ++ regions i

def text (lines : List String) : String := String.join (lines.map (· ++ "\n"))

end Listing

namespace Command

variable {m : Type → Type} [Monad m]

def inspect (files : FileAccess m) (args : Arguments) : ExceptT CommandFault m String := do
  let path ← args.require "image"
  let contents ← files.require path (.imageUnreadable path)
  if contents.length ≥ UInt32.size then throw .imageTooLarge
  match BootImage.parse contents (.exact (UInt32.ofNat contents.length)) with
  | .ok image => return Listing.text (Listing.image image)
  | .error fault => throw (.imageInvalid path fault)

end Command

end SignedBoot
