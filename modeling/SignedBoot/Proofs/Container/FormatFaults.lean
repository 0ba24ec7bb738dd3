import Mathlib
import SignedBoot.Proofs.Container.Format

/-!
# Faults of the format

Whatever is wrong with the octets of an image or with its carrier, parsing fails with a fault of
the format class (`BootImage.parse_failsWith_format`). Which fault it is says which part of the
image is wrong, and a fault of the header or of the length and the place that it declares means that
the checks on the header fail (`BootImage.parse_failsWith`).
-/

namespace SignedBoot

/-- What a fault of the format is about. -/
inductive ImagePart
  | header
  /-- The declared length, and the place that the carrier has for it. -/
  | layout
  | descriptor
  | trailer
  | entry
  | tag
deriving DecidableEq

namespace ImagePart

/-- What is checked first. -/
def atHeader : List ImagePart := [.header, .layout]

/-- What is checked once the header is known to be good. -/
def behindHeader : List ImagePart := [.descriptor, .trailer, .entry, .tag]

end ImagePart

namespace Fault

def part? : Fault → Option ImagePart
  | headerTruncated | headerTypeMismatch | headerMagicAMismatch | headerMagicBMismatch
  | headerTagBlockMismatch | headerSizeInvalid => some .header
  | totalMismatch | carrierOverflow => some .layout
  | descriptorTruncated | descriptorVersion | descriptorCount | descriptorSize
  | descriptorEntryInvalid => some .descriptor
  | trailerOffsetInvalid => some .trailer
  | entryOutOfBounds => some .entry
  | tagTruncated | tagUnknown | tagLengthMismatch | regionModeInvalid | regionCountInvalid
  | keyTagInvalid | signatureTagInvalid | keyTagMissing | keyTagDuplicate | signatureTagMissing
  | signatureTagDuplicate => some .tag
  | _ => none

def IsFormat (f : Fault) : Prop := f.kind = .format

/-- The fault is about one of these parts. -/
def Concerns (parts : List ImagePart) (f : Fault) : Prop := ∃ part ∈ parts, f.part? = some part

theorem Concerns.mono {parts parts' : List ImagePart} {f : Fault} (h : f.Concerns parts)
    (hparts : parts ⊆ parts') : f.Concerns parts' := by
  obtain ⟨part, hpart, hf⟩ := h
  exact ⟨part, hparts hpart, hf⟩

theorem concerns_singleton {part : ImagePart} {f : Fault} (h : f.part? = some part) :
    f.Concerns [part] := ⟨part, List.mem_singleton_self part, h⟩

theorem Concerns.not_atHeader {f : Fault} (h : f.Concerns ImagePart.behindHeader) :
    ¬ f.Concerns ImagePart.atHeader := by
  have hdisjoint : ∀ part ∈ ImagePart.behindHeader, part ∉ ImagePart.atHeader := by decide
  obtain ⟨part, hpart, hf⟩ := h
  rintro ⟨other, hother, hf'⟩
  obtain rfl : part = other := Option.some.inj (hf.symm.trans hf')
  exact hdisjoint part hpart hother

theorem Concerns.isFormat {parts : List ImagePart} {f : Fault} (h : f.Concerns parts) :
    f.IsFormat := by
  obtain ⟨part, -, hf⟩ := h
  cases f <;> first | rfl | cases hf

end Fault

/-! ### The header -/

theorem Header.read_failsWith (b : Bytes) :
    FailsWith (Fault.Concerns [.header]) (Header.read b) := by
  rw [read]
  split
  · exact .ok _
  · exact .error (Fault.concerns_singleton rfl)

theorem Header.validate_failsWith (h : Header) :
    FailsWith (Fault.Concerns [.header]) h.validate := by
  unfold validate
  have hfault {f : Fault} (hf : f.part? = some .header) := Fault.concerns_singleton hf
  exact .ite (hfault rfl) (.ite (hfault rfl) (.ite (hfault rfl) (.ite (hfault rfl)
    (.ite (hfault rfl) (.ok ())))))

theorem Carrier.checkFit_failsWith (c : Carrier) (total : UInt32) :
    FailsWith (Fault.Concerns [.layout]) (c.checkFit total) := by
  unfold checkFit
  have hfault {f : Fault} (hf : f.part? = some .layout) := Fault.concerns_singleton hf
  exact .ite (hfault rfl) (.ite (hfault rfl) (.ite (hfault rfl) (.ok ())))

/-! ### The descriptor -/

theorem Descriptor.parse_failsWith (place : DescriptorPlace) (b : Bytes) :
    FailsWith (Fault.Concerns [.descriptor]) (Descriptor.parse place b) := by
  have hfault {f : Fault} (hf : f.part? = some .descriptor) := Fault.concerns_singleton hf
  unfold parse
  refine .ite (hfault rfl) ?_
  split
  · exact .error (hfault rfl)
  refine .ite (hfault rfl) (.ite (hfault rfl) ?_)
  split
  · exact .error (hfault rfl)
  split
  · exact .ok _
  · exact .error (hfault rfl)

/-! ### Tags -/

/-- A tag has faults of its own and, as layout tags hold a descriptor, those of a descriptor. -/
def ImagePart.inTags : List ImagePart := [.descriptor, .tag]

theorem Fault.concerns_inTags {f : Fault} (h : f.part? = some .tag) : f.Concerns ImagePart.inTags :=
  (concerns_singleton h).mono (by decide)

theorem RegionBlock.ofFields_failsWith (mode count : UInt16) (entries : Block 0x100) :
    FailsWith (Fault.Concerns ImagePart.inTags) (RegionBlock.ofFields mode count entries) := by
  unfold ofFields
  split
  · exact .error (Fault.concerns_inTags rfl)
  · exact .ite (Fault.concerns_inTags rfl) (.ok _)

theorem LayoutTag.readBody_failsWith (h : TagHeader) (b : Bytes) :
    FailsWith (Fault.Concerns ImagePart.inTags) (LayoutTag.readBody h b) := by
  unfold readBody
  split
  · exact .error (Fault.concerns_inTags rfl)
  split
  · rename_i f hf
    exact .error ((Descriptor.parse_failsWith .embedded _ f hf).mono (by decide))
  split
  · rename_i f hf
    exact .error (RegionBlock.ofFields_failsWith _ _ _ f hf)
  · exact .ok _

theorem KeyTag.readBody_failsWith (h : TagHeader) (b : Bytes) :
    FailsWith (Fault.Concerns ImagePart.inTags) (KeyTag.readBody h b) := by
  unfold readBody
  split
  · exact .error (Fault.concerns_inTags rfl)
  dsimp only
  split
  · exact .ok _
  · exact .error (Fault.concerns_inTags rfl)

theorem SignatureTag.readBody_failsWith (h : TagHeader) (b : Bytes) :
    FailsWith (Fault.Concerns ImagePart.inTags) (SignatureTag.readBody h b) := by
  unfold readBody
  split
  · exact .error (Fault.concerns_inTags rfl)
  split
  · exact .ok _
  · exact .error (Fault.concerns_inTags rfl)

theorem Tag.read_failsWith (b : Bytes) :
    FailsWith (Fault.Concerns ImagePart.inTags) (Tag.read b) := by
  unfold read
  split
  · exact .error (Fault.concerns_inTags rfl)
  split
  · exact .error (Fault.concerns_inTags rfl)
  refine .ite (Fault.concerns_inTags rfl) ?_
  split
  · exact (LayoutTag.readBody_failsWith _ _).map _
  · exact (KeyTag.readBody_failsWith _ _).map _
  · exact (SignatureTag.readBody_failsWith _ _).map _

theorem TagCursor.tags_failsWith (offset : Nat) (b : Bytes) :
    FailsWith (Fault.Concerns ImagePart.inTags) (TagCursor.tags ⟨offset, b, false⟩) := by
  -- every tag takes octets off what is ahead, so the walk is over when none are left
  induction hn : b.length using Nat.strong_induction_on generalizing offset b with
  | _ n ih =>
    by_cases hb : b = []
    · subst hb
      rw [tags_nil]
      exact .ok _
    · cases hr : Tag.read b with
      | error f =>
        rw [tags_of_next? (next?_of_fault hb hr)]
        exact .error (Tag.read_failsWith b f hr)
      | ok r =>
        obtain ⟨t, rest⟩ := r
        have hl := Tag.length_of_read hr
        have hk := t.kind.byteSize_ge
        rw [Tag.byteSize] at hl
        rw [tags_of_next? (next?_of_read hr)]
        exact (ih rest.length (by omega) _ rest rfl).map _

/-! ### Images -/

namespace BootImage

/-- The checks on the header of an image, with which parsing starts. -/
def checkHeader (b : Bytes) (carrier : Carrier) : Except Fault Unit := do
  let (header, _) ← Header.read b
  header.validate
  carrier.checkFit header.totalLength
  if b.length ≠ header.totalLength.toNat then throw .totalMismatch

theorem checkHeader_eq_ok_iff {b : Bytes} {carrier : Carrier} :
    checkHeader b carrier = .ok () ↔ ∃ header rest, Header.read b = .ok (header, rest) ∧
      header.validate = .ok () ∧ carrier.checkFit header.totalLength = .ok () ∧
      header.totalLength.toNat = b.length := by
  simp only [checkHeader, bind_eq_ok_iff, Prod.exists]
  constructor
  · rintro ⟨header, rest, hread, ⟨⟩, hvalid, ⟨⟩, hfit, hlength⟩
    refine ⟨header, rest, hread, hvalid, hfit, ?_⟩
    split at hlength
    · cases hlength
    · rename_i heq
      exact (not_not.mp heq).symm
  · rintro ⟨header, rest, hread, hvalid, hfit, hlength⟩
    exact ⟨header, rest, hread, (), hvalid, (), hfit, if_neg (not_not.mpr hlength.symm)⟩

theorem checkHeader_failsWith (b : Bytes) (carrier : Carrier) :
    FailsWith (Fault.Concerns ImagePart.atHeader) (checkHeader b carrier) := by
  unfold checkHeader
  refine ((Header.read_failsWith b).mono fun f hf => hf.mono (by decide)).bind fun r => ?_
  refine (r.1.validate_failsWith.mono fun f hf => hf.mono (by decide)).bind fun _ => ?_
  refine ((carrier.checkFit_failsWith _).mono fun f hf => hf.mono (by decide)).bind fun _ => ?_
  exact .ite ((Fault.concerns_singleton rfl).mono (by decide)) (.ok ())

/-- Parsing fails with what the checks on the header fail with, or behind the header. -/
theorem parse_failsWith (b : Bytes) (carrier : Carrier) :
    FailsWith (fun f => checkHeader b carrier = .error f ∨ f.Concerns ImagePart.behindHeader)
      (parse b carrier) := by
  have hbehind {f : Fault} {part : ImagePart} (hpart : part ∈ ImagePart.behindHeader)
      (hf : f.part? = some part) : f.Concerns ImagePart.behindHeader := ⟨part, hpart, hf⟩
  unfold parse checkHeader
  refine .front_bind fun r => .front_bind fun _ => .front_bind fun _ => .front_guard ?_
  refine ((Descriptor.parse_failsWith .header _).mono fun f hf => hf.mono (by decide)).bind
    fun descriptor => ?_
  refine .guard (hbehind (by decide) rfl) (.guard (hbehind (by decide) rfl) ?_)
  refine FailsWith.bind ?_ fun _ => .ok _
  exact ((TagCursor.tags_failsWith 0 _).mono fun f hf => hf.mono (by decide)).map _

theorem parse_failsWith_format (b : Bytes) (carrier : Carrier) :
    FailsWith Fault.IsFormat (parse b carrier) := by
  intro f hf
  rcases parse_failsWith b carrier f hf with hheader | hbehind
  · exact (checkHeader_failsWith b carrier f hheader).isFormat
  · exact hbehind.isFormat

end BootImage

end SignedBoot
