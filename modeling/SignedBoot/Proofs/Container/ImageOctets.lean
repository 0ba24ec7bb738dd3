import Mathlib
import SignedBoot.Proofs.Container.TagOctets

/-!
# Images, octet by octet

The rules of the container as they are written down for other readers. `BootImage.parses_iff_format`
says that these rules decide whether an image is accepted.
-/

namespace SignedBoot

/-- The length of the descriptor region, which the lower half of the size word declares. -/
def declaredDescriptorLength (b : Bytes) : Nat := numberAt b 4 4 % 2 ^ 16

def declaredTrailerOffset (b : Bytes) : Nat := numberAt b 0x48 4

/-- The octets of an image that fits a carrier. -/
structure ContainerFormat (c : Carrier) (b : Bytes) : Prop where
  length_ge : 0x44 ≤ b.length
  typeWord : numberAt b 0 4 = 1
  magicA : slice b 8 4 = ascii "BRLY"
  magicB : slice b 0x0c 4 = ascii "T\x00V1"
  tagBlock : slice b 0x30 16 = ascii "BOOT0_TAG_BLOCK\x00"
  total : numberAt b 0x40 4 = b.length
  loaded : b.length ≤ c.loadedLength.toNat
  limit : c.base.toNat + b.length ≤ c.limit.toNat
  descriptorLength_ge : 8 ≤ declaredDescriptorLength b
  descriptorLength_le : declaredDescriptorLength b ≤ 0x400
  descriptor_le : 0x44 + declaredDescriptorLength b ≤ b.length
  trailerOffset_ge : 0x44 + declaredDescriptorLength b ≤ declaredTrailerOffset b
  trailerOffset_le : declaredTrailerOffset b ≤ b.length
  descriptor : DescriptorFormat 8
    (fun offset size => 1 ≤ size ∧ 0x44 + declaredDescriptorLength b ≤ offset ∧
      offset + size ≤ declaredTrailerOffset b)
    (slice b 0x44 (declaredDescriptorLength b))
  tags : ∃ parts : List Bytes, b.drop (declaredTrailerOffset b) = parts.flatten ∧
    ∀ p ∈ parts, TagFormat p

namespace Header

theorem slice_encode (h : Header) (rest : Bytes) :
    numberAt (h.encode ++ rest) 0 4 = h.typeWord.toNat ∧
      numberAt (h.encode ++ rest) 4 4 = h.sizeWord.toNat ∧
      slice (h.encode ++ rest) 8 4 = word32 h.magicA ∧
      slice (h.encode ++ rest) 0x0c 4 = word32 h.magicB ∧
      slice (h.encode ++ rest) 0x30 16 = h.tagBlock.bytes ∧
      numberAt (h.encode ++ rest) 0x40 4 = h.totalLength.toNat := by
  simp [numberAt, encode, slice_append_zero, slice_append_of_le]

theorem declaredDescriptorLength_append (h : Header) (rest : Bytes) :
    declaredDescriptorLength (h.encode ++ rest) = h.descriptorLength := by
  obtain ⟨-, hsize, -⟩ := h.slice_encode rest
  rw [declaredDescriptorLength, hsize]
  rfl

theorem slice_encode_append (h : Header) (rest : Bytes) (offset n : Nat) :
    slice (h.encode ++ rest) (0x44 + offset) n = slice rest offset n := by
  have hl : h.encode.length = 0x44 := h.length_encode
  rw [slice_append_of_le _ _ (by omega), hl, Nat.add_sub_cancel_left]

theorem exists_append {b : Bytes} (h : 0x44 ≤ b.length) :
    ∃ (x : Header) (rest : Bytes), b = x.encode ++ rest := by
  obtain ⟨typeWord, b, rfl⟩ := exists_word32_append (b := b) (by omega)
  rw [List.length_append, length_word32] at h
  obtain ⟨sizeWord, b, rfl⟩ := exists_word32_append (b := b) (by omega)
  rw [List.length_append, length_word32] at h
  obtain ⟨magicA, b, rfl⟩ := exists_word32_append (b := b) (by omega)
  rw [List.length_append, length_word32] at h
  obtain ⟨magicB, b, rfl⟩ := exists_word32_append (b := b) (by omega)
  rw [List.length_append, length_word32] at h
  obtain ⟨reserved, b, rfl⟩ := exists_block_append (n := 0x20) (b := b) (by omega)
  rw [List.length_append, Block.length_bytes] at h
  obtain ⟨tagBlock, b, rfl⟩ := exists_block_append (n := 16) (b := b) (by omega)
  rw [List.length_append, Block.length_bytes] at h
  obtain ⟨totalLength, b, rfl⟩ := exists_word32_append (b := b) (by omega)
  exact ⟨⟨typeWord, sizeWord, magicA, magicB, reserved, tagBlock, totalLength⟩, b,
    by simp [encode]⟩

end Header

/-- The region behind a header holds the descriptor, and in it stands the trailer offset. -/
theorem slice_descriptor {h : Header} {d : Descriptor} (tail : Bytes)
    (hl : d.encode.length = h.descriptorLength) :
    slice (h.encode ++ (d.encode ++ tail)) 0x44 h.descriptorLength = d.encode ∧
    declaredTrailerOffset (h.encode ++ (d.encode ++ tail)) = d.trailerOffset.toNat := by
  obtain ⟨-, -, htrailer⟩ := d.numberAt_encode
  have hregion : slice (h.encode ++ (d.encode ++ tail)) 0x44 h.descriptorLength = d.encode := by
    rw [← Nat.add_zero 0x44, Header.slice_encode_append, slice_append_zero _ hl]
  have h8 : 4 + 4 ≤ h.descriptorLength := by
    rw [← hl, d.length_encode_eq]
    omega
  refine ⟨hregion, ?_⟩
  rw [← htrailer, declaredTrailerOffset, numberAt, numberAt, ← slice_slice 0x44 h8,
    hregion]

namespace BootImage

/-- What an image declares of its descriptor is what it has. -/
theorem declared_encode {i : BootImage}
    (h : i.descriptor.encode.length = i.header.descriptorLength) :
    declaredDescriptorLength i.encode = i.header.descriptorLength ∧
      slice i.encode 0x44 i.header.descriptorLength = i.descriptor.encode ∧
      declaredTrailerOffset i.encode = i.trailerOffset := by
  obtain ⟨hregion, htrailer⟩ := slice_descriptor (i.payload ++ encodeTags i.tags) h
  rw [encode_eq_append, Header.declaredDescriptorLength_append]
  exact ⟨rfl, hregion, htrailer⟩

theorem format_encode {i : BootImage} (hi : i.WellFormed) {carrier : Carrier}
    (hf : carrier.Fits i.totalLength) : ContainerFormat carrier i.encode := by
  obtain ⟨hlength, hregion, htrailer⟩ := declared_encode hi.descriptor_length
  obtain ⟨htype, -, hmagicA, hmagicB, htagBlock, htotal⟩ :=
    i.header.slice_encode (i.descriptor.encode ++ (i.payload ++ encodeTags i.tags))
  rw [← encode_eq_append] at htype hmagicA hmagicB htagBlock htotal
  have hv := hi.header
  have hbody := hi.length_body
  have htail : i.encode.drop i.trailerOffset = encodeTags i.tags := by
    rw [encode_eq, ← hbody, List.drop_left]
  have hle : i.trailerOffset ≤ i.encode.length := by
    rw [encode_eq, List.length_append]
    omega
  have hge : i.payloadOffset ≤ i.trailerOffset := by
    have hp := hi.payload_length
    omega
  have hend : 0x44 + i.header.descriptorLength ≤ i.encode.length := hge.trans hle
  rw [← hi.length_encode] at hf
  refine ⟨hf.header_le, by rw [htype, hv.typeWord_eq]; rfl, by rw [hmagicA, hv.magicA_eq]; decide,
    by rw [hmagicB, hv.magicB_eq]; decide, by rw [htagBlock, hv.tagBlock_eq]; decide,
    by rw [htotal, hi.length_encode]; rfl, hf.loaded, hf.limit, ?_, ?_, ?_, ?_, ?_, ?_, ?_⟩
  · rw [hlength]
    exact hv.descriptorLength_ge
  · rw [hlength]
    exact hv.descriptorLength_le
  · rw [hlength]
    exact hend
  · rw [hlength, htrailer]
    exact hge
  · rw [htrailer]
    exact hle
  · rw [hlength, hregion, htrailer]
    refine (Descriptor.format_encode_iff hi.framed.entries_lt).mpr ⟨hi.descriptor.entries_le, ?_⟩
    intro e he
    exact (e.sound_and_within_iff i.descriptor.trailerOffset.toNat_lt).mp
      ⟨hi.descriptor.sound e he, hi.entries e he⟩
  · refine ⟨i.tags.map Tag.encode, ?_, ?_⟩
    · rw [htrailer, ← encodeTags_eq_flatten]
      exact htail
    · intro p hp
      obtain ⟨t, ht, rfl⟩ := List.mem_map.mp hp
      exact tagFormat_iff.mpr ⟨t, hi.tags t ht, rfl⟩

/-- The constants of a header whose octets are right. -/
theorem header_valid_of_format {header : Header} {rest : Bytes} {carrier : Carrier}
    (h : ContainerFormat carrier (header.encode ++ rest)) : header.Valid := by
  obtain ⟨htype, -, hmagicA, hmagicB, htagBlock, htotal⟩ := header.slice_encode rest
  have hlength := header.declaredDescriptorLength_append rest
  have hA : word32 magicA = ascii "BRLY" := by decide
  have hB : word32 magicB = ascii "T\x00V1" := by decide
  have hblock : tagBlock.bytes = ascii "BOOT0_TAG_BLOCK\x00" := by decide
  refine ⟨UInt32.toNat_inj.mp (htype.symm.trans h.typeWord), word32_inj.mp ?_, word32_inj.mp ?_,
    Block.ext ?_, ?_, ?_, ?_⟩
  · rw [← hmagicA, h.magicA, hA]
  · rw [← hmagicB, h.magicB, hB]
  · rw [← htagBlock, h.tagBlock, hblock]
  · rw [← hlength]
    exact h.descriptorLength_ge
  · rw [← hlength]
    exact h.descriptorLength_le
  · rw [Header.bodyOffset, ← hlength, ← htotal, h.total]
    exact h.descriptor_le

/-- A framed image whose octets are in the format keeps every rule. -/
theorem Framed.wellFormed_of_format {i : BootImage} (hi : i.Framed)
    (ht : ∀ t ∈ i.tags, t.WellFormed) {carrier : Carrier}
    (h : ContainerFormat carrier i.encode) : i.WellFormed ∧ carrier.Fits i.totalLength := by
  obtain ⟨hlength, hregion, htrailer⟩ := declared_encode hi.descriptor_length
  obtain ⟨-, -, -, -, -, htotal⟩ :=
    i.header.slice_encode (i.descriptor.encode ++ (i.payload ++ encodeTags i.tags))
  rw [← encode_eq_append, h.total] at htotal
  have hvalid : i.header.Valid := by
    rw [encode_eq_append] at h
    exact header_valid_of_format h
  have hmax : i.descriptor.encode.length ≤ DescriptorPlace.header.maxByteSize := by
    rw [hi.descriptor_length]
    exact hvalid.descriptorLength_le
  have hd := h.descriptor
  rw [hlength, hregion, htrailer, Descriptor.format_encode_iff hi.entries_lt] at hd
  have hentries : ∀ e ∈ i.descriptor.entries,
      e.Sound ∧ e.Within i.payloadOffset i.trailerOffset :=
    fun e he => (e.sound_and_within_iff i.descriptor.trailerOffset.toNat_lt).mpr (hd.2 e he)
  refine ⟨⟨hvalid, ⟨hmax, hd.1, fun e he => (hentries e he).1⟩, hi.descriptor_length,
    fun e he => (hentries e he).2, hi.payload_length, ht, htotal⟩, ⟨?_, ?_, ?_⟩⟩
  · exact h.length_ge.trans_eq htotal
  · exact htotal.symm.trans_le h.loaded
  · exact (congrArg (carrier.base.toNat + ·) htotal.symm).trans_le h.limit

/-- Octets in the format are a header, a descriptor that fills its region, and the rest. -/
theorem exists_split_of_format {b : Bytes} {carrier : Carrier} (h : ContainerFormat carrier b) :
    ∃ (header : Header) (d : Descriptor) (tail : Bytes),
      b = header.encode ++ (d.encode ++ tail) ∧ d.encode.length = header.descriptorLength ∧
        d.entries.length < UInt16.size := by
  obtain ⟨header, rest, rfl⟩ := Header.exists_append h.length_ge
  obtain ⟨d, hd, hlt⟩ := Descriptor.exists_eq_encode h.descriptor
  have hlength := header.declaredDescriptorLength_append rest
  have hhead : header.encode.length = 0x44 := header.length_encode
  have hend := h.descriptor_le
  rw [List.length_append, hhead, hlength] at hend
  rw [hlength, ← Nat.add_zero 0x44, header.slice_encode_append, slice, List.drop_zero] at hd
  have hdl : d.encode.length = header.descriptorLength := by
    rw [← hd, List.length_take]
    omega
  exact ⟨header, d, rest.drop header.descriptorLength, by rw [← hd, List.take_append_drop], hdl,
    hlt⟩

/-- Octets in the format are those of a framed image: behind the descriptor the payload reaches up
to the declared offset, and the parts from there on are its tags. -/
theorem exists_framed_of_format {b : Bytes} {carrier : Carrier}
    (h : ContainerFormat carrier b) :
    ∃ i : BootImage, i.Framed ∧ (∀ t ∈ i.tags, t.WellFormed) ∧ b = i.encode := by
  obtain ⟨header, d, tail, rfl, hdl, hlt⟩ := exists_split_of_format h
  obtain ⟨-, htrailer⟩ := slice_descriptor tail hdl
  obtain ⟨parts, hparts, hformat⟩ := h.tags
  obtain ⟨ts, hts, hflatten⟩ := exists_tags_of_parts hformat
  have hhead : (header.encode ++ d.encode).length = header.bodyOffset := by
    rw [List.length_append, header.length_encode, hdl, Header.bodyOffset]
  have hge := h.trailerOffset_ge
  have hle := h.trailerOffset_le
  rw [header.declaredDescriptorLength_append, htrailer] at hge
  rw [htrailer, ← List.append_assoc] at hle hparts
  obtain ⟨payload, hpl, rfl⟩ := exists_append_of_drop (hhead.trans_le hge) hle
    (hparts.trans hflatten)
  rw [hhead] at hpl
  have hencode := (encode_eq_append ⟨header, d, payload, ts⟩).symm
  exact ⟨⟨header, d, payload, ts⟩, ⟨hlt, hdl, hpl⟩, hts, hencode⟩

/-- An image is accepted exactly when its octets are in the format of the container and fit the
carrier. -/
theorem parses_iff_format {b : Bytes} {carrier : Carrier} :
    (∃ i, parse b carrier = .ok i) ↔ ContainerFormat carrier b := by
  constructor
  · rintro ⟨i, hparse⟩
    obtain ⟨hi, hf, rfl⟩ := wellFormed_of_parse hparse
    exact format_encode hi hf
  · intro h
    obtain ⟨i, hframed, htags, rfl⟩ := exists_framed_of_format h
    obtain ⟨hi, hf⟩ := hframed.wellFormed_of_format htags h
    exact ⟨i, parse_encode hi hf⟩

end BootImage

end SignedBoot
