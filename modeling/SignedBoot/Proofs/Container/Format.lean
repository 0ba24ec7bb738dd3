import Mathlib
import SignedBoot.Container.Image
import SignedBoot.Proofs.Container.Trailer
import SignedBoot.Proofs.Outcome

/-!
# The container format

What the checks on headers, carriers, descriptors and whole images say. Parsing is the inverse of
encoding on well-formed parts: `Descriptor.parse_eq_ok_iff` for a descriptor region and
`BootImage.parse_eq_ok_iff` for an image.
-/

namespace SignedBoot

/-! ### Headers and carriers -/

/-- The constants of a header match and its descriptor region lies inside the image. -/
structure Header.Valid (h : Header) : Prop where
  typeWord_eq : h.typeWord = imageType
  magicA_eq : h.magicA = SignedBoot.magicA
  magicB_eq : h.magicB = SignedBoot.magicB
  tagBlock_eq : h.tagBlock = SignedBoot.tagBlock
  descriptorLength_ge : 8 ≤ h.descriptorLength
  descriptorLength_le : h.descriptorLength ≤ Header.maxDescriptorLength
  bodyOffset_le : h.bodyOffset ≤ h.totalLength.toNat

theorem Header.validate_eq_ok_iff (h : Header) : h.validate = .ok () ↔ h.Valid := by
  unfold Header.validate
  constructor
  · intro hv
    split at hv
    · cases hv
    rename_i ht
    split at hv
    · cases hv
    rename_i ha
    split at hv
    · cases hv
    rename_i hb
    split at hv
    · cases hv
    rename_i hg
    split at hv
    · cases hv
    rename_i hs
    simp only [not_or, not_lt] at hs
    exact ⟨not_not.mp ht, not_not.mp ha, not_not.mp hb, not_not.mp hg, hs.1, hs.2.1, hs.2.2⟩
  · intro hv
    have hs : ¬ (h.descriptorLength < 8 ∨ h.descriptorLength > Header.maxDescriptorLength ∨
        h.bodyOffset > h.totalLength.toNat) := by
      have h1 := hv.descriptorLength_ge
      have h2 := hv.descriptorLength_le
      have h3 := hv.bodyOffset_le
      omega
    simp [hv.typeWord_eq, hv.magicA_eq, hv.magicB_eq, hv.tagBlock_eq, hs]

theorem Header.read_eq_ok_iff {b rest : Bytes} {h : Header} :
    Header.read b = .ok (h, rest) ↔ b = h.encode ++ rest := by
  rw [← Header.read?_eq_some_iff, Header.read]
  cases Header.read? b <;> simp

/-- An image of `total` octets fits the carrier. -/
structure Carrier.Fits (c : Carrier) (total : Nat) : Prop where
  header_le : Header.byteSize ≤ total
  loaded : total ≤ c.loadedLength.toNat
  limit : c.base.toNat + total ≤ c.limit.toNat

theorem Carrier.checkFit_eq_ok_iff (c : Carrier) (total : UInt32) :
    c.checkFit total = .ok () ↔ c.Fits total.toNat := by
  unfold Carrier.checkFit
  constructor
  · intro hf
    split at hf
    · cases hf
    rename_i hh
    split at hf
    · cases hf
    rename_i hl
    split at hf
    · cases hf
    rename_i he
    rw [gt_iff_lt, UInt32.lt_iff_toNat_lt] at hl
    exact ⟨not_lt.mp hh, not_lt.mp hl, not_lt.mp he⟩
  · rintro ⟨hh, hl, he⟩
    have hl' : ¬ c.loadedLength < total := by
      rw [UInt32.lt_iff_toNat_lt]
      omega
    rw [if_neg (by omega), if_neg hl', if_neg (by omega)]

/-- An image that a word can count fits where nothing else bounds it. -/
theorem Carrier.fits_unbounded {total : Nat} (h : Header.byteSize ≤ total)
    (hlt : total < UInt32.size) : Carrier.unbounded.Fits total := by
  have hmax : Carrier.unbounded.loadedLength.toNat = 0xffffffff := by decide
  have hlimit : Carrier.unbounded.limit.toNat = 0xffffffff := by decide
  have hbase : Carrier.unbounded.base.toNat = 0 := by decide
  have hsize : UInt32.size = 0x100000000 := rfl
  exact ⟨h, by omega, by omega⟩

/-! ### Descriptors -/

/-- A descriptor keeps the bounds of its place, and its load entries are sound. -/
structure Descriptor.Valid (place : DescriptorPlace) (d : Descriptor) : Prop where
  length_le : d.encode.length ≤ place.maxByteSize
  entries_le : d.entries.length ≤ place.maxEntries
  sound : ∀ e ∈ d.entries, e.Sound

theorem DescriptorPlace.maxEntries_lt (place : DescriptorPlace) :
    place.maxEntries < UInt16.size := by
  cases place <;> decide

namespace Descriptor

theorem readHead?_eq_some_iff {b rest : Bytes} {v count : UInt16} {trailerOffset : UInt32} :
    readHead? b = some ((v, count, trailerOffset), rest) ↔
      b = word16 v ++ (word16 count ++ (word32 trailerOffset ++ rest)) := by
  simp only [readHead?, Option.bind_eq_bind, Option.bind_eq_some_iff, Prod.exists,
    readWord32?_eq_some_iff, readWord16?_eq_some_iff, Option.pure_def, Option.some.injEq,
    Prod.mk.injEq]
  constructor
  · rintro ⟨_, _, rfl, _, _, rfl, _, _, rfl, ⟨rfl, rfl, rfl⟩, rfl⟩
    rfl
  · rintro rfl
    exact ⟨_, _, rfl, _, _, rfl, _, _, rfl, ⟨rfl, rfl, rfl⟩, rfl⟩

/-- Parsing a descriptor region is recognising the wire form of a valid descriptor. -/
theorem parse_eq_ok_iff {place : DescriptorPlace} {b : Bytes} {d : Descriptor} :
    parse place b = .ok d ↔ d.Valid place ∧ b = d.encode := by
  constructor
  · intro hp
    unfold parse at hp
    split at hp
    · cases hp
    rename_i hlen
    split at hp
    · cases hp
    rename_i v count trailerOffset rest hhead
    rw [readHead?_eq_some_iff] at hhead
    split at hp
    · cases hp
    rename_i hv
    split at hp
    · cases hp
    rename_i hcount
    split at hp
    · cases hp
    rename_i entries slack hmany
    rw [LoadEntry.readMany?_eq_some_iff] at hmany
    split at hp
    · rename_i hsound
      cases hp
      have hc : UInt16.ofNat entries.length = count := by
        rw [hmany.1, UInt16.ofNat_toNat]
      have hb : b = Descriptor.encode ⟨trailerOffset, entries, slack⟩ := by
        rw [hhead, hmany.2, Descriptor.encode, hc, not_not.mp hv]
      refine ⟨⟨?_, ?_, hsound⟩, hb⟩
      · rw [← hb]
        exact not_lt.mp hlen
      · rw [hmany.1]
        exact not_lt.mp hcount
    · cases hp
  · rintro ⟨hd, rfl⟩
    have hlt : d.entries.length < UInt16.size :=
      lt_of_le_of_lt hd.entries_le place.maxEntries_lt
    have hcount : (UInt16.ofNat d.entries.length).toNat = d.entries.length :=
      UInt16.toNat_ofNat_of_lt' hlt
    have hhead : readHead? d.encode = some ((version, UInt16.ofNat d.entries.length,
        d.trailerOffset), d.entries.flatMap LoadEntry.encode ++ d.slack) := by
      rw [readHead?_eq_some_iff, encode]
    have hmany : LoadEntry.readMany? d.entries.length
        (d.entries.flatMap LoadEntry.encode ++ d.slack) = some (d.entries, d.slack) :=
      LoadEntry.readMany?_eq_some_iff.mpr ⟨rfl, rfl⟩
    simp only [parse, hhead, hcount, hmany]
    rw [if_neg (not_lt.mpr hd.length_le), if_neg (by simp), if_neg (not_lt.mpr hd.entries_le),
      if_pos hd.sound]

end Descriptor

/-! ### Images -/

namespace BootImage

theorem encode_eq (i : BootImage) : i.encode = i.body ++ encodeTags i.tags := rfl

theorem encode_eq_append (i : BootImage) :
    i.encode = i.header.encode ++ (i.descriptor.encode ++ (i.payload ++ encodeTags i.tags)) := by
  simp only [encode_eq, body, List.append_assoc]

/-- The parts of an image keep their own rules and fit together without gap or overlap. -/
structure WellFormed (i : BootImage) : Prop where
  header : i.header.Valid
  descriptor : i.descriptor.Valid .header
  descriptor_length : i.descriptor.encode.length = i.header.descriptorLength
  entries : ∀ e ∈ i.descriptor.entries, e.Within i.payloadOffset i.trailerOffset
  payload_length : i.payloadOffset + i.payload.length = i.trailerOffset
  tags : ∀ t ∈ i.tags, t.WellFormed
  length_encode : i.encode.length = i.totalLength

/-- The parts of an image have the lengths that the header and the descriptor declare. -/
structure Framed (i : BootImage) : Prop where
  entries_lt : i.descriptor.entries.length < UInt16.size
  descriptor_length : i.descriptor.encode.length = i.header.descriptorLength
  payload_length : i.payloadOffset + i.payload.length = i.trailerOffset

theorem WellFormed.framed {i : BootImage} (hi : i.WellFormed) : i.Framed :=
  ⟨lt_of_le_of_lt hi.descriptor.entries_le DescriptorPlace.header.maxEntries_lt,
    hi.descriptor_length, hi.payload_length⟩

theorem Framed.length_body {i : BootImage} (hi : i.Framed) : i.body.length = i.trailerOffset := by
  have hd := hi.descriptor_length
  have hp := hi.payload_length
  simp only [payloadOffset, Header.bodyOffset] at hp
  simp only [body, List.length_append, Header.length_encode]
  omega

theorem WellFormed.length_body {i : BootImage} (hi : i.WellFormed) :
    i.body.length = i.trailerOffset := hi.framed.length_body

theorem wellFormed_of_parse {b : Bytes} {carrier : Carrier} {i : BootImage}
    (h : parse b carrier = .ok i) :
    i.WellFormed ∧ carrier.Fits i.totalLength ∧ b = i.encode := by
  simp only [parse, bind_eq_ok_iff, guard_eq_ok_iff, not_or, not_lt, not_not] at h
  obtain ⟨⟨header, rest⟩, hr, _, hv, _, hf, hlen, descriptor, hd, ht, he, tags, htags, hi⟩ := h
  cases hi
  dsimp only at hv hf hlen hd ht he htags ⊢
  have hb := Header.read_eq_ok_iff.mp hr
  have hv := (Header.validate_eq_ok_iff header).mp hv
  obtain ⟨hd, hde⟩ := Descriptor.parse_eq_ok_iff.mp hd
  obtain ⟨htw, hte⟩ := readTags_eq_ok_iff.mp htags
  have hrest : b.length = Header.byteSize + rest.length := by
    rw [hb, List.length_append, Header.length_encode]
  have hbo := hv.bodyOffset_le
  rw [Header.bodyOffset] at hbo ht
  have hdl : descriptor.encode.length = header.descriptorLength := by
    rw [← hde, List.length_take]
    omega
  have hbytes : b = encode ⟨header, descriptor, (rest.drop header.descriptorLength).take
      (descriptor.trailerOffset.toNat - header.bodyOffset), tags⟩ := by
    rw [encode_eq, body, ← hde, ← hte, hb]
    simp only [List.append_assoc, List.take_append_drop]
  refine ⟨⟨hv, hd, hdl, he, ?_, htw, ?_⟩, (Carrier.checkFit_eq_ok_iff _ _).mp hf, hbytes⟩
  · simp only [payloadOffset, trailerOffset, Header.bodyOffset, List.length_take, List.length_drop]
    omega
  · rw [← hbytes]
    exact hlen

theorem parse_encode {carrier : Carrier} {i : BootImage} (hi : i.WellFormed)
    (hf : carrier.Fits i.totalLength) : parse i.encode carrier = .ok i := by
  have hpl := hi.payload_length
  have hbl := hi.length_body
  have hlen := hi.length_encode
  have hsplit := i.encode_eq_append
  have hle : i.trailerOffset ≤ i.totalLength := by
    rw [← hlen, encode_eq, List.length_append]
    omega
  have hpayload : i.trailerOffset - i.header.bodyOffset = i.payload.length := by
    rw [payloadOffset] at hpl
    omega
  simp only [parse, bind_eq_ok_iff, guard_eq_ok_iff, not_or, not_lt, not_not]
  refine ⟨(i.header, _), Header.read_eq_ok_iff.mpr hsplit, (),
    (Header.validate_eq_ok_iff _).mpr hi.header, (), (Carrier.checkFit_eq_ok_iff _ _).mpr hf, hlen,
    i.descriptor, ?_, ⟨?_, hle⟩, hi.entries, i.tags, ?_, ?_⟩
  · rw [← hi.descriptor_length, List.take_left]
    exact Descriptor.parse_eq_ok_iff.mpr ⟨hi.descriptor, rfl⟩
  · change i.header.bodyOffset ≤ i.trailerOffset
    rw [← hpl]
    exact Nat.le_add_right _ _
  · rw [← hi.descriptor_length, List.drop_left]
    change readTags ((i.payload ++ encodeTags i.tags).drop
      (i.trailerOffset - i.header.bodyOffset)) = _
    rw [hpayload, List.drop_left]
    exact readTags_eq_ok_iff.mpr ⟨hi.tags, rfl⟩
  · rw [← hi.descriptor_length, List.drop_left]
    change Except.ok (BootImage.mk i.header i.descriptor ((i.payload ++ encodeTags i.tags).take
      (i.trailerOffset - i.header.bodyOffset)) i.tags) = .ok i
    rw [hpayload, List.take_left]

/-- Parsing an image is recognising the wire form of a well-formed image that fits its carrier. -/
theorem parse_eq_ok_iff {b : Bytes} {carrier : Carrier} {i : BootImage} :
    parse b carrier = .ok i ↔ i.WellFormed ∧ carrier.Fits i.totalLength ∧ b = i.encode := by
  constructor
  · exact wellFormed_of_parse
  · rintro ⟨hi, hf, rfl⟩
    exact parse_encode hi hf

/-! ### Images of a given trailer -/

/-- The image with the given tags and nothing to load. -/
def ofTags (tags : List Tag) : BootImage where
  header :=
    { Header.template with
      sizeWord := 8
      totalLength := UInt32.ofNat (0x4c + (encodeTags tags).length) }
  descriptor := ⟨0x4c, [], []⟩
  payload := []
  tags := tags

/-- Well-formed tags in any order are the trailer of some image. -/
theorem wellFormed_ofTags {tags : List Tag} (ht : ∀ t ∈ tags, t.WellFormed)
    (hl : 0x4c + (encodeTags tags).length < UInt32.size) : (ofTags tags).WellFormed := by
  have htotal : (ofTags tags).totalLength = 0x4c + (encodeTags tags).length :=
    UInt32.toNat_ofNat_of_lt' hl
  have hdl : (ofTags tags).header.descriptorLength = 8 := rfl
  have hbo : (ofTags tags).header.bodyOffset = 0x4c := by
    rw [Header.bodyOffset, hdl, Header.byteSize]
  have hde : (ofTags tags).descriptor.encode.length = 8 := by
    simp [ofTags, Descriptor.encode]
  have hto : (ofTags tags).trailerOffset = 0x4c := rfl
  have hpayload : (ofTags tags).payload = [] := rfl
  refine ⟨⟨rfl, rfl, rfl, rfl, by rw [hdl], ?_, ?_⟩, ⟨?_, Nat.zero_le _, by simp [ofTags]⟩, ?_,
    by simp [ofTags], ?_, ht, ?_⟩
  · rw [hdl]
    decide
  · change (ofTags tags).header.bodyOffset ≤ (ofTags tags).totalLength
    rw [hbo, htotal]
    omega
  · rw [hde]
    decide
  · rw [hde, hdl]
  · rw [payloadOffset, hbo, hto, hpayload]
    rfl
  · rw [htotal, encode_eq, body, hpayload]
    simp only [List.length_append, Header.length_encode, hde, Header.byteSize, List.length_nil]
    rfl

theorem parse_ofTags {tags : List Tag} (ht : ∀ t ∈ tags, t.WellFormed)
    (hl : 0x4c + (encodeTags tags).length < UInt32.size) :
    parse (ofTags tags).encode .unbounded = .ok (ofTags tags) := by
  have htotal : (ofTags tags).totalLength = 0x4c + (encodeTags tags).length :=
    UInt32.toNat_ofNat_of_lt' hl
  refine parse_encode (wellFormed_ofTags ht hl) (Carrier.fits_unbounded ?_ ?_)
  · rw [htotal, Header.byteSize]
    omega
  · rwa [htotal]

/-- A word can count the octets of a few thousand tags. -/
theorem parse_ofTags_of_few {tags : List Tag} (ht : ∀ t ∈ tags, t.WellFormed)
    (hn : tags.length ≤ 0x1000) :
    parse (ofTags tags).encode .unbounded = .ok (ofTags tags) := by
  have hl := length_encodeTags_le tags
  have hsize : UInt32.size = 0x100000000 := rfl
  apply parse_ofTags ht
  omega

def someKey : KeyTag := ⟨7, 9, 3, .filled 256 0xff, .filled 0x234 1⟩

theorem wellFormed_someKey : someKey.WellFormed := by decide

/-- A trailer with a key and a signature. -/
def keyThenSignature : List Tag := [.key someKey, .signature ⟨.filled 256 0x5a⟩]

theorem parse_keyThenSignature :
    parse (ofTags keyThenSignature).encode .unbounded = .ok (ofTags keyThenSignature) :=
  parse_ofTags_of_few (by simp [keyThenSignature, Tag.WellFormed, wellFormed_someKey]) (by decide)

end BootImage

end SignedBoot
