import Mathlib
import SignedBoot.Generation.Recipe
import SignedBoot.Proofs.Container.Framing
import SignedBoot.Proofs.Container.SignedMessage
import SignedBoot.Proofs.Container.TagOctets
import SignedBoot.Proofs.Rsa.KeySize

/-!
# What a recipe makes

Generating succeeds when the parts of the image can be counted and signed, and it then yields a
framed image (`Recipe.generate_eq_ok_iff`, `Recipe.framed_finish`). The rules of the container are
not checked on the way: `Recipe.wellFormed_finish_iff` says which of them a recipe can break.
-/

namespace SignedBoot

/-- A key that a key tag can carry: the top bit of the modulus is set, and the exponent is odd and
at least three. -/
structure ImageKey.Carriable (key : ImageKey) : Prop where
  top_bit : 2 ^ 2047 ≤ beValue key.modulus.bytes
  exponent_odd : key.exponent.toNat % 2 = 1
  exponent_ge : 3 ≤ key.exponent.toNat

namespace Recipe

/-! ### The layout -/

/-- The offset of the first tag. -/
def trailerOffset (r : Recipe) (entries : List LoadEntry) : Nat :=
  payloadOffset entries + r.payload.length

def signatureLength (r : Recipe) : Nat :=
  if r.signatureTag then TagKind.signature.byteSize else 0

/-- The length of the image, whose signature tag is counted before it is made. -/
def totalLength (r : Recipe) (entries : List LoadEntry) : Nat :=
  r.trailerOffset entries + r.tagsLength + r.signatureLength

def descriptor (r : Recipe) (entries : List LoadEntry) : Descriptor :=
  ⟨UInt32.ofNat (r.trailerOffset entries), rebase entries, []⟩

/-- The image before it is signed. -/
def layOut (r : Recipe) (key : ImageKey) (entries : List LoadEntry) : BootImage where
  header :=
    { Header.template with
      sizeWord := UInt32.ofNat (descriptorLength entries)
      totalLength := UInt32.ofNat (r.totalLength entries) }
  descriptor := r.descriptor entries
  payload := r.payload
  tags := r.signedTags (r.descriptor entries) key

/-- The counts of a recipe are within their bounds, and its lengths are words. -/
structure Countable (r : Recipe) (entries : List LoadEntry) : Prop where
  entries_le : entries.length ≤ DescriptorPlace.header.maxEntries
  regionCount_le : r.regionCount.toNat ≤ r.regionMode.maxCount
  trailerOffset_lt : r.trailerOffset entries < UInt32.size
  totalLength_lt : r.totalLength entries < UInt32.size

theorem unsigned_eq_ok_iff {r : Recipe} {key : ImageKey} {i : BootImage} :
    r.unsigned key = .ok i ↔
      ∃ entries, r.payloadEntries = .ok entries ∧ r.Countable entries ∧
        i = r.layOut key entries := by
  simp only [unsigned, bind_eq_ok_iff, guard_eq_ok_iff, not_lt, ge_iff_le, not_le]
  constructor
  · rintro ⟨entries, hentries, hle, hcount, htrailer, htotal, h⟩
    cases h
    exact ⟨entries, hentries, ⟨hle, hcount, htrailer, htotal⟩, rfl⟩
  · rintro ⟨entries, hentries, ⟨hle, hcount, htrailer, htotal⟩, rfl⟩
    exact ⟨entries, hentries, hle, hcount, htrailer, htotal, rfl⟩

/-- The image with its signature, if it is to have one. -/
def finish (r : Recipe) (key : ImageKey) (entries : List LoadEntry)
    (signature : Option (Block 256)) : GeneratedImage where
  image :=
    { r.layOut key entries with
      tags := (r.layOut key entries).tags ++ signature.toList.map fun s => .signature ⟨s⟩ }
  digest := sha256 (r.layOut key entries).encode
  signatureOffset := signature.map fun _ => (r.layOut key entries).encode.length

/-- What a signer leaves in place of the signature of a digest. -/
inductive Signs (r : Recipe) (signer : Signer) (digest : Digest) : Option (Block 256) → Prop
  | signed (s : Block 256) (h : r.signatureTag = true) (hs : signer.sign? digest = some s) :
      Signs r signer digest (some s)
  | unsigned (h : r.signatureTag = false) : Signs r signer digest none

theorem generate_eq_ok_iff {r : Recipe} {signer : Signer} {g : GeneratedImage} :
    r.generate signer = .ok g ↔ ∃ entries signature, r.payloadEntries = .ok entries ∧
      r.Countable entries ∧ r.Signs signer (sha256 (r.layOut signer.key entries).encode) signature ∧
        g = r.finish signer.key entries signature := by
  simp only [generate, bind_eq_ok_iff, unsigned_eq_ok_iff]
  constructor
  · rintro ⟨i, ⟨entries, hentries, hcountable, rfl⟩, h⟩
    split at h
    · rename_i htag
      split at h
      · cases h
      · rename_i s hs
        cases h
        exact ⟨entries, some s, hentries, hcountable, .signed s htag hs, rfl⟩
    · rename_i htag
      cases h
      refine ⟨entries, none, hentries, hcountable, .unsigned (by simpa using htag), ?_⟩
      simp [finish]
  · rintro ⟨entries, signature, hentries, hcountable, hsigns, rfl⟩
    refine ⟨_, ⟨entries, hentries, hcountable, rfl⟩, ?_⟩
    cases hsigns with
    | signed s htag hs =>
      rw [if_pos htag, hs]
      rfl
    | unsigned htag =>
      simp [htag, finish]
      rfl

/-! ### Lengths -/

variable {r : Recipe} {entries : List LoadEntry}

/-- The signature is there if the recipe asks for one. -/
def Suits (r : Recipe) (signature : Option (Block 256)) : Prop :=
  signature.isSome = r.signatureTag

theorem Signs.suits {signer : Signer} {digest : Digest} {signature : Option (Block 256)}
    (h : r.Signs signer digest signature) : r.Suits signature := by
  cases h with
  | signed s htag hs => exact htag.symm
  | unsigned htag => exact htag.symm

@[simp]
theorem length_rebase (entries : List LoadEntry) : (rebase entries).length = entries.length :=
  List.length_map _

theorem Countable.descriptorLength_le (h : r.Countable entries) :
    descriptorLength entries ≤ 72 := by
  have hle := h.entries_le
  simp only [DescriptorPlace.maxEntries] at hle
  simp only [descriptorLength, Descriptor.headByteSize, LoadEntry.byteSize]
  omega

theorem length_encode_descriptor (r : Recipe) (entries : List LoadEntry) :
    (r.descriptor entries).encode.length = descriptorLength entries := by
  rw [Descriptor.length_encode_eq]
  simp only [descriptor, length_rebase, List.length_nil, descriptorLength,
    Descriptor.headByteSize, LoadEntry.byteSize]
  omega

section

variable (key : ImageKey) (signature : Option (Block 256))

theorem descriptorLength_finish (h : r.Countable entries) :
    (r.finish key entries signature).image.header.descriptorLength = descriptorLength entries := by
  have hle := h.descriptorLength_le
  have hword : (UInt32.ofNat (descriptorLength entries)).toNat = descriptorLength entries :=
    UInt32.toNat_ofNat_of_lt' (by simp only [UInt32.size]; omega)
  change (UInt32.ofNat (descriptorLength entries)).toNat % 0x10000 = descriptorLength entries
  rw [hword]
  omega

theorem payloadOffset_finish (h : r.Countable entries) :
    (r.finish key entries signature).image.payloadOffset = payloadOffset entries := by
  rw [BootImage.payloadOffset, Header.bodyOffset, descriptorLength_finish key signature h,
    payloadOffset]

theorem trailerOffset_finish (h : r.Countable entries) :
    (r.finish key entries signature).image.trailerOffset = r.trailerOffset entries :=
  UInt32.toNat_ofNat_of_lt' h.trailerOffset_lt

theorem totalLength_finish (h : r.Countable entries) :
    (r.finish key entries signature).image.totalLength = r.totalLength entries :=
  UInt32.toNat_ofNat_of_lt' h.totalLength_lt

theorem entries_le_finish (h : r.Countable entries) :
    (r.finish key entries signature).image.descriptor.entries.length ≤
      DescriptorPlace.header.maxEntries :=
  (length_rebase entries).trans_le h.entries_le

theorem framed_finish (h : r.Countable entries) :
    (r.finish key entries signature).image.Framed := by
  refine ⟨?_, ?_, ?_⟩
  · exact lt_of_le_of_lt (entries_le_finish key signature h) DescriptorPlace.header.maxEntries_lt
  · rw [descriptorLength_finish key signature h]
    exact length_encode_descriptor r entries
  · rw [payloadOffset_finish key signature h, trailerOffset_finish key signature h]
    rfl

theorem length_encodeTags_signedTags (d : Descriptor) :
    (encodeTags (r.signedTags d key)).length = r.tagsLength := by
  rw [signedTags, encodeTags_append, List.length_append, length_encodeTags_replicate,
    length_encodeTags_replicate, tagsLength]
  rfl

theorem length_encode_layOut (h : r.Countable entries) :
    (r.layOut key entries).encode.length = r.trailerOffset entries + r.tagsLength := by
  have hbody := (framed_finish key none h).length_body
  rw [trailerOffset_finish key none h] at hbody
  rw [BootImage.encode_eq, List.length_append, ← hbody]
  exact congrArg _ (length_encodeTags_signedTags key _)

theorem encode_finish (r : Recipe) (entries : List LoadEntry) :
    (r.finish key entries signature).image.encode = (r.layOut key entries).encode ++
      encodeTags (signature.toList.map fun s => .signature ⟨s⟩) := by
  rw [BootImage.encode_eq, BootImage.encode_eq, List.append_assoc, ← encodeTags_append]
  rfl

theorem length_encode_finish {signature : Option (Block 256)} (h : r.Countable entries)
    (hs : r.Suits signature) :
    (r.finish key entries signature).image.encode.length = r.totalLength entries := by
  have hlast : (encodeTags (signature.toList.map fun s => .signature ⟨s⟩)).length =
      r.signatureLength := by
    rw [signatureLength, ← hs]
    cases signature with
    | none => rfl
    | some s => simp [Tag.byteSize, Tag.kind]
  rw [encode_finish, List.length_append, length_encode_layOut key h, hlast, totalLength]

theorem fits_unbounded_finish (h : r.Countable entries) :
    Carrier.unbounded.Fits (r.finish key entries signature).image.totalLength := by
  rw [totalLength_finish key signature h]
  refine Carrier.fits_unbounded ?_ h.totalLength_lt
  rw [totalLength, trailerOffset, payloadOffset]
  omega

end

/-! ### Which rules are kept -/

/-- The offsets in the image are words. -/
def Rebases (entries : List LoadEntry) : Prop :=
  ∀ e ∈ entries, payloadOffset entries + e.offset.toNat < UInt32.size

theorem toNat_rebased (h : Rebases entries) {e : LoadEntry} (he : e ∈ entries) :
    (UInt32.ofNat (payloadOffset entries) + e.offset).toNat =
      payloadOffset entries + e.offset.toNat := by
  have hlt := h e he
  have hoffset : (UInt32.ofNat (payloadOffset entries)).toNat = payloadOffset entries :=
    UInt32.toNat_ofNat_of_lt' (by omega)
  rw [UInt32.toNat_add, hoffset]
  exact Nat.mod_eq_of_lt hlt

theorem header_valid_finish (key : ImageKey) (signature : Option (Block 256))
    (h : r.Countable entries) :
    (r.finish key entries signature).image.header.Valid := by
  have hle := h.descriptorLength_le
  have hlength := descriptorLength_finish key signature h
  refine ⟨rfl, rfl, rfl, rfl, ?_, ?_, ?_⟩
  · rw [hlength, descriptorLength, Descriptor.headByteSize]
    exact Nat.le_add_right _ _
  · rw [hlength, Header.maxDescriptorLength]
    omega
  · change (r.finish key entries signature).image.payloadOffset ≤
      (r.finish key entries signature).image.totalLength
    rw [payloadOffset_finish key signature h, totalLength_finish key signature h, totalLength,
      trailerOffset]
    omega

/-- The entries of the image are sound and in place when those of the recipe lie in the payload. -/
theorem rebase_sound_and_within_iff (h : r.Countable entries) (hb : Rebases entries) :
    (∀ e ∈ rebase entries, e.Sound ∧
        e.Within (payloadOffset entries) (r.trailerOffset entries)) ↔
      ∀ e ∈ entries, 1 ≤ e.size.toNat ∧ e.offset.toNat + e.size.toNat ≤ r.payload.length := by
  have htrailer := h.trailerOffset_lt
  simp only [rebase, List.forall_mem_map, LoadEntry.sound_and_within_iff _ htrailer]
  refine forall₂_congr fun e he => ?_
  rw [toNat_rebased hb he, trailerOffset]
  omega

/-- The window of a layout tag is the descriptor of the image with slack. -/
theorem window_layoutTag (h : r.Countable entries) :
    (r.layoutTag (r.descriptor entries)).window.bytes =
      ({ r.descriptor entries with
          slack := List.replicate (0x418 - descriptorLength entries) 0 } : Descriptor).encode := by
  have hle := h.descriptorLength_le
  have hlength := r.length_encode_descriptor entries
  change (Block.ofPadded 0x418 (r.descriptor entries).encode).bytes = _
  rw [Block.bytes_ofPadded (by omega), hlength]
  simp [Descriptor.encode, descriptor]

theorem layoutTag_wellFormed (h : r.Countable entries)
    (hsound : ∀ e ∈ rebase entries, e.Sound) :
    (r.layoutTag (r.descriptor entries)).WellFormed := by
  have hwindow := window_layoutTag h
  have hlength := (r.layoutTag (r.descriptor entries)).window.length_bytes
  have hle : (rebase entries).length ≤ 8 := (length_rebase entries).trans_le h.entries_le
  -- the bounds inside a tag are wider than those behind the header
  refine ⟨⟨_, Descriptor.parse_eq_ok_iff.mpr ⟨⟨?_, ?_, hsound⟩, hwindow⟩⟩, h.regionCount_le⟩
  · rw [← hwindow, hlength]
    decide
  · exact hle.trans (by decide)

theorem keyTag_wellFormed_iff (key : ImageKey) : (keyTag key).WellFormed ↔ key.Carriable := by
  rw [KeyTag.wellFormed_iff, two_pow_le_beValue_iff]
  constructor
  · rintro ⟨hge, hodd, htop⟩
    exact ⟨htop, hodd, hge⟩
  · rintro ⟨htop, hodd, hge⟩
    exact ⟨hge, hodd, htop⟩

/-- What generating leaves to its caller: the load entries lie in the payload, and the key is one
that a key tag can carry. -/
structure Acceptable (r : Recipe) (key : ImageKey) (entries : List LoadEntry) : Prop where
  entries : ∀ e ∈ entries, 1 ≤ e.size.toNat ∧ e.offset.toNat + e.size.toNat ≤ r.payload.length
  key : 0 < r.keyTags → key.Carriable

variable {key : ImageKey} {signature : Option (Block 256)}

theorem tags_wellFormed_iff (h : r.Countable entries) (hsound : ∀ e ∈ rebase entries, e.Sound) :
    (∀ t ∈ (r.finish key entries signature).image.tags, t.WellFormed) ↔
      (0 < r.keyTags → (keyTag key).WellFormed) := by
  have hlayout := layoutTag_wellFormed h hsound
  change (∀ t ∈ r.signedTags (r.descriptor entries) key ++
    signature.toList.map fun s => .signature ⟨s⟩, t.WellFormed) ↔ _
  constructor
  · intro ht hpos
    refine ht (.key (keyTag key)) ?_
    simp [signedTags, Nat.pos_iff_ne_zero.mp hpos]
  · intro hkey t ht
    simp only [signedTags, List.mem_append, List.mem_replicate, List.mem_map] at ht
    rcases ht with (⟨-, rfl⟩ | ⟨hne, rfl⟩) | ⟨s, -, rfl⟩
    · exact hlayout
    · exact hkey (Nat.pos_iff_ne_zero.mpr hne)
    · trivial

theorem wellFormed_finish_iff (h : r.Countable entries) (hs : r.Suits signature)
    (hb : Rebases entries) :
    (r.finish key entries signature).image.WellFormed ↔ r.Acceptable key entries := by
  have hframed := framed_finish key signature h
  have hentries := rebase_sound_and_within_iff h hb
  constructor
  · intro hw
    have hwithin := hw.entries
    rw [payloadOffset_finish key signature h, trailerOffset_finish key signature h] at hwithin
    refine ⟨hentries.mp fun e he => ⟨hw.descriptor.sound e he, hwithin e he⟩, ?_⟩
    rw [← keyTag_wellFormed_iff]
    exact (tags_wellFormed_iff h hw.descriptor.sound).mp hw.tags
  · intro ha
    have hin := hentries.mpr ha.entries
    have hsound : ∀ e ∈ rebase entries, e.Sound := fun e he => (hin e he).1
    have hkey := ha.key
    rw [← keyTag_wellFormed_iff] at hkey
    refine ⟨header_valid_finish key signature h, ⟨?_, ?_, hsound⟩, hframed.descriptor_length, ?_,
      hframed.payload_length, (tags_wellFormed_iff h hsound).mpr hkey, ?_⟩
    · rw [hframed.descriptor_length]
      exact (header_valid_finish key signature h).descriptorLength_le
    · exact entries_le_finish key signature h
    · rw [payloadOffset_finish key signature h, trailerOffset_finish key signature h]
      exact fun e he => (hin e he).2
    · rw [length_encode_finish key h hs, totalLength_finish key signature h]

/-- A finished image is accepted when its recipe and its key are acceptable. -/
theorem parses_finish_iff (h : r.Countable entries) (hs : r.Suits signature)
    (hb : Rebases entries) :
    (∃ i, BootImage.parse (r.finish key entries signature).image.encode .unbounded = .ok i) ↔
      r.Acceptable key entries := by
  simp only [(framed_finish key signature h).parse_encode_eq_ok_iff,
    ← wellFormed_finish_iff h hs hb]
  constructor
  · rintro ⟨i, -, hw, -⟩
    exact hw
  · intro hw
    exact ⟨_, rfl, hw, fits_unbounded_finish key signature h⟩

/-! ### A recipe with overlapping entries -/

/-- Two load entries, the second inside the first and both up to the end of the payload, and as many
signed tags as an index holds. -/
def overlapping : Recipe where
  payload := [0x13, 0x37, 0x13, 0x38]
  entries := some [⟨0, 4⟩, ⟨2, 2⟩]
  layoutTags := 3
  keyTags := 1
  signatureTag := true
  regionMode := .sectors
  regionCount := 3

theorem countable_overlapping : overlapping.Countable [⟨0, 4⟩, ⟨2, 2⟩] := by
  refine ⟨?_, ?_, ?_, ?_⟩ <;> decide

theorem rebases_overlapping : Rebases [⟨0, 4⟩, ⟨2, 2⟩] := by
  unfold Rebases
  decide

theorem acceptable_overlapping :
    overlapping.Acceptable Signer.placeholderKey [⟨0, 4⟩, ⟨2, 2⟩] := by
  refine ⟨by decide, fun _ => (keyTag_wellFormed_iff _).mp ?_⟩
  decide

/-- The image of the recipe under the placeholder key and signature. -/
def overlappingImage : GeneratedImage :=
  overlapping.finish Signer.placeholderKey [⟨0, 4⟩, ⟨2, 2⟩] (some Signer.placeholderSignature)

theorem generate_overlapping :
    overlapping.generate (.fixed Signer.placeholderKey Signer.placeholderSignature) =
      .ok overlappingImage :=
  generate_eq_ok_iff.mpr ⟨_, _, rfl, countable_overlapping, .signed _ rfl rfl, rfl⟩

theorem wellFormed_overlapping : overlappingImage.image.WellFormed := by
  have hs : overlapping.Suits (some Signer.placeholderSignature) := rfl
  exact (wellFormed_finish_iff countable_overlapping hs rebases_overlapping).mpr
    acceptable_overlapping

end Recipe

end SignedBoot
