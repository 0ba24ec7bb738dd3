import Mathlib
import SignedBoot.Proofs.Container.ImageOctets
import SignedBoot.Proofs.Generation.Layout

/-!
# Descriptor regions as they are written down

The octets of a descriptor region, given as a text of numerals, and how much of it there may be.
Parsing accepts these regions and no others, it gives back what is written in them, and no region
can be read in two ways (`Descriptor.parse_decodes_exactly`).
-/

namespace SignedBoot

/-- How many load entries a descriptor region may list, and how many octets it may have. -/
structure DescriptorBounds where
  entries : Nat
  octets : Nat

def DescriptorPlace.bounds : DescriptorPlace → DescriptorBounds
  | .header => ⟨8, 0x400⟩
  | .embedded => ⟨0x40, 0x418⟩

theorem DescriptorPlace.bounds_eq (place : DescriptorPlace) :
    place.bounds = ⟨place.maxEntries, place.maxByteSize⟩ := by
  cases place <;> rfl

/-- A list of load entries that a descriptor region may have. -/
structure DescriptorBounds.Admits (bounds : DescriptorBounds) (entries : List LoadEntry) :
    Prop where
  count_le : entries.length ≤ bounds.entries
  sound (e : LoadEntry) (he : e ∈ entries) :
    1 ≤ e.size.toNat ∧ e.offset.toNat + e.size.toNat < 2 ^ 32

/-- The octets of a region: the version, the number of load entries, the trailer offset, the entries
and the slack behind them. -/
def descriptorText (entries : List LoadEntry) (trailerOffset : UInt32) (slack : Bytes) : Bytes :=
  le 2 1 ++ le 2 entries.length ++ le 4 trailerOffset.toNat ++
    (entries.flatMap fun e => le 4 e.offset.toNat ++ le 4 e.size.toNat) ++ slack

theorem descriptorText_append (entries : List LoadEntry) (trailerOffset : UInt32)
    (slack rest : Bytes) : descriptorText entries trailerOffset slack ++ rest =
      descriptorText entries trailerOffset (slack ++ rest) :=
  List.append_assoc _ _ _

/-- A region with these load entries and this trailer offset in it. -/
structure DescriptorBounds.Encodes (bounds : DescriptorBounds) (b : Bytes)
    (entries : List LoadEntry) (trailerOffset : UInt32) : Prop where
  length_le : b.length ≤ bounds.octets
  text : ∃ slack, b = descriptorText entries trailerOffset slack
  admits : bounds.Admits entries

theorem DescriptorPlace.lt_of_admits (place : DescriptorPlace) {entries : List LoadEntry}
    (h : place.bounds.Admits entries) : entries.length < UInt16.size := by
  have hcount := h.count_le
  rw [place.bounds_eq] at hcount
  exact hcount.trans_lt place.maxEntries_lt

namespace Descriptor

theorem encode_eq_descriptorText {d : Descriptor} (h : d.entries.length < UInt16.size) :
    d.encode = descriptorText d.entries d.trailerOffset d.slack := by
  have hcount : (UInt16.ofNat d.entries.length).toNat = d.entries.length :=
    UInt16.toNat_ofNat_of_lt' h
  have hentries : LoadEntry.encode = fun e => le 4 e.offset.toNat ++ le 4 e.size.toNat := rfl
  simp only [encode, descriptorText, word16, word32, hcount, hentries, List.append_assoc]
  rfl

theorem valid_iff {place : DescriptorPlace} {d : Descriptor} :
    d.Valid place ↔ d.encode.length ≤ place.bounds.octets ∧ place.bounds.Admits d.entries := by
  rw [place.bounds_eq]
  constructor
  · rintro ⟨hlength, hcount, hsound⟩
    exact ⟨hlength, hcount, fun e he => e.sound_iff.mp (hsound e he)⟩
  · rintro ⟨hlength, hcount, hsound⟩
    exact ⟨hlength, hcount, fun e he => e.sound_iff.mpr (hsound e he)⟩

/-- What parsing a region comes to, the slack left aside. -/
def ParsesTo (place : DescriptorPlace) (b : Bytes) (entries : List LoadEntry)
    (trailerOffset : UInt32) : Prop :=
  ∃ d, parse place b = .ok d ∧ d.entries = entries ∧ d.trailerOffset = trailerOffset

theorem parsesTo_iff_encodes {place : DescriptorPlace} {b : Bytes} {entries : List LoadEntry}
    {trailerOffset : UInt32} :
    ParsesTo place b entries trailerOffset ↔ place.bounds.Encodes b entries trailerOffset := by
  simp only [ParsesTo, parse_eq_ok_iff, valid_iff]
  constructor
  · rintro ⟨d, ⟨⟨hlength, hadmits⟩, rfl⟩, rfl, rfl⟩
    have htext := encode_eq_descriptorText (d := d) (place.lt_of_admits hadmits)
    exact ⟨hlength, ⟨d.slack, htext⟩, hadmits⟩
  · rintro ⟨hlength, ⟨slack, rfl⟩, hadmits⟩
    let d : Descriptor := ⟨trailerOffset, entries, slack⟩
    have htext := encode_eq_descriptorText (d := d) (place.lt_of_admits hadmits)
    exact ⟨d, ⟨⟨htext ▸ hlength, hadmits⟩, htext.symm⟩, rfl, rfl⟩

end Descriptor

/-- A text can be read in one way only, whatever bounds it is read with. -/
theorem DescriptorBounds.Encodes.unique {p q : DescriptorPlace} {b : Bytes}
    {entries entries' : List LoadEntry} {trailerOffset trailerOffset' : UInt32}
    (h : p.bounds.Encodes b entries trailerOffset)
    (h' : q.bounds.Encodes b entries' trailerOffset') :
    entries = entries' ∧ trailerOffset = trailerOffset' := by
  obtain ⟨slack, rfl⟩ := h.text
  obtain ⟨slack', htext⟩ := h'.text
  have hlt := p.lt_of_admits h.admits
  have hlt' := q.lt_of_admits h'.admits
  let d : Descriptor := ⟨trailerOffset, entries, slack⟩
  let e : Descriptor := ⟨trailerOffset', entries', slack'⟩
  have hencode : d.encode = e.encode := by
    rw [Descriptor.encode_eq_descriptorText hlt, Descriptor.encode_eq_descriptorText hlt']
    exact htext
  have hde : d = e := Descriptor.encode_inj_of_lt hlt hlt' hencode
  exact ⟨congrArg Descriptor.entries hde, congrArg Descriptor.trailerOffset hde⟩

/-! ### The regions that generating writes -/

namespace Recipe

/-- The region that is written for a descriptor: behind the header as it is, and inside a layout tag
with slack up to the end of the window. -/
def region (r : Recipe) (d : Descriptor) : DescriptorPlace → Bytes
  | .header => d.encode
  | .embedded => (r.layoutTag d).window.bytes

theorem region_encodes (r : Recipe) {place : DescriptorPlace} {entries : List LoadEntry}
    (h : place.bounds.Admits entries) (trailerOffset : UInt32) :
    place.bounds.Encodes (r.region ⟨trailerOffset, entries, []⟩ place) entries trailerOffset := by
  have hcount := h.count_le
  let d : Descriptor := ⟨trailerOffset, entries, []⟩
  have hlength : d.encode.length = 8 + 8 * entries.length := d.length_encode_eq
  have htext : d.encode = descriptorText entries trailerOffset [] :=
    Descriptor.encode_eq_descriptorText (d := d) (place.lt_of_admits h)
  cases place with
  | header =>
    change entries.length ≤ 8 at hcount
    refine ⟨?_, ⟨[], htext⟩, h⟩
    change d.encode.length ≤ 0x400
    omega
  | embedded =>
    change entries.length ≤ 0x40 at hcount
    have hwindow : (r.layoutTag d).window.bytes =
        d.encode ++ List.replicate (0x418 - d.encode.length) 0 :=
      Block.bytes_ofPadded (by omega)
    refine ⟨(r.layoutTag d).window.length_bytes.le, ?_, h⟩
    rw [htext, descriptorText_append] at hwindow
    exact ⟨_, hwindow⟩

variable {r : Recipe} {signer : Signer} {g : GeneratedImage}

/-- The descriptor of a generated image stands behind its header and in each of its layout tags. -/
theorem regions_of_generate (h : r.generate signer = .ok g) :
    ∃ entries trailerOffset, g.image.descriptor = ⟨trailerOffset, entries, []⟩ ∧
      entries.length ≤ 8 ∧
      slice g.image.encode 0x44 g.image.header.descriptorLength =
        r.region g.image.descriptor .header ∧
      ∀ t, .layout t ∈ g.image.tags → t.window.bytes = r.region g.image.descriptor .embedded := by
  obtain ⟨entries, signature, -, hcountable, -, rfl⟩ := generate_eq_ok_iff.mp h
  have hframed := framed_finish signer.key signature hcountable
  obtain ⟨-, hregion, -⟩ := BootImage.declared_encode hframed.descriptor_length
  refine ⟨_, _, rfl, entries_le_finish signer.key signature hcountable, hregion, ?_⟩
  intro t ht
  change Tag.layout t ∈ r.signedTags (r.descriptor entries) signer.key ++
    signature.toList.map fun s => Tag.signature ⟨s⟩ at ht
  simp only [signedTags, List.mem_append, List.mem_replicate, List.mem_map, Tag.layout.injEq,
    reduceCtorEq, and_false, exists_false, or_false] at ht
  rw [ht.2]
  rfl

end Recipe

/-- Parsing gives load entries and a trailer offset exactly for the texts of a descriptor region
within the bounds of its place, and no text has two readings. What generating writes for a list of
load entries within the bounds parses back to the list and the trailer offset, and so do the regions
of a generated image when its load entries are sound. -/
theorem Descriptor.parse_decodes_exactly :
    (∀ place b entries trailerOffset,
      ParsesTo place b entries trailerOffset ↔ place.bounds.Encodes b entries trailerOffset) ∧
    (∀ (p q : DescriptorPlace) b entries entries' trailerOffset trailerOffset',
      p.bounds.Encodes b entries trailerOffset → q.bounds.Encodes b entries' trailerOffset' →
        entries = entries' ∧ trailerOffset = trailerOffset') ∧
    (∀ (r : Recipe) place entries trailerOffset, place.bounds.Admits entries →
      ParsesTo place (r.region ⟨trailerOffset, entries, []⟩ place) entries trailerOffset) ∧
    ∀ (r : Recipe) signer g, r.generate signer = .ok g →
      (∀ e ∈ g.image.descriptor.entries, e.Sound) →
        ParsesTo .header (slice g.image.encode 0x44 g.image.header.descriptorLength)
          g.image.descriptor.entries g.image.descriptor.trailerOffset ∧
        ∀ t, .layout t ∈ g.image.tags →
          ParsesTo .embedded t.window.bytes
            g.image.descriptor.entries g.image.descriptor.trailerOffset := by
  have hregion : ∀ (r : Recipe) place entries trailerOffset, place.bounds.Admits entries →
      ParsesTo place (r.region ⟨trailerOffset, entries, []⟩ place) entries trailerOffset :=
    fun r _ _ trailerOffset h => parsesTo_iff_encodes.mpr (r.region_encodes h trailerOffset)
  refine ⟨fun _ _ _ _ => parsesTo_iff_encodes, fun _ _ _ _ _ _ _ h h' => h.unique h', hregion, ?_⟩
  intro r signer g hg hsound
  obtain ⟨entries, trailerOffset, hd, hcount, hheader, hlayout⟩ := Recipe.regions_of_generate hg
  rw [hd] at hsound hheader hlayout ⊢
  have hentries : ∀ e ∈ entries, 1 ≤ e.size.toNat ∧ e.offset.toNat + e.size.toNat < 2 ^ 32 :=
    fun e he => e.sound_iff.mp (hsound e he)
  constructor
  · rw [hheader]
    exact hregion r .header entries trailerOffset ⟨hcount, hentries⟩
  · intro t ht
    rw [hlayout t ht]
    exact hregion r .embedded entries trailerOffset ⟨hcount.trans (by decide), hentries⟩

end SignedBoot
