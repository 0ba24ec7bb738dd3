import Mathlib
import SignedBoot.Proofs.Container.Coverage
import SignedBoot.Proofs.Generation.Layout

/-!
# Reading a generated image

Which generated images are accepted, and that an accepted one shows everything that its recipe and
its signer put in.
-/

namespace SignedBoot

namespace BootImage

theorem Framed.slice_payload {i : BootImage} (hi : i.Framed) :
    slice i.encode i.payloadOffset i.payload.length = i.payload := by
  have hl := hi.payload_length
  have hbody := hi.length_body
  have hhead : (i.header.encode ++ i.descriptor.encode).length = i.payloadOffset := by
    rw [List.length_append, Header.length_encode, hi.descriptor_length, payloadOffset,
      Header.bodyOffset]
  rw [encode_eq, slice_append_of_le_length _ (by omega), body, ← List.append_assoc,
    slice_append_of_le _ _ (by omega), hhead, Nat.sub_self, slice_zero_eq_self rfl]

end BootImage

namespace Recipe

/-- The tags behind the signed ones: the signature of the digest at its offset, or none. -/
inductive EndsWith (r : Recipe) (signer : Signer) (g : GeneratedImage) : List PlacedTag → Prop
  | signature (s : Block 256) (offset : Nat) (htag : r.signatureTag = true)
      (hs : signer.sign? g.digest = some s) (hoffset : g.signatureOffset = some offset) :
      EndsWith r signer g [⟨offset, .signature ⟨s⟩⟩]
  | nothing (htag : r.signatureTag = false) (hoffset : g.signatureOffset = none) :
      EndsWith r signer g []

/-- What is read from an image is what the recipe and the signer put in. -/
structure Shows (r : Recipe) (signer : Signer) (g : GeneratedImage) (entries : List LoadEntry)
    (i : BootImage) : Prop where
  payloadOffset : i.payloadOffset = 0x44 + (8 + 8 * entries.length)
  /-- The load entries in order, counted from where the descriptor ends. -/
  entries : i.descriptor.entries.map (fun e => (e.offset.toNat, e.size.toNat)) =
    entries.map fun e => (i.payloadOffset + e.offset.toNat, e.size.toNat)
  trailerOffset : i.trailerOffset = g.image.trailerOffset
  trailerOffset_eq : i.trailerOffset = i.payloadOffset + r.payload.length
  payload : slice g.image.encode i.payloadOffset r.payload.length = r.payload
  walk : (TagCursor.start g.image.encode i.trailerOffset).tags = .ok i.placedTags
  trailer : ∃ (layouts : List LayoutTag) (keys : List KeyTag) (last : List PlacedTag),
    i.placedTags = placeTags i.trailerOffset (layouts.map .layout ++ keys.map .key) ++ last ∧
      layouts.length = r.layoutTags ∧
      (∀ t ∈ layouts, t.region.mode = r.regionMode ∧ t.region.count = r.regionCount) ∧
      keys.length = r.keyTags ∧ (∀ t ∈ keys, t.key = signer.key.descriptor) ∧
      r.EndsWith signer g last
  digest : r.layoutTags + r.keyTags ≤ indexCapacity → ∃ x m, i.signedIndex = .ok x ∧
    i.signedMessage x = .ok m ∧ g.digest = sha256 m.bytes

variable {r : Recipe} {entries : List LoadEntry} {signature : Option (Block 256)}

theorem entries_finish (key : ImageKey) (hb : Rebases entries) :
    (r.finish key entries signature).image.descriptor.entries.map
        (fun e => (e.offset.toNat, e.size.toNat)) =
      entries.map fun e => (payloadOffset entries + e.offset.toNat, e.size.toNat) := by
  change (rebase entries).map _ = _
  rw [rebase, List.map_map]
  apply List.map_congr_left
  intro e he
  simp only [Function.comp_apply, toNat_rebased hb he]

/-- The signature stands where the signed tags end. -/
theorem placedTags_finish (key : ImageKey) (h : r.Countable entries) :
    (r.finish key entries signature).image.placedTags =
      placeTags (r.trailerOffset entries) (r.signedTags (r.descriptor entries) key) ++
        signature.toList.map fun s =>
          ⟨(r.layOut key entries).encode.length, .signature ⟨s⟩⟩ := by
  have hoffset : r.trailerOffset entries +
      (encodeTags (r.signedTags (r.descriptor entries) key)).length =
        (r.layOut key entries).encode.length := by
    rw [length_encodeTags_signedTags, length_encode_layOut key h]
  rw [BootImage.placedTags, trailerOffset_finish key signature h, ← hoffset]
  change placeTags _ (r.signedTags (r.descriptor entries) key ++ _) = _
  rw [placeTags_append]
  cases signature with
  | none => rfl
  | some s => rfl

theorem Signs.endsWith {signer : Signer}
    (h : r.Signs signer (sha256 (r.layOut signer.key entries).encode) signature) :
    r.EndsWith signer (r.finish signer.key entries signature)
      (signature.toList.map fun s =>
        ⟨(r.layOut signer.key entries).encode.length, .signature ⟨s⟩⟩) := by
  cases h with
  | signed s htag hs => exact .signature s _ htag hs rfl
  | unsigned htag => exact .nothing htag rfl

theorem signedTags_finish (key : ImageKey) :
    (r.finish key entries signature).image.signedTags =
      r.signedTags (r.descriptor entries) key := by
  change (r.signedTags (r.descriptor entries) key ++
    signature.toList.map fun s => Tag.signature ⟨s⟩).filter (·.kind.isSigned) = _
  have hsigned : ∀ t ∈ r.signedTags (r.descriptor entries) key, t.kind.isSigned = true := by
    intro t ht
    simp only [signedTags, List.mem_append, List.mem_replicate] at ht
    rcases ht with ⟨-, rfl⟩ | ⟨-, rfl⟩ <;> rfl
  have hlast : (signature.toList.map fun s => Tag.signature ⟨s⟩).filter (·.kind.isSigned) = [] := by
    cases signature <;> rfl
  rw [List.filter_append, hlast, List.append_nil, List.filter_eq_self.mpr hsigned]

/-- What is hashed is the signed message. -/
theorem message_finish (key : ImageKey) :
    (r.finish key entries signature).image.message = (r.layOut key entries).encode := by
  rw [BootImage.message, signedTags_finish]
  rfl

theorem digest_finish {key : ImageKey} (hw : (r.finish key entries signature).image.WellFormed)
    (hl : r.layoutTags + r.keyTags ≤ indexCapacity) :
    ∃ x m, (r.finish key entries signature).image.signedIndex = .ok x ∧
      (r.finish key entries signature).image.signedMessage x = .ok m ∧
      (r.finish key entries signature).digest = sha256 m.bytes := by
  have hfew : (r.finish key entries signature).image.signedTags.length ≤ indexCapacity := by
    rw [signedTags_finish]
    simpa [signedTags] using hl
  obtain ⟨x, hx, -⟩ := BootImage.signedIndex_of_le hfew
  obtain ⟨m, hm, -, hbytes⟩ := BootImage.exists_signedMessage hw hx
  refine ⟨x, m, hx, hm, ?_⟩
  rw [hbytes, message_finish]
  rfl

theorem shows_finish {signer : Signer} (h : r.Countable entries) (hb : Rebases entries)
    (hs : r.Signs signer (sha256 (r.layOut signer.key entries).encode) signature)
    (hw : (r.finish signer.key entries signature).image.WellFormed) :
    r.Shows signer (r.finish signer.key entries signature) entries
      (r.finish signer.key entries signature).image := by
  have hpayloadOffset := payloadOffset_finish signer.key signature h
  have htrailerOffset := trailerOffset_finish signer.key signature h
  refine ⟨?_, ?_, rfl, ?_, (framed_finish signer.key signature h).slice_payload,
    BootImage.tags_start_encode hw, ?_, digest_finish hw⟩
  · rw [hpayloadOffset, payloadOffset, descriptorLength, Header.byteSize,
      Descriptor.headByteSize, LoadEntry.byteSize, Nat.mul_comm]
  · rw [hpayloadOffset]
    exact entries_finish signer.key hb
  · rw [hpayloadOffset, htrailerOffset, trailerOffset]
  · refine ⟨List.replicate r.layoutTags (r.layoutTag (r.descriptor entries)),
      List.replicate r.keyTags (keyTag signer.key), _, ?_, List.length_replicate, ?_,
      List.length_replicate, ?_, hs.endsWith⟩
    · rw [placedTags_finish signer.key h, htrailerOffset, signedTags, List.map_replicate,
        List.map_replicate]
    · intro t ht
      rw [(List.mem_replicate.mp ht).2]
      exact ⟨rfl, rfl⟩
    · intro t ht
      rw [(List.mem_replicate.mp ht).2]
      rfl

/-- Of the images that can be generated those are accepted whose load entries lie in the payload
and whose key a key tag can carry, and reading one gives back what went into it. -/
theorem generated_parses_iff_and_shows {signer : Signer} {g : GeneratedImage}
    (hg : r.generate signer = .ok g) (he : r.payloadEntries = .ok entries)
    (hb : Rebases entries) :
    ((∃ i, BootImage.parse g.image.encode .unbounded = .ok i) ↔ r.Acceptable signer.key entries) ∧
      ∀ i, BootImage.parse g.image.encode .unbounded = .ok i → r.Shows signer g entries i := by
  obtain ⟨entries', signature, he', hcount, hsigns, rfl⟩ := generate_eq_ok_iff.mp hg
  obtain rfl := Except.ok.inj (he'.symm.trans he)
  refine ⟨parses_finish_iff hcount hsigns.suits hb, ?_⟩
  intro i hparse
  obtain ⟨rfl, hw, -⟩ :=
    (framed_finish signer.key signature hcount).parse_encode_eq_ok_iff.mp hparse
  exact shows_finish hcount hb hsigns hw

theorem overlapping_parses_and_shows :
    ∃ i, overlapping.generate (.fixed Signer.placeholderKey Signer.placeholderSignature) =
        .ok overlappingImage ∧
      overlapping.payloadEntries = .ok [⟨0, 4⟩, ⟨2, 2⟩] ∧ Rebases [⟨0, 4⟩, ⟨2, 2⟩] ∧
      BootImage.parse overlappingImage.image.encode .unbounded = .ok i ∧
      overlapping.Shows (.fixed Signer.placeholderKey Signer.placeholderSignature) overlappingImage
        [⟨0, 4⟩, ⟨2, 2⟩] i := by
  obtain ⟨hiff, hshows⟩ :=
    generated_parses_iff_and_shows generate_overlapping rfl rebases_overlapping
  obtain ⟨i, hi⟩ := hiff.mpr acceptable_overlapping
  exact ⟨i, generate_overlapping, rfl, rebases_overlapping, hi, hshows i hi⟩

end Recipe

end SignedBoot
