import Mathlib
import SignedBoot.Container.SignedMessage
import SignedBoot.Proofs.Container.Format

/-!
# What the index and the message hold

The index of an image with at most four signed tags records each of them in its place, and the
message gathered for it is the body followed by the signed tags. Neither step can fail otherwise.
-/

namespace SignedBoot

/-- The tags that the image signature covers. -/
def BootImage.signedTags (i : BootImage) : List Tag := i.tags.filter (·.kind.isSigned)

/-- The signature tags, however many there are. -/
def BootImage.signatureTags (i : BootImage) : List SignatureTag :=
  i.tags.filterMap Tag.signature?

/-- The octets that the image signature covers. -/
def BootImage.message (i : BootImage) : Bytes := i.body ++ encodeTags i.signedTags

/-! ### The index -/

/-- Records one tag, or reports that there are too many. -/
def SignedIndex.record (x : SignedIndex) (p : PlacedTag) : Except Fault SignedIndex :=
  match x.push? (BootImage.indexEntry p) with
  | some x => .ok x
  | none => .error .indexFull

theorem SignedIndex.record_of_lt {x : SignedIndex} (h : x.entries.toList.length < indexCapacity)
    (p : PlacedTag) :
    ∃ y, x.record p = .ok y ∧ y.trailerOffset = x.trailerOffset ∧
      y.entries.toList = x.entries.toList ++ [BootImage.indexEntry p] := by
  obtain ⟨entries, hpush, hentries⟩ := BoundedList.push?_of_lt h (BootImage.indexEntry p)
  refine ⟨{ x with entries }, ?_, rfl, hentries⟩
  simp [record, push?, hpush]

theorem SignedIndex.record_of_full {x : SignedIndex}
    (h : ¬ x.entries.toList.length < indexCapacity) (p : PlacedTag) :
    x.record p = .error .indexFull := by
  simp [record, push?, BoundedList.push?_of_not_lt h]

/-- Tags that fit are all recorded, in their order. -/
theorem SignedIndex.foldlM_record {ps : List PlacedTag} {x : SignedIndex}
    (h : x.entries.toList.length + ps.length ≤ indexCapacity) :
    ∃ y, ps.foldlM record x = .ok y ∧ y.trailerOffset = x.trailerOffset ∧
      y.entries.toList = x.entries.toList ++ ps.map BootImage.indexEntry := by
  induction ps generalizing x with
  | nil => exact ⟨x, rfl, rfl, by simp⟩
  | cons p ps ih =>
    rw [List.length_cons] at h
    obtain ⟨y, hy, hyt, hye⟩ := record_of_lt (x := x) (by omega) p
    have hlen : y.entries.toList.length + ps.length ≤ indexCapacity := by
      rw [hye, List.length_append, List.length_singleton]
      omega
    obtain ⟨z, hz, hzt, hze⟩ := ih hlen
    refine ⟨z, ?_, hzt.trans hyt, ?_⟩
    · rw [List.foldlM_cons, hy]
      exact hz
    · rw [hze, hye, List.map_cons, List.append_assoc, List.singleton_append]

theorem SignedIndex.foldlM_record_full {ps : List PlacedTag} {x : SignedIndex}
    (h : indexCapacity < x.entries.toList.length + ps.length) :
    ps.foldlM record x = .error .indexFull := by
  induction ps generalizing x with
  | nil =>
    rw [List.length_nil, Nat.add_zero] at h
    exact absurd x.entries.length_le (not_le.mpr h)
  | cons p ps ih =>
    rw [List.foldlM_cons]
    by_cases hx : x.entries.toList.length < indexCapacity
    · obtain ⟨y, hy, -, hye⟩ := record_of_lt hx p
      rw [hy]
      apply ih
      rw [hye, List.length_append, List.length_singleton]
      rw [List.length_cons] at h
      omega
    · rw [record_of_full hx p]
      rfl

namespace BootImage

theorem map_tag_placedTags (i : BootImage) : i.placedTags.map PlacedTag.tag = i.tags :=
  map_tag_placeTags i.trailerOffset i.tags

/-- The signed tags with their offsets. -/
def placedSigned (i : BootImage) : List PlacedTag := i.placedTags.filter (·.kind.isSigned)

theorem map_tag_placedSigned (i : BootImage) :
    i.placedSigned.map PlacedTag.tag = i.signedTags := by
  rw [signedTags, ← map_tag_placedTags, List.filter_map]
  rfl

theorem length_placedSigned (i : BootImage) : i.placedSigned.length = i.signedTags.length := by
  rw [← map_tag_placedSigned, List.length_map]

theorem signedIndex_eq (i : BootImage) :
    i.signedIndex = i.placedSigned.foldlM SignedIndex.record (.empty i.trailerOffset) := rfl

theorem signedIndex_of_le {i : BootImage} (h : i.signedTags.length ≤ indexCapacity) :
    ∃ x, i.signedIndex = .ok x ∧ x.trailerOffset = i.trailerOffset ∧
      x.entries.toList = i.placedSigned.map indexEntry := by
  rw [signedIndex_eq]
  apply SignedIndex.foldlM_record
  rw [length_placedSigned]
  exact (Nat.zero_add _).trans_le h

theorem signedIndex_of_lt {i : BootImage} (h : indexCapacity < i.signedTags.length) :
    i.signedIndex = .error .indexFull := by
  rw [signedIndex_eq]
  apply SignedIndex.foldlM_record_full
  rw [length_placedSigned]
  exact h.trans_eq (Nat.zero_add _).symm

/-- An index that was built holds every signed tag, and there were few enough of them. -/
theorem of_signedIndex_eq_ok {i : BootImage} {x : SignedIndex} (h : i.signedIndex = .ok x) :
    i.signedTags.length ≤ indexCapacity ∧ x.trailerOffset = i.trailerOffset ∧
      x.entries.toList = i.placedSigned.map indexEntry := by
  by_cases hl : i.signedTags.length ≤ indexCapacity
  · obtain ⟨y, hy, hyt, hye⟩ := signedIndex_of_le hl
    rw [h] at hy
    cases hy
    exact ⟨hl, hyt, hye⟩
  · rw [signedIndex_of_lt (not_le.mp hl)] at h
    cases h

/-! ### The message -/

theorem region_of_mem {i : BootImage} (hi : i.WellFormed) {p : PlacedTag}
    (hp : p ∈ i.placedTags) : i.region p.offset p.size = .ok p.tag.encode := by
  rw [placedTags, ← hi.length_body] at hp
  have hle := limit_le_of_mem_placeTags hp
  rw [region, encode_eq, List.length_append, if_pos hle, slice_of_mem_placeTags hp]

theorem push_of_lt {g : Gather} (h : g.segments.toList.length < gatherCapacity) (b : Bytes) :
    ∃ m, g.push b = .ok m ∧ m.segments.toList = g.segments.toList ++ [b] := by
  obtain ⟨segments, hpush, hsegments⟩ := BoundedList.push?_of_lt h b
  refine ⟨⟨segments⟩, ?_, hsegments⟩
  rw [Gather.push, hpush]

/-- Appends the region of an index entry. -/
def gatherEntry (i : BootImage) (g : Gather) (e : IndexEntry) : Except Fault Gather := do
  let segment ← i.region e.offset e.size
  g.push segment

theorem signedMessage_eq (i : BootImage) (x : SignedIndex) :
    i.signedMessage x = x.entries.toList.foldlM i.gatherEntry (.single i.body) := rfl

theorem foldlM_gatherEntry {i : BootImage} (hi : i.WellFormed) {ps : List PlacedTag}
    (hp : ∀ p ∈ ps, p ∈ i.placedTags) {g : Gather}
    (h : g.segments.toList.length + ps.length ≤ gatherCapacity) :
    ∃ m, (ps.map indexEntry).foldlM i.gatherEntry g = .ok m ∧
      m.segments.toList = g.segments.toList ++ ps.map (·.tag.encode) := by
  induction ps generalizing g with
  | nil => exact ⟨g, rfl, by simp⟩
  | cons p ps ih =>
    rw [List.length_cons] at h
    obtain ⟨y, hy, hys⟩ := push_of_lt (g := g) (by omega) p.tag.encode
    have hlen : y.segments.toList.length + ps.length ≤ gatherCapacity := by
      rw [hys, List.length_append, List.length_singleton]
      omega
    obtain ⟨m, hm, hms⟩ := ih (fun q hq => hp q (by simp [hq])) hlen
    have hstep : i.gatherEntry g (indexEntry p) = .ok y := by
      change i.region p.offset p.size >>= g.push = _
      rw [region_of_mem hi (hp p (by simp))]
      exact hy
    refine ⟨m, ?_, ?_⟩
    · rw [List.map_cons, List.foldlM_cons, hstep]
      exact hm
    · rw [hms, hys, List.map_cons, List.append_assoc, List.singleton_append]

/-- The message for the index of a well-formed image can always be gathered. -/
theorem exists_signedMessage {i : BootImage} (hi : i.WellFormed) {x : SignedIndex}
    (hx : i.signedIndex = .ok x) :
    ∃ m, i.signedMessage x = .ok m ∧
      m.segments.toList = i.body :: i.signedTags.map Tag.encode ∧ m.bytes = i.message := by
  obtain ⟨hle, -, hentries⟩ := of_signedIndex_eq_ok hx
  have hlen : (Gather.single i.body).segments.toList.length + i.placedSigned.length ≤
      gatherCapacity := by
    rw [length_placedSigned]
    exact Nat.add_le_add_left hle 1
  obtain ⟨m, hm, hms⟩ := foldlM_gatherEntry hi (fun p hp => (List.mem_filter.mp hp).1) hlen
  have hsegments : m.segments.toList = i.body :: i.signedTags.map Tag.encode := by
    rw [hms, ← map_tag_placedSigned, List.map_map]
    rfl
  refine ⟨m, ?_, hsegments, ?_⟩
  · rw [signedMessage_eq, hentries]
    exact hm
  · rw [Gather.bytes, hsegments, message, encodeTags_eq_flatten, List.flatten_cons]

theorem bytes_of_signedMessage {i : BootImage} (hi : i.WellFormed) {x : SignedIndex}
    {m : Gather} (hx : i.signedIndex = .ok x) (hm : i.signedMessage x = .ok m) :
    m.bytes = i.message := by
  obtain ⟨n, hn, -, hbytes⟩ := exists_signedMessage hi hx
  rw [hm] at hn
  cases hn
  exact hbytes

theorem length_body_add_length_tags {i : BootImage} (hi : i.WellFormed) :
    i.trailerOffset + (encodeTags i.tags).length = i.totalLength := by
  rw [← hi.length_body, ← hi.length_encode, encode_eq, List.length_append]

theorem length_message_le {i : BootImage} (hi : i.WellFormed) :
    i.message.length ≤ i.totalLength := by
  rw [message, List.length_append, hi.length_body, ← length_body_add_length_tags hi,
    length_encodeTags i.tags]
  exact Nat.add_le_add_left (Nat.le_add_right _ _) _

theorem length_message_lt {i : BootImage} (hi : i.WellFormed) : i.message.length < 2 ^ 64 := by
  have hle := length_message_le hi
  have htotal : i.totalLength < 2 ^ 32 := i.header.totalLength.toNat_lt
  omega

theorem length_bytes_lt {i : BootImage} (hi : i.WellFormed) {m : Gather}
    (h : m.bytes = i.message) : m.bytes.length < 2 ^ 64 := by
  rw [h]
  exact length_message_lt hi

end BootImage

end SignedBoot
