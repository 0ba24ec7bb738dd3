import Mathlib
import SignedBoot.Proofs.Container.Coverage
import SignedBoot.Proofs.Container.Framing

/-!
# Messages have one reading

The segments of a signed message are joined without a separator. The header fixes the length of
the descriptor, the descriptor fixes where the payload ends, and the opening octets of a tag fix
its length, so the message determines everything that is signed and how many tags are not.
-/

namespace SignedBoot

namespace BootImage

/-- Equal messages come from equal signed parts. -/
theorem signed_parts_of_message_eq {i j : BootImage} (hi : i.WellFormed) (hj : j.WellFormed)
    (h : i.message = j.message) :
    i.header = j.header ∧ i.descriptor = j.descriptor ∧ i.payload = j.payload ∧
      i.signedTags = j.signedTags :=
  hi.framed.parts_eq hj.framed h

theorem length_signatureTags_eq {i j : BootImage} (hi : i.WellFormed) (hj : j.WellFormed)
    (h : i.message = j.message) : i.signatureTags.length = j.signatureTags.length := by
  obtain ⟨hheader, hdescriptor, -, htags⟩ := signed_parts_of_message_eq hi hj h
  have h1 := length_body_add_length_tags hi
  have h2 := length_body_add_length_tags hj
  have htrailer : i.trailerOffset = j.trailerOffset := by
    rw [trailerOffset, trailerOffset, hdescriptor]
  have htotal : i.totalLength = j.totalLength := by
    rw [totalLength, totalLength, hheader]
  have hsigned : encodeTags (i.tags.filter (·.kind.isSigned)) =
      encodeTags (j.tags.filter (·.kind.isSigned)) := congrArg encodeTags htags
  rw [length_encodeTags, hsigned, htrailer, htotal, ← h2, length_encodeTags j.tags] at h1
  have hmul : TagKind.signature.byteSize * i.signatureTags.length =
      TagKind.signature.byteSize * j.signatureTags.length :=
    Nat.add_left_cancel (Nat.add_left_cancel h1)
  exact Nat.eq_of_mul_eq_mul_left (by decide) hmul

/-- The octets of the signed tags, each in its place. -/
theorem map_slice_placedSigned {i : BootImage} (hi : i.WellFormed) :
    (i.placedSigned.map fun p => slice i.encode p.offset p.size) =
      i.signedTags.map Tag.encode := by
  rw [← map_tag_placedSigned, List.map_map]
  apply List.map_congr_left
  intro p hp
  exact slice_encode_of_mem hi (List.mem_filter.mp hp).1

/-- Two images agree in everything that the signature covers, octet for octet. -/
structure SameSigned (a b : Bytes) (i j : BootImage) : Prop where
  header : a.take Header.byteSize = b.take Header.byteSize
  length : a.length = b.length
  trailerOffset : i.trailerOffset = j.trailerOffset
  entries : i.descriptor.entries = j.descriptor.entries
  payload : i.payload = j.payload
  /-- Header, descriptor region and payload as they stand. -/
  body : a.take i.trailerOffset = b.take j.trailerOffset
  signedTags : (i.placedSigned.map fun p => slice a p.offset p.size) =
    j.placedSigned.map fun p => slice b p.offset p.size
  signatures : i.signatureTags.length = j.signatureTags.length

theorem sameSigned_of_message_eq {i j : BootImage} (hi : i.WellFormed) (hj : j.WellFormed)
    (h : i.message = j.message) : SameSigned i.encode j.encode i j := by
  obtain ⟨hheader, hdescriptor, hpayload, htags⟩ := signed_parts_of_message_eq hi hj h
  have htake : ∀ k : BootImage, k.encode.take Header.byteSize = k.header.encode := by
    intro k
    rw [encode_eq, body, List.append_assoc, ← Header.length_encode k.header, List.take_left]
  have hbody : i.body = j.body := by
    rw [body, body, hheader, hdescriptor, hpayload]
  refine ⟨?_, ?_, ?_, ?_, hpayload, ?_, ?_, length_signatureTags_eq hi hj h⟩
  · rw [htake, htake, hheader]
  · rw [hi.length_encode, hj.length_encode, totalLength, totalLength, hheader]
  · rw [trailerOffset, trailerOffset, hdescriptor]
  · rw [hdescriptor]
  · rw [← hi.length_body, ← hj.length_body, encode_eq, encode_eq, List.take_left, List.take_left,
      hbody]
  · rw [map_slice_placedSigned hi, map_slice_placedSigned hj, htags]

/-- No two accepted images with different signed content share a signed message, whatever
carriers they are accepted under. -/
theorem signed_content_unique {a b : Bytes} {ca cb : Carrier} {i j : BootImage}
    {x y : SignedIndex} (ha : parse a ca = .ok i) (hb : parse b cb = .ok j)
    (hx : i.signedIndex = .ok x) (hy : j.signedIndex = .ok y) :
    ∃ m n, i.signedMessage x = .ok m ∧ j.signedMessage y = .ok n ∧
      (m.bytes = n.bytes → SameSigned a b i j) := by
  obtain ⟨hi, -, rfl⟩ := parse_eq_ok_iff.mp ha
  obtain ⟨hj, -, rfl⟩ := parse_eq_ok_iff.mp hb
  obtain ⟨m, hm, -, hmb⟩ := exists_signedMessage hi hx
  obtain ⟨n, hn, -, hnb⟩ := exists_signedMessage hj hy
  refine ⟨m, n, hm, hn, ?_⟩
  intro h
  rw [hmb, hnb] at h
  exact sameSigned_of_message_eq hi hj h

/-- Signature tags may be shifted about and replaced without a change to the message. -/
theorem message_ofTags_eq {ts us : List Tag}
    (h : ts.filter (·.kind.isSigned) = us.filter (·.kind.isSigned))
    (hs : (ts.filterMap Tag.signature?).length = (us.filterMap Tag.signature?).length) :
    (ofTags ts).message = (ofTags us).message := by
  have hl : (encodeTags ts).length = (encodeTags us).length := by
    rw [length_encodeTags, length_encodeTags us, h, hs]
  simp only [message, body, signedTags, ofTags, h, hl]

/-- The signed tag of `mixedTrailer` behind the signature tags. -/
def rearrangedTrailer : List Tag :=
  [.signature ⟨.filled 256 0x77⟩, .signature ⟨.zero 256⟩, .key someKey]

theorem parse_rearrangedTrailer :
    parse (ofTags rearrangedTrailer).encode .unbounded = .ok (ofTags rearrangedTrailer) :=
  parse_ofTags_of_few (by simp [rearrangedTrailer, Tag.WellFormed, wellFormed_someKey]) (by decide)

theorem rearranged_trailer_has_same_signed_content :
    ∃ x y m n, parse (ofTags mixedTrailer).encode .unbounded = .ok (ofTags mixedTrailer) ∧
      parse (ofTags rearrangedTrailer).encode .unbounded = .ok (ofTags rearrangedTrailer) ∧
      (ofTags mixedTrailer).signedIndex = .ok x ∧
      (ofTags rearrangedTrailer).signedIndex = .ok y ∧
      (ofTags mixedTrailer).signedMessage x = .ok m ∧
      (ofTags rearrangedTrailer).signedMessage y = .ok n ∧ m.bytes = n.bytes ∧
      SameSigned (ofTags mixedTrailer).encode (ofTags rearrangedTrailer).encode
        (ofTags mixedTrailer) (ofTags rearrangedTrailer) := by
  obtain ⟨x, hx, -⟩ := signedIndex_of_le (i := ofTags mixedTrailer) (by decide)
  obtain ⟨y, hy, -⟩ := signedIndex_of_le (i := ofTags rearrangedTrailer) (by decide)
  have hi := (wellFormed_of_parse parse_mixedTrailer).1
  have hj := (wellFormed_of_parse parse_rearrangedTrailer).1
  obtain ⟨m, n, hm, hn, hsame⟩ :=
    signed_content_unique parse_mixedTrailer parse_rearrangedTrailer hx hy
  have hmessage : (ofTags mixedTrailer).message = (ofTags rearrangedTrailer).message :=
    message_ofTags_eq rfl rfl
  have hbytes : m.bytes = n.bytes := by
    rw [bytes_of_signedMessage hi hx hm, bytes_of_signedMessage hj hy hn, hmessage]
  exact ⟨x, y, m, n, parse_mixedTrailer, parse_rearrangedTrailer, hx, hy, hm, hn, hbytes,
    hsame hbytes⟩

end BootImage

end SignedBoot
