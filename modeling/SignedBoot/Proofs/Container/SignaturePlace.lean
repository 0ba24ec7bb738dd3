import Mathlib
import SignedBoot.Proofs.Container.Unambiguity

/-!
# The place of the signature tag

A trailer has no fixed order, and the signature does not cover its own tag. An image with one
signature tag is determined by its message, its signature and the offset of that tag: moving the
tag to another place between the signed tags gives another image with the same message.
-/

namespace SignedBoot

theorem Tag.isSigned_of_signature?_eq_none {t : Tag} (h : t.signature? = none) :
    t.kind.isSigned = true := by
  cases t with
  | layout t => rfl
  | key t => rfl
  | signature t => cases h

theorem Tag.eq_of_signature?_eq_some {t : Tag} {s : SignatureTag} (h : t.signature? = some s) :
    t = .signature s := by
  cases t with
  | layout t => cases h
  | key t => cases h
  | signature t =>
    cases h
    rfl

/-- Two splits of one list of tags at the same number of octets are the same split. -/
theorem split_unique {front back front' back' : List Tag}
    (h : front ++ back = front' ++ back')
    (hl : (encodeTags front).length = (encodeTags front').length) :
    front = front' ∧ back = back' := by
  have hnil : ∀ ts : List Tag, (encodeTags ts).length = 0 → ts = [] := by
    intro ts hts
    cases ts with
    | nil => rfl
    | cons t ts =>
      have hk := t.kind.byteSize_ge
      rw [encodeTags_cons, List.length_append, Tag.length_encode, Tag.byteSize] at hts
      omega
  rcases List.append_eq_append_iff.mp h with ⟨mid, rfl, rfl⟩ | ⟨mid, rfl, rfl⟩
  · rw [encodeTags_append, List.length_append] at hl
    rw [hnil mid (by omega)]
    simp
  · rw [encodeTags_append, List.length_append] at hl
    rw [hnil mid (by omega)]
    simp

/-- The octets of a byte string without those of a region. -/
def cutOut (b : Bytes) (offset size : Nat) : Bytes := b.take offset ++ b.drop (offset + size)

theorem cutOut_append (front mid back : Bytes) :
    cutOut (front ++ (mid ++ back)) front.length mid.length = front ++ back := by
  rw [cutOut, List.take_left, ← List.append_assoc, ← List.length_append, List.drop_left]

namespace BootImage

/-- The signed tags in front of the first signature tag. -/
def leadingTags (i : BootImage) : List Tag := i.tags.takeWhile (·.kind.isSigned)

/-- The one signature tag of an image splits its signed tags. -/
theorem tags_split {i : BootImage} {s : SignatureTag} (h : i.signatureTags = [s]) :
    ∃ back, i.tags = i.leadingTags ++ .signature s :: back ∧
      i.signedTags = i.leadingTags ++ back := by
  obtain ⟨front, t, back, htags, hfront, ht, hback⟩ := List.filterMap_eq_cons_iff.mp h
  have ht := Tag.eq_of_signature?_eq_some ht
  subst ht
  have hback := List.filterMap_eq_nil_iff.mp hback
  have hf : ∀ t ∈ front, t.kind.isSigned = true :=
    fun t hm => Tag.isSigned_of_signature?_eq_none (hfront t hm)
  have hb : ∀ t ∈ back, t.kind.isSigned = true :=
    fun t hm => Tag.isSigned_of_signature?_eq_none (hback t hm)
  have hs : ¬ (Tag.signature s).kind.isSigned = true := Bool.false_ne_true
  have hlead : i.leadingTags = front := by
    rw [leadingTags, htags, List.takeWhile_append_of_pos hf, List.takeWhile_cons, if_neg hs,
      List.append_nil]
  refine ⟨back, by rw [hlead, htags], ?_⟩
  rw [hlead, signedTags, htags, List.filter_append, List.filter_cons, if_neg hs,
    List.filter_eq_self.mpr hf, List.filter_eq_self.mpr hb]

/-- The one signature tag of an image, in its place. -/
def signaturePlace (i : BootImage) (s : SignatureTag) : PlacedTag :=
  ⟨i.trailerOffset + (encodeTags i.leadingTags).length, .signature s⟩

theorem signaturePlace_mem {i : BootImage} {s : SignatureTag} (h : i.signatureTags = [s]) :
    i.signaturePlace s ∈ i.placedTags := by
  obtain ⟨back, htags, -⟩ := tags_split h
  exact mem_placeTags_iff.mpr ⟨i.leadingTags, back, htags, rfl⟩

/-- Without its signature tag an image is its message. -/
theorem cutOut_signaturePlace {i : BootImage} (hi : i.WellFormed) {s : SignatureTag}
    (h : i.signatureTags = [s]) :
    cutOut i.encode (i.signaturePlace s).offset (i.signaturePlace s).size = i.message := by
  obtain ⟨back, htags, hsigned⟩ := tags_split h
  have hoffset : (i.signaturePlace s).offset = (i.body ++ encodeTags i.leadingTags).length := by
    rw [List.length_append, hi.length_body]
    rfl
  have hsize : (i.signaturePlace s).size = (Tag.signature s).encode.length := by
    rw [Tag.length_encode]
    rfl
  have hencode : i.encode = (i.body ++ encodeTags i.leadingTags) ++
      ((Tag.signature s).encode ++ encodeTags back) := by
    rw [encode_eq, htags, encodeTags_append, encodeTags_cons, List.append_assoc]
  rw [hoffset, hsize, hencode, cutOut_append, message, hsigned, encodeTags_append,
    List.append_assoc]

theorem eq_of_signaturePlace_eq {i j : BootImage} (hi : i.WellFormed) (hj : j.WellFormed)
    {s : SignatureTag} (his : i.signatureTags = [s]) (hjs : j.signatureTags = [s])
    (h : i.message = j.message)
    (hplace : (i.signaturePlace s).offset = (j.signaturePlace s).offset) : i = j := by
  obtain ⟨hheader, hdescriptor, hpayload, hsigned⟩ := signed_parts_of_message_eq hi hj h
  obtain ⟨back, htags, hsplit⟩ := tags_split his
  obtain ⟨back', htags', hsplit'⟩ := tags_split hjs
  have htrailer : i.trailerOffset = j.trailerOffset := by
    rw [trailerOffset, trailerOffset, hdescriptor]
  have hl : (encodeTags i.leadingTags).length = (encodeTags j.leadingTags).length := by
    simp only [signaturePlace, htrailer] at hplace
    exact Nat.add_left_cancel hplace
  obtain ⟨hfront, hback⟩ := split_unique (hsplit.symm.trans (hsigned.trans hsplit')) hl
  have htag : i.tags = j.tags := by
    rw [htags, htags', hfront, hback]
  cases i
  cases j
  simp only at hheader hdescriptor hpayload htag
  rw [hheader, hdescriptor, hpayload, htag]

/-- Of two accepted images with equal messages and the same signature, each in a single tag, the
one is the other with the signature tag moved, if at all: without that tag they are equal, and
they are equal as they stand exactly when the tag has the same offset in both. -/
theorem image_unique_up_to_signature_place {a b : Bytes} {ca cb : Carrier} {i j : BootImage}
    {s : SignatureTag} (ha : parse a ca = .ok i) (hb : parse b cb = .ok j)
    (hi4 : i.signedTags.length ≤ indexCapacity) (hj4 : j.signedTags.length ≤ indexCapacity)
    (his : i.signatureTags = [s]) (hjs : j.signatureTags = [s]) :
    ∃ x y m n, i.signedIndex = .ok x ∧ j.signedIndex = .ok y ∧
      i.signedMessage x = .ok m ∧ j.signedMessage y = .ok n ∧
      (m.bytes = n.bytes → ∃ p ∈ i.placedTags, ∃ q ∈ j.placedTags,
        p.tag = .signature s ∧ q.tag = .signature s ∧
        cutOut a p.offset p.size = cutOut b q.offset q.size ∧
        (a = b ↔ p.offset = q.offset)) := by
  obtain ⟨hi, -, rfl⟩ := parse_eq_ok_iff.mp ha
  obtain ⟨hj, -, rfl⟩ := parse_eq_ok_iff.mp hb
  obtain ⟨x, hx, -⟩ := signedIndex_of_le hi4
  obtain ⟨y, hy, -⟩ := signedIndex_of_le hj4
  obtain ⟨m, hm, -, hmb⟩ := exists_signedMessage hi hx
  obtain ⟨n, hn, -, hnb⟩ := exists_signedMessage hj hy
  refine ⟨x, y, m, n, hx, hy, hm, hn, ?_⟩
  intro h
  rw [hmb, hnb] at h
  refine ⟨i.signaturePlace s, signaturePlace_mem his, j.signaturePlace s, signaturePlace_mem hjs,
    rfl, rfl, ?_, ?_, ?_⟩
  · rw [cutOut_signaturePlace hi his, cutOut_signaturePlace hj hjs, h]
  · intro he
    rw [hi.framed.encode_inj hj.framed he]
  · intro hplace
    rw [eq_of_signaturePlace_eq hi hj his hjs h hplace]

/-- The tags of `keyThenSignature` in the other order. -/
def signatureThenKey : List Tag := [.signature ⟨.filled 256 0x5a⟩, .key someKey]

theorem parse_signatureThenKey :
    parse (ofTags signatureThenKey).encode .unbounded = .ok (ofTags signatureThenKey) :=
  parse_ofTags_of_few (by simp [signatureThenKey, Tag.WellFormed, wellFormed_someKey]) (by decide)

theorem bytes_eq_of_moved {x y : SignedIndex} {m n : Gather}
    (hx : (ofTags keyThenSignature).signedIndex = .ok x)
    (hy : (ofTags signatureThenKey).signedIndex = .ok y)
    (hm : (ofTags keyThenSignature).signedMessage x = .ok m)
    (hn : (ofTags signatureThenKey).signedMessage y = .ok n) : m.bytes = n.bytes := by
  have hi := (wellFormed_of_parse parse_keyThenSignature).1
  have hj := (wellFormed_of_parse parse_signatureThenKey).1
  have hmessage : (ofTags keyThenSignature).message = (ofTags signatureThenKey).message :=
    message_ofTags_eq rfl rfl
  rw [bytes_of_signedMessage hi hx hm, bytes_of_signedMessage hj hy hn, hmessage]

/-- A signature tag can be moved: two different images are accepted, each with one signature tag
and few signed tags, that have equal messages and the same signature. -/
theorem moved_signature_tag_keeps_message :
    ∃ x y m n, parse (ofTags keyThenSignature).encode .unbounded =
        .ok (ofTags keyThenSignature) ∧
      parse (ofTags signatureThenKey).encode .unbounded = .ok (ofTags signatureThenKey) ∧
      (ofTags keyThenSignature).signedTags.length ≤ indexCapacity ∧
      (ofTags signatureThenKey).signedTags.length ≤ indexCapacity ∧
      (ofTags keyThenSignature).signatureTags = [⟨.filled 256 0x5a⟩] ∧
      (ofTags signatureThenKey).signatureTags = [⟨.filled 256 0x5a⟩] ∧
      (ofTags keyThenSignature).signedIndex = .ok x ∧
      (ofTags signatureThenKey).signedIndex = .ok y ∧
      (ofTags keyThenSignature).signedMessage x = .ok m ∧
      (ofTags signatureThenKey).signedMessage y = .ok n ∧ m.bytes = n.bytes ∧
      (ofTags keyThenSignature).encode ≠ (ofTags signatureThenKey).encode := by
  have hi := (wellFormed_of_parse parse_keyThenSignature).1
  have hj := (wellFormed_of_parse parse_signatureThenKey).1
  obtain ⟨x, hx, -⟩ := signedIndex_of_le (i := ofTags keyThenSignature) (by decide)
  obtain ⟨y, hy, -⟩ := signedIndex_of_le (i := ofTags signatureThenKey) (by decide)
  obtain ⟨m, hm, -⟩ := exists_signedMessage hi hx
  obtain ⟨n, hn, -⟩ := exists_signedMessage hj hy
  refine ⟨x, y, m, n, parse_keyThenSignature, parse_signatureThenKey, by decide, by decide, rfl,
    rfl, hx, hy, hm, hn, bytes_eq_of_moved hx hy hm hn, ?_⟩
  intro h
  have hkey := parse_keyThenSignature
  rw [h, parse_signatureThenKey] at hkey
  have htags := congrArg BootImage.tags (Except.ok.inj hkey)
  injection htags with hhead
  cases hhead

theorem moved_signature_tag_cut_out :
    ∃ p ∈ (ofTags keyThenSignature).placedTags, ∃ q ∈ (ofTags signatureThenKey).placedTags,
      p.tag = .signature ⟨.filled 256 0x5a⟩ ∧ q.tag = .signature ⟨.filled 256 0x5a⟩ ∧
      cutOut (ofTags keyThenSignature).encode p.offset p.size =
        cutOut (ofTags signatureThenKey).encode q.offset q.size ∧
      ((ofTags keyThenSignature).encode = (ofTags signatureThenKey).encode ↔
        p.offset = q.offset) := by
  obtain ⟨x, y, m, n, hx, hy, hm, hn, h⟩ :=
    image_unique_up_to_signature_place parse_keyThenSignature parse_signatureThenKey (by decide)
      (by decide) rfl rfl
  exact h (bytes_eq_of_moved hx hy hm hn)

end BootImage

end SignedBoot
