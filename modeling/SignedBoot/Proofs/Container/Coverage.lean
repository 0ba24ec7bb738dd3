import Mathlib
import SignedBoot.Proofs.Container.SignedMessage

/-!
# What the signature covers

The signed message holds every octet of an image that is outside its signature tags, once and in
image order. A signature tag has one written form for each signature.
-/

namespace SignedBoot

/-- The octets of `b` at the positions that satisfy a condition, in order. Positions are counted
from `start`. -/
def octetsAt (b : Bytes) (start : Nat) (q : Nat → Bool) : Bytes :=
  ((b.zipIdx start).filter fun x => q x.2).map Prod.fst

theorem octetsAt_append (a b : Bytes) (start : Nat) (q : Nat → Bool) :
    octetsAt (a ++ b) start q = octetsAt a start q ++ octetsAt b (start + a.length) q := by
  simp only [octetsAt, List.zipIdx_append, List.filter_append, List.map_append]

theorem octetsAt_congr {b : Bytes} {start : Nat} {q r : Nat → Bool}
    (h : ∀ n, start ≤ n → n < start + b.length → q n = r n) :
    octetsAt b start q = octetsAt b start r := by
  rw [octetsAt, octetsAt]
  congr 1
  apply List.filter_congr
  rintro ⟨x, n⟩ hx
  exact h n (List.le_snd_of_mem_zipIdx hx) (List.snd_lt_add_of_mem_zipIdx hx)

theorem octetsAt_true (b : Bytes) (start : Nat) : octetsAt b start (fun _ => true) = b := by
  simp [octetsAt]

theorem octetsAt_false (b : Bytes) (start : Nat) : octetsAt b start (fun _ => false) = [] := by
  simp [octetsAt]

/-- Some signature tag among the placed tags covers the position. -/
def inSignature (ps : List PlacedTag) (n : Nat) : Bool :=
  ps.any fun p => p.kind = .signature ∧ p.offset ≤ n ∧ n < p.offset + p.size

theorem inSignature_eq_false_of_lt {offset n : Nat} (ts : List Tag) (h : n < offset) :
    inSignature (placeTags offset ts) n = false := by
  apply List.any_eq_false.mpr
  intro p hp
  have hle := offset_le_of_mem_placeTags hp
  simp only [decide_eq_true_eq]
  omega

theorem TagKind.isSigned_eq_false_iff (kind : TagKind) :
    kind.isSigned = false ↔ kind = .signature := by
  cases kind <;> decide

/-- On the octets of the first tag only that tag counts. -/
theorem inSignature_cons_of_lt {offset n : Nat} (t : Tag) (ts : List Tag) (h1 : offset ≤ n)
    (h2 : n < offset + t.byteSize) :
    inSignature (placeTags offset (t :: ts)) n = !t.kind.isSigned := by
  have hrest := inSignature_eq_false_of_lt ts h2
  have hs : (⟨offset, t⟩ : PlacedTag).size = t.byteSize := rfl
  have hk : (⟨offset, t⟩ : PlacedTag).kind = t.kind := rfl
  rw [inSignature] at hrest
  rw [inSignature, placeTags, List.any_cons, hrest, Bool.or_false, hs, hk]
  cases hi : t.kind.isSigned with
  | false =>
    rw [TagKind.isSigned_eq_false_iff] at hi
    simp [hi, h1, h2]
  | true =>
    have hne : t.kind ≠ .signature := by
      intro he
      rw [he] at hi
      cases hi
    simp [hne]

/-- Behind the first tag it does not count. -/
theorem inSignature_cons_of_le {offset n : Nat} (t : Tag) (ts : List Tag)
    (h : offset + t.byteSize ≤ n) :
    inSignature (placeTags offset (t :: ts)) n =
      inSignature (placeTags (offset + t.byteSize) ts) n := by
  have hs : (⟨offset, t⟩ : PlacedTag).size = t.byteSize := rfl
  rw [inSignature, placeTags, List.any_cons, hs]
  have hn : ¬ n < offset + t.byteSize := not_lt.mpr h
  simp [hn, inSignature]

/-- Without the positions of signature tags a trailer is its signed tags in a row. -/
theorem octetsAt_encodeTags (offset : Nat) (ts : List Tag) :
    octetsAt (encodeTags ts) offset (fun n => !inSignature (placeTags offset ts) n) =
      encodeTags (ts.filter (·.kind.isSigned)) := by
  induction ts generalizing offset with
  | nil => rfl
  | cons t ts ih =>
    have hhead : octetsAt t.encode offset (fun n => !inSignature (placeTags offset (t :: ts)) n) =
        if t.kind.isSigned then t.encode else [] := by
      rw [octetsAt_congr (r := fun _ => t.kind.isSigned)]
      · cases t.kind.isSigned
        · exact octetsAt_false _ _
        · exact octetsAt_true _ _
      · intro n h1 h2
        rw [Tag.length_encode] at h2
        rw [inSignature_cons_of_lt t ts h1 h2, Bool.not_not]
    have htail : octetsAt (encodeTags ts) (offset + t.byteSize)
        (fun n => !inSignature (placeTags offset (t :: ts)) n) =
          encodeTags (ts.filter (·.kind.isSigned)) := by
      rw [← ih (offset + t.byteSize)]
      apply octetsAt_congr
      intro n h1 _
      rw [inSignature_cons_of_le t ts h1]
    rw [encodeTags_cons, octetsAt_append, Tag.length_encode, hhead, htail, List.filter_cons]
    split <;> rfl

/-- The written form of the signature tag for a signature. -/
def signatureTagBytes (body : Block 256) : Bytes :=
  (TagHeader.ofKind .signature 0 0).encode ++ (word32 256 ++ (body.bytes ++
    List.replicate 0x2c 0))

/-- Only the positions of the middle part depend on it. -/
theorem getElem?_append_middle {front mid mid' back : Bytes} (hm : mid.length = mid'.length)
    {n : Nat} (h : n < front.length ∨ front.length + mid.length ≤ n) :
    (front ++ (mid ++ back))[n]? = (front ++ (mid' ++ back))[n]? := by
  rcases h with h | h
  · rw [List.getElem?_append_left h, List.getElem?_append_left h]
  · have hf : front.length ≤ n := by omega
    rw [List.getElem?_append_right hf, List.getElem?_append_right hf,
      List.getElem?_append_right (by omega), List.getElem?_append_right (by omega), hm]

/-- Outside the signature all written forms agree. -/
theorem getElem?_signatureTagBytes (s t : Block 256) {n : Nat} (h : n < 0x10 ∨ 0x110 ≤ n) :
    (signatureTagBytes s)[n]? = (signatureTagBytes t)[n]? := by
  have hl : ((TagHeader.ofKind .signature 0 0).encode ++ word32 256).length = 0x10 := by
    simp [TagHeader.byteSize]
  have hsplit : ∀ u : Block 256, signatureTagBytes u =
      ((TagHeader.ofKind .signature 0 0).encode ++ word32 256) ++ (u.bytes ++
        List.replicate 0x2c 0) := by
    intro u
    rw [signatureTagBytes, List.append_assoc]
  rw [hsplit s, hsplit t]
  apply getElem?_append_middle
  · rw [s.length_bytes, t.length_bytes]
  · rw [hl, s.length_bytes]
    exact h

namespace BootImage

theorem octetsAt_encode {i : BootImage} (hi : i.WellFormed) :
    octetsAt i.encode 0 (fun n => !inSignature i.placedTags n) = i.message := by
  have hbody : octetsAt i.body 0 (fun n => !inSignature i.placedTags n) = i.body := by
    rw [octetsAt_congr (r := fun _ => true)]
    · exact octetsAt_true _ _
    · intro n _ h
      rw [Nat.zero_add, hi.length_body] at h
      rw [placedTags, inSignature_eq_false_of_lt i.tags h, Bool.not_false]
  rw [encode_eq, octetsAt_append, hbody, Nat.zero_add, hi.length_body, placedTags,
    octetsAt_encodeTags]
  rfl

theorem slice_encode_of_mem {i : BootImage} (hi : i.WellFormed) {p : PlacedTag}
    (hp : p ∈ i.placedTags) : slice i.encode p.offset p.size = p.tag.encode := by
  rw [placedTags, ← hi.length_body] at hp
  exact slice_of_mem_placeTags hp

/-- The walk over the octets of an image finds its tags in their places. -/
theorem tags_start_encode {i : BootImage} (hi : i.WellFormed) :
    (TagCursor.start i.encode i.trailerOffset).tags = .ok i.placedTags := by
  rw [TagCursor.start, encode_eq, ← hi.length_body, List.drop_left,
    TagCursor.tags_encodeTags hi.tags, placedTags, hi.length_body]

/-- The message for an index holds all octets of the image but those of its signature tags, each
once and in image order, and a signature tag has the one written form of its signature. -/
structure CoveredBut (b : Bytes) (i : BootImage) (x : SignedIndex) : Prop where
  message : ∃ m, i.signedMessage x = .ok m ∧
    m.bytes = octetsAt b 0 fun n => !inSignature i.placedTags n
  /-- The tags are those of a walk over the trailer. -/
  walk : (TagCursor.start b i.trailerOffset).tags = .ok i.placedTags
  canonical : ∀ p ∈ i.placedTags, p.kind = .signature →
    ∃ body : Block 256, p.tag = .signature ⟨body⟩ ∧
      slice b p.offset p.size = signatureTagBytes body
  /-- All but the signature is the same in every signature tag of every image. -/
  fixed : ∀ p ∈ i.placedTags, p.kind = .signature →
    ∀ n < p.size, (n < 0x10 ∨ 0x110 ≤ n) →
      b[p.offset + n]? = (signatureTagBytes (.zero 256))[n]?

theorem canonical_of_mem {i : BootImage} (hi : i.WellFormed) {p : PlacedTag}
    (hp : p ∈ i.placedTags) (hk : p.kind = .signature) :
    ∃ body : Block 256, p.tag = .signature ⟨body⟩ ∧
      slice i.encode p.offset p.size = signatureTagBytes body := by
  have hslice := slice_encode_of_mem hi hp
  obtain ⟨offset, tag⟩ := p
  cases tag with
  | layout t => cases hk
  | key t => cases hk
  | signature t => exact ⟨t.signature, rfl, hslice⟩

/-- The signature of an accepted image leaves out its signature tags and nothing else. -/
theorem signedMessage_covers_all_but_signatures {b : Bytes} {carrier : Carrier} {i : BootImage}
    {x : SignedIndex} (hparse : parse b carrier = .ok i) (hindex : i.signedIndex = .ok x) :
    CoveredBut b i x := by
  obtain ⟨hi, -, rfl⟩ := parse_eq_ok_iff.mp hparse
  refine ⟨?_, tags_start_encode hi, fun p hp hk => canonical_of_mem hi hp hk, ?_⟩
  · obtain ⟨m, hm, -, hbytes⟩ := exists_signedMessage hi hindex
    exact ⟨m, hm, by rw [hbytes, octetsAt_encode hi]⟩
  · intro p hp hk n hn hout
    obtain ⟨body, -, hform⟩ := canonical_of_mem hi hp hk
    rw [getElem?_signatureTagBytes (.zero 256) body hout, ← hform, slice,
      List.getElem?_take_of_lt hn, List.getElem?_drop]

/-- A trailer in which a signed tag stands between signature tags. -/
def mixedTrailer : List Tag :=
  [.signature ⟨.zero 256⟩, .key someKey, .signature ⟨.filled 256 0x5a⟩]

theorem parse_mixedTrailer :
    parse (ofTags mixedTrailer).encode .unbounded = .ok (ofTags mixedTrailer) :=
  parse_ofTags_of_few (by simp [mixedTrailer, Tag.WellFormed, wellFormed_someKey]) (by decide)

theorem signedMessage_covers_mixed_trailer :
    ∃ x, parse (ofTags mixedTrailer).encode .unbounded = .ok (ofTags mixedTrailer) ∧
      (ofTags mixedTrailer).signedIndex = .ok x ∧
      CoveredBut (ofTags mixedTrailer).encode (ofTags mixedTrailer) x := by
  obtain ⟨x, hx, -⟩ := signedIndex_of_le (i := ofTags mixedTrailer) (by decide)
  exact ⟨x, parse_mixedTrailer, hx,
    signedMessage_covers_all_but_signatures parse_mixedTrailer hx⟩

end BootImage

end SignedBoot
