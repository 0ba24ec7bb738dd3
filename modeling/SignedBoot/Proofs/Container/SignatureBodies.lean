import Mathlib
import SignedBoot.Proofs.Container.Framing
import SignedBoot.Proofs.Container.TrailerScans

/-!
# Images that differ in their signatures

What an image without its signatures determines. Two accepted byte strings that differ only in the
bodies of signature tags are the same image up to its signatures (`BootImage.blank_eq_of_octets`),
and then so is what is indexed, found and gathered in them.
-/

namespace SignedBoot

/-! ### Tags without signatures -/

/-- The tag with a signature of zeros in place of its own. -/
def Tag.blank : Tag → Tag
  | .signature _ => .signature ⟨.zero 256⟩
  | t => t

namespace Tag

@[simp]
theorem kind_blank (t : Tag) : t.blank.kind = t.kind := by cases t <;> rfl

@[simp]
theorem byteSize_blank (t : Tag) : t.blank.byteSize = t.byteSize := by cases t <;> rfl

@[simp]
theorem header_blank (t : Tag) : t.blank.header = t.header := by cases t <;> rfl

@[simp]
theorem key?_blank (t : Tag) : t.blank.key? = t.key? := by cases t <;> rfl

theorem signature?_blank (t : Tag) :
    t.blank.signature? = t.signature?.map fun _ => ⟨.zero 256⟩ := by cases t <;> rfl

theorem blank_of_isSigned {t : Tag} (h : t.kind.isSigned = true) : t.blank = t := by
  cases t with
  | layout t => rfl
  | key t => rfl
  | signature t => cases h

theorem blank_of_kind_eq {t : Tag} (h : t.kind = .signature) :
    t.blank = .signature ⟨.zero 256⟩ := by
  cases t with
  | layout t => cases h
  | key t => cases h
  | signature t => rfl

end Tag

theorem filter_isSigned_map_blank (ts : List Tag) :
    (ts.map Tag.blank).filter (·.kind.isSigned) = ts.filter (·.kind.isSigned) := by
  induction ts with
  | nil => rfl
  | cons t ts ih =>
    by_cases ht : t.kind.isSigned = true
    · simp [ih, ht, Tag.blank_of_isSigned ht]
    · simp [ih, ht]

theorem filter_isSigned_placeTags_map_blank (offset : Nat) (ts : List Tag) :
    (placeTags offset (ts.map Tag.blank)).filter (·.kind.isSigned) =
      (placeTags offset ts).filter (·.kind.isSigned) := by
  induction ts generalizing offset with
  | nil => rfl
  | cons t ts ih =>
    rw [List.map_cons, placeTags, placeTags, t.byteSize_blank, List.filter_cons,
      List.filter_cons, ih]
    by_cases ht : t.kind.isSigned = true
    · rw [Tag.blank_of_isSigned ht]
    · simp [PlacedTag.kind, ht]

theorem Gather.eq_of_toList_eq {m n : Gather} (h : m.segments.toList = n.segments.toList) :
    m = n := by
  rcases m with ⟨⟨l, hl⟩⟩
  rcases n with ⟨⟨k, hk⟩⟩
  simp only at h
  subst h
  rfl

theorem sole_map {τ υ : Type} {missing duplicate : Fault} (f : τ → υ) (l : List τ) :
    sole missing duplicate (l.map f) = (sole missing duplicate l).map f := by
  rcases l with _ | ⟨t, _ | ⟨u, l⟩⟩ <;> rfl

namespace BootImage

/-- The image with zeros in place of its signatures. -/
def blank (i : BootImage) : BootImage := { i with tags := i.tags.map Tag.blank }

@[simp]
theorem header_blank (i : BootImage) : i.blank.header = i.header := rfl

@[simp]
theorem descriptor_blank (i : BootImage) : i.blank.descriptor = i.descriptor := rfl

@[simp]
theorem body_blank (i : BootImage) : i.blank.body = i.body := rfl

@[simp]
theorem signedTags_blank (i : BootImage) : i.blank.signedTags = i.signedTags :=
  filter_isSigned_map_blank i.tags

@[simp]
theorem signedIndex_blank (i : BootImage) : i.blank.signedIndex = i.signedIndex := by
  have hplaced : i.blank.placedSigned = i.placedSigned :=
    filter_isSigned_placeTags_map_blank i.trailerOffset i.tags
  rw [signedIndex_eq, signedIndex_eq, hplaced]
  rfl

@[simp]
theorem keyTag_blank (i : BootImage) : i.blank.keyTag = i.keyTag := by
  have hkeys : i.blank.tags.filterMap Tag.key? = i.tags.filterMap Tag.key? := by
    rw [blank, List.filterMap_map]
    congr 1
    funext t
    exact t.key?_blank
  rw [keyTag_eq_sole, keyTag_eq_sole, hkeys]

theorem signatureTags_blank (i : BootImage) :
    i.blank.signatureTags = i.signatureTags.map fun _ => ⟨.zero 256⟩ := by
  rw [signatureTags, blank, List.filterMap_map, signatureTags, List.map_filterMap]
  congr 1
  funext t
  exact t.signature?_blank

theorem signatureTag_blank (i : BootImage) :
    i.blank.signatureTag = i.signatureTag.map fun _ => ⟨.zero 256⟩ := by
  rw [signatureTag_eq_sole, signatureTag_eq_sole, signatureTags_blank, sole_map]

theorem signedMessage_eq_of_blank_eq {i j : BootImage} (hi : i.WellFormed) (hj : j.WellFormed)
    (h : i.blank = j.blank) {x : SignedIndex} (hx : i.signedIndex = .ok x) :
    i.signedMessage x = j.signedMessage x := by
  have hxj : j.signedIndex = .ok x := by
    rw [← signedIndex_blank, ← h, signedIndex_blank, hx]
  obtain ⟨m, hm, hmsegments, -⟩ := exists_signedMessage hi hx
  obtain ⟨n, hn, hnsegments, -⟩ := exists_signedMessage hj hxj
  have hsegments : m.segments.toList = n.segments.toList := by
    rw [hmsegments, hnsegments, ← i.body_blank, ← i.signedTags_blank, h, j.body_blank,
      j.signedTags_blank]
  rw [hm, hn, Gather.eq_of_toList_eq hsegments]

end BootImage

/-! ### Octets without signatures -/

/-- Some signature tag among the placed tags has the position behind its header. -/
def inSignatureBody (ps : List PlacedTag) (n : Nat) : Bool :=
  ps.any fun p => p.kind = .signature ∧ p.offset + TagHeader.byteSize ≤ n ∧ n < p.offset + p.size

theorem inSignatureBody_eq_false {ps : List PlacedTag} {n : Nat} (h : inSignature ps n = false) :
    inSignatureBody ps n = false := by
  apply List.any_eq_false.mpr
  intro p hp hbody
  have hout := List.any_eq_false.mp h p hp
  simp only [decide_eq_true_eq] at hbody hout
  exact hout ⟨hbody.1, by omega, hbody.2.2⟩

theorem inSignatureBody_cons (t : Tag) (ts : List Tag) (offset n : Nat) :
    inSignatureBody (placeTags offset (t :: ts)) n =
      (decide (t.kind = .signature ∧ offset + TagHeader.byteSize ≤ n ∧ n < offset + t.byteSize) ||
        inSignatureBody (placeTags (offset + t.byteSize) ts) n) := rfl

theorem inSignatureBody_header {offset n : Nat} (t : Tag) (ts : List Tag)
    (h : n < TagHeader.byteSize) :
    inSignatureBody (placeTags offset (t :: ts)) (offset + n) = false := by
  have hsize : TagHeader.byteSize ≤ t.byteSize := t.kind.byteSize_ge.trans' (by decide)
  rw [inSignatureBody_cons,
    inSignatureBody_eq_false (inSignature_eq_false_of_lt ts (by omega))]
  simp
  omega

theorem inSignatureBody_of_isSigned {offset n : Nat} {t : Tag} (ht : t.kind.isSigned = true)
    (ts : List Tag) (h : n < t.byteSize) :
    inSignatureBody (placeTags offset (t :: ts)) (offset + n) = false := by
  apply inSignatureBody_eq_false
  rw [inSignature_cons_of_lt t ts (by omega) (by omega), ht]
  rfl

theorem inSignatureBody_behind (offset n : Nat) (t : Tag) (ts : List Tag) :
    inSignatureBody (placeTags offset (t :: ts)) (offset + (t.byteSize + n)) =
      inSignatureBody (placeTags (offset + t.byteSize) ts) (offset + t.byteSize + n) := by
  rw [inSignatureBody_cons, Nat.add_assoc]
  simp

theorem take_eq_of_getElem?_eq {a b : Bytes} {n : Nat} (h : ∀ k < n, a[k]? = b[k]?) :
    a.take n = b.take n := by
  apply List.ext_getElem?
  intro k
  by_cases hk : k < n
  · rw [List.getElem?_take_of_lt hk, List.getElem?_take_of_lt hk, h k hk]
  · rw [List.getElem?_take_eq_none (not_lt.mp hk), List.getElem?_take_eq_none (not_lt.mp hk)]

theorem TagHeader.encode_inj {h k : TagHeader} (he : h.encode = k.encode) : h = k :=
  (encode_append_inj (congrArg (· ++ []) he)).1

theorem Tag.encode_inj {t u : Tag} (h : t.encode = u.encode) : t = u :=
  (encode_append_inj (congrArg (· ++ []) h)).1

theorem Tag.take_header (t : Tag) (rest : Bytes) :
    (t.encode ++ rest).take TagHeader.byteSize = t.header.encode := by
  rw [encode, List.append_assoc, List.take_left' (TagHeader.length_encode _)]

/-- Two rows of tags with the same octets outside the signature bodies of the first are the same
but for the signatures. -/
theorem map_blank_eq_of_octets {offset : Nat} {ts us : List Tag}
    (hlength : (encodeTags ts).length = (encodeTags us).length)
    (h : ∀ n, inSignatureBody (placeTags offset ts) (offset + n) = false →
      (encodeTags ts)[n]? = (encodeTags us)[n]?) : ts.map Tag.blank = us.map Tag.blank := by
  induction ts generalizing offset us with
  | nil =>
    cases us with
    | nil => rfl
    | cons u us =>
      have hnil := List.length_eq_zero_iff.mp hlength.symm
      exact absurd (List.append_eq_nil_iff.mp hnil).1 u.encode_ne_nil
  | cons t ts ih =>
    cases us with
    | nil =>
      have hnil := List.length_eq_zero_iff.mp hlength
      exact absurd (List.append_eq_nil_iff.mp hnil).1 t.encode_ne_nil
    | cons u us =>
      simp only [encodeTags_cons] at hlength h
      -- the headers agree, so both tags are of one kind and of one size
      have hheader : t.header = u.header := by
        have htake := take_eq_of_getElem?_eq fun k hk => h k (inSignatureBody_header t ts hk)
        rw [t.take_header, u.take_header] at htake
        exact TagHeader.encode_inj htake
      have hkind := Tag.kind_eq_of_header_eq hheader
      have hsize : t.byteSize = u.byteSize := congrArg TagKind.byteSize hkind
      have hhead : t.blank = u.blank := by
        by_cases ht : t.kind.isSigned = true
        · have htake := take_eq_of_getElem?_eq fun k hk =>
            h k (inSignatureBody_of_isSigned ht ts hk)
          rw [List.take_left' t.length_encode, hsize, List.take_left' u.length_encode] at htake
          rw [Tag.encode_inj htake]
        · have hsignature : t.kind = .signature := by
            rw [← TagKind.isSigned_eq_false_iff]
            exact Bool.eq_false_of_not_eq_true ht
          rw [Tag.blank_of_kind_eq hsignature, Tag.blank_of_kind_eq (hkind ▸ hsignature)]
      have hlength' : (encodeTags ts).length = (encodeTags us).length := by
        simp only [List.length_append, Tag.length_encode] at hlength
        omega
      have h' : ∀ n, inSignatureBody (placeTags (offset + t.byteSize) ts)
          (offset + t.byteSize + n) = false → (encodeTags ts)[n]? = (encodeTags us)[n]? := by
        intro n hn
        rw [← inSignatureBody_behind] at hn
        have hoctet := h _ hn
        rw [List.getElem?_append_right (by simp), List.getElem?_append_right (by simp [hsize]),
          t.length_encode, u.length_encode, hsize, Nat.add_sub_cancel_left] at hoctet
        exact hoctet
      rw [List.map_cons, List.map_cons, hhead, ih hlength' h']

/-- The octets of a tag are those of its blank form, but for the body of a signature tag. -/
theorem getElem?_encode_of_blank_eq {t u : Tag} (h : t.blank = u.blank) {n : Nat}
    (hn : t.kind = .signature → n < TagHeader.byteSize) : t.encode[n]? = u.encode[n]? := by
  have hkind : t.kind = u.kind := by rw [← t.kind_blank, h, u.kind_blank]
  by_cases hk : t.kind = .signature
  · have hheader : t.header = u.header := by
      rw [← t.header_blank, h, u.header_blank]
    rw [Tag.encode, Tag.encode, List.getElem?_append_left (by simpa using hn hk),
      List.getElem?_append_left (by simpa using hn hk), hheader]
  · have hsigned : ∀ v : Tag, v.kind = t.kind → v.blank = v := by
      intro v hv
      apply Tag.blank_of_isSigned
      apply Bool.eq_true_of_not_eq_false
      rw [TagKind.isSigned_eq_false_iff, hv]
      exact hk
    rw [← hsigned t rfl, ← hsigned u hkind.symm, h]

theorem octets_eq_of_map_blank_eq {ts us : List Tag} (h : ts.map Tag.blank = us.map Tag.blank)
    (offset : Nat) :
    (encodeTags ts).length = (encodeTags us).length ∧
      ∀ n, inSignatureBody (placeTags offset ts) (offset + n) = false →
        (encodeTags ts)[n]? = (encodeTags us)[n]? := by
  induction ts generalizing offset us with
  | nil =>
    cases us with
    | nil => simp
    | cons u us => cases h
  | cons t ts ih =>
    cases us with
    | nil => cases h
    | cons u us =>
      rw [List.map_cons, List.map_cons, List.cons.injEq] at h
      obtain ⟨hhead, htail⟩ := h
      obtain ⟨hlength, hoctets⟩ := ih htail (offset + t.byteSize)
      have hsize : t.byteSize = u.byteSize := by
        rw [← t.byteSize_blank, hhead, u.byteSize_blank]
      rw [encodeTags_cons, encodeTags_cons]
      constructor
      · rw [List.length_append, List.length_append, hlength, t.length_encode, u.length_encode,
          hsize]
      intro n hn
      by_cases hlt : n < t.byteSize
      · rw [List.getElem?_append_left (by rwa [t.length_encode]),
          List.getElem?_append_left (by rwa [u.length_encode, ← hsize])]
        apply getElem?_encode_of_blank_eq hhead
        intro hk
        by_contra hle
        simp [inSignatureBody_cons, hk, hlt, not_lt.mp hle] at hn
      · obtain ⟨m, rfl⟩ := Nat.exists_eq_add_of_le (not_lt.mp hlt)
        rw [inSignatureBody_behind] at hn
        rw [List.getElem?_append_right (by simp), List.getElem?_append_right (by simp [hsize]),
          t.length_encode, u.length_encode, hsize, Nat.add_sub_cancel_left]
        exact hoctets m hn

namespace BootImage

/-- Of two byte strings of one length, all octets agree that are outside the bodies of the
signature tags of an image. -/
def SameButBodies (i : BootImage) (a b : Bytes) : Prop :=
  a.length = b.length ∧ ∀ n, inSignatureBody i.placedTags n = false → a[n]? = b[n]?

theorem blank_eq_of_octets {i j : BootImage} (hi : i.WellFormed) (hj : j.WellFormed)
    (h : SameButBodies i i.encode j.encode) : i.blank = j.blank := by
  obtain ⟨hlength, hoctets⟩ := h
  have hbody : i.body = j.encode.take i.trailerOffset := by
    have htake := take_eq_of_getElem?_eq fun k hk =>
      hoctets k (inSignatureBody_eq_false (inSignature_eq_false_of_lt i.tags hk))
    rwa [encode_eq i, List.take_left' hi.length_body] at htake
  have hsplit : i.body ++ j.encode.drop i.trailerOffset = j.body ++ encodeTags j.tags := by
    rw [hbody, List.take_append_drop, encode_eq]
  obtain ⟨hheader, hdescriptor, hpayload, hrest⟩ := hi.framed.body_append_inj hj.framed hsplit
  have hencode : j.encode = i.body ++ encodeTags j.tags := by
    rw [← hrest, hbody, List.take_append_drop]
  have htags : i.tags.map Tag.blank = j.tags.map Tag.blank := by
    rw [hencode, encode_eq i] at hlength hoctets
    apply map_blank_eq_of_octets (by simpa using hlength)
    intro n hn
    have hoctet := hoctets _ hn
    rwa [← hi.length_body, List.getElem?_append_right (by simp),
      List.getElem?_append_right (by simp), Nat.add_sub_cancel_left] at hoctet
  rw [blank, blank, htags, hheader, hdescriptor, hpayload]

theorem octets_of_blank_eq {i j : BootImage} (hi : i.WellFormed) (h : i.blank = j.blank) :
    SameButBodies i i.encode j.encode := by
  have htags : i.tags.map Tag.blank = j.tags.map Tag.blank := congrArg tags h
  have hbody : j.body = i.body := by rw [← j.body_blank, ← h, i.body_blank]
  obtain ⟨hlength, hoctets⟩ := octets_eq_of_map_blank_eq htags i.trailerOffset
  rw [encode_eq i, encode_eq j, hbody]
  constructor
  · rw [List.length_append, List.length_append, hlength]
  intro n hn
  by_cases hlt : n < i.body.length
  · rw [List.getElem?_append_left hlt, List.getElem?_append_left hlt]
  · obtain ⟨m, rfl⟩ := Nat.exists_eq_add_of_le (not_lt.mp hlt)
    rw [hi.length_body] at hn
    rw [List.getElem?_append_right (by simp), List.getElem?_append_right (by simp),
      Nat.add_sub_cancel_left]
    exact hoctets m hn

/-- Octets that differ in signature bodies only are those of images that differ in signatures
only. -/
theorem sameButBodies_iff_blank_eq {i j : BootImage} (hi : i.WellFormed) (hj : j.WellFormed) :
    SameButBodies i i.encode j.encode ↔ i.blank = j.blank :=
  ⟨blank_eq_of_octets hi hj, octets_of_blank_eq hi⟩

theorem blank_ofTags_eq {ts us : List Tag} (h : ts.map Tag.blank = us.map Tag.blank) :
    (ofTags ts).blank = (ofTags us).blank := by
  obtain ⟨hlength, -⟩ := octets_eq_of_map_blank_eq h 0
  simp only [blank, ofTags, hlength, h]

end BootImage

end SignedBoot
