import Mathlib
import SignedBoot.Proofs.Container.Format

/-!
# Octets determine an image

Encoding loses nothing, also where a part breaks its own rules: an image whose parts have the
lengths that its header and its descriptor declare is the only such image with its octets. Parsing
can therefore yield no other image, and whether it yields this one depends on the rules alone
(`BootImage.Framed.parse_encode_eq_ok_iff`).
-/

namespace SignedBoot

/-! ### Tags -/

theorem LayoutTag.encodeBody_append_inj {t u : LayoutTag} {r s : Bytes}
    (h0 : t.reserved0 = u.reserved0) (h1 : t.reserved1 = u.reserved1)
    (h : t.encodeBody ++ r = u.encodeBody ++ s) : t = u ∧ r = s := by
  have hread : ∀ (v : LayoutTag) (x : Bytes), readFields? (v.encodeBody ++ x) =
      some (v.typeWord, v.window, (v.region.mode.word, v.region.count, v.region.entries), x) := by
    intro v x
    rw [readFields?_eq_some_iff]
    simp only [encodeBody, RegionBlock.encode, List.append_assoc]
  have hsame := hread t r
  rw [h, hread u s] at hsame
  simp only [Option.some.injEq, Prod.mk.injEq] at hsame
  obtain ⟨htype, hwindow, ⟨hmode, hcount, hentries⟩, hrest⟩ := hsame
  have hmode : u.region.mode = t.region.mode := by
    have hword := RegionMode.ofWord?_eq_some_iff.mpr hmode
    rw [RegionMode.ofWord?_eq_some_iff.mpr rfl] at hword
    exact Option.some.inj hword
  exact ⟨LayoutTag.ext h0 h1 htype.symm hwindow.symm
    (RegionBlock.ext hmode.symm hcount.symm hentries.symm), hrest.symm⟩

theorem KeyTag.encodeBody_append_inj {t u : KeyTag} {r s : Bytes}
    (h0 : t.reserved0 = u.reserved0) (h1 : t.reserved1 = u.reserved1)
    (h : t.encodeBody ++ r = u.encodeBody ++ s) : t = u ∧ r = s := by
  have hread : ∀ (v : KeyTag) (x : Bytes), readFields? (v.encodeBody ++ x) =
      some (keyBits, v.exponent, v.modulus, v.tail, x) := by
    intro v x
    rw [readFields?_eq_some_iff]
    simp only [encodeBody, List.append_assoc]
  have hsame := hread t r
  rw [h, hread u s] at hsame
  simp only [Option.some.injEq, Prod.mk.injEq] at hsame
  obtain ⟨-, hexponent, hmodulus, htail, hrest⟩ := hsame
  exact ⟨KeyTag.ext h0 h1 hexponent.symm hmodulus.symm htail.symm, hrest.symm⟩

theorem SignatureTag.encodeBody_append_inj {t u : SignatureTag} {r s : Bytes}
    (h : t.encodeBody ++ r = u.encodeBody ++ s) : t = u ∧ r = s := by
  have hread : ∀ (v : SignatureTag) (x : Bytes), readFields? (v.encodeBody ++ x) =
      some (signatureLength, v.signature, .zero 0x2c, x) := by
    intro v x
    rw [readFields?_eq_some_iff]
    simp only [encodeBody, List.append_assoc]
  have hsame := hread t r
  rw [h, hread u s] at hsame
  simp only [Option.some.injEq, Prod.mk.injEq] at hsame
  exact ⟨SignatureTag.ext hsame.2.1.symm, hsame.2.2.2.symm⟩

theorem TagHeader.encode_append_inj {h k : TagHeader} {r s : Bytes}
    (he : h.encode ++ r = k.encode ++ s) : h = k ∧ r = s := by
  have hh := read?_eq_some_iff.mpr he
  rw [read?_eq_some_iff.mpr rfl] at hh
  exact Prod.mk.inj (Option.some.inj hh)

theorem Tag.kind_eq_of_header_eq {t u : Tag} (h : t.header = u.header) : t.kind = u.kind := by
  have hmagic : ∀ v : Tag, TagKind.ofMagic? v.header.magic = some v.kind := by
    intro v
    rw [TagKind.ofMagic?_eq_some_iff]
    cases v <;> rfl
  have ht := hmagic t
  rw [h, hmagic u] at ht
  exact (Option.some.inj ht).symm

/-- A tag can be told from the octets that start with it. -/
theorem Tag.encode_append_inj {t u : Tag} {r s : Bytes} (h : t.encode ++ r = u.encode ++ s) :
    t = u ∧ r = s := by
  rw [encode, encode, List.append_assoc, List.append_assoc] at h
  obtain ⟨hheader, h⟩ := TagHeader.encode_append_inj h
  have hkind := kind_eq_of_header_eq hheader
  have h0 := congrArg TagHeader.reserved0 hheader
  have h1 := congrArg TagHeader.reserved1 hheader
  cases t with
  | layout t =>
    cases u with
    | layout u =>
      obtain ⟨rfl, rfl⟩ := LayoutTag.encodeBody_append_inj h0 h1 h
      exact ⟨rfl, rfl⟩
    | key u => cases hkind
    | signature u => cases hkind
  | key t =>
    cases u with
    | layout u => cases hkind
    | key u =>
      obtain ⟨rfl, rfl⟩ := KeyTag.encodeBody_append_inj h0 h1 h
      exact ⟨rfl, rfl⟩
    | signature u => cases hkind
  | signature t =>
    cases u with
    | layout u => cases hkind
    | key u => cases hkind
    | signature u =>
      obtain ⟨rfl, rfl⟩ := SignatureTag.encodeBody_append_inj h
      exact ⟨rfl, rfl⟩

/-- Tags in a row, whether they keep their rules or not, are determined by their octets. -/
theorem encodeTags_injective : Function.Injective encodeTags := by
  intro ts us h
  induction ts generalizing us with
  | nil =>
    cases us with
    | nil => rfl
    | cons u us => exact absurd (List.append_eq_nil_iff.mp h.symm).1 u.encode_ne_nil
  | cons t ts ih =>
    cases us with
    | nil => exact absurd (List.append_eq_nil_iff.mp h).1 t.encode_ne_nil
    | cons u us =>
      obtain ⟨rfl, htail⟩ := Tag.encode_append_inj h
      rw [ih htail]

/-! ### Headers, descriptors and images -/

theorem Header.encode_append_inj {h k : Header} {r s : Bytes}
    (he : h.encode ++ r = k.encode ++ s) : h = k ∧ r = s := by
  have hh := Header.read?_eq_some_iff.mpr he
  rw [Header.read?_eq_some_iff.mpr rfl] at hh
  exact Prod.mk.inj (Option.some.inj hh)

theorem Descriptor.encode_inj_of_lt {d e : Descriptor} (hd : d.entries.length < UInt16.size)
    (he : e.entries.length < UInt16.size) (h : d.encode = e.encode) : d = e := by
  have hhead : ∀ f : Descriptor, readHead? f.encode = some ((version,
      UInt16.ofNat f.entries.length, f.trailerOffset), f.entries.flatMap LoadEntry.encode ++
        f.slack) := by
    intro f
    rw [readHead?_eq_some_iff, encode]
  have hsame := hhead d
  rw [h, hhead e] at hsame
  simp only [Option.some.injEq, Prod.mk.injEq, true_and] at hsame
  obtain ⟨⟨hcount, htrailer⟩, hrest⟩ := hsame
  have hlength := congrArg UInt16.toNat hcount
  rw [UInt16.toNat_ofNat_of_lt' hd, UInt16.toNat_ofNat_of_lt' he] at hlength
  have hmany := LoadEntry.readMany?_eq_some_iff.mpr ⟨hlength, hrest.symm⟩
  rw [LoadEntry.readMany?_eq_some_iff.mpr ⟨rfl, rfl⟩] at hmany
  obtain ⟨hentries, hslack⟩ := Prod.mk.inj (Option.some.inj hmany)
  exact Descriptor.ext htrailer.symm hentries hslack

namespace BootImage

/-- The body of a framed image can be told from the octets that start with it. -/
theorem Framed.body_append_inj {i j : BootImage} (hi : i.Framed) (hj : j.Framed) {r s : Bytes}
    (h : i.body ++ r = j.body ++ s) :
    i.header = j.header ∧ i.descriptor = j.descriptor ∧ i.payload = j.payload ∧ r = s := by
  simp only [body, List.append_assoc] at h
  obtain ⟨hheader, h⟩ := Header.encode_append_inj h
  have hdl : i.descriptor.encode.length = j.descriptor.encode.length := by
    rw [hi.descriptor_length, hj.descriptor_length, hheader]
  obtain ⟨hd, h⟩ := List.append_inj h hdl
  have hdescriptor := Descriptor.encode_inj_of_lt hi.entries_lt hj.entries_lt hd
  have hpl : i.payload.length = j.payload.length := by
    have h1 := hi.payload_length
    have h2 := hj.payload_length
    simp only [payloadOffset, trailerOffset, hheader, hdescriptor] at h1 h2
    omega
  obtain ⟨hpayload, h⟩ := List.append_inj h hpl
  exact ⟨hheader, hdescriptor, hpayload, h⟩

/-- The body of a framed image can be told from the tags behind it, and both from their octets. -/
theorem Framed.parts_eq {i j : BootImage} (hi : i.Framed) (hj : j.Framed) {ts us : List Tag}
    (h : i.body ++ encodeTags ts = j.body ++ encodeTags us) :
    i.header = j.header ∧ i.descriptor = j.descriptor ∧ i.payload = j.payload ∧ ts = us := by
  obtain ⟨hheader, hdescriptor, hpayload, htags⟩ := hi.body_append_inj hj h
  exact ⟨hheader, hdescriptor, hpayload, encodeTags_injective htags⟩

theorem Framed.encode_inj {i j : BootImage} (hi : i.Framed) (hj : j.Framed)
    (h : i.encode = j.encode) : i = j := by
  obtain ⟨hheader, hdescriptor, hpayload, htags⟩ := hi.parts_eq hj h
  cases i
  cases j
  simp only at hheader hdescriptor hpayload htags
  rw [hheader, hdescriptor, hpayload, htags]

/-- The octets of a framed image parse as that image or not at all. -/
theorem Framed.parse_encode_eq_ok_iff {i j : BootImage} (hi : i.Framed) {carrier : Carrier} :
    parse i.encode carrier = .ok j ↔ j = i ∧ i.WellFormed ∧ carrier.Fits i.totalLength := by
  constructor
  · intro h
    obtain ⟨hj, hf, he⟩ := wellFormed_of_parse h
    obtain rfl := hi.encode_inj hj.framed he
    exact ⟨rfl, hj, hf⟩
  · rintro ⟨rfl, hw, hf⟩
    exact parse_encode hw hf

end BootImage

end SignedBoot
