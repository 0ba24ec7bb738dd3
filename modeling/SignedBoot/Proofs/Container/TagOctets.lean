import Mathlib
import SignedBoot.Proofs.Bytes.Slices
import SignedBoot.Proofs.Container.Format

/-!
# Descriptors and tags, octet by octet

The rules of descriptor regions and tags as they are written down for other readers: which number
or text stands at which offset, and what it may be. `tagFormat_iff` says that these rules pick out
the wire forms of well-formed tags.
-/

namespace SignedBoot

/-! ### The rules -/

/-- A descriptor region: the version, and load entries that are few, fit the region and obey a rule
on offset and size. What follows the entries is free. -/
structure DescriptorFormat (maxEntries : Nat) (rule : Nat → Nat → Prop) (region : Bytes) :
    Prop where
  version : numberAt region 0 2 = 1
  count_le : numberAt region 2 2 ≤ maxEntries
  fits : 8 + 8 * numberAt region 2 2 ≤ region.length
  entries : ∀ k < numberAt region 2 2,
    rule (numberAt region (8 + 8 * k) 4) (numberAt region (8 + 8 * k + 4) 4)

/-- The octets of a layout tag. -/
structure LayoutTagFormat (p : Bytes) : Prop where
  length_eq : p.length = 0x52c
  magic : slice p 0 4 = ascii "BLYT"
  declared : numberAt p 8 2 = 0x52c
  descriptor : DescriptorFormat 0x40 (fun offset size => 1 ≤ size ∧ offset + size < 2 ^ 32)
    (slice p 0x10 0x418)
  region : numberAt p 0x428 2 = 1 ∧ numberAt p 0x42a 2 ≤ 0x1f ∨
    numberAt p 0x428 2 = 2 ∧ numberAt p 0x42a 2 ≤ 0xdf

/-- The octets of a key tag. -/
structure KeyTagFormat (p : Bytes) : Prop where
  length_eq : p.length = 0x348
  magic : slice p 0 4 = ascii "BKEY"
  declared : numberAt p 8 2 = 0x348
  keyBits : numberAt p 0x0c 4 = 2048
  exponent_ge : 3 ≤ numberAt p 0x10 4
  exponent_odd : numberAt p 0x10 4 % 2 = 1
  /-- The top bit of the modulus is set. -/
  modulus : 0x80 ≤ numberAt p 0x14 1

/-- The octets of a signature tag, of which only the signature is free. -/
structure SignatureTagFormat (p : Bytes) : Prop where
  length_eq : p.length = 0x13c
  magic : slice p 0 4 = ascii "BSIG"
  reserved0 : numberAt p 4 4 = 0
  declared : numberAt p 8 2 = 0x13c
  reserved1 : numberAt p 0x0a 2 = 0
  signatureLength : numberAt p 0x0c 4 = 256
  tail : slice p 0x110 0x2c = List.replicate 0x2c 0

inductive TagFormat (p : Bytes) : Prop
  | layout (h : LayoutTagFormat p)
  | key (h : KeyTagFormat p)
  | signature (h : SignatureTagFormat p)

/-! ### Descriptors -/

theorem LoadEntry.numberAt_encode_append (e : LoadEntry) (rest : Bytes) :
    numberAt (e.encode ++ rest) 0 4 = e.offset.toNat ∧
      numberAt (e.encode ++ rest) 4 4 = e.size.toNat := by
  simp [numberAt, encode, slice_append_zero, slice_append_of_le]

/-- The entry with index `k` stands behind `k` entries of eight octets. -/
theorem LoadEntry.numberAt_encodeMany {es : List LoadEntry} (rest : Bytes) {k : Nat}
    (h : k < es.length) :
    numberAt (es.flatMap encode ++ rest) (8 * k) 4 = es[k].offset.toNat ∧
      numberAt (es.flatMap encode ++ rest) (8 * k + 4) 4 = es[k].size.toNat := by
  induction es generalizing k with
  | nil => exact absurd h (Nat.not_lt_zero k)
  | cons e es ih =>
    rw [List.flatMap_cons, List.append_assoc]
    cases k with
    | zero => exact e.numberAt_encode_append _
    | succ k =>
      have hk : k < es.length := Nat.lt_of_succ_lt_succ h
      have hskip : ∀ n, numberAt (e.encode ++ (es.flatMap encode ++ rest)) (8 + n) 4 =
          numberAt (es.flatMap encode ++ rest) n 4 := by
        intro n
        have hl : e.encode.length = 8 := e.length_encode
        rw [numberAt, slice_append_of_le _ _ (by omega), hl, Nat.add_sub_cancel_left, numberAt]
      have h8 : 8 * (k + 1) = 8 + 8 * k := by omega
      rw [h8, Nat.add_assoc, hskip, hskip]
      exact ih hk

theorem LoadEntry.length_encodeMany (es : List LoadEntry) :
    (es.flatMap encode).length = 8 * es.length := by
  induction es with
  | nil => rfl
  | cons e es ih =>
    rw [List.flatMap_cons, List.length_append, ih, length_encode, List.length_cons, byteSize]
    omega

theorem LoadEntry.exists_encodeMany_append (count : Nat) {b : Bytes} (h : 8 * count ≤ b.length) :
    ∃ (es : List LoadEntry) (rest : Bytes), es.length = count ∧ b = es.flatMap encode ++ rest := by
  induction count generalizing b with
  | zero => exact ⟨[], b, rfl, rfl⟩
  | succ count ih =>
    obtain ⟨offset, b, rfl⟩ := exists_word32_append (b := b) (by omega)
    rw [List.length_append, length_word32] at h
    obtain ⟨size, b, rfl⟩ := exists_word32_append (b := b) (by omega)
    rw [List.length_append, length_word32] at h
    obtain ⟨es, rest, hl, rfl⟩ := ih (b := b) (by omega)
    exact ⟨⟨offset, size⟩ :: es, rest, by simp [hl], by simp [encode]⟩

theorem LoadEntry.sound_iff (e : LoadEntry) :
    e.Sound ↔ 1 ≤ e.size.toNat ∧ e.offset.toNat + e.size.toNat < 2 ^ 32 := by
  have hsize : e.size ≠ 0 ↔ 1 ≤ e.size.toNat := by
    rw [ne_eq, ← UInt32.toNat_inj, UInt32.toNat_zero, Nat.one_le_iff_ne_zero]
  rw [Sound, hsize]
  rfl

theorem LoadEntry.sound_and_within_iff (e : LoadEntry) {start stop : Nat} (h : stop < 2 ^ 32) :
    e.Sound ∧ e.Within start stop ↔
      1 ≤ e.size.toNat ∧ start ≤ e.offset.toNat ∧ e.offset.toNat + e.size.toNat ≤ stop := by
  rw [sound_iff, Within, limit]
  omega

namespace Descriptor

theorem numberAt_encode (d : Descriptor) :
    numberAt d.encode 0 2 = 1 ∧ numberAt d.encode 2 2 = (UInt16.ofNat d.entries.length).toNat ∧
      numberAt d.encode 4 4 = d.trailerOffset.toNat := by
  simp [numberAt, encode, version, slice_append_zero, slice_append_of_le]

theorem numberAt_encode_entry {d : Descriptor} {k : Nat} (h : k < d.entries.length) :
    numberAt d.encode (8 + 8 * k) 4 = d.entries[k].offset.toNat ∧
      numberAt d.encode (8 + 8 * k + 4) 4 = d.entries[k].size.toNat := by
  have hskip : ∀ n, numberAt d.encode (8 + n) 4 =
      numberAt (d.entries.flatMap LoadEntry.encode ++ d.slack) n 4 := by
    intro n
    have h4 : 8 + n - 2 - 2 - 4 = n := by omega
    simp only [numberAt, encode]
    rw [slice_append_of_le _ _ (by simp; omega), slice_append_of_le _ _ (by simp; omega),
      slice_append_of_le _ _ (by simp; omega)]
    simp only [length_word16, length_word32, h4]
  rw [Nat.add_assoc, hskip, hskip]
  exact LoadEntry.numberAt_encodeMany d.slack h

theorem length_encode_eq (d : Descriptor) :
    d.encode.length = 8 + 8 * d.entries.length + d.slack.length := by
  simp only [encode, List.length_append, length_word16, length_word32,
    LoadEntry.length_encodeMany]
  omega

/-- The rules on the octets of a region are rules on the descriptor that it holds. -/
theorem format_encode_iff {d : Descriptor} {maxEntries : Nat} {rule : Nat → Nat → Prop}
    (h : d.entries.length < UInt16.size) :
    DescriptorFormat maxEntries rule d.encode ↔ d.entries.length ≤ maxEntries ∧
      ∀ e ∈ d.entries, rule e.offset.toNat e.size.toNat := by
  obtain ⟨hversion, hcount, -⟩ := d.numberAt_encode
  rw [UInt16.toNat_ofNat_of_lt' h] at hcount
  constructor
  · intro hf
    have hle := hf.count_le
    have hentries := hf.entries
    rw [hcount] at hle hentries
    refine ⟨hle, ?_⟩
    intro e he
    obtain ⟨k, hk, rfl⟩ := List.mem_iff_getElem.mp he
    obtain ⟨hoffset, hsize⟩ := numberAt_encode_entry hk
    have hrule := hentries k hk
    rwa [hoffset, hsize] at hrule
  · rintro ⟨hle, hentries⟩
    refine ⟨hversion, by rwa [hcount], ?_, ?_⟩
    · rw [hcount, length_encode_eq]
      omega
    · intro k hk
      rw [hcount] at hk
      obtain ⟨hoffset, hsize⟩ := numberAt_encode_entry hk
      rw [hoffset, hsize]
      exact hentries _ (List.getElem_mem hk)

/-- A region whose version is right and whose entries fit holds a descriptor. -/
theorem exists_eq_encode {maxEntries : Nat} {rule : Nat → Nat → Prop} {b : Bytes}
    (h : DescriptorFormat maxEntries rule b) :
    ∃ d : Descriptor, b = d.encode ∧ d.entries.length < UInt16.size := by
  have hfits := h.fits
  have hversion := h.version
  obtain ⟨v, b, rfl⟩ := exists_word16_append (b := b) (by omega)
  rw [List.length_append, length_word16] at hfits
  obtain ⟨count, b, rfl⟩ := exists_word16_append (b := b) (by omega)
  rw [List.length_append, length_word16] at hfits
  obtain ⟨trailerOffset, b, rfl⟩ := exists_word32_append (b := b) (by omega)
  rw [List.length_append, length_word32] at hfits
  simp only [numberAt, slice_append_zero, slice_append_of_le, length_word16, leValue_word16,
    Nat.reduceLeDiff, Nat.reduceSub] at hfits hversion
  obtain ⟨es, slack, hl, rfl⟩ := LoadEntry.exists_encodeMany_append count.toNat (b := b)
    (by omega)
  refine ⟨⟨trailerOffset, es, slack⟩, ?_, ?_⟩
  · have hv : v = version := UInt16.toNat_inj.mp hversion
    simp [encode, hl, hv]
  · rw [hl]
    exact count.toNat_lt

theorem exists_parse_iff (place : DescriptorPlace) {b : Bytes}
    (h : b.length ≤ place.maxByteSize) :
    (∃ d, parse place b = .ok d) ↔
      DescriptorFormat place.maxEntries (fun offset size => 1 ≤ size ∧ offset + size < 2 ^ 32)
        b := by
  simp only [parse_eq_ok_iff]
  constructor
  · rintro ⟨d, hd, rfl⟩
    have hlt := lt_of_le_of_lt hd.entries_le place.maxEntries_lt
    refine (format_encode_iff hlt).mpr ⟨hd.entries_le, ?_⟩
    intro e he
    exact e.sound_iff.mp (hd.sound e he)
  · intro hf
    obtain ⟨d, rfl, hlt⟩ := exists_eq_encode hf
    obtain ⟨hle, hsound⟩ := (format_encode_iff hlt).mp hf
    refine ⟨d, ⟨h, hle, ?_⟩, rfl⟩
    intro e he
    exact e.sound_iff.mpr (hsound e he)

end Descriptor

/-! ### Tags -/

namespace TagHeader

/-- Offsets in a tag are counted from its header. -/
theorem slice_encode_append (h : TagHeader) (body : Bytes) (offset n : Nat) :
    slice (h.encode ++ body) (12 + offset) n = slice body offset n := by
  have hl : h.encode.length = 12 := h.length_encode
  rw [slice_append_of_le _ _ (by omega), hl, Nat.add_sub_cancel_left]

theorem numberAt_reserved (h : TagHeader) (body : Bytes) :
    numberAt (h.encode ++ body) 4 4 = h.reserved0.toNat ∧
      numberAt (h.encode ++ body) 0x0a 2 = h.reserved1.toNat := by
  simp [numberAt, encode, slice_append_zero, slice_append_of_le]

/-- The octets of a tag whose magic and declared length are those of a kind. -/
theorem exists_ofKind_append (kind : TagKind) {p : Bytes} (hlength : p.length = kind.byteSize)
    (hmagic : slice p 0 4 = kind.magic.bytes) (hdeclared : numberAt p 8 2 = kind.byteSize) :
    ∃ (reserved0 : UInt32) (reserved1 : UInt16) (body : Bytes),
      p = (ofKind kind reserved0 reserved1).encode ++ body ∧
        12 + body.length = kind.byteSize := by
  have hge := kind.byteSize_ge
  obtain ⟨magic, p, rfl⟩ := exists_block_append (n := 4) (b := p) (by omega)
  rw [List.length_append, Block.length_bytes] at hlength
  obtain ⟨reserved0, p, rfl⟩ := exists_word32_append (b := p) (by omega)
  rw [List.length_append, length_word32] at hlength
  obtain ⟨length, p, rfl⟩ := exists_word16_append (b := p) (by omega)
  rw [List.length_append, length_word16] at hlength
  obtain ⟨reserved1, p, rfl⟩ := exists_word16_append (b := p) (by omega)
  rw [List.length_append, length_word16] at hlength
  simp only [numberAt, slice_append_zero, slice_append_of_le, Block.length_bytes, length_word32,
    length_word16, leValue_word16, Nat.reduceLeDiff, Nat.reduceSub] at hmagic hdeclared
  have hheader := Tag.header_eq_ofKind (h := ⟨magic, reserved0, length, reserved1⟩)
    (Block.ext hmagic) hdeclared
  refine ⟨reserved0, reserved1, p, ?_, by omega⟩
  rw [← hheader]
  simp [encode]

end TagHeader

namespace LayoutTag

theorem slice_encode (t : LayoutTag) :
    slice (Tag.layout t).encode 0 4 = ascii "BLYT" ∧
      numberAt (Tag.layout t).encode 8 2 = 0x52c ∧
      slice (Tag.layout t).encode 0x10 0x418 = t.window.bytes ∧
      numberAt (Tag.layout t).encode 0x428 2 = t.region.mode.word.toNat ∧
      numberAt (Tag.layout t).encode 0x42a 2 = t.region.count.toNat := by
  have hmagic : ascii "BLYT" = TagKind.layout.magic.bytes := by decide
  rw [hmagic]
  simp [numberAt, Tag.encode, Tag.header, TagHeader.ofKind, TagHeader.encode, Tag.encodeBody,
    encodeBody, RegionBlock.encode, slice_append_zero, slice_append_of_le, TagKind.byteSize]

theorem exists_eq_encodeBody {b : Bytes} (reserved0 : UInt32) (reserved1 : UInt16)
    (hl : 12 + b.length = 0x52c) (hmode : numberAt b 0x41c 2 = 1 ∨ numberAt b 0x41c 2 = 2) :
    ∃ t : LayoutTag, b = t.encodeBody ∧ t.reserved0 = reserved0 ∧ t.reserved1 = reserved1 := by
  obtain ⟨typeWord, b, rfl⟩ := exists_word32_append (b := b) (by omega)
  rw [List.length_append, length_word32] at hl
  obtain ⟨window, b, rfl⟩ := exists_block_append (n := 0x418) (b := b) (by omega)
  rw [List.length_append, Block.length_bytes] at hl
  obtain ⟨modeWord, b, rfl⟩ := exists_word16_append (b := b) (by omega)
  rw [List.length_append, length_word16] at hl
  obtain ⟨count, b, rfl⟩ := exists_word16_append (b := b) (by omega)
  rw [List.length_append, length_word16] at hl
  simp only [numberAt, slice_append_zero, slice_append_of_le, Block.length_bytes, length_word32,
    length_word16, leValue_word16, Nat.reduceLeDiff, Nat.reduceSub] at hmode
  obtain ⟨mode, rfl⟩ : ∃ mode : RegionMode, modeWord = mode.word := by
    rcases hmode with h | h
    · exact ⟨.ranges, UInt16.toNat_inj.mp h⟩
    · exact ⟨.sectors, UInt16.toNat_inj.mp h⟩
  exact ⟨⟨reserved0, reserved1, typeWord, window, mode, count, ⟨b, by omega⟩⟩, rfl, rfl, rfl⟩

theorem format_iff (t : LayoutTag) : LayoutTagFormat (Tag.layout t).encode ↔ t.WellFormed := by
  obtain ⟨hmagic, hdeclared, hwindow, hmode, hcount⟩ := t.slice_encode
  have hdescriptor := Descriptor.exists_parse_iff .embedded t.window.length_bytes.le
  have hregion : (t.region.mode.word.toNat = 1 ∧ t.region.count.toNat ≤ 0x1f ∨
      t.region.mode.word.toNat = 2 ∧ t.region.count.toNat ≤ 0xdf) ↔
        t.region.count.toNat ≤ t.region.mode.maxCount := by
    cases t.region.mode <;> simp [RegionMode.word, RegionMode.maxCount]
  constructor
  · intro h
    have hd := h.descriptor
    have hr := h.region
    rw [hwindow] at hd
    rw [hmode, hcount] at hr
    exact ⟨hdescriptor.mpr hd, hregion.mp hr⟩
  · rintro ⟨hd, hc⟩
    refine ⟨Tag.length_encode _, hmagic, hdeclared, ?_, ?_⟩
    · rw [hwindow]
      exact hdescriptor.mp hd
    · rw [hmode, hcount]
      exact hregion.mpr hc

end LayoutTag

namespace KeyTag

theorem slice_encode (t : KeyTag) :
    slice (Tag.key t).encode 0 4 = ascii "BKEY" ∧
      numberAt (Tag.key t).encode 8 2 = 0x348 ∧
      numberAt (Tag.key t).encode 0x0c 4 = 2048 ∧
      numberAt (Tag.key t).encode 0x10 4 = t.exponent.toNat ∧
      slice (Tag.key t).encode 0x14 256 = t.modulus.bytes := by
  have hmagic : ascii "BKEY" = TagKind.key.magic.bytes := by decide
  rw [hmagic]
  simp [numberAt, Tag.encode, Tag.header, TagHeader.ofKind, TagHeader.encode, Tag.encodeBody,
    encodeBody, keyBits, slice_append_zero, slice_append_of_le, TagKind.byteSize]

theorem exists_eq_encodeBody {b : Bytes} (reserved0 : UInt32) (reserved1 : UInt16)
    (hl : 12 + b.length = 0x348) (hbits : numberAt b 0 4 = 2048) :
    ∃ t : KeyTag, b = t.encodeBody ∧ t.reserved0 = reserved0 ∧ t.reserved1 = reserved1 := by
  obtain ⟨bits, b, rfl⟩ := exists_word32_append (b := b) (by omega)
  rw [List.length_append, length_word32] at hl
  obtain ⟨exponent, b, rfl⟩ := exists_word32_append (b := b) (by omega)
  rw [List.length_append, length_word32] at hl
  obtain ⟨modulus, b, rfl⟩ := exists_block_append (n := 256) (b := b) (by omega)
  rw [List.length_append, Block.length_bytes] at hl
  rw [numberAt, slice_append_zero _ (length_word32 bits), leValue_word32] at hbits
  have hkey : bits = keyBits := UInt32.toNat_inj.mp hbits
  exact ⟨⟨reserved0, reserved1, exponent, modulus, ⟨b, by omega⟩⟩, by rw [hkey]; rfl, rfl, rfl⟩

/-- The rules on a key tag, said of numbers. -/
theorem wellFormed_iff (t : KeyTag) : t.WellFormed ↔ 3 ≤ t.exponent.toNat ∧
    t.exponent.toNat % 2 = 1 ∧ 0x80 ≤ leValue (slice t.modulus.bytes 0 1) := by
  have hge : 3 ≤ t.exponent ↔ 3 ≤ t.exponent.toNat := UInt32.le_iff_toNat_le
  have hodd : t.exponent % 2 = 1 ↔ t.exponent.toNat % 2 = 1 := by
    rw [← UInt32.toNat_inj, UInt32.toNat_mod]
    rfl
  obtain ⟨x, rest, hx, -⟩ := t.modulus.exists_cons
  have hslice : leValue (slice t.modulus.bytes 0 1) = x.toNat := by
    rw [hx]
    exact Nat.add_zero _
  rw [WellFormed, hge, hodd, hslice, hx]
  simp [UInt8.le_iff_toNat_le]

theorem format_iff (t : KeyTag) : KeyTagFormat (Tag.key t).encode ↔ t.WellFormed := by
  obtain ⟨hmagic, hdeclared, hbits, hexponent, hmodulus⟩ := t.slice_encode
  have htop : numberAt (Tag.key t).encode 0x14 1 = leValue (slice t.modulus.bytes 0 1) := by
    rw [← hmodulus, slice_slice _ (by decide), numberAt]
  rw [wellFormed_iff, ← hexponent, ← htop]
  constructor
  · intro h
    exact ⟨h.exponent_ge, h.exponent_odd, h.modulus⟩
  · rintro ⟨hge, hodd, hmodulus⟩
    exact ⟨Tag.length_encode _, hmagic, hdeclared, hbits, hge, hodd, hmodulus⟩

end KeyTag

namespace SignatureTag

theorem slice_encode (t : SignatureTag) :
    slice (Tag.signature t).encode 0 4 = ascii "BSIG" ∧
      numberAt (Tag.signature t).encode 4 4 = 0 ∧
      numberAt (Tag.signature t).encode 8 2 = 0x13c ∧
      numberAt (Tag.signature t).encode 0x0a 2 = 0 ∧
      numberAt (Tag.signature t).encode 0x0c 4 = 256 ∧
      slice (Tag.signature t).encode 0x110 0x2c = List.replicate 0x2c 0 := by
  have hmagic : ascii "BSIG" = TagKind.signature.magic.bytes := by decide
  have htail : (Block.zero 0x2c).bytes = List.replicate 0x2c 0 := rfl
  rw [hmagic, ← htail]
  simp [numberAt, Tag.encode, Tag.header, TagHeader.ofKind, TagHeader.encode, Tag.encodeBody,
    encodeBody, signatureLength, slice_append_zero, slice_append_of_le, slice_zero_eq_self,
    TagKind.byteSize]

theorem exists_eq_encodeBody {b : Bytes} (hl : 12 + b.length = 0x13c)
    (hlength : numberAt b 0 4 = 256) (htail : slice b 0x104 0x2c = List.replicate 0x2c 0) :
    ∃ t : SignatureTag, b = t.encodeBody := by
  obtain ⟨length, b, rfl⟩ := exists_word32_append (b := b) (by omega)
  rw [List.length_append, length_word32] at hl
  obtain ⟨signature, b, rfl⟩ := exists_block_append (n := 256) (b := b) (by omega)
  rw [List.length_append, Block.length_bytes] at hl
  rw [numberAt, slice_append_zero _ (length_word32 length), leValue_word32] at hlength
  have hsize : length = signatureLength := UInt32.toNat_inj.mp hlength
  have hb : b = (Block.zero 0x2c).bytes := by
    simp only [slice_append_of_le, slice_zero_eq_self (show b.length = 0x2c by omega),
      Block.length_bytes, length_word32, Nat.reduceLeDiff, Nat.reduceSub] at htail
    exact htail
  exact ⟨⟨signature⟩, by rw [hb, hsize]; rfl⟩

theorem format_encode (t : SignatureTag) : SignatureTagFormat (Tag.signature t).encode := by
  obtain ⟨hmagic, hreserved0, hdeclared, hreserved1, hlength, htail⟩ := t.slice_encode
  exact ⟨Tag.length_encode _, hmagic, hreserved0, hdeclared, hreserved1, hlength, htail⟩

end SignatureTag

/-- Octets in the format of a tag are the wire form of a well-formed tag. -/
theorem tagFormat_iff {p : Bytes} : TagFormat p ↔ ∃ t : Tag, t.WellFormed ∧ p = t.encode := by
  constructor
  · intro h
    cases h with
    | layout h =>
      have hmagic : ascii "BLYT" = TagKind.layout.magic.bytes := by decide
      obtain ⟨reserved0, reserved1, body, rfl, hl⟩ := TagHeader.exists_ofKind_append
        .layout h.length_eq (h.magic.trans hmagic) h.declared
      have hmode : numberAt body 0x41c 2 = 1 ∨ numberAt body 0x41c 2 = 2 := by
        rw [numberAt, ← TagHeader.slice_encode_append]
        exact h.region.imp And.left And.left
      obtain ⟨t, rfl, rfl, rfl⟩ := LayoutTag.exists_eq_encodeBody reserved0 reserved1 hl hmode
      exact ⟨.layout t, t.format_iff.mp h, rfl⟩
    | key h =>
      have hmagic : ascii "BKEY" = TagKind.key.magic.bytes := by decide
      obtain ⟨reserved0, reserved1, body, rfl, hl⟩ := TagHeader.exists_ofKind_append
        .key h.length_eq (h.magic.trans hmagic) h.declared
      have hbits : numberAt body 0 4 = 2048 := by
        rw [numberAt, ← TagHeader.slice_encode_append]
        exact h.keyBits
      obtain ⟨t, rfl, rfl, rfl⟩ := KeyTag.exists_eq_encodeBody reserved0 reserved1 hl hbits
      exact ⟨.key t, t.format_iff.mp h, rfl⟩
    | signature h =>
      have hmagic : ascii "BSIG" = TagKind.signature.magic.bytes := by decide
      obtain ⟨reserved0, reserved1, body, rfl, hl⟩ := TagHeader.exists_ofKind_append
        .signature h.length_eq (h.magic.trans hmagic) h.declared
      have hlength : numberAt body 0 4 = 256 := by
        rw [numberAt, ← TagHeader.slice_encode_append]
        exact h.signatureLength
      have htail : slice body 0x104 0x2c = List.replicate 0x2c 0 := by
        rw [← TagHeader.slice_encode_append]
        exact h.tail
      obtain ⟨t, rfl⟩ := SignatureTag.exists_eq_encodeBody hl hlength htail
      obtain ⟨h0, h1⟩ := (TagHeader.ofKind .signature reserved0 reserved1).numberAt_reserved
        t.encodeBody
      have hreserved0 : reserved0 = 0 := UInt32.toNat_inj.mp (h0.symm.trans h.reserved0)
      have hreserved1 : reserved1 = 0 := UInt16.toNat_inj.mp (h1.symm.trans h.reserved1)
      exact ⟨.signature t, trivial, by rw [hreserved0, hreserved1]; rfl⟩
  · rintro ⟨t, ht, rfl⟩
    cases t with
    | layout t => exact .layout (t.format_iff.mpr ht)
    | key t => exact .key (t.format_iff.mpr ht)
    | signature t => exact .signature t.format_encode

theorem exists_tags_of_parts {parts : List Bytes} (h : ∀ p ∈ parts, TagFormat p) :
    ∃ ts : List Tag, (∀ t ∈ ts, t.WellFormed) ∧ parts.flatten = encodeTags ts := by
  induction parts with
  | nil => exact ⟨[], by simp, rfl⟩
  | cons p parts ih =>
    obtain ⟨t, ht, rfl⟩ := tagFormat_iff.mp (h p (by simp))
    obtain ⟨ts, hts, hflatten⟩ := ih fun q hq => h q (by simp [hq])
    refine ⟨t :: ts, ?_, by rw [List.flatten_cons, hflatten, encodeTags_cons]⟩
    intro u hu
    rcases List.mem_cons.mp hu with rfl | hu
    · exact ht
    · exact hts u hu

end SignedBoot
