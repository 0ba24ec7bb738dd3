import SignedBoot.Container.Descriptor
import SignedBoot.Container.Key
import SignedBoot.Container.Region

/-!
# Trailer tags

A tag is a header of twelve octets and a body whose length its kind fixes. Layout and key tags
are covered by the image signature and may hold anything in their reserved fields; the signature
tag is not covered, so its only free part is the signature itself. Main statement:
`Tag.read_eq_ok_iff`, reading a tag is splitting off the wire form of a well-formed tag.
-/

namespace SignedBoot

inductive TagKind
  | layout
  | key
  | signature
deriving DecidableEq, Repr

namespace TagKind

/-- The four octets that open a tag: "BLYT", "BKEY" or "BSIG". -/
def magic : TagKind → Block 4
  | .layout => ⟨[0x42, 0x4c, 0x59, 0x54], rfl⟩
  | .key => ⟨[0x42, 0x4b, 0x45, 0x59], rfl⟩
  | .signature => ⟨[0x42, 0x53, 0x49, 0x47], rfl⟩

def ofMagic? (m : Block 4) : Option TagKind :=
  [layout, key, signature].find? fun kind => kind.magic = m

def id : TagKind → Nat
  | .layout => 1
  | .key => 3
  | .signature => 4

def byteSize : TagKind → Nat
  | .layout => 0x52c
  | .key => 0x348
  | .signature => 0x13c

def isSigned : TagKind → Bool
  | .layout => true
  | .key => true
  | .signature => false

def name : TagKind → String
  | .layout => "Layout"
  | .key => "Key"
  | .signature => "Signature"

theorem ofMagic?_eq_some_iff {m : Block 4} {kind : TagKind} :
    ofMagic? m = some kind ↔ m = kind.magic := by
  constructor
  · intro h
    simpa [eq_comm] using List.find?_some h
  · rintro rfl
    cases kind <;> rfl

theorem byteSize_ge (kind : TagKind) : 0x13c ≤ kind.byteSize := by cases kind <;> decide

end TagKind

structure TagHeader where
  magic : Block 4
  reserved0 : UInt32
  length : UInt16
  reserved1 : UInt16
deriving DecidableEq

namespace TagHeader

def byteSize : Nat := 12

def ofKind (kind : TagKind) (reserved0 : UInt32) (reserved1 : UInt16) : TagHeader :=
  ⟨kind.magic, reserved0, UInt16.ofNat kind.byteSize, reserved1⟩

def encode (h : TagHeader) : Bytes :=
  h.magic.bytes ++ (word32 h.reserved0 ++ (word16 h.length ++ word16 h.reserved1))

def read? (b : Bytes) : Option (TagHeader × Bytes) := do
  let (magic, b) ← Block.read? 4 b
  let (reserved0, b) ← readWord32? b
  let (length, b) ← readWord16? b
  let (reserved1, b) ← readWord16? b
  return ({ magic, reserved0, length, reserved1 }, b)

@[simp]
theorem length_encode (h : TagHeader) : h.encode.length = byteSize := by simp [encode, byteSize]

theorem read?_eq_some_iff {b rest : Bytes} {h : TagHeader} :
    read? b = some (h, rest) ↔ b = h.encode ++ rest := by
  constructor
  · intro hb
    simp only [read?, Option.bind_eq_bind, Option.bind_eq_some_iff, Prod.exists,
      readWord32?_eq_some_iff, readWord16?_eq_some_iff, Block.read?_eq_some_iff, Option.pure_def,
      Option.some.injEq, Prod.mk.injEq] at hb
    obtain ⟨_, _, rfl, _, _, rfl, _, _, rfl, _, _, rfl, rfl, rfl⟩ := hb
    simp [encode]
  · rintro rfl
    simp only [read?, Option.bind_eq_bind, Option.bind_eq_some_iff, Prod.exists,
      readWord32?_eq_some_iff, readWord16?_eq_some_iff, Block.read?_eq_some_iff, Option.pure_def,
      Option.some.injEq, Prod.mk.injEq]
    exact ⟨_, _, by simp only [encode, List.append_assoc], _, _, rfl, _, _, rfl, _, _, rfl, rfl,
      rfl⟩

end TagHeader

/-- A layout tag: a descriptor of the target and a block of its regions. -/
@[ext]
structure LayoutTag where
  reserved0 : UInt32
  reserved1 : UInt16
  typeWord : UInt32
  window : Block 0x418
  region : RegionBlock
deriving DecidableEq

namespace LayoutTag

def windowRange : Nat × Nat := (0x10, 0x428)

def regionRange : Nat × Nat := (0x428, 0x52c)

def descriptor (t : LayoutTag) : Except Fault Descriptor :=
  Descriptor.parse .embedded t.window.bytes

/-- The window holds a descriptor and the region block's count is allowed. -/
def WellFormed (t : LayoutTag) : Prop :=
  (∃ d, t.descriptor = .ok d) ∧ t.region.count.toNat ≤ t.region.mode.maxCount

def encodeBody (t : LayoutTag) : Bytes := word32 t.typeWord ++ (t.window.bytes ++ t.region.encode)

def readFields? (b : Bytes) :
    Option (UInt32 × Block 0x418 × (UInt16 × UInt16 × Block 0x100) × Bytes) := do
  let (typeWord, b) ← readWord32? b
  let (window, b) ← Block.read? 0x418 b
  let (region, b) ← RegionBlock.readFields? b
  return (typeWord, window, region, b)

def readBody (h : TagHeader) (b : Bytes) : Except Fault (LayoutTag × Bytes) :=
  match readFields? b with
  | none => .error .tagTruncated
  | some (typeWord, window, (mode, count, entries), rest) =>
    match Descriptor.parse .embedded window.bytes with
    | .error f => .error f
    | .ok _ =>
      match RegionBlock.ofFields mode count entries with
      | .error f => .error f
      | .ok region =>
        .ok (⟨h.reserved0, h.reserved1, typeWord, window, region⟩, rest)

theorem readFields?_eq_some_iff {b rest : Bytes} {typeWord : UInt32} {window : Block 0x418}
    {mode count : UInt16} {entries : Block 0x100} :
    readFields? b = some (typeWord, window, (mode, count, entries), rest) ↔
      b = word32 typeWord ++ (window.bytes ++ (word16 mode ++ (word16 count ++
        (entries.bytes ++ rest)))) := by
  simp only [readFields?, RegionBlock.readFields?, Option.bind_eq_bind, Option.bind_eq_some_iff,
    Prod.exists, readWord32?_eq_some_iff, readWord16?_eq_some_iff, Block.read?_eq_some_iff,
    Option.pure_def, Option.some.injEq, Prod.mk.injEq]
  constructor
  · grind
  · rintro rfl
    exact ⟨_, _, rfl, _, _, rfl, _, _, _, _,
      ⟨_, _, rfl, _, _, rfl, _, _, rfl, ⟨rfl, rfl, rfl⟩, rfl⟩, rfl, rfl, ⟨rfl, rfl, rfl⟩, rfl⟩

theorem readBody_eq_ok_iff {h : TagHeader} {b rest : Bytes} {t : LayoutTag} :
    readBody h b = .ok (t, rest) ↔
      t.reserved0 = h.reserved0 ∧ t.reserved1 = h.reserved1 ∧ t.WellFormed ∧
        b = t.encodeBody ++ rest := by
  constructor
  · intro hb
    unfold readBody at hb
    split at hb
    · cases hb
    · next hf =>
      rw [readFields?_eq_some_iff] at hf
      split at hb
      · cases hb
      · next d hd =>
        split at hb
        · cases hb
        · next region hr =>
          obtain ⟨rfl, rfl, rfl, hc⟩ := RegionBlock.ofFields_eq_ok_iff.mp hr
          cases hb
          refine ⟨rfl, rfl, ⟨⟨d, hd⟩, hc⟩, ?_⟩
          rw [hf]
          simp only [encodeBody, RegionBlock.encode, List.append_assoc]
  · rintro ⟨h0, h1, ⟨⟨d, hd⟩, hc⟩, rfl⟩
    have hf : readFields? (t.encodeBody ++ rest) = some (t.typeWord, t.window,
        (t.region.mode.word, t.region.count, t.region.entries), rest) := by
      rw [readFields?_eq_some_iff]
      simp only [encodeBody, RegionBlock.encode, List.append_assoc]
    have hr := RegionBlock.ofFields_eq_ok_iff.mpr
      (⟨rfl, rfl, rfl, hc⟩ : t.region.mode.word = t.region.mode.word ∧ _)
    unfold descriptor at hd
    simp only [readBody, hf, hd, hr, ← h0, ← h1]

end LayoutTag

/-- A key tag: the RSA-2048 public key that the image is signed for. -/
@[ext]
structure KeyTag where
  reserved0 : UInt32
  reserved1 : UInt16
  exponent : UInt32
  modulus : Block 256
  tail : Block 0x234
deriving DecidableEq

namespace KeyTag

def keyBits : UInt32 := 2048

def modulusRange : Nat × Nat := (0x14, 0x114)

def key (t : KeyTag) : KeyDescriptor := ⟨t.modulus.bytes, t.exponent⟩

/-- The exponent is odd and at least three, and the modulus has its top bit set. -/
def WellFormed (t : KeyTag) : Prop :=
  3 ≤ t.exponent ∧ t.exponent % 2 = 1 ∧ ∃ x ∈ t.modulus.bytes.head?, 0x80 ≤ x

instance (t : KeyTag) : Decidable t.WellFormed := inferInstanceAs (Decidable (_ ∧ _))

def encodeBody (t : KeyTag) : Bytes :=
  word32 keyBits ++ (word32 t.exponent ++ (t.modulus.bytes ++ t.tail.bytes))

def readFields? (b : Bytes) : Option (UInt32 × UInt32 × Block 256 × Block 0x234 × Bytes) := do
  let (bits, b) ← readWord32? b
  let (exponent, b) ← readWord32? b
  let (modulus, b) ← Block.read? 256 b
  let (tail, b) ← Block.read? 0x234 b
  return (bits, exponent, modulus, tail, b)

def readBody (h : TagHeader) (b : Bytes) : Except Fault (KeyTag × Bytes) :=
  match readFields? b with
  | none => .error .tagTruncated
  | some (bits, exponent, modulus, tail, rest) =>
    let t : KeyTag := ⟨h.reserved0, h.reserved1, exponent, modulus, tail⟩
    if bits = keyBits ∧ t.WellFormed then .ok (t, rest) else .error .keyTagInvalid

theorem readFields?_eq_some_iff {b rest : Bytes} {bits exponent : UInt32} {modulus : Block 256}
    {tail : Block 0x234} :
    readFields? b = some (bits, exponent, modulus, tail, rest) ↔
      b = word32 bits ++ (word32 exponent ++ (modulus.bytes ++ (tail.bytes ++ rest))) := by
  simp only [readFields?, Option.bind_eq_bind, Option.bind_eq_some_iff, Prod.exists,
    readWord32?_eq_some_iff, Block.read?_eq_some_iff, Option.pure_def, Option.some.injEq,
    Prod.mk.injEq]
  grind

theorem readBody_eq_ok_iff {h : TagHeader} {b rest : Bytes} {t : KeyTag} :
    readBody h b = .ok (t, rest) ↔
      t.reserved0 = h.reserved0 ∧ t.reserved1 = h.reserved1 ∧ t.WellFormed ∧
        b = t.encodeBody ++ rest := by
  constructor
  · intro hb
    unfold readBody at hb
    split at hb
    · cases hb
    · next hf =>
      rw [readFields?_eq_some_iff] at hf
      simp only at hb
      split at hb
      · next hw =>
        cases hb
        exact ⟨rfl, rfl, hw.2, by rw [hf, hw.1]; simp only [encodeBody, List.append_assoc]⟩
      · cases hb
  · rintro ⟨h0, h1, hw, rfl⟩
    have hf : readFields? (t.encodeBody ++ rest) =
        some (keyBits, t.exponent, t.modulus, t.tail, rest) := by
      rw [readFields?_eq_some_iff]
      simp only [encodeBody, List.append_assoc]
    simp only [readBody, hf, ← h0, ← h1]
    rw [if_pos]
    exact ⟨trivial, hw⟩

end KeyTag

/-- A signature tag. Its one field is the signature, since all else is fixed. -/
@[ext]
structure SignatureTag where
  signature : Block 256
deriving DecidableEq

namespace SignatureTag

def signatureLength : UInt32 := 256

def encodeBody (t : SignatureTag) : Bytes :=
  word32 signatureLength ++ (t.signature.bytes ++ (Block.zero 0x2c).bytes)

def readFields? (b : Bytes) : Option (UInt32 × Block 256 × Block 0x2c × Bytes) := do
  let (length, b) ← readWord32? b
  let (signature, b) ← Block.read? 256 b
  let (tail, b) ← Block.read? 0x2c b
  return (length, signature, tail, b)

def readBody (h : TagHeader) (b : Bytes) : Except Fault (SignatureTag × Bytes) :=
  match readFields? b with
  | none => .error .tagTruncated
  | some (length, signature, tail, rest) =>
    if length = signatureLength ∧ h.reserved0 = 0 ∧ h.reserved1 = 0 ∧ tail = .zero 0x2c then
      .ok (⟨signature⟩, rest)
    else .error .signatureTagInvalid

theorem readFields?_eq_some_iff {b rest : Bytes} {length : UInt32} {signature : Block 256}
    {tail : Block 0x2c} :
    readFields? b = some (length, signature, tail, rest) ↔
      b = word32 length ++ (signature.bytes ++ (tail.bytes ++ rest)) := by
  simp only [readFields?, Option.bind_eq_bind, Option.bind_eq_some_iff, Prod.exists,
    readWord32?_eq_some_iff, Block.read?_eq_some_iff, Option.pure_def, Option.some.injEq,
    Prod.mk.injEq]
  grind

theorem readBody_eq_ok_iff {h : TagHeader} {b rest : Bytes} {t : SignatureTag} :
    readBody h b = .ok (t, rest) ↔
      h.reserved0 = 0 ∧ h.reserved1 = 0 ∧ b = t.encodeBody ++ rest := by
  constructor
  · intro hb
    unfold readBody at hb
    split at hb
    · cases hb
    · next hf =>
      rw [readFields?_eq_some_iff] at hf
      split at hb
      · next hw =>
        obtain ⟨rfl, h0, h1, rfl⟩ := hw
        cases hb
        exact ⟨h0, h1, by rw [hf]; simp only [encodeBody, List.append_assoc]⟩
      · cases hb
  · rintro ⟨h0, h1, rfl⟩
    have hf : readFields? (t.encodeBody ++ rest) =
        some (signatureLength, t.signature, .zero 0x2c, rest) := by
      rw [readFields?_eq_some_iff]
      simp only [encodeBody, List.append_assoc]
    simp only [readBody, hf]
    rw [if_pos]
    exact ⟨trivial, h0, h1, trivial⟩

end SignatureTag

inductive Tag
  | layout (t : LayoutTag)
  | key (t : KeyTag)
  | signature (t : SignatureTag)
deriving DecidableEq

namespace Tag

def kind : Tag → TagKind
  | .layout _ => .layout
  | .key _ => .key
  | .signature _ => .signature

def byteSize (t : Tag) : Nat := t.kind.byteSize

def key? : Tag → Option KeyTag
  | .key t => some t
  | _ => none

def signature? : Tag → Option SignatureTag
  | .signature t => some t
  | _ => none

def header : Tag → TagHeader
  | .layout t => .ofKind .layout t.reserved0 t.reserved1
  | .key t => .ofKind .key t.reserved0 t.reserved1
  | .signature _ => .ofKind .signature 0 0

def encodeBody : Tag → Bytes
  | .layout t => t.encodeBody
  | .key t => t.encodeBody
  | .signature t => t.encodeBody

def encode (t : Tag) : Bytes := t.header.encode ++ t.encodeBody

/-- The rules that a tag of its kind obeys. -/
def WellFormed : Tag → Prop
  | .layout t => t.WellFormed
  | .key t => t.WellFormed
  | .signature _ => True

/-- Reads a tag off the front of a byte string. Octets behind the tag are left alone. -/
def read (b : Bytes) : Except Fault (Tag × Bytes) :=
  match TagHeader.read? b with
  | none => .error .tagTruncated
  | some (h, b) =>
    match TagKind.ofMagic? h.magic with
    | none => .error .tagUnknown
    | some kind =>
      if h.length.toNat ≠ kind.byteSize then .error .tagLengthMismatch
      else
        match kind with
        | .layout => (LayoutTag.readBody h b).map fun (t, rest) => (.layout t, rest)
        | .key => (KeyTag.readBody h b).map fun (t, rest) => (.key t, rest)
        | .signature => (SignatureTag.readBody h b).map fun (t, rest) => (.signature t, rest)

@[simp]
theorem length_encode (t : Tag) : t.encode.length = t.byteSize := by
  cases t <;>
    simp [encode, encodeBody, byteSize, kind, TagKind.byteSize, TagHeader.byteSize,
      LayoutTag.encodeBody, KeyTag.encodeBody, SignatureTag.encodeBody, RegionBlock.byteSize]

theorem header_eq_ofKind {h : TagHeader} {kind : TagKind} (hm : h.magic = kind.magic)
    (hl : h.length.toNat = kind.byteSize) : h = .ofKind kind h.reserved0 h.reserved1 := by
  have : h.length = UInt16.ofNat kind.byteSize := by rw [← hl, UInt16.ofNat_toNat]
  cases h
  simp_all [TagHeader.ofKind]

/-- Reading a tag is splitting off the wire form of a well-formed tag. -/
theorem read_eq_ok_iff {b rest : Bytes} {t : Tag} :
    read b = .ok (t, rest) ↔ t.WellFormed ∧ b = t.encode ++ rest := by
  constructor
  · intro hb
    unfold read at hb
    split at hb
    · cases hb
    · next h b' hh =>
      rw [TagHeader.read?_eq_some_iff] at hh
      split at hb
      · cases hb
      · next kind hk =>
        rw [TagKind.ofMagic?_eq_some_iff] at hk
        split at hb
        · cases hb
        · next hl =>
          have hd := header_eq_ofKind hk (Decidable.not_not.mp hl)
          cases kind with
          | layout =>
            cases hx : LayoutTag.readBody h b' with
            | error f => rw [hx] at hb; cases hb
            | ok x =>
              rw [hx] at hb
              cases hb
              obtain ⟨h0, h1, hw, hb'⟩ := LayoutTag.readBody_eq_ok_iff.mp hx
              refine ⟨hw, ?_⟩
              rw [hh, hb', encode, encodeBody, header, h0, h1, ← hd, List.append_assoc]
          | key =>
            cases hx : KeyTag.readBody h b' with
            | error f => rw [hx] at hb; cases hb
            | ok x =>
              rw [hx] at hb
              cases hb
              obtain ⟨h0, h1, hw, hb'⟩ := KeyTag.readBody_eq_ok_iff.mp hx
              refine ⟨hw, ?_⟩
              rw [hh, hb', encode, encodeBody, header, h0, h1, ← hd, List.append_assoc]
          | signature =>
            cases hx : SignatureTag.readBody h b' with
            | error f => rw [hx] at hb; cases hb
            | ok x =>
              rw [hx] at hb
              cases hb
              obtain ⟨h0, h1, hb'⟩ := SignatureTag.readBody_eq_ok_iff.mp hx
              refine ⟨trivial, ?_⟩
              rw [h0, h1] at hd
              rw [hh, hb', encode, encodeBody, header, ← hd, List.append_assoc]
  · rintro ⟨hw, rfl⟩
    have hh : TagHeader.read? (t.encode ++ rest) = some (t.header, t.encodeBody ++ rest) := by
      rw [TagHeader.read?_eq_some_iff, encode, List.append_assoc]
    have hm : TagKind.ofMagic? t.header.magic = some t.kind := by
      rw [TagKind.ofMagic?_eq_some_iff]
      cases t <;> rfl
    have hl : t.header.length.toNat = t.kind.byteSize := by cases t <;> rfl
    unfold read
    simp only [hh, hm, hl, ne_eq, not_true_eq_false, if_false]
    cases t with
    | layout t =>
      have : LayoutTag.readBody (header (.layout t)) (t.encodeBody ++ rest) = .ok (t, rest) :=
        LayoutTag.readBody_eq_ok_iff.mpr ⟨rfl, rfl, hw, rfl⟩
      simp only [kind, encodeBody, this, Except.map]
    | key t =>
      have : KeyTag.readBody (header (.key t)) (t.encodeBody ++ rest) = .ok (t, rest) :=
        KeyTag.readBody_eq_ok_iff.mpr ⟨rfl, rfl, hw, rfl⟩
      simp only [kind, encodeBody, this, Except.map]
    | signature t =>
      have : SignatureTag.readBody (header (.signature t)) (t.encodeBody ++ rest) = .ok (t, rest) :=
        SignatureTag.readBody_eq_ok_iff.mpr ⟨rfl, rfl, rfl⟩
      simp only [kind, encodeBody, this, Except.map]

/-- A tag that was read takes its whole length off the input. -/
theorem length_of_read {b rest : Bytes} {t : Tag} (h : read b = .ok (t, rest)) :
    b.length = t.byteSize + rest.length := by
  rw [(read_eq_ok_iff.mp h).2, List.length_append, length_encode]

end Tag

end SignedBoot
