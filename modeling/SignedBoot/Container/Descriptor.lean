import SignedBoot.Container.Header

/-!
# Descriptors and their load entries

A descriptor region starts with a version, the number of load entries and the trailer offset,
followed by the entries; whatever is left of the region is slack that no rule reads. The same
form stands after the fixed header and, with wider bounds, inside a layout tag.
-/

namespace SignedBoot

/-- A range of the image that is to be loaded. -/
@[ext]
structure LoadEntry where
  offset : UInt32
  size : UInt32
deriving DecidableEq

namespace LoadEntry

def byteSize : Nat := 8

/-- The offset one past the entry, which may exceed a word. -/
def limit (e : LoadEntry) : Nat := e.offset.toNat + e.size.toNat

/-- The first octet and the one after the last, unless the range wraps. -/
def range? (e : LoadEntry) : Option (Nat × Nat) :=
  if e.limit < UInt32.size then some (e.offset.toNat, e.limit) else none

/-- An entry is sound when it is not empty and does not wrap. -/
def Sound (e : LoadEntry) : Prop := e.size ≠ 0 ∧ e.limit < UInt32.size

instance (e : LoadEntry) : Decidable e.Sound := inferInstanceAs (Decidable (_ ∧ _))

def Within (e : LoadEntry) (start stop : Nat) : Prop := start ≤ e.offset.toNat ∧ e.limit ≤ stop

instance (e : LoadEntry) (start stop : Nat) : Decidable (e.Within start stop) :=
  inferInstanceAs (Decidable (_ ∧ _))

def encode (e : LoadEntry) : Bytes := word32 e.offset ++ word32 e.size

def read? (b : Bytes) : Option (LoadEntry × Bytes) := do
  let (offset, b) ← readWord32? b
  let (size, b) ← readWord32? b
  return ({ offset, size }, b)

def readMany? : (count : Nat) → (b : Bytes) → Option (List LoadEntry × Bytes)
  | 0, b => some ([], b)
  | count + 1, b => do
    let (e, b) ← read? b
    let (es, b) ← readMany? count b
    return (e :: es, b)

@[simp]
theorem length_encode (e : LoadEntry) : e.encode.length = byteSize := by simp [encode, byteSize]

theorem read?_eq_some_iff {b rest : Bytes} {e : LoadEntry} :
    read? b = some (e, rest) ↔ b = e.encode ++ rest := by
  constructor
  · intro h
    simp only [read?, Option.bind_eq_bind, Option.bind_eq_some_iff, Prod.exists,
      readWord32?_eq_some_iff, Option.pure_def, Option.some.injEq, Prod.mk.injEq] at h
    obtain ⟨_, _, rfl, _, _, rfl, rfl, rfl⟩ := h
    simp [encode]
  · rintro rfl
    simp only [read?, Option.bind_eq_bind, Option.bind_eq_some_iff, Prod.exists,
      readWord32?_eq_some_iff, Option.pure_def, Option.some.injEq, Prod.mk.injEq]
    exact ⟨_, _, by simp only [encode, List.append_assoc], _, _, rfl, rfl, rfl⟩

theorem readMany?_eq_some_iff {count : Nat} {b rest : Bytes} {es : List LoadEntry} :
    readMany? count b = some (es, rest) ↔ es.length = count ∧ b = es.flatMap encode ++ rest := by
  induction count generalizing b es rest with
  | zero =>
    cases es with
    | nil => simp [readMany?]
    | cons e es => simp [readMany?]
  | succ count ih =>
    simp only [readMany?, Option.bind_eq_bind, Option.bind_eq_some_iff, Prod.exists,
      read?_eq_some_iff, ih, Option.pure_def, Option.some.injEq, Prod.mk.injEq]
    constructor
    · rintro ⟨e, _, rfl, es, _, ⟨rfl, rfl⟩, rfl, rfl⟩
      simp
    · rintro ⟨hl, rfl⟩
      cases es with
      | nil => simp at hl
      | cons e es =>
        exact ⟨e, es.flatMap encode ++ rest, by simp, es, rest,
          ⟨by simpa using hl, rfl⟩, rfl, rfl⟩

end LoadEntry

/-- A descriptor with the slack that follows its entries. -/
@[ext]
structure Descriptor where
  /-- The offset of the first tag; embedded descriptors carry it unused. -/
  trailerOffset : UInt32
  entries : List LoadEntry
  slack : Bytes
deriving DecidableEq

/-- Where a descriptor stands, which decides its bounds. -/
inductive DescriptorPlace
  | header
  | embedded
deriving DecidableEq

namespace DescriptorPlace

def maxEntries : DescriptorPlace → Nat
  | .header => 8
  | .embedded => 0x40

def maxByteSize : DescriptorPlace → Nat
  | .header => Header.maxDescriptorLength
  | .embedded => 0x418

end DescriptorPlace

namespace Descriptor

/-- The only version there is. -/
def version : UInt16 := 1

/-- The length of a descriptor without entries and slack. -/
def headByteSize : Nat := 8

def windowByteSize : Nat := 0x418

def encode (d : Descriptor) : Bytes :=
  word16 version ++ (word16 (UInt16.ofNat d.entries.length) ++ (word32 d.trailerOffset ++
    (d.entries.flatMap LoadEntry.encode ++ d.slack)))

/-- Reads the version, the number of entries and the trailer offset. -/
def readHead? (b : Bytes) : Option ((UInt16 × UInt16 × UInt32) × Bytes) := do
  let (version, b) ← readWord16? b
  let (count, b) ← readWord16? b
  let (trailerOffset, b) ← readWord32? b
  return ((version, count, trailerOffset), b)

def parse (place : DescriptorPlace) (b : Bytes) : Except Fault Descriptor :=
  if b.length > place.maxByteSize then .error .descriptorSize
  else
    match readHead? b with
    | none => .error .descriptorTruncated
    | some ((v, count, trailerOffset), b) =>
      if v ≠ version then .error .descriptorVersion
      else if count.toNat > place.maxEntries then .error .descriptorCount
      else
        match LoadEntry.readMany? count.toNat b with
        | none => .error .descriptorSize
        | some (entries, slack) =>
          if ∀ e ∈ entries, e.Sound then .ok { trailerOffset, entries, slack }
          else .error .descriptorEntryInvalid

end Descriptor

end SignedBoot
