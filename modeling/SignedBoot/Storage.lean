import SignedBoot.Container.Carrier

/-!
# Storage and the image loader

A storage answers read requests and may change with each of them. The loader reads the header,
checks it, and only then reads the rest, so the header in the loaded image is the one that was
checked.
-/

namespace SignedBoot

/-- A storage with states `σ`: a read yields the octets asked for or a fault, and the next state. -/
structure Storage (σ : Type) where
  read : σ → (offset : UInt32) → (length : Nat) → Except Fault (Block length) × σ

namespace Storage

/-- The octets of a byte string from an offset on, when there are enough of them. -/
def readBytes (data : Bytes) (offset : UInt32) (length : Nat) : Except Fault (Block length) :=
  if h : offset.toNat + length ≤ data.length then
    .ok ⟨slice data offset.toNat length, by
      rw [slice, List.length_take_of_le]
      rw [List.length_drop]
      omega⟩
  else .error .storageRead

/-- The storage backed by a byte string, which no read changes. -/
def memory : Storage Bytes where
  read data offset length := (readBytes data offset length, data)

/-- The number of readable octets, as a word that stops at its largest value. -/
def memoryLength (data : Bytes) : Nat := min data.length 0xffffffff

/-- Reads into the front of a buffer and leaves the buffer alone when the read fails. -/
def readInto (data : Bytes) (offset : UInt32) (length : Nat) (buffer : Bytes) :
    Except Fault Unit × Bytes :=
  match readBytes data offset length with
  | .ok x => (.ok (), x.bytes ++ buffer.drop length)
  | .error f => (.error f, buffer)

/-- Loads the image at the carrier's base into a buffer of `room` octets. -/
def load {σ : Type} (storage : Storage σ) (state : σ) (carrier : Carrier) (room : Nat) :
    Except Fault Bytes := do
  if room < Header.byteSize then throw .bufferTooSmall
  let (head, state) := storage.read state carrier.base Header.byteSize
  let head ← head
  let (header, _) ← Header.read head.bytes
  header.validate
  carrier.checkFit header.totalLength
  if room < header.totalLength.toNat then throw .bufferTooSmall
  let bodyOffset ←
    match carrier.bodyOffset? with
    | some offset => pure offset
    | none => throw .carrierOverflow
  let (body, _) := storage.read state bodyOffset (header.totalLength.toNat - Header.byteSize)
  let body ← body
  return head.bytes ++ body.bytes

end Storage

end SignedBoot
