import Mathlib
import SignedBoot.Proofs.Bytes.Slices
import SignedBoot.Proofs.Container.Format
import SignedBoot.Storage

/-!
# What is loaded

Loading reads twice: a header, which has to be valid and to fit, and what it declares behind it
(`Storage.load_eq_ok_iff`). Loading from a byte string succeeds when such a header stands at the
carrier's base, with room and octets for all that it declares, and yields just these octets
(`Storage.load_memory_eq_ok_iff`).
-/

namespace SignedBoot

namespace Carrier

/-- Behind a header that ends below the limit there is always an offset. -/
theorem Fits.bodyOffset?_eq {c : Carrier} {total : Nat} (h : c.Fits total) :
    c.bodyOffset? = some (c.base + 0x44) ∧ (c.base + 0x44).toNat = c.base.toNat + 0x44 := by
  have hheader : 0x44 ≤ total := h.header_le
  have hlimit := h.limit
  have hword := c.limit.toNat_lt
  have hlt : c.base.toNat + Header.byteSize < UInt32.size := by
    simp only [Header.byteSize, UInt32.size]
    omega
  refine ⟨if_pos hlt, ?_⟩
  rw [UInt32.toNat_add]
  exact Nat.mod_eq_of_lt hlt

end Carrier

/-- The wire form of a header as a block. -/
def Header.block (h : Header) : Block Header.byteSize := ⟨h.encode, h.length_encode⟩

theorem Header.read_block_eq_ok_iff {x : Block Header.byteSize} {h : Header} {rest : Bytes} :
    Header.read x.bytes = .ok (h, rest) ↔ x = h.block ∧ rest = [] := by
  rw [read_eq_ok_iff]
  constructor
  · intro hx
    have hlength := congrArg List.length hx
    rw [x.length_bytes, List.length_append, h.length_encode] at hlength
    obtain rfl : rest = [] := List.eq_nil_of_length_eq_zero (by omega)
    rw [List.append_nil] at hx
    exact ⟨Block.ext hx, rfl⟩
  · rintro ⟨rfl, rfl⟩
    exact (List.append_nil _).symm

/-- The length that a header declares, once the header is valid and the length fits. -/
def Carrier.declaredLength (c : Carrier) (head : Bytes) : Except Fault Nat := do
  let (header, _) ← Header.read head
  header.validate
  c.checkFit header.totalLength
  return header.totalLength.toNat

theorem Carrier.fits_of_declaredLength {c : Carrier} {head : Bytes} {total : Nat}
    (h : c.declaredLength head = .ok total) : c.Fits total := by
  simp only [declaredLength, bind_eq_ok_iff] at h
  obtain ⟨header, -, ⟨⟩, -, ⟨⟩, hfit, htotal⟩ := h
  cases htotal
  exact (c.checkFit_eq_ok_iff _).mp hfit

theorem Carrier.declaredLength_eq_ok_iff {c : Carrier} {head : Block Header.byteSize}
    {total : Nat} :
    c.declaredLength head.bytes = .ok total ↔ ∃ header : Header, head = header.block ∧
      header.Valid ∧ c.Fits total ∧ header.totalLength.toNat = total := by
  simp only [declaredLength, bind_eq_ok_iff, Prod.exists, Header.read_block_eq_ok_iff]
  constructor
  · rintro ⟨header, rest, ⟨rfl, -⟩, ⟨⟩, hvalid, ⟨⟩, hfit, ⟨⟩⟩
    exact ⟨header, rfl, header.validate_eq_ok_iff.mp hvalid, (c.checkFit_eq_ok_iff _).mp hfit, rfl⟩
  · rintro ⟨header, rfl, hvalid, hfits, rfl⟩
    exact ⟨header, [], ⟨rfl, rfl⟩, (), header.validate_eq_ok_iff.mpr hvalid, (),
      (c.checkFit_eq_ok_iff _).mpr hfits, rfl⟩

namespace Storage

variable {σ : Type}

/-- The loader reads twice. Behind a header that passed the checks no offset is missing. -/
theorem load_eq (storage : Storage σ) (state : σ) (carrier : Carrier) (room : Nat) :
    storage.load state carrier room =
      if room < Header.byteSize then .error .bufferTooSmall else
        (storage.read state carrier.base Header.byteSize).1 >>= fun head =>
        carrier.declaredLength head.bytes >>= fun total =>
        if room < total then .error .bufferTooSmall else
          (storage.read (storage.read state carrier.base Header.byteSize).2 (carrier.base + 0x44)
            (total - Header.byteSize)).1.map fun body => head.bytes ++ body.bytes := by
  unfold load Carrier.declaredLength
  by_cases hroom : room < Header.byteSize
  · rw [if_pos hroom, if_pos hroom]
    rfl
  rw [if_neg hroom, if_neg hroom]
  rcases storage.read state carrier.base Header.byteSize with ⟨head | head, state'⟩
  · rfl
  change (Header.read head.bytes >>= _) = ((Header.read head.bytes >>= _) >>= _)
  rcases Header.read head.bytes with f | ⟨header, rest⟩
  · rfl
  change (header.validate >>= _) = ((header.validate >>= _) >>= _)
  cases header.validate with
  | error f => rfl
  | ok u =>
    change (carrier.checkFit header.totalLength >>= _) =
      ((carrier.checkFit header.totalLength >>= _) >>= _)
    cases hfit : carrier.checkFit header.totalLength with
    | error f => rfl
    | ok u =>
      have hoffset := ((carrier.checkFit_eq_ok_iff _).mp hfit).bodyOffset?_eq.1
      simp only [hoffset]
      rfl

/-- A storage answers the read of a header that is valid and fits the carrier and the room, and
after that the read of what the header declares behind it. -/
structure Loads (storage : Storage σ) (state : σ) (carrier : Carrier) (room : Nat)
    (header : Header) (body : Block (header.totalLength.toNat - Header.byteSize))
    (state' state'' : σ) : Prop where
  readHeader : storage.read state carrier.base Header.byteSize = (.ok header.block, state')
  valid : header.Valid
  fits : carrier.Fits header.totalLength.toNat
  le_room : header.totalLength.toNat ≤ room
  readBody :
    storage.read state' (carrier.base + 0x44) (header.totalLength.toNat - Header.byteSize) =
    (.ok body, state'')

theorem load_eq_ok_iff {storage : Storage σ} {state : σ} {carrier : Carrier} {room : Nat}
    {b : Bytes} :
    storage.load state carrier room = .ok b ↔ ∃ header body state' state'',
      storage.Loads state carrier room header body state' state'' ∧
        b = header.encode ++ body.bytes := by
  rw [load_eq]
  constructor
  · intro h
    split at h
    · cases h
    obtain ⟨head, hhead, h⟩ := bind_eq_ok_iff.mp h
    obtain ⟨total, htotal, h⟩ := bind_eq_ok_iff.mp h
    obtain ⟨header, rfl, hvalid, hfits, rfl⟩ := Carrier.declaredLength_eq_ok_iff.mp htotal
    split at h
    · cases h
    rename_i hroom
    rcases hbody : storage.read (storage.read state carrier.base Header.byteSize).2
      (carrier.base + 0x44) (header.totalLength.toNat - Header.byteSize) with ⟨f | body, state''⟩
    · rw [hbody] at h
      cases h
    · rw [hbody] at h
      cases h
      exact ⟨header, body, _, state'', ⟨Prod.ext hhead rfl, hvalid, hfits, not_lt.mp hroom, hbody⟩,
        rfl⟩
  · rintro ⟨header, body, state', state'', h, rfl⟩
    have hheader : Header.byteSize ≤ header.totalLength.toNat := h.fits.header_le
    have hdeclared : carrier.declaredLength header.block.bytes = .ok header.totalLength.toNat :=
      Carrier.declaredLength_eq_ok_iff.mpr ⟨header, rfl, h.valid, h.fits, rfl⟩
    rw [if_neg (not_lt.mpr (hheader.trans h.le_room)), h.readHeader]
    change (carrier.declaredLength header.block.bytes >>= _) = _
    rw [hdeclared]
    change (if room < header.totalLength.toNat then _ else _) = _
    rw [if_neg (not_lt.mpr h.le_room), h.readBody]
    rfl

/-! ### Memory -/

theorem readBytes_eq_ok_iff {data : Bytes} {offset : UInt32} {n : Nat} {x : Block n} :
    readBytes data offset n = .ok x ↔
      offset.toNat + n ≤ data.length ∧ x.bytes = slice data offset.toNat n := by
  unfold readBytes
  constructor
  · intro h
    split at h
    · rename_i hle
      cases h
      exact ⟨hle, rfl⟩
    · cases h
  · rintro ⟨hle, hx⟩
    rw [dif_pos hle]
    exact congrArg Except.ok (Block.ext hx.symm)

/-- A memory holds at the base of the carrier a valid header that fits, and all that it declares. -/
structure Holds (data : Bytes) (carrier : Carrier) (header : Header) : Prop where
  header_eq : slice data carrier.base.toNat 0x44 = header.encode
  valid : header.Valid
  fits : carrier.Fits header.totalLength.toNat
  end_le : carrier.base.toNat + header.totalLength.toNat ≤ data.length

theorem load_memory_eq_ok_iff {data b : Bytes} {carrier : Carrier} {room : Nat} :
    memory.load data carrier room = .ok b ↔ ∃ header : Header, Holds data carrier header ∧
      header.totalLength.toNat ≤ room ∧
      b = slice data carrier.base.toNat header.totalLength.toNat := by
  have hjoin {total : Nat} (hle : 0x44 ≤ total) :
      slice data carrier.base.toNat 0x44 ++ slice data (carrier.base.toNat + 0x44) (total - 0x44) =
        slice data carrier.base.toNat total := by
    rw [slice_append_slice, Nat.add_sub_cancel' hle]
  rw [load_eq_ok_iff]
  constructor
  · rintro ⟨header, body, state', state'', h, rfl⟩
    obtain rfl : data = state' := congrArg Prod.snd h.readHeader
    obtain ⟨-, hhead⟩ := readBytes_eq_ok_iff.mp (congrArg Prod.fst h.readHeader)
    obtain ⟨hend, hbody⟩ := readBytes_eq_ok_iff.mp (congrArg Prod.fst h.readBody)
    have hheader : 0x44 ≤ header.totalLength.toNat := h.fits.header_le
    rw [h.fits.bodyOffset?_eq.2] at hend hbody
    refine ⟨header, ⟨hhead.symm, h.valid, h.fits, ?_⟩, h.le_room, ?_⟩
    · simp only [Header.byteSize] at hend
      omega
    · rw [hbody, show header.encode = _ from hhead]
      exact hjoin hheader
  · rintro ⟨header, h, hroom, rfl⟩
    have hword := h.fits.bodyOffset?_eq.2
    have hheader : 0x44 ≤ header.totalLength.toNat := h.fits.header_le
    have hend := h.end_le
    have hbehind : carrier.base.toNat + 0x44 + (header.totalLength.toNat - 0x44) ≤ data.length := by
      omega
    have hlength : (slice data (carrier.base.toNat + 0x44)
        (header.totalLength.toNat - 0x44)).length = header.totalLength.toNat - 0x44 :=
      length_slice hbehind
    refine ⟨header, ⟨_, hlength⟩, data, data, ⟨?_, h.valid, h.fits, hroom, ?_⟩, ?_⟩
    · exact congrArg (·, data) (readBytes_eq_ok_iff.mpr ⟨by simp only [Header.byteSize]; omega,
        h.header_eq.symm⟩)
    · refine congrArg (·, data) (readBytes_eq_ok_iff.mpr ?_)
      rw [hword]
      exact ⟨hbehind, rfl⟩
    · rw [← h.header_eq]
      exact (hjoin hheader).symm

end Storage

namespace BootImage

/-- A memory that is one image is loaded as it is. -/
theorem WellFormed.load_memory {i : BootImage} (hi : i.WellFormed) {carrier : Carrier}
    (hbase : carrier.base = 0) (hfits : carrier.Fits i.totalLength) :
    Storage.memory.load i.encode carrier i.encode.length = .ok i.encode := by
  have htotal := hi.length_encode
  refine Storage.load_memory_eq_ok_iff.mpr ⟨i.header, ⟨?_, hi.header, hfits, ?_⟩, ?_, ?_⟩
  · rw [hbase, encode_eq_append]
    exact slice_append_zero _ i.header.length_encode
  · rw [hbase, htotal]
    exact (Nat.zero_add _).le
  · rw [htotal]
    rfl
  · rw [hbase]
    exact (slice_zero_eq_self htotal).symm

end BootImage

end SignedBoot
