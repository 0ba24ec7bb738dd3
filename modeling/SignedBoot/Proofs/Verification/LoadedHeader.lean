import Mathlib
import SignedBoot.Proofs.Container.FormatFaults
import SignedBoot.Proofs.Loading

/-!
# The header of a loaded image

A storage may answer every read as it likes. The loader reads the header once, checks it, and reads
behind it, so the header in what is loaded is the one that was checked, and parsing finds nothing
wrong with it (`Storage.load_keeps_checked_header`). The same is said of a buffer that reads fill
in place, where a read could leave or keep anything in the area that it is given.
-/

namespace SignedBoot

/-! ### Areas of memory -/

/-- A storage that fills areas of memory. It is shown what stands in an area, may write part of it
before it fails, and may leave octets as they are when it does not. -/
structure AreaStorage (σ : Type) where
  fill : σ → (offset : UInt32) → (area : Bytes) → Except Fault Unit × Bytes × σ
  length_fill : ∀ state offset area, (fill state offset area).2.1.length = area.length

/-- What a load leaves: the length of the image or why there is none, the buffer and the storage. -/
structure LoadRun (σ : Type) where
  outcome : Except Fault Nat
  buffer : Bytes
  state : σ

/-- The octets of the buffer that are the image. -/
def LoadRun.image {σ : Type} (r : LoadRun σ) : Except Fault Bytes :=
  r.outcome.map fun total => r.buffer.take total

namespace AreaStorage

variable {σ : Type} (storage : AreaStorage σ)

/-- Fills the part of a buffer from `start` to `stop`. -/
def fillPart (state : σ) (offset : UInt32) (start stop : Nat) (buffer : Bytes) :
    Except Fault Unit × Bytes × σ :=
  let r := storage.fill state offset (slice buffer start (stop - start))
  (r.1, buffer.take start ++ (r.2.1 ++ buffer.drop stop), r.2.2)

section Frame

variable (state : σ) (offset : UInt32) {start stop : Nat} {buffer : Bytes}

theorem length_take_append_fill (hstart : start ≤ stop) (hstop : stop ≤ buffer.length) :
    (buffer.take start ++
      (storage.fill state offset (slice buffer start (stop - start))).2.1).length = stop := by
  rw [List.length_append, storage.length_fill, length_slice (by omega),
    List.length_take_of_le (hstart.trans hstop), Nat.add_sub_cancel' hstart]

theorem length_fillPart (hstart : start ≤ stop) (hstop : stop ≤ buffer.length) :
    (storage.fillPart state offset start stop buffer).2.1.length = buffer.length := by
  have hfront := storage.length_take_append_fill state offset hstart hstop
  rw [fillPart, ← List.append_assoc, List.length_append, hfront, List.length_drop,
    Nat.add_sub_cancel' hstop]

/-- Filling a part of a buffer leaves what is behind the part. -/
theorem drop_fillPart (hstart : start ≤ stop) (hstop : stop ≤ buffer.length) {n : Nat}
    (hn : stop ≤ n) :
    (storage.fillPart state offset start stop buffer).2.1.drop n = buffer.drop n := by
  have hfront := storage.length_take_append_fill state offset hstart hstop
  rw [fillPart, ← List.append_assoc, List.drop_append, List.drop_of_length_le (hfront.trans_le hn),
    hfront, List.nil_append, List.drop_drop, Nat.add_sub_cancel' hn]

end Frame

/-- Fills what is behind the header in an image of a declared length. -/
def fillBody (state : σ) (carrier : Carrier) (total : Nat) (buffer : Bytes) : LoadRun σ :=
  if buffer.length < total then ⟨.error .bufferTooSmall, buffer, state⟩
  else
    match carrier.bodyOffset? with
    | none => ⟨.error .carrierOverflow, buffer, state⟩
    | some offset =>
      let (result, buffer, state) := storage.fillPart state offset Header.byteSize total buffer
      ⟨result.map fun () => total, buffer, state⟩

/-- Loads the image at the carrier's base into a buffer. -/
def loadInto (state : σ) (carrier : Carrier) (buffer : Bytes) : LoadRun σ :=
  if buffer.length < Header.byteSize then ⟨.error .bufferTooSmall, buffer, state⟩
  else
    let (result, buffer, state) := storage.fillPart state carrier.base 0 Header.byteSize buffer
    match result.bind fun () => carrier.declaredLength (buffer.take Header.byteSize) with
    | .error f => ⟨.error f, buffer, state⟩
    | .ok total => storage.fillBody state carrier total buffer

/-- The storage behind the areas of a buffer. Each read fills the next area, and what stands in the
buffer from there on is part of the state. -/
def toStorage : Storage (σ × Bytes) where
  read s offset length :=
    let r := storage.fill s.1 offset (Block.ofPadded length s.2).bytes
    (r.1.map fun () => ⟨r.2.1, (storage.length_fill _ _ _).trans (Block.length_bytes _)⟩,
      (r.2.2, s.2.drop length))

theorem fill_of_read {s s' : σ × Bytes} {offset : UInt32} {n : Nat} {x : Block n}
    (hn : n ≤ s.2.length) (h : storage.toStorage.read s offset n = (.ok x, s')) :
    storage.fill s.1 offset (slice s.2 0 n) = (.ok (), x.bytes, s'.1) ∧ s'.2 = s.2.drop n := by
  rw [← Block.bytes_ofPadded_of_le hn]
  obtain ⟨⟨result, area, state⟩, hfill⟩ :
    ∃ r, storage.fill s.1 offset (Block.ofPadded n s.2).bytes = r := ⟨_, rfl⟩
  simp only [toStorage, hfill] at h ⊢
  cases result with
  | error f => cases h
  | ok u =>
    cases h
    exact ⟨rfl, rfl⟩

/-- Behind a header, filling a buffer in place is reading. -/
theorem image_fillBody {state : σ} {carrier : Carrier} {total : Nat} {head tail : Bytes}
    (hhead : head.length = Header.byteSize) (hfits : carrier.Fits total) :
    (storage.fillBody state carrier total (head ++ tail)).image =
      if (head ++ tail).length < total then .error .bufferTooSmall else
        (storage.toStorage.read (state, tail) (carrier.base + 0x44)
          (total - Header.byteSize)).1.map fun body => head ++ body.bytes := by
  have hheader : Header.byteSize ≤ total := hfits.header_le
  unfold fillBody
  by_cases hwhole : (head ++ tail).length < total
  · rw [if_pos hwhole, if_pos hwhole]
    rfl
  have hbehind : total - Header.byteSize ≤ tail.length := by
    rw [List.length_append] at hwhole
    omega
  have harea : slice (head ++ tail) Header.byteSize (total - Header.byteSize) =
      (Block.ofPadded (total - Header.byteSize) tail).bytes := by
    rw [Block.bytes_ofPadded_of_le hbehind, slice_append_of_le _ _ hhead.le, hhead, Nat.sub_self]
  rw [if_neg hwhole, if_neg hwhole, hfits.bodyOffset?_eq.1]
  simp only [fillPart, harea, List.take_left' hhead, toStorage]
  obtain ⟨⟨result, body, state'⟩, hfill⟩ : ∃ r, storage.fill state (carrier.base + 0x44)
    (Block.ofPadded (total - Header.byteSize) tail).bytes = r := ⟨_, rfl⟩
  have hlength : (head ++ body).length = total := by
    have hbody := storage.length_fill state (carrier.base + 0x44)
      (Block.ofPadded (total - Header.byteSize) tail).bytes
    rw [hfill, Block.length_bytes] at hbody
    rw [List.length_append, hhead, hbody, Nat.add_sub_cancel' hheader]
  simp only [hfill]
  cases result with
  | error f => rfl
  | ok u =>
    change Except.ok (List.take total (head ++ (body ++ _))) = Except.ok (head ++ body)
    rw [← List.append_assoc, List.take_left' hlength]

/-- Loading into a buffer in place is loading what the areas of the buffer are filled with. -/
theorem load_toStorage (state : σ) (carrier : Carrier) (buffer : Bytes) :
    storage.toStorage.load (state, buffer) carrier buffer.length =
      (storage.loadInto state carrier buffer).image := by
  rw [Storage.load_eq]
  by_cases hroom : buffer.length < Header.byteSize
  · rw [loadInto, if_pos hroom, if_pos hroom]
    rfl
  rw [loadInto, if_neg hroom, if_neg hroom]
  have hfront : (Block.ofPadded Header.byteSize buffer).bytes = slice buffer 0 Header.byteSize :=
    Block.bytes_ofPadded_of_le (not_lt.mp hroom)
  obtain ⟨⟨result, head, state'⟩, hfill⟩ : ∃ r, storage.fill state carrier.base
    (slice buffer 0 Header.byteSize) = r := ⟨_, rfl⟩
  have hhead : head.length = Header.byteSize := by
    have hlength := storage.length_fill state carrier.base (slice buffer 0 Header.byteSize)
    rwa [hfill, length_slice (by omega)] at hlength
  have htake : (head ++ buffer.drop Header.byteSize).take Header.byteSize = head :=
    List.take_left' hhead
  have hlength : (head ++ buffer.drop Header.byteSize).length = buffer.length := by
    rw [List.length_append, List.length_drop]
    omega
  have hread : storage.toStorage.read (state, buffer) carrier.base Header.byteSize =
      (result.map fun () => ⟨head, hhead⟩, (state', buffer.drop Header.byteSize)) := by
    simp only [toStorage, hfront, hfill]
  simp only [fillPart, Nat.sub_zero, hfill, List.take_zero, List.nil_append, hread]
  cases result with
  | error f => rfl
  | ok u =>
    change (carrier.declaredLength head >>= _) = _
    simp only [Except.bind, htake]
    cases hdeclared : carrier.declaredLength head with
    | error f => rfl
    | ok total =>
      rw [storage.image_fillBody hhead (Carrier.fits_of_declaredLength hdeclared), hlength]
      rfl

/-- A buffer before and after it took an image: there is room for the image, and behind the image
nothing has changed. -/
structure Extends (total : Nat) (before after : Bytes) : Prop where
  length : after.length = before.length
  le : total ≤ before.length
  drop : after.drop total = before.drop total

theorem Extends.eq_append {total : Nat} {before after : Bytes} (h : Extends total before after) :
    (after.take total).length = total ∧ after = after.take total ++ before.drop total := by
  refine ⟨List.length_take_of_le (h.le.trans_eq h.length.symm), ?_⟩
  rw [← h.drop, List.take_append_drop]

theorem extends_fillBody {state : σ} {carrier : Carrier} {declared total : Nat} {buffer : Bytes}
    (hheader : Header.byteSize ≤ declared)
    (h : (storage.fillBody state carrier declared buffer).outcome = .ok total) :
    total = declared ∧
      Extends total buffer (storage.fillBody state carrier declared buffer).buffer := by
  unfold fillBody at h ⊢
  by_cases hwhole : buffer.length < declared
  · rw [if_pos hwhole] at h
    cases h
  rw [if_neg hwhole] at h ⊢
  rw [not_lt] at hwhole
  cases hoffset : carrier.bodyOffset? with
  | none =>
    rw [hoffset] at h
    cases h
  | some offset =>
    rw [hoffset] at h
    dsimp only at h ⊢
    cases hresult : (storage.fillPart state offset Header.byteSize declared buffer).1 with
    | error f =>
      rw [hresult] at h
      cases h
    | ok u =>
      rw [hresult] at h
      cases h
      exact ⟨rfl, storage.length_fillPart state offset hheader hwhole, hwhole,
        storage.drop_fillPart state offset hheader hwhole le_rfl⟩

/-- Loading leaves what is behind the image in a buffer. -/
theorem extends_loadInto {state : σ} {carrier : Carrier} {buffer : Bytes} {total : Nat}
    (h : (storage.loadInto state carrier buffer).outcome = .ok total) :
    Extends total buffer (storage.loadInto state carrier buffer).buffer := by
  unfold loadInto at h ⊢
  by_cases hroom : buffer.length < Header.byteSize
  · rw [if_pos hroom] at h
    cases h
  rw [if_neg hroom] at h ⊢
  rw [not_lt] at hroom
  have hlength := storage.length_fillPart state carrier.base (Nat.zero_le _) hroom
  have hfront {n : Nat} (hn : Header.byteSize ≤ n) :=
    storage.drop_fillPart state carrier.base (Nat.zero_le _) hroom hn
  rcases hfill : storage.fillPart state carrier.base 0 Header.byteSize buffer with
    ⟨result, front, state'⟩
  simp only [hfill] at h hlength hfront ⊢
  cases hdeclared : result.bind fun () => carrier.declaredLength (front.take Header.byteSize) with
  | error f =>
    rw [hdeclared] at h
    cases h
  | ok declared =>
    rw [hdeclared] at h
    obtain ⟨-, -, hfit⟩ := bind_eq_ok_iff.mp hdeclared
    have hheader : Header.byteSize ≤ declared := (Carrier.fits_of_declaredLength hfit).header_le
    obtain ⟨rfl, hbody⟩ := storage.extends_fillBody hheader h
    exact ⟨hbody.length.trans hlength, hbody.le.trans_eq hlength,
      hbody.drop.trans (hfront hheader)⟩

theorem buffer_of_image {state : σ} {carrier : Carrier} {buffer b : Bytes}
    (h : (storage.loadInto state carrier buffer).image = .ok b) :
    (storage.loadInto state carrier buffer).buffer = b ++ buffer.drop b.length := by
  unfold LoadRun.image at h
  cases houtcome : (storage.loadInto state carrier buffer).outcome with
  | error f =>
    rw [houtcome] at h
    cases h
  | ok total =>
    rw [houtcome] at h
    cases h
    obtain ⟨hlength, hbuffer⟩ := (storage.extends_loadInto houtcome).eq_append
    rw [hlength]
    exact hbuffer

end AreaStorage

/-! ### The checked header -/

/-- The header at the front of an image passed the checks, and passes them again when the image is
parsed under the same carrier, which can only find something wrong behind the header. -/
structure Carrier.CheckedHeader (carrier : Carrier) (header : Header) (b : Bytes) : Prop where
  read : ∃ rest, Header.read b = .ok (header, rest)
  totalLength : header.totalLength.toNat = b.length
  validate : header.validate = .ok ()
  checkFit : carrier.checkFit header.totalLength = .ok ()
  parse : FailsWith
    (fun f => f.Concerns ImagePart.behindHeader ∧ ¬ f.Concerns ImagePart.atHeader)
    (BootImage.parse b carrier)

namespace Storage

variable {σ : Type}

theorem Loads.checkedHeader {storage : Storage σ} {state : σ} {carrier : Carrier} {room : Nat}
    {header : Header} {body : Block (header.totalLength.toNat - Header.byteSize)}
    {state' state'' : σ} (h : storage.Loads state carrier room header body state' state'') :
    carrier.CheckedHeader header (header.encode ++ body.bytes) := by
  have hheader : Header.byteSize ≤ header.totalLength.toNat := h.fits.header_le
  have hread : Header.read (header.encode ++ body.bytes) = .ok (header, body.bytes) :=
    Header.read_eq_ok_iff.mpr rfl
  have hlength : header.totalLength.toNat = (header.encode ++ body.bytes).length := by
    rw [List.length_append, header.length_encode, body.length_bytes, Nat.add_sub_cancel' hheader]
  have hvalid := header.validate_eq_ok_iff.mpr h.valid
  have hfit := (carrier.checkFit_eq_ok_iff _).mpr h.fits
  have hcheck := BootImage.checkHeader_eq_ok_iff.mpr ⟨header, _, hread, hvalid, hfit, hlength⟩
  refine ⟨⟨_, hread⟩, hlength, hvalid, hfit, fun f hf => ?_⟩
  rcases BootImage.parse_failsWith _ carrier f hf with hrefused | hbehind
  · rw [hcheck] at hrefused
    cases hrefused
  · exact ⟨hbehind, hbehind.not_atHeader⟩

/-- Whatever a storage answers, and whatever it does to the areas of a buffer, an image that is
loaded is the header that was read once and checked, and behind it what the second read yielded. The
buffer behind the image stays as it was, and parsing finds nothing wrong with the header. -/
theorem load_keeps_checked_header (carrier : Carrier) :
    (∀ (storage : Storage σ) state room b, storage.load state carrier room = .ok b →
      ∃ header body state' state'', storage.Loads state carrier room header body state' state'' ∧
        b = header.encode ++ body.bytes ∧ carrier.CheckedHeader header b) ∧
    ∀ (storage : AreaStorage σ) state buffer,
      storage.toStorage.load (state, buffer) carrier buffer.length =
        (storage.loadInto state carrier buffer).image ∧
      ∀ b, (storage.loadInto state carrier buffer).image = .ok b →
        ∃ header body state' state'',
          storage.fill state carrier.base (slice buffer 0 0x44) =
            (.ok (), header.encode, state') ∧
          storage.fill state' (carrier.base + 0x44) (slice buffer 0x44 (b.length - 0x44)) =
            (.ok (), body, state'') ∧
          (storage.loadInto state carrier buffer).buffer = b ++ buffer.drop b.length ∧
          b = header.encode ++ body ∧ carrier.CheckedHeader header b := by
  constructor
  · intro storage state room b h
    obtain ⟨header, body, state', state'', hloads, rfl⟩ := load_eq_ok_iff.mp h
    exact ⟨header, body, state', state'', hloads, rfl, hloads.checkedHeader⟩
  · intro storage state buffer
    have hload := storage.load_toStorage state carrier buffer
    refine ⟨hload, fun b hb => ?_⟩
    obtain ⟨header, body, s', s'', hloads, rfl⟩ := load_eq_ok_iff.mp (hload.trans hb)
    have hchecked := hloads.checkedHeader
    have hheader : 0x44 ≤ header.totalLength.toNat := hloads.fits.header_le
    have hroom := hloads.le_room
    obtain ⟨hhead, hahead⟩ := storage.fill_of_read (hheader.trans hroom) hloads.readHeader
    have hbehind : header.totalLength.toNat - 0x44 ≤ s'.2.length := by
      rw [hahead, List.length_drop]
      exact Nat.sub_le_sub_right hroom _
    obtain ⟨hbody, -⟩ := storage.fill_of_read hbehind hloads.readBody
    rw [hahead] at hbody
    refine ⟨header, body.bytes, s'.1, s''.1, hhead, ?_, storage.buffer_of_image hb, rfl, hchecked⟩
    rw [← hchecked.totalLength]
    exact hbody

/-- A header that declares a descriptor of eight octets and nothing behind it. -/
def shortHeader : Header := { Header.template with sizeWord := 8, totalLength := 0x4c }

/-- A storage that yields a header at the first read and other octets ever after, wherever it is
read. -/
def turncoat : AreaStorage Bool where
  fill read _ area :=
    (.ok (), (Block.ofPadded area.length (if read then [] else shortHeader.encode)).bytes, true)
  length_fill _ _ _ := Block.length_bytes _

/-- The image that is loaded from such a storage has the header of the first read, and what is wrong
with it is behind the header. -/
theorem load_keeps_checked_header_turncoat : ∃ b,
    (turncoat.loadInto false .unbounded (List.replicate 0x50 1)).image = .ok b ∧
      (turncoat.fill true 0 (slice (List.replicate 0x50 1) 0 0x44)).2.1 ≠ shortHeader.encode ∧
      Carrier.unbounded.CheckedHeader shortHeader b ∧
      BootImage.parse b .unbounded = .error .descriptorVersion := by
  have himage : (turncoat.loadInto false .unbounded (List.replicate 0x50 1)).image =
      .ok (shortHeader.encode ++ List.replicate 8 0) := by decide +kernel
  obtain ⟨header, body, state', state'', -, -, -, -, hchecked⟩ :=
    ((load_keeps_checked_header .unbounded).2 turncoat false _).2 _ himage
  obtain ⟨rest, hread⟩ := hchecked.read
  have hshort : Header.read (shortHeader.encode ++ List.replicate 8 0) = .ok (shortHeader, _) :=
    Header.read_eq_ok_iff.mpr rfl
  rw [hshort] at hread
  cases hread
  exact ⟨_, himage, by decide +kernel, hchecked, by decide +kernel⟩

end Storage

end SignedBoot
