import Mathlib
import SignedBoot.Proofs.Bytes.Slices
import SignedBoot.Proofs.Container.Trailer

/-!
# Walks over tags, step by step

What a walk yields from any octets, tags or not. A tag is judged by its own octets
(`Tag.read_ownOctets`), so a walk can be told by rules that look at one tag at a time (`TagWalk`,
`tagWalk_iff`). From the rules follows what every walk comes to: tags in a row with at most one
fault behind them, and not more of them than there is room for (`TagWalk.exists_walkedTags`).
-/

namespace SignedBoot

/-! ### Octets in front -/

theorem exists_block_front {n k : Nat} {b : Bytes} (h : b.length = n + k) :
    ∃ (x : Block k) (rest : Bytes), b = x.bytes ++ rest ∧ rest.length = n := by
  obtain ⟨x, rest, rfl⟩ := exists_block_append (n := k) (b := b) (by omega)
  rw [List.length_append, Block.length_bytes] at h
  exact ⟨x, rest, rfl, by omega⟩

theorem exists_word16_front {n : Nat} {b : Bytes} (h : b.length = n + 2) :
    ∃ (w : UInt16) (rest : Bytes), b = word16 w ++ rest ∧ rest.length = n := by
  obtain ⟨w, rest, rfl⟩ := exists_word16_append (b := b) (by omega)
  rw [List.length_append, length_word16] at h
  exact ⟨w, rest, rfl, by omega⟩

theorem exists_word32_front {n : Nat} {b : Bytes} (h : b.length = n + 4) :
    ∃ (w : UInt32) (rest : Bytes), b = word32 w ++ rest ∧ rest.length = n := by
  obtain ⟨w, rest, rfl⟩ := exists_word32_append (b := b) (by omega)
  rw [List.length_append, length_word32] at h
  exact ⟨w, rest, rfl, by omega⟩

/-- A reader that judges its first `n` octets and leaves the rest alone. -/
def TakesFront {α : Type} (read : Bytes → Except Fault (α × Bytes)) (n : Nat) : Prop :=
  ∀ front : Bytes, front.length = n →
    ∃ verdict : Except Fault α, ∀ rest, read (front ++ rest) = verdict.map fun a => (a, rest)

theorem TakesFront.map {α β : Type} {read : Bytes → Except Fault (α × Bytes)} {n : Nat}
    (hread : TakesFront read n) (g : α → β) :
    TakesFront (fun b => (read b).map fun (a, rest) => (g a, rest)) n := by
  intro front hl
  obtain ⟨verdict, hverdict⟩ := hread front hl
  refine ⟨verdict.map g, fun rest => ?_⟩
  simp only [hverdict]
  cases verdict <;> rfl

/-- Where there are `n` octets or fewer, a reader of `n` octets sees all of them; where there are
more, it sees the first `n`. -/
theorem TakesFront.take {α : Type} {read : Bytes → Except Fault (α × Bytes)} {n : Nat}
    (hread : TakesFront read n) (b : Bytes) :
    (read (b.take n)).map Prod.fst = (read b).map Prod.fst := by
  by_cases h : b.length ≤ n
  · rw [List.take_of_length_le h]
  · obtain ⟨verdict, hverdict⟩ := hread (b.take n) (List.length_take_of_le (by omega))
    have hfront := hverdict []
    have hall := hverdict (b.drop n)
    rw [List.append_nil] at hfront
    rw [List.take_append_drop] at hall
    rw [hfront, hall]
    cases verdict <;> rfl

/-! ### The parts of a tag -/

theorem TagHeader.exists_read?_append {front : Bytes} (h : front.length = byteSize) :
    ∃ header, ∀ rest, read? (front ++ rest) = some (header, rest) := by
  obtain ⟨magic, front, rfl, h1⟩ := exists_block_front (k := 4) h
  obtain ⟨reserved0, front, rfl, h2⟩ := exists_word32_front h1
  obtain ⟨length, front, rfl, h3⟩ := exists_word16_front h2
  obtain ⟨reserved1, front, rfl, h4⟩ := exists_word16_front h3
  obtain rfl := List.eq_nil_of_length_eq_zero h4
  refine ⟨⟨magic, reserved0, length, reserved1⟩, fun rest => read?_eq_some_iff.mpr ?_⟩
  simp only [encode, List.append_assoc, List.nil_append]

theorem LayoutTag.takesFront_readBody (h : TagHeader) : TakesFront (readBody h) 0x520 := by
  intro front hl
  obtain ⟨typeWord, front, rfl, h1⟩ := exists_word32_front hl
  obtain ⟨window, front, rfl, h2⟩ := exists_block_front (k := 0x418) h1
  obtain ⟨mode, front, rfl, h3⟩ := exists_word16_front h2
  obtain ⟨count, front, rfl, h4⟩ := exists_word16_front h3
  obtain ⟨entries, front, rfl, h5⟩ := exists_block_front (k := 0x100) h4
  obtain rfl := List.eq_nil_of_length_eq_zero h5
  refine ⟨(Descriptor.parse .embedded window.bytes).bind fun _ =>
    (RegionBlock.ofFields mode count entries).map fun region =>
      ⟨h.reserved0, h.reserved1, typeWord, window, region⟩, fun rest => ?_⟩
  have hread : readFields? (word32 typeWord ++ (window.bytes ++ (word16 mode ++ (word16 count ++
      (entries.bytes ++ [])))) ++ rest) =
        some (typeWord, window, (mode, count, entries), rest) := by
    rw [readFields?_eq_some_iff]
    simp only [List.append_assoc, List.nil_append]
  simp only [readBody, hread]
  cases Descriptor.parse .embedded window.bytes with
  | error f => rfl
  | ok d => cases RegionBlock.ofFields mode count entries <;> rfl

theorem KeyTag.takesFront_readBody (h : TagHeader) : TakesFront (readBody h) 0x33c := by
  intro front hl
  obtain ⟨bits, front, rfl, h1⟩ := exists_word32_front hl
  obtain ⟨exponent, front, rfl, h2⟩ := exists_word32_front h1
  obtain ⟨modulus, front, rfl, h3⟩ := exists_block_front (k := 256) h2
  obtain ⟨tail, front, rfl, h4⟩ := exists_block_front (k := 0x234) h3
  obtain rfl := List.eq_nil_of_length_eq_zero h4
  let t : KeyTag := ⟨h.reserved0, h.reserved1, exponent, modulus, tail⟩
  refine ⟨if bits = keyBits ∧ t.WellFormed then .ok t else .error .keyTagInvalid, fun rest => ?_⟩
  have hread : readFields? (word32 bits ++ (word32 exponent ++ (modulus.bytes ++
      (tail.bytes ++ []))) ++ rest) = some (bits, exponent, modulus, tail, rest) := by
    rw [readFields?_eq_some_iff]
    simp only [List.append_assoc, List.nil_append]
  simp only [readBody, hread]
  split <;> rfl

theorem SignatureTag.takesFront_readBody (h : TagHeader) : TakesFront (readBody h) 0x130 := by
  intro front hl
  obtain ⟨length, front, rfl, h1⟩ := exists_word32_front hl
  obtain ⟨signature, front, rfl, h2⟩ := exists_block_front (k := 256) h1
  obtain ⟨tail, front, rfl, h3⟩ := exists_block_front (k := 0x2c) h2
  obtain rfl := List.eq_nil_of_length_eq_zero h3
  refine ⟨if length = signatureLength ∧ h.reserved0 = 0 ∧ h.reserved1 = 0 ∧ tail = .zero 0x2c then
    .ok ⟨signature⟩ else .error .signatureTagInvalid, fun rest => ?_⟩
  have hread : readFields? (word32 length ++ (signature.bytes ++ (tail.bytes ++ [])) ++ rest) =
      some (length, signature, tail, rest) := by
    rw [readFields?_eq_some_iff]
    simp only [List.append_assoc, List.nil_append]
  simp only [readBody, hread]
  split <;> rfl

namespace Tag

/-- Reads the body of a tag whose header names a kind. -/
def readBody (h : TagHeader) : TagKind → Bytes → Except Fault (Tag × Bytes)
  | .layout, b => (LayoutTag.readBody h b).map fun (t, rest) => (.layout t, rest)
  | .key, b => (KeyTag.readBody h b).map fun (t, rest) => (.key t, rest)
  | .signature, b => (SignatureTag.readBody h b).map fun (t, rest) => (.signature t, rest)

theorem takesFront_readBody (h : TagHeader) (kind : TagKind) :
    TakesFront (readBody h kind) (kind.byteSize - TagHeader.byteSize) := by
  cases kind with
  | layout => exact (LayoutTag.takesFront_readBody h).map Tag.layout
  | key => exact (KeyTag.takesFront_readBody h).map Tag.key
  | signature => exact (SignatureTag.takesFront_readBody h).map Tag.signature

theorem read_of_header {b body : Bytes} {h : TagHeader} (hh : TagHeader.read? b = some (h, body)) :
    read b =
      match TagKind.ofMagic? h.magic with
      | none => .error .tagUnknown
      | some kind =>
        if h.length.toNat ≠ kind.byteSize then .error .tagLengthMismatch
        else readBody h kind body := by
  simp only [read, hh]
  cases TagKind.ofMagic? h.magic with
  | none => rfl
  | some kind => cases kind <;> rfl

/-- How many octets make up the tag in front: as many as tags of its kind have, and those of the
header when there is no such kind. -/
def extent (b : Bytes) : Nat :=
  match TagHeader.read? b with
  | none => TagHeader.byteSize
  | some (h, _) =>
    match TagKind.ofMagic? h.magic with
    | none => TagHeader.byteSize
    | some kind => kind.byteSize

/-- The octets of the tag in front, as far as they are there. -/
def ownOctets (b : Bytes) : Bytes := b.take (extent b)

theorem byteSize_le_extent (b : Bytes) : TagHeader.byteSize ≤ extent b := by
  unfold extent
  split
  · exact le_rfl
  · split
    · exact le_rfl
    · rename_i kind _
      exact le_trans (by decide) kind.byteSize_ge

/-- A tag is judged by its own octets. -/
theorem read_ownOctets (b : Bytes) : (read (ownOctets b)).map Prod.fst = (read b).map Prod.fst := by
  by_cases hshort : b.length < TagHeader.byteSize
  · rw [ownOctets, List.take_of_length_le (hshort.le.trans (byteSize_le_extent b))]
  · obtain ⟨front, rest, rfl, hfront⟩ := exists_append_of_le_length (not_lt.mp hshort)
    obtain ⟨h, hread⟩ := TagHeader.exists_read?_append hfront
    have hown : ownOctets (front ++ rest) =
        front ++ rest.take (extent (front ++ rest) - TagHeader.byteSize) := by
      rw [ownOctets, List.take_append, hfront,
        List.take_of_length_le (hfront.trans_le (byteSize_le_extent _))]
    rw [hown, read_of_header (hread _), read_of_header (hread _)]
    cases hkind : TagKind.ofMagic? h.magic with
    | none => rfl
    | some kind =>
      have hextent : extent (front ++ rest) = kind.byteSize := by simp only [extent, hread, hkind]
      dsimp only
      split
      · rfl
      · rw [hextent]
        exact (takesFront_readBody h kind).take rest

end Tag

/-! ### The rules of a walk -/

/-- The items of a walk from an offset on, each of them made from the octets of one tag. -/
inductive TagWalk (b : Bytes) : Nat → List (Except Fault PlacedTag) → Prop
  | ended {offset : Nat} (h : b.length ≤ offset) : TagWalk b offset []
  | tag {offset : Nat} {t : Tag} {items : List (Except Fault PlacedTag)}
      (hlimit : offset + t.byteSize ≤ b.length)
      (hread : Tag.read (slice b offset t.byteSize) = .ok (t, []))
      (rest : TagWalk b (offset + t.byteSize) items) : TagWalk b offset (.ok ⟨offset, t⟩ :: items)
  | fault {offset : Nat} {f : Fault} (h : offset < b.length)
      (hread : Tag.read (Tag.ownOctets (b.drop offset)) = .error f) : TagWalk b offset [.error f]

theorem Tag.read_drop_iff {b : Bytes} {offset : Nat} {t : Tag} :
    read (b.drop offset) = .ok (t, b.drop (offset + t.byteSize)) ↔
      read (slice b offset t.byteSize) = .ok (t, []) := by
  have hsplit : b.drop offset = slice b offset t.byteSize ++ b.drop (offset + t.byteSize) := by
    rw [slice, ← List.drop_drop, List.take_append_drop]
  rw [read_eq_ok_iff, read_eq_ok_iff, List.append_nil, hsplit, List.append_cancel_right_eq]

theorem Tag.read_drop_of_ok {b rest : Bytes} {offset : Nat} {t : Tag}
    (h : read (b.drop offset) = .ok (t, rest)) :
    rest = b.drop (offset + t.byteSize) ∧ offset + t.byteSize ≤ b.length := by
  have hsplit := (read_eq_ok_iff.mp h).2
  have hlength := length_of_read h
  have hsize := t.kind.byteSize_ge
  rw [List.length_drop, byteSize] at hlength
  refine ⟨?_, by rw [byteSize]; omega⟩
  rw [← List.drop_drop, hsplit, List.drop_left' t.length_encode]

theorem Tag.read_eq_error_iff {b : Bytes} {f : Fault} :
    read b = .error f ↔ read (ownOctets b) = .error f := by
  have h := read_ownOctets b
  constructor
  · intro hb
    rw [hb] at h
    cases hown : read (ownOctets b) with
    | error g => rw [hown] at h; cases h; rfl
    | ok x => rw [hown] at h; cases h
  · intro hown
    rw [hown] at h
    cases hb : read b with
    | error g => rw [hb] at h; cases h; rfl
    | ok x => rw [hb] at h; cases h

namespace TagCursor

theorem items_start_of_le {b : Bytes} {offset : Nat} (h : b.length ≤ offset) :
    (start b offset).items = [] :=
  items_of_next?_eq_none (by simp [next?, start, List.drop_eq_nil_of_le h])

theorem items_start_of_read {b : Bytes} {offset : Nat} {t : Tag}
    (h : Tag.read (b.drop offset) = .ok (t, b.drop (offset + t.byteSize))) :
    (start b offset).items = .ok ⟨offset, t⟩ :: (start b (offset + t.byteSize)).items :=
  items_of_next? (next?_of_read h)

theorem items_start_of_fault {b : Bytes} {offset : Nat} {f : Fault} (hlt : offset < b.length)
    (h : Tag.read (b.drop offset) = .error f) : (start b offset).items = [.error f] := by
  have hne : b.drop offset ≠ [] := mt List.drop_eq_nil_iff.mp (not_le.mpr hlt)
  have hnext : (start b offset).next? = _ := next?_of_fault hne h
  rw [items_of_next? hnext, items_of_next?_eq_none (by simp [next?])]

end TagCursor

theorem TagWalk.items_eq {b : Bytes} {offset : Nat} {items : List (Except Fault PlacedTag)}
    (h : TagWalk b offset items) : (TagCursor.start b offset).items = items := by
  induction h with
  | ended h => exact TagCursor.items_start_of_le h
  | tag _ hread _ ih =>
    rw [TagCursor.items_start_of_read (Tag.read_drop_iff.mpr hread), ih]
  | fault hlt hread =>
    exact TagCursor.items_start_of_fault hlt (Tag.read_eq_error_iff.mpr hread)

theorem tagWalk_items {n : Nat} {b : Bytes} {offset : Nat} (hn : b.length - offset = n) :
    TagWalk b offset (TagCursor.start b offset).items := by
  induction n using Nat.strong_induction_on generalizing offset with
  | _ n ih =>
    by_cases hend : b.length ≤ offset
    · rw [TagCursor.items_start_of_le hend]
      exact .ended hend
    · rw [not_le] at hend
      cases hread : Tag.read (b.drop offset) with
      | error f =>
        rw [TagCursor.items_start_of_fault hend hread]
        exact .fault hend (Tag.read_eq_error_iff.mp hread)
      | ok x =>
        obtain ⟨t, rest⟩ := x
        obtain ⟨rfl, hlimit⟩ := Tag.read_drop_of_ok hread
        have hsize := t.kind.byteSize_ge
        rw [TagCursor.items_start_of_read hread]
        refine .tag hlimit (Tag.read_drop_iff.mp hread) (ih _ ?_ rfl)
        rw [Tag.byteSize] at hlimit ⊢
        omega

/-- The rules describe the walk, from any octets and any offset. -/
theorem tagWalk_iff {b : Bytes} {offset : Nat} {items : List (Except Fault PlacedTag)} :
    TagWalk b offset items ↔ (TagCursor.start b offset).items = items :=
  ⟨TagWalk.items_eq, fun h => h ▸ tagWalk_items rfl⟩

/-! ### What a walk comes to -/

/-- Tags in a row, from one offset up to another. -/
inductive Tiles : Nat → List PlacedTag → Nat → Prop
  | nil (offset : Nat) : Tiles offset [] offset
  | cons {p : PlacedTag} {ps : List PlacedTag} {stop : Nat}
      (h : Tiles (p.offset + p.size) ps stop) : Tiles p.offset (p :: ps) stop

theorem Tiles.le {start stop : Nat} {ps : List PlacedTag} (h : Tiles start ps stop) :
    start ≤ stop := by
  induction h with
  | nil => exact le_rfl
  | cons _ ih => exact (Nat.le_add_right _ _).trans ih

theorem Tiles.stop_le {start stop n : Nat} {ps : List PlacedTag} (h : Tiles start ps stop)
    (hstart : start ≤ n) (hps : ∀ p ∈ ps, p.offset + p.size ≤ n) : stop ≤ n := by
  induction h with
  | nil => exact hstart
  | cons _ ih => exact ih (hps _ (by simp)) fun p hp => hps p (by simp [hp])

/-- The offset as a tag shows it. A word has only the last of its digits when there are more. -/
def PlacedTag.offsetWord (p : PlacedTag) : UInt32 := UInt32.ofNat p.offset

/-- What a walk comes to: tags in a row, and the fault behind them if one ends the walk. -/
structure WalkedTags (b : Bytes) (start : Nat) (items : List (Except Fault PlacedTag))
    (ps : List PlacedTag) (stop : Nat) (fault : Option Fault) : Prop where
  items_eq : items = ps.map .ok ++ fault.toList.map .error
  length_le : items.length ≤ (b.length - start) / 0x13c + 1
  items_of_le : b.length ≤ start → items = []
  tiles : Tiles start ps stop
  /-- A tag is what is read from its octets and no others. -/
  read (p : PlacedTag) (hp : p ∈ ps) : p.offset + p.size ≤ b.length ∧
    Tag.read (slice b p.offset p.size) = .ok (p.tag, [])
  fault_read (f : Fault) (hf : fault = some f) : stop < b.length ∧
    Tag.read (Tag.ownOctets (b.drop stop)) = .error f
  unfaulted_iff : fault = none ↔ b.length ≤ start ∨ stop = b.length

theorem TagWalk.exists_walkedTags {b : Bytes} {start : Nat}
    {items : List (Except Fault PlacedTag)} (h : TagWalk b start items) :
    ∃ ps stop fault, WalkedTags b start items ps stop fault := by
  induction h with
  | @ended offset h =>
    exact ⟨[], offset, none, rfl, Nat.zero_le _, fun _ => rfl, .nil offset, by simp, by simp,
      by simp [h]⟩
  | @fault offset f h hread =>
    refine ⟨[], offset, some f, rfl, Nat.le_add_left _ _, ?_, .nil offset, by simp, ?_, ?_⟩
    · intro hle
      omega
    · rintro _ ⟨⟩
      exact ⟨h, hread⟩
    · simp only [reduceCtorEq, false_iff]
      omega
  | @tag offset t items hlimit hread _ ih =>
    obtain ⟨ps, stop, fault, hw⟩ := ih
    have hsize := t.kind.byteSize_ge
    have hkind : t.kind.byteSize = t.byteSize := rfl
    have hlength := hw.length_le
    have hle := hw.tiles.le
    have hstop := hw.tiles.stop_le hlimit fun p hp => (hw.read p hp).1
    refine ⟨⟨offset, t⟩ :: ps, stop, fault, ?_, ?_, ?_, .cons (p := ⟨offset, t⟩) hw.tiles, ?_,
      hw.fault_read, ?_⟩
    · rw [hw.items_eq, List.map_cons, List.cons_append]
    · rw [List.length_cons]
      omega
    · intro hend
      omega
    · intro p hp
      rcases List.mem_cons.mp hp with rfl | hp
      · exact ⟨hlimit, hread⟩
      · exact hw.read p hp
    · rw [hw.unfaulted_iff]
      omega

/-! ### Calls in a row -/

namespace TagCursor

/-- The cursor that a call leaves. At the end of the walk it is left as it is. -/
def advance (c : TagCursor) : TagCursor :=
  match c.next? with
  | none => c
  | some (_, d) => d

/-- What a call yields that comes behind `n` others. -/
def yields : (n : Nat) → (c : TagCursor) → Option (Except Fault PlacedTag)
  | 0, c => c.next?.map Prod.fst
  | n + 1, c => yields n c.advance

/-- The calls of a walk yield its items, one each, and then nothing any more. -/
theorem yields_eq (n : Nat) (c : TagCursor) : c.yields n = c.items[n]? := by
  induction n generalizing c with
  | zero =>
    rw [yields]
    cases h : c.next? with
    | none => rw [items_of_next?_eq_none h]; rfl
    | some step => rw [items_of_next? h]; rfl
  | succ n ih =>
    rw [yields, ih, advance]
    cases h : c.next? with
    | none => rw [items_of_next?_eq_none h]; rfl
    | some step => rw [items_of_next? h]; rfl

end TagCursor

end SignedBoot
