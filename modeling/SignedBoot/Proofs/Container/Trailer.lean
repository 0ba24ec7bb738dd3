import Mathlib
import SignedBoot.Container.Trailer

/-!
# The tags of a trailer

A walk over a trailer succeeds exactly when the octets ahead are the wire forms of well-formed
tags, one behind the other, and it then places each tag where the one before it ends
(`TagCursor.tags_eq_ok_iff`, `readTags_eq_ok_iff`). Placed tags tile the trailer.
-/

namespace SignedBoot

theorem Tag.encode_ne_nil (t : Tag) : t.encode ≠ [] := by
  intro h
  have hl := congrArg List.length h
  have hk := t.kind.byteSize_ge
  rw [Tag.length_encode, Tag.byteSize, List.length_nil] at hl
  omega

/-- The octets of tags in a row. -/
def encodeTags (ts : List Tag) : Bytes := ts.flatMap Tag.encode

@[simp]
theorem encodeTags_nil : encodeTags [] = [] := rfl

@[simp]
theorem encodeTags_cons (t : Tag) (ts : List Tag) :
    encodeTags (t :: ts) = t.encode ++ encodeTags ts := rfl

@[simp]
theorem encodeTags_append (ts us : List Tag) :
    encodeTags (ts ++ us) = encodeTags ts ++ encodeTags us := List.flatMap_append

theorem encodeTags_eq_flatten (ts : List Tag) : encodeTags ts = (ts.map Tag.encode).flatten :=
  List.flatMap_def

theorem length_encodeTags_replicate (n : Nat) (t : Tag) :
    (encodeTags (List.replicate n t)).length = n * t.byteSize := by
  induction n with
  | zero => simp
  | succ n ih =>
    rw [List.replicate_succ, encodeTags_cons, List.length_append, Tag.length_encode, ih,
      Nat.succ_mul, Nat.add_comm]

/-- A trailer is as long as its signed tags and its signature tags. -/
theorem length_encodeTags (ts : List Tag) :
    (encodeTags ts).length = (encodeTags (ts.filter (·.kind.isSigned))).length +
      TagKind.signature.byteSize * (ts.filterMap Tag.signature?).length := by
  induction ts with
  | nil => rfl
  | cons t ts ih =>
    rw [encodeTags_cons, List.length_append, Tag.length_encode, ih]
    cases t with
    | layout t =>
      have hs : (Tag.layout t).kind.isSigned = true := rfl
      rw [List.filter_cons, if_pos hs, encodeTags_cons, List.length_append, Tag.length_encode,
        List.filterMap_cons_none rfl, Nat.add_assoc]
    | key t =>
      have hs : (Tag.key t).kind.isSigned = true := rfl
      rw [List.filter_cons, if_pos hs, encodeTags_cons, List.length_append, Tag.length_encode,
        List.filterMap_cons_none rfl, Nat.add_assoc]
    | signature t =>
      have hs : ¬ (Tag.signature t).kind.isSigned = true := Bool.false_ne_true
      have hv : Tag.signature? (.signature t) = some t := rfl
      have hb : (Tag.signature t).byteSize = TagKind.signature.byteSize := rfl
      rw [List.filter_cons, if_neg hs, List.filterMap_cons_some hv, List.length_cons, hb,
        Nat.mul_succ]
      omega

theorem length_encodeTags_le (ts : List Tag) : (encodeTags ts).length ≤ 0x52c * ts.length := by
  induction ts with
  | nil => exact Nat.le_refl 0
  | cons t ts ih =>
    have hk : t.kind.byteSize ≤ 0x52c := by
      cases t.kind <;> decide
    rw [encodeTags_cons, List.length_append, Tag.length_encode, Tag.byteSize, List.length_cons]
    omega

/-! ### Placed tags -/

theorem map_tag_placeTags (offset : Nat) (ts : List Tag) :
    (placeTags offset ts).map PlacedTag.tag = ts := by
  induction ts generalizing offset with
  | nil => rfl
  | cons t ts ih => rw [placeTags, List.map_cons, ih]

theorem placeTags_append (offset : Nat) (ts us : List Tag) :
    placeTags offset (ts ++ us) =
      placeTags offset ts ++ placeTags (offset + (encodeTags ts).length) us := by
  induction ts generalizing offset with
  | nil => rfl
  | cons t ts ih =>
    rw [List.cons_append, placeTags, ih, placeTags, List.cons_append, encodeTags_cons,
      List.length_append, Tag.length_encode, Nat.add_assoc]

/-- A tag stands where the tags before it end. -/
theorem mem_placeTags_iff {offset : Nat} {ts : List Tag} {p : PlacedTag} :
    p ∈ placeTags offset ts ↔
      ∃ front back, ts = front ++ p.tag :: back ∧
        p.offset = offset + (encodeTags front).length := by
  induction ts generalizing offset with
  | nil => simp [placeTags]
  | cons t ts ih =>
    rw [placeTags, List.mem_cons, ih]
    constructor
    · rintro (rfl | ⟨front, back, rfl, hp⟩)
      · exact ⟨[], ts, rfl, by simp⟩
      · refine ⟨t :: front, back, rfl, ?_⟩
        rw [hp, encodeTags_cons, List.length_append, Tag.length_encode, Nat.add_assoc]
    · rintro ⟨front, back, h, hp⟩
      cases front with
      | nil =>
        obtain ⟨rfl, rfl⟩ := List.cons.inj h
        left
        cases p
        simpa using hp
      | cons u front =>
        obtain ⟨rfl, rfl⟩ := List.cons.inj h
        right
        refine ⟨front, back, rfl, ?_⟩
        rw [hp, encodeTags_cons, List.length_append, Tag.length_encode, Nat.add_assoc]

theorem offset_le_of_mem_placeTags {offset : Nat} {ts : List Tag} {p : PlacedTag}
    (h : p ∈ placeTags offset ts) : offset ≤ p.offset := by
  obtain ⟨front, back, -, hp⟩ := mem_placeTags_iff.mp h
  omega

theorem limit_le_of_mem_placeTags {offset : Nat} {ts : List Tag} {p : PlacedTag}
    (h : p ∈ placeTags offset ts) : p.offset + p.size ≤ offset + (encodeTags ts).length := by
  obtain ⟨front, back, rfl, hp⟩ := mem_placeTags_iff.mp h
  simp only [encodeTags_append, encodeTags_cons, List.length_append, Tag.length_encode,
    PlacedTag.size]
  omega

/-- The octets that follow a body of the right length hold each placed tag in its place. -/
theorem slice_of_mem_placeTags {body : Bytes} {ts : List Tag} {p : PlacedTag}
    (h : p ∈ placeTags body.length ts) :
    slice (body ++ encodeTags ts) p.offset p.size = p.tag.encode := by
  obtain ⟨front, back, rfl, hp⟩ := mem_placeTags_iff.mp h
  have hs : p.size = p.tag.encode.length := by rw [Tag.length_encode, PlacedTag.size]
  rw [slice, hp, hs, encodeTags_append, encodeTags_cons, ← List.append_assoc,
    ← List.length_append, List.drop_left, List.take_left]

/-! ### The walk -/

namespace TagCursor

theorem items_of_next?_eq_none {c : TagCursor} (h : c.next? = none) : c.items = [] := by
  rw [items]
  split
  · rfl
  · rename_i h'
    rw [h] at h'
    cases h'

theorem items_of_next? {c d : TagCursor} {item : Except Fault PlacedTag}
    (h : c.next? = some (item, d)) : c.items = item :: d.items := by
  rw [items]
  split
  · rename_i h'
    rw [h] at h'
    cases h'
  · rename_i h'
    rw [h] at h'
    cases h'
    rfl

theorem tags_nil (offset : Nat) : tags ⟨offset, [], false⟩ = .ok [] := by
  rw [tags, items_of_next?_eq_none (by simp [next?])]
  rfl

theorem tags_of_next? {c d : TagCursor} {item : Except Fault PlacedTag}
    (h : c.next? = some (item, d)) :
    c.tags = item.bind fun p => d.tags.map fun ps => p :: ps := by
  rw [tags, items_of_next? h, List.mapM_cons]
  cases item with
  | error f => rfl
  | ok p => cases hd : d.items.mapM id <;> simp [tags, hd] <;> rfl

theorem next?_of_read {offset : Nat} {b rest : Bytes} {t : Tag} (h : Tag.read b = .ok (t, rest)) :
    next? ⟨offset, b, false⟩ = some (.ok ⟨offset, t⟩, ⟨offset + t.byteSize, rest, false⟩) := by
  have hb : b ≠ [] := by
    rintro rfl
    have hl := Tag.length_of_read h
    have hk := t.kind.byteSize_ge
    rw [List.length_nil, Tag.byteSize] at hl
    omega
  simp [next?, hb, h]

theorem next?_of_fault {offset : Nat} {b : Bytes} {f : Fault} (hb : b ≠ [])
    (h : Tag.read b = .error f) :
    next? ⟨offset, b, false⟩ = some (.error f, ⟨offset, b, true⟩) := by
  simp [next?, hb, h]

theorem tags_encodeTags {ts : List Tag} (ht : ∀ t ∈ ts, t.WellFormed) (offset : Nat) :
    tags ⟨offset, encodeTags ts, false⟩ = .ok (placeTags offset ts) := by
  induction ts generalizing offset with
  | nil => exact tags_nil offset
  | cons t ts ih =>
    have hr := Tag.read_eq_ok_iff.mpr ⟨ht t (by simp), encodeTags_cons t ts⟩
    rw [tags_of_next? (next?_of_read hr), ih (fun t hm => ht t (by simp [hm]))]
    rfl

/-- A walk without a fault reads well-formed tags that fill the octets ahead. -/
theorem exists_of_tags_eq_ok {n : Nat} {offset : Nat} {b : Bytes} {ps : List PlacedTag}
    (hn : b.length = n) (h : tags ⟨offset, b, false⟩ = .ok ps) :
    ∃ ts : List Tag, (∀ t ∈ ts, t.WellFormed) ∧ b = encodeTags ts ∧ ps = placeTags offset ts := by
  induction n using Nat.strong_induction_on generalizing offset b ps with
  | _ n ih =>
    by_cases hb : b = []
    · subst hb
      rw [tags_nil] at h
      cases h
      exact ⟨[], by simp, rfl, rfl⟩
    · cases hr : Tag.read b with
      | error f =>
        rw [tags_of_next? (next?_of_fault hb hr)] at h
        cases h
      | ok r =>
        obtain ⟨t, rest⟩ := r
        have hl := Tag.length_of_read hr
        have hk := t.kind.byteSize_ge
        rw [tags_of_next? (next?_of_read hr)] at h
        cases hd : tags ⟨offset + t.byteSize, rest, false⟩ with
        | error f =>
          rw [hd] at h
          cases h
        | ok qs =>
          rw [hd] at h
          cases h
          obtain ⟨hw, hbt⟩ := Tag.read_eq_ok_iff.mp hr
          rw [Tag.byteSize] at hl
          obtain ⟨ts, hts, hrest, hqs⟩ := ih rest.length (by omega) rfl hd
          refine ⟨t :: ts, ?_, ?_, ?_⟩
          · intro u hu
            rcases List.mem_cons.mp hu with rfl | hu
            · exact hw
            · exact hts u hu
          · rw [hbt, hrest, encodeTags_cons]
          · rw [hqs, placeTags]

theorem tags_eq_ok_iff {offset : Nat} {b : Bytes} {ps : List PlacedTag} :
    tags ⟨offset, b, false⟩ = .ok ps ↔
      ∃ ts : List Tag, (∀ t ∈ ts, t.WellFormed) ∧ b = encodeTags ts ∧
        ps = placeTags offset ts := by
  constructor
  · exact exists_of_tags_eq_ok rfl
  · rintro ⟨ts, ht, rfl, rfl⟩
    exact tags_encodeTags ht offset

/-- Where a walk starts to count changes the offsets and nothing else. -/
theorem map_tag_tags {n : Nat} {b : Bytes} (hn : b.length = n) (offset offset' : Nat) :
    (tags ⟨offset, b, false⟩).map (·.map PlacedTag.tag) =
      (tags ⟨offset', b, false⟩).map (·.map PlacedTag.tag) := by
  induction n using Nat.strong_induction_on generalizing offset offset' b with
  | _ n ih =>
    by_cases hb : b = []
    · subst hb
      rw [tags_nil, tags_nil]
    · cases hr : Tag.read b with
      | error f =>
        rw [tags_of_next? (next?_of_fault hb hr), tags_of_next? (next?_of_fault hb hr)]
        rfl
      | ok r =>
        obtain ⟨t, rest⟩ := r
        have hl := Tag.length_of_read hr
        have hk := t.kind.byteSize_ge
        rw [Tag.byteSize] at hl
        have htail := ih rest.length (by omega) rfl (offset + t.byteSize) (offset' + t.byteSize)
        rw [tags_of_next? (next?_of_read hr), tags_of_next? (next?_of_read hr)]
        cases hx : tags ⟨offset + t.byteSize, rest, false⟩ <;>
          cases hy : tags ⟨offset' + t.byteSize, rest, false⟩ <;>
          simp_all [Except.map, Except.bind]

end TagCursor

theorem readTags_eq (offset : Nat) (b : Bytes) :
    readTags b = (TagCursor.tags ⟨offset, b, false⟩).map (·.map PlacedTag.tag) :=
  TagCursor.map_tag_tags rfl 0 offset

/-- The tags that fill a byte string are the well-formed ones whose octets it is. -/
theorem readTags_eq_ok_iff {b : Bytes} {ts : List Tag} :
    readTags b = .ok ts ↔ (∀ t ∈ ts, t.WellFormed) ∧ b = encodeTags ts := by
  have hs : TagCursor.start b 0 = ⟨0, b, false⟩ := rfl
  rw [readTags, hs]
  constructor
  · intro h
    cases hp : TagCursor.tags ⟨0, b, false⟩ with
    | error f =>
      rw [hp] at h
      cases h
    | ok ps =>
      obtain ⟨us, hu, hb, rfl⟩ := TagCursor.tags_eq_ok_iff.mp hp
      rw [hp] at h
      have ht : (placeTags 0 us).map PlacedTag.tag = ts := Except.ok.inj h
      rw [map_tag_placeTags] at ht
      exact ht ▸ ⟨hu, hb⟩
  · rintro ⟨ht, rfl⟩
    rw [TagCursor.tags_encodeTags ht]
    exact congrArg Except.ok (map_tag_placeTags 0 ts)

end SignedBoot
