import SignedBoot.Container.Tag

/-!
# Walking the trailer

The trailer is a run of tags up to the end of the image. A cursor stands at an offset with the
octets still ahead; each step yields one tag with its offset, or one fault, after which the walk
is over. `TagCursor.items` is the whole walk and `readTags` its tags when no fault ends it.
-/

namespace SignedBoot

/-- A tag together with its offset in the image. -/
structure PlacedTag where
  offset : Nat
  tag : Tag
deriving DecidableEq

namespace PlacedTag

def kind (p : PlacedTag) : TagKind := p.tag.kind

def size (p : PlacedTag) : Nat := p.tag.byteSize

end PlacedTag

structure TagCursor where
  offset : Nat
  rest : Bytes
  stopped : Bool

namespace TagCursor

/-- The cursor at an offset of an image; past the end it has nothing ahead. -/
def start (image : Bytes) (offset : Nat) : TagCursor := ⟨offset, image.drop offset, false⟩

/-- The next tag or fault and the cursor behind it, if there is anything left. -/
def next? (c : TagCursor) : Option (Except Fault PlacedTag × TagCursor) :=
  if c.stopped ∨ c.rest = [] then none
  else
    match Tag.read c.rest with
    | .ok (tag, rest) => some (.ok ⟨c.offset, tag⟩, ⟨c.offset + tag.byteSize, rest, false⟩)
    | .error f => some (.error f, ⟨c.offset, c.rest, true⟩)

def remaining (c : TagCursor) : Nat := if c.stopped then 0 else c.rest.length + 1

theorem remaining_lt_of_next? {c d : TagCursor} {item : Except Fault PlacedTag}
    (h : c.next? = some (item, d)) : d.remaining < c.remaining := by
  unfold next? at h
  split at h
  · cases h
  · next hc =>
    have hs : c.stopped = false := by simp_all
    split at h
    · next tag rest ht =>
      cases h
      have hl := Tag.length_of_read ht
      have hk := tag.kind.byteSize_ge
      unfold Tag.byteSize at hl
      simp only [remaining, hs, Bool.false_eq_true, if_false]
      omega
    · cases h
      simp [remaining, hs]

def items (c : TagCursor) : List (Except Fault PlacedTag) :=
  match h : c.next? with
  | none => []
  | some (item, d) =>
    have : d.remaining < c.remaining := remaining_lt_of_next? h
    item :: d.items
termination_by c.remaining

def last (c : TagCursor) : TagCursor :=
  match h : c.next? with
  | none => c
  | some (_, d) =>
    have : d.remaining < c.remaining := remaining_lt_of_next? h
    d.last
termination_by c.remaining

def tags (c : TagCursor) : Except Fault (List PlacedTag) := c.items.mapM id

end TagCursor

def readTags (b : Bytes) : Except Fault (List Tag) :=
  (TagCursor.start b 0).tags.map fun placed => placed.map PlacedTag.tag

/-- Gives each tag its offset, the first of them standing at `offset`. -/
def placeTags (offset : Nat) : List Tag → List PlacedTag
  | [] => []
  | t :: ts => ⟨offset, t⟩ :: placeTags (offset + t.byteSize) ts

end SignedBoot
