import SignedBoot.Bytes.Word
import SignedBoot.Fault

/-!
# Region blocks

A layout tag ends with a block that lists regions of the target, either as ranges or as sector
numbers.
-/

namespace SignedBoot

/-- How the entries of a region block are to be read. -/
inductive RegionMode
  | ranges
  | sectors
deriving DecidableEq, Repr

namespace RegionMode

def word : RegionMode → UInt16
  | .ranges => 1
  | .sectors => 2

def ofWord? (w : UInt16) : Option RegionMode :=
  if w = 1 then some .ranges else if w = 2 then some .sectors else none

def entrySize : RegionMode → Nat
  | .ranges => 8
  | .sectors => 1

def maxCount : RegionMode → Nat
  | .ranges => 0x1f
  | .sectors => 0xdf

def name : RegionMode → String
  | .ranges => "Ranges"
  | .sectors => "Sectors"

theorem ofWord?_eq_some_iff {w : UInt16} {m : RegionMode} : ofWord? w = some m ↔ w = m.word := by
  cases m <;> simp only [ofWord?, word] <;> grind

end RegionMode

@[ext]
structure RegionBlock where
  mode : RegionMode
  count : UInt16
  entries : Block 0x100
deriving DecidableEq

namespace RegionBlock

def byteSize : Nat := 0x104

def used (r : RegionBlock) : Bytes := r.entries.bytes.take (r.count.toNat * r.mode.entrySize)

def encode (r : RegionBlock) : Bytes := word16 r.mode.word ++ (word16 r.count ++ r.entries.bytes)

/-- Reads the mode word, the count and the entries off the front of a byte string. -/
def readFields? (b : Bytes) : Option ((UInt16 × UInt16 × Block 0x100) × Bytes) := do
  let (mode, b) ← readWord16? b
  let (count, b) ← readWord16? b
  let (entries, b) ← Block.read? 0x100 b
  return ((mode, count, entries), b)

/-- The block of a mode word, a count and entries, when the mode is known and allows the count. -/
def ofFields (modeWord count : UInt16) (entries : Block 0x100) : Except Fault RegionBlock :=
  match RegionMode.ofWord? modeWord with
  | none => .error .regionModeInvalid
  | some mode =>
    if count.toNat > mode.maxCount then .error .regionCountInvalid
    else .ok { mode, count, entries }

def parse (b : Bytes) : Except Fault RegionBlock :=
  match readFields? b with
  | none => .error .tagTruncated
  | some ((mode, count, entries), _) => ofFields mode count entries

@[simp]
theorem length_encode (r : RegionBlock) : r.encode.length = byteSize := by
  simp [encode, byteSize]

theorem ofFields_eq_ok_iff {w count : UInt16} {entries : Block 0x100} {r : RegionBlock} :
    ofFields w count entries = .ok r ↔
      w = r.mode.word ∧ count = r.count ∧ entries = r.entries ∧
        r.count.toNat ≤ r.mode.maxCount := by
  unfold ofFields
  split
  · next h =>
    simp only [reduceCtorEq, false_iff]
    rintro ⟨rfl, -⟩
    rw [RegionMode.ofWord?_eq_some_iff.mpr rfl] at h
    exact absurd h (by simp)
  · next mode h =>
    rw [RegionMode.ofWord?_eq_some_iff] at h
    subst h
    have inj : ∀ m n : RegionMode, m.word = n.word ↔ m = n := by
      intro m n; cases m <;> cases n <;> decide
    cases r
    split <;> simp only [reduceCtorEq, false_iff, Except.ok.injEq, RegionBlock.mk.injEq, inj] <;>
      grind

end RegionBlock

end SignedBoot
