import Mathlib
import SignedBoot.Bytes.Word

/-!
# Numbers at offsets

Taking octets out of a byte string that is made of fields in a row, and taking a byte string apart
into such fields.
-/

namespace SignedBoot

/-- The little-endian number in `width` octets from an offset on. -/
def numberAt (b : Bytes) (offset width : Nat) : Nat := leValue (slice b offset width)

theorem length_slice {b : Bytes} {offset n : Nat} (h : offset + n ≤ b.length) :
    (slice b offset n).length = n := by
  rw [slice, List.length_take, List.length_drop]
  omega

theorem slice_append_zero {x : Bytes} (rest : Bytes) {n : Nat} (h : x.length = n) :
    slice (x ++ rest) 0 n = x := by
  rw [slice, List.drop_zero, ← h, List.take_left]

theorem slice_zero_eq_self {x : Bytes} {n : Nat} (h : x.length = n) : slice x 0 n = x := by
  rw [slice, List.drop_zero, ← h, List.take_length]

theorem slice_append_of_le {x : Bytes} (rest : Bytes) {offset : Nat} (n : Nat)
    (h : x.length ≤ offset) : slice (x ++ rest) offset n = slice rest (offset - x.length) n := by
  rw [slice, slice, List.drop_append, List.drop_of_length_le h, List.nil_append]

theorem slice_append_of_le_length {x : Bytes} (rest : Bytes) {offset n : Nat}
    (h : offset + n ≤ x.length) : slice (x ++ rest) offset n = slice x offset n := by
  rw [slice, slice, List.drop_append_of_le_length (by omega),
    List.take_append_of_le_length (by rw [List.length_drop]; omega)]

/-- What is left from an offset on stands behind the octets up to that offset. -/
theorem exists_append_of_drop {head tail rest : Bytes} {n : Nat} (hge : head.length ≤ n)
    (hle : n ≤ (head ++ tail).length) (h : (head ++ tail).drop n = rest) :
    ∃ front, head.length + front.length = n ∧ tail = front ++ rest := by
  rw [List.length_append] at hle
  rw [List.drop_append, List.drop_of_length_le hge, List.nil_append] at h
  refine ⟨tail.take (n - head.length), ?_, ?_⟩
  · rw [List.length_take]
    omega
  · rw [← h, List.take_append_drop]

theorem slice_slice {b : Bytes} (start : Nat) {length offset n : Nat} (h : offset + n ≤ length) :
    slice (slice b start length) offset n = slice b (start + offset) n := by
  simp only [slice, List.drop_take, List.take_take, List.drop_drop]
  congr 1
  omega

theorem slice_append_slice (b : Bytes) (start m n : Nat) :
    slice b start m ++ slice b (start + m) n = slice b start (m + n) := by
  rw [slice, slice, slice, ← List.drop_drop, List.take_add]

theorem Block.exists_cons {n : Nat} (b : Block (n + 1)) :
    ∃ x rest, b.bytes = x :: rest ∧ rest.length = n := by
  obtain ⟨bytes, h⟩ := b
  cases bytes with
  | nil => cases h
  | cons x rest => exact ⟨x, rest, rfl, Nat.succ.inj h⟩

theorem Block.bytes_ofPadded_of_le {n : Nat} {b : Bytes} (h : n ≤ b.length) :
    (Block.ofPadded n b).bytes = slice b 0 n :=
  List.take_append_of_le_length h

theorem Block.bytes_ofPadded {n : Nat} {b : Bytes} (h : b.length ≤ n) :
    (Block.ofPadded n b).bytes = b ++ List.replicate (n - b.length) 0 := by
  change (b ++ List.replicate n 0).take n = _
  rw [List.take_append, List.take_of_length_le h, List.take_replicate,
    Nat.min_eq_left (Nat.sub_le _ _)]

@[simp]
theorem leValue_word16 (w : UInt16) : leValue (word16 w) = w.toNat := by
  rw [word16, leValue_le]
  exact Nat.mod_eq_of_lt w.toNat_lt

@[simp]
theorem leValue_word32 (w : UInt32) : leValue (word32 w) = w.toNat := by
  rw [word32, leValue_le]
  exact Nat.mod_eq_of_lt w.toNat_lt

theorem exists_append_of_le_length {n : Nat} {b : Bytes} (h : n ≤ b.length) :
    ∃ front rest, b = front ++ rest ∧ front.length = n :=
  ⟨b.take n, b.drop n, (List.take_append_drop n b).symm, List.length_take_of_le h⟩

theorem exists_block_append {n : Nat} {b : Bytes} (h : n ≤ b.length) :
    ∃ (x : Block n) (rest : Bytes), b = x.bytes ++ rest :=
  ⟨⟨b.take n, List.length_take_of_le h⟩, b.drop n, (List.take_append_drop n b).symm⟩

theorem exists_word16_append {b : Bytes} (h : 2 ≤ b.length) :
    ∃ (w : UInt16) (rest : Bytes), b = word16 w ++ rest := by
  obtain ⟨x, rest, rfl⟩ := exists_block_append h
  exact ⟨_, rest, by rw [(ofNat_leValue_eq_iff16 x _).mp rfl]⟩

theorem exists_word32_append {b : Bytes} (h : 4 ≤ b.length) :
    ∃ (w : UInt32) (rest : Bytes), b = word32 w ++ rest := by
  obtain ⟨x, rest, rfl⟩ := exists_block_append h
  exact ⟨_, rest, by rw [(ofNat_leValue_eq_iff32 x _).mp rfl]⟩

@[simp]
theorem word32_inj {v w : UInt32} : word32 v = word32 w ↔ v = w := by
  constructor
  · intro h
    have hv := congrArg leValue h
    rw [leValue_word32, leValue_word32] at hv
    exact UInt32.toNat_inj.mp hv
  · rintro rfl
    rfl

end SignedBoot
