import Mathlib
import SignedBoot.Keys.Document
import SignedBoot.Proofs.Keys.Base64
import SignedBoot.Proofs.Keys.Der

/-!
# Writing key documents

A document is written between its two lines of armour, in base64 lines of full length, and read
back (`Pem.decode?_encode`). Every public key has a document, and every private key one of numbers
of moderate size (`PublicKey.ofPem?_document`, `PrivateKey.ofPem?_document`).
-/

namespace SignedBoot

theorem dropFront?_append (front b : Bytes) : dropFront? front (front ++ b) = some b := by
  simp [dropFront?]

theorem dropBack?_append (b back : Bytes) : dropBack? back (b ++ back) = some b := by
  simp [dropBack?]

namespace Pem

/-! ### Lines -/

/-- A text in lines of full length, the last of which may be shorter and is not ended. -/
def lines (b : Bytes) : Bytes :=
  if b.length ≤ lineLength then b else b.take lineLength ++ 0x0a :: lines (b.drop lineLength)
termination_by b.length
decreasing_by
  have : 0 < lineLength := by decide
  rw [List.length_drop]
  omega

theorem lines_ne_nil {b : Bytes} (h : b ≠ []) : lines b ≠ [] := by
  rw [lines]
  split
  · exact h
  · exact List.append_ne_nil_of_right_ne_nil _ (List.cons_ne_nil _ _)

theorem joinLines?_append {line rest : Bytes} (hl : line.length = lineLength) (h : rest ≠ []) :
    joinLines? (line ++ 0x0a :: rest) = (joinLines? rest).map (line ++ ·) := by
  have hdrop : (line ++ 0x0a :: rest).drop lineLength = 0x0a :: rest := List.drop_left' hl
  have hafter : afterBreak? ((line ++ 0x0a :: rest).drop lineLength) = some rest := by
    rw [hdrop]
    rfl
  have hlong : ¬ (line ++ 0x0a :: rest).length ≤ lineLength := by
    rw [List.length_append, hl, List.length_cons]
    omega
  rw [joinLines?, if_neg (List.append_ne_nil_of_right_ne_nil _ (List.cons_ne_nil _ _)),
    if_neg hlong]
  split
  · rename_i hnone
    rw [hafter] at hnone
    cases hnone
  · rename_i hnil
    rw [hafter] at hnil
    exact absurd (Option.some.inj hnil) h
  · rename_i rest' _ hsome
    rw [hafter] at hsome
    obtain rfl := Option.some.inj hsome
    rw [List.take_left' hl]

theorem joinLines?_lines {b : Bytes} (h : b ≠ []) : joinLines? (lines b) = some b := by
  fun_induction lines b with
  | case1 b hle => rw [joinLines?, if_neg h, if_pos hle]
  | case2 b hlt ih =>
    have hrest : b.drop lineLength ≠ [] := by
      rw [ne_eq, List.drop_eq_nil_iff]
      exact hlt
    have htake : (b.take lineLength).length = lineLength :=
      List.length_take_of_le (not_le.mp hlt).le
    rw [joinLines?_append htake (lines_ne_nil hrest), ih hrest, Option.map_some,
      List.take_append_drop]

theorem getLast?_lines (b : Bytes) : (lines b).getLast? = b.getLast? := by
  fun_induction lines b with
  | case1 b hle => rfl
  | case2 b hlt ih =>
    have hrest : b.drop lineLength ≠ [] := by
      rw [ne_eq, List.drop_eq_nil_iff]
      exact hlt
    rw [List.getLast?_append_of_ne_nil _ (List.cons_ne_nil _ _),
      List.getLast?_cons_of_ne_nil (lines_ne_nil hrest), ih]
    conv_rhs => rw [← List.take_append_drop lineLength b]
    rw [List.getLast?_append_of_ne_nil _ hrest]

theorem mem_lines {b : Bytes} {x : UInt8} (h : x ∈ lines b) : x = 0x0a ∨ x ∈ b := by
  fun_induction lines b with
  | case1 b hle => exact .inr h
  | case2 b hlt ih =>
    rcases List.mem_append.mp h with h | h
    · exact .inr (List.mem_of_mem_take h)
    rcases List.mem_cons.mp h with rfl | h
    · exact .inl rfl
    · exact (ih h).imp_right List.mem_of_mem_drop

theorem beforeBreak?_append {b : Bytes} (h : b.getLast? ≠ some 0x0d) :
    beforeBreak? (b ++ [0x0a]) = some b := by
  rw [List.getLast?_eq_head?_reverse] at h
  rw [beforeBreak?, List.reverse_append, List.reverse_singleton, List.singleton_append]
  conv_rhs => rw [← List.reverse_reverse b]
  generalize b.reverse = r at h ⊢
  split
  · rename_i hreturn
    cases hreturn
    exact absurd rfl h
  · rename_i heq
    cases heq
    rfl
  · rename_i heq
    cases heq
  · rename_i hbreak _
    exact absurd rfl (hbreak r)

/-! ### Armour -/

def encode (label b : Bytes) : Bytes :=
  opening ++ (label ++ dashes ++ 0x0a ::
    (lines (Base64.encode b) ++ [0x0a] ++ (closing ++ label ++ dashes) ++ [0x0a]))

theorem decode?_encode (label : Bytes) {b : Bytes} (h : b ≠ []) :
    decode? label (encode label b) = some b := by
  have hdigits : Base64.encode b ≠ [] := by
    intro hnil
    have hb := Base64.decode?_encode b
    rw [hnil] at hb
    exact h (Option.some.inj hb).symm
  -- a line that ends in a carriage return would lose it with the line break
  have hend : (lines (Base64.encode b) ++ [0x0a] ++ (closing ++ label ++ dashes)).getLast? ≠
      some 0x0d := by
    have hdashes : dashes ≠ [] ∧ dashes.getLast? ≠ some 0x0d := by decide
    rw [← List.append_assoc, ← List.append_assoc, List.getLast?_append_of_ne_nil _ hdashes.1]
    exact hdashes.2
  have hline : (lines (Base64.encode b)).getLast? ≠ some 0x0d := by
    rw [getLast?_lines]
    intro hlast
    exact absurd (Base64.mem_encode (List.mem_of_getLast? hlast)).1 (by decide)
  rw [decode?, encode, dropFront?_append]
  simp only [Option.orElse_some, Option.bind_eq_bind, Option.bind_some, dropFront?_append,
    afterBreak?, beforeBreak?_append hend, Option.getD_some, dropBack?_append,
    beforeBreak?_append hline, joinLines?_lines hdigits, Base64.decode?_encode]

/-- What is in armour is a text if its label is one. -/
theorem lt_of_mem_encode {label b : Bytes} (h : ∀ x ∈ label, x < 0x80) {x : UInt8}
    (hx : x ∈ encode label b) : x < 0x80 := by
  have hopening : ∀ x ∈ opening, x < 0x80 := by decide +kernel
  have hclosing : ∀ x ∈ closing, x < 0x80 := by decide +kernel
  have hdashes : ∀ x ∈ dashes, x < 0x80 := by decide +kernel
  have hlines : ∀ x ∈ lines (Base64.encode b), x < 0x80 := by
    intro x hx
    rcases mem_lines hx with rfl | hx
    · decide
    · exact UInt8.lt_of_le_of_lt (Base64.mem_encode hx).2 (by decide)
  simp only [encode, List.mem_append, List.mem_cons, List.not_mem_nil, or_false] at hx
  rcases hx with hx | (hx | hx) | rfl | ((hx | rfl) | (hx | hx) | hx) | rfl
  · exact hopening x hx
  · exact h x hx
  · exact hdashes x hx
  · decide
  · exact hlines x hx
  · decide
  · exact hclosing x hx
  · exact h x hx
  · exact hdashes x hx
  · decide

end Pem

/-! ### Documents -/

namespace KeyDocument

/-- A sequence of unsigned integers. -/
def sequence (l : List Nat) : Bytes := Der.written Der.sequenceTag (l.flatMap Der.writtenUnsigned)

variable {l : List Nat}

theorem whole?_sequence (h : ∀ n ∈ l, bitLength n ≤ 0x100000) (hl : l.length ≤ 9) :
    Der.whole? Der.sequenceTag (sequence l) = some (l.flatMap Der.writtenUnsigned) := by
  have hlength := Der.length_flatMap_writtenUnsigned_le h
  exact Der.whole?_written Der.isTag_sequenceTag (by omega)

theorem length_sequence_le (h : ∀ n ∈ l, bitLength n ≤ 0x100000) (hl : l.length ≤ 9) :
    (sequence l).length ≤ 0x200000 := by
  have hlength := Der.length_flatMap_writtenUnsigned_le h
  have hwritten : (sequence l).length ≤ (l.flatMap Der.writtenUnsigned).length + 6 :=
    Der.length_written_le (by omega)
  omega

theorem length_algorithm : algorithm.length = 15 := rfl

end KeyDocument

open KeyDocument

namespace PublicKey

def numbers (k : PublicKey) : List Nat := [k.modulus, k.exponent]

/-- The contents of a document, in which the numbers stand in a string of bits. -/
def info (k : PublicKey) : Bytes :=
  algorithm ++ Der.written Der.bitStringTag (0 :: sequence k.numbers)

def document (k : PublicKey) : Bytes :=
  Pem.encode publicLabel (Der.written Der.sequenceTag k.info)

theorem bitLength_numbers_le (k : PublicKey) : ∀ n ∈ k.numbers, bitLength n ≤ 0x100000 := by
  have hmodulus : bitLength k.modulus ≤ 0x100000 := k.bitLength_le.trans (by decide)
  have hword : bitLength k.exponent ≤ 64 := bitLength_le_iff.mpr k.sound.1
  have hexponent : bitLength k.exponent ≤ 0x100000 := hword.trans (by decide)
  simp [numbers, hmodulus, hexponent]

theorem publicParts?_info (k : PublicKey) :
    publicParts? (Der.written Der.sequenceTag k.info) = some (k.modulus, k.exponent) := by
  have hbits := k.bitLength_numbers_le
  have hlength := length_sequence_le hbits (by simp [numbers])
  have hoctets : (0 :: sequence k.numbers).length < 0x10000000 := by
    rw [List.length_cons]
    omega
  have hinfo : k.info.length < 0x10000000 := by
    have hwritten := @Der.length_written_le Der.bitStringTag _ hoctets
    rw [List.length_cons] at hwritten
    rw [info, List.length_append, length_algorithm]
    omega
  have hsequence := whole?_sequence hbits (by simp [numbers])
  have hmany : Der.unsignedMany? 2 (k.numbers.flatMap Der.writtenUnsigned) = some k.numbers :=
    Der.unsignedMany?_flatMap hbits
  simp only [publicParts?, Der.whole?_written Der.isTag_sequenceTag hinfo, Option.bind_eq_bind,
    Option.bind_some]
  rw [info, dropFront?_append]
  simp only [Der.whole?_written Der.isTag_bitStringTag hoctets, Der.bitStringOctets?, hsequence,
    hmany, Option.bind_some]
  rfl

theorem ofPem?_document (k : PublicKey) : ofPem? k.document = some k := by
  rw [ofPem?, document, Pem.decode?_encode _ (Der.written_ne_nil _ _)]
  simp only [Option.bind_eq_bind, Option.bind_some, k.publicParts?_info]
  exact dif_pos ⟨k.sound, k.bitLength_le⟩

theorem lt_of_mem_document (k : PublicKey) {x : UInt8} (h : x ∈ k.document) : x < 0x80 :=
  Pem.lt_of_mem_encode (by decide +kernel) h

end PublicKey

namespace PrivateKey

/-- The numbers of a private key in the order in which a document has them. -/
def numbers (k : PrivateKey) : List Nat :=
  [k.modulus, k.exponent, k.privateExponent, k.p, k.q, k.privateExponent % (k.p - 1),
    k.privateExponent % (k.q - 1), (inverseMod? k.q k.p).getD 0]

/-- The contents of a document, in which the numbers stand behind a version in a string of
octets. -/
def info (k : PrivateKey) : Bytes :=
  Der.writtenUnsigned 0 ++ (algorithm ++ Der.written Der.octetStringTag (sequence (0 :: k.numbers)))

def document (k : PrivateKey) : Bytes :=
  Pem.encode privateLabel (Der.written Der.sequenceTag k.info)

variable {k : PrivateKey}

theorem privateNumbers?_sequence (h : ∀ n ∈ 0 :: k.numbers, bitLength n ≤ 0x100000) :
    privateNumbers? (sequence (0 :: k.numbers)) = some k.numbers := by
  have hmany : Der.unsignedMany? 9 ((0 :: k.numbers).flatMap Der.writtenUnsigned) =
      some (0 :: k.numbers) := Der.unsignedMany?_flatMap h
  simp only [privateNumbers?, whole?_sequence h (by simp [numbers]), Option.bind_eq_bind,
    Option.bind_some, hmany]
  rfl

theorem privateKey?_info (h : ∀ n ∈ k.numbers, bitLength n ≤ 0x100000) :
    privateKey? (Der.written Der.sequenceTag k.info) = some k := by
  have hzero : bitLength 0 ≤ 0x100000 := by decide
  have hbits : ∀ n ∈ 0 :: k.numbers, bitLength n ≤ 0x100000 := List.forall_mem_cons.mpr ⟨hzero, h⟩
  have hlength := length_sequence_le hbits (by simp [numbers])
  have hoctets : (sequence (0 :: k.numbers)).length < 0x10000000 := by omega
  have hinfo : k.info.length < 0x10000000 := by
    have hwritten := @Der.length_written_le Der.octetStringTag _ hoctets
    have hversion : (Der.writtenUnsigned 0).length = 3 := rfl
    rw [info, List.length_append, List.length_append, length_algorithm, hversion]
    omega
  have hcontents := Der.contents?_written Der.isTag_octetStringTag hoctets []
  rw [List.append_nil] at hcontents
  simp only [privateKey?, Der.whole?_written Der.isTag_sequenceTag hinfo, Option.bind_eq_bind,
    Option.bind_some]
  rw [info, Der.unsigned?_writtenUnsigned hzero]
  simp only [Option.bind_some, dropFront?_append, hcontents, privateNumbers?_sequence hbits]
  exact dif_pos ⟨k.sound, k.one_lt_p, k.one_lt_q, k.modulus_eq, k.inverse_p, k.inverse_q⟩

theorem ofPem?_document (h : ∀ n ∈ k.numbers, bitLength n ≤ 0x100000) :
    ofPem? k.document = some k := by
  rw [ofPem?, document, Pem.decode?_encode _ (Der.written_ne_nil _ _), Option.bind_eq_bind,
    Option.bind_some, privateKey?_info h]

theorem lt_of_mem_document (k : PrivateKey) {x : UInt8} (h : x ∈ k.document) : x < 0x80 :=
  Pem.lt_of_mem_encode (by decide +kernel) h

end PrivateKey

end SignedBoot
