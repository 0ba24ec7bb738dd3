import SignedBoot.Text.Base64

/-!
# Armoured text

A document in armour stands between a BEGIN line and an END line with the same label, in lines of
64 base64 digits of which the last may be shorter. Anything may stand on the lines before, and
nothing after.
-/

namespace SignedBoot.Pem

def lineLength : Nat := 64

def opening : Bytes := ascii "-----BEGIN "

def closing : Bytes := ascii "-----END "

def dashes : Bytes := ascii "-----"

def afterBreak? : Bytes → Option Bytes
  | 0x0d :: 0x0a :: rest => some rest
  | 0x0a :: rest => some rest
  | 0x0d :: rest => some rest
  | _ => none

def beforeBreak? (b : Bytes) : Option Bytes :=
  match b.reverse with
  | 0x0a :: 0x0d :: rest => some rest.reverse
  | 0x0a :: rest => some rest.reverse
  | 0x0d :: rest => some rest.reverse
  | _ => none

theorem length_afterBreak? {b rest : Bytes} (h : afterBreak? b = some rest) :
    rest.length < b.length := by
  unfold afterBreak? at h
  split at h <;> cases h <;> simp only [List.length_cons] <;> omega

theorem length_afterBreak?_drop {b rest : Bytes} {n : Nat}
    (h : afterBreak? (b.drop n) = some rest) : rest.length < b.length :=
  Nat.lt_of_lt_of_le (length_afterBreak? h) (by rw [List.length_drop]; exact Nat.sub_le _ _)

/-- What follows the opening on the first line that has it. No line before may hold a zero. -/
def afterPreamble? : Bytes → Option Bytes
  | [] => none
  | x :: rest =>
    if x = 0 then none
    else if x = 0x0a then (dropFront? opening rest).orElse fun () => afterPreamble? rest
    else afterPreamble? rest

def joinLines? (b : Bytes) : Option Bytes :=
  if b = [] then none
  else if b.length ≤ lineLength then some b
  else
    match h : afterBreak? (b.drop lineLength) with
    | none => none
    | some [] => some (b.take lineLength)
    | some rest =>
      have : rest.length < b.length := length_afterBreak?_drop h
      (joinLines? rest).map (b.take lineLength ++ ·)
termination_by b.length

def decode? (label b : Bytes) : Option Bytes := do
  let b ← (dropFront? opening b).orElse fun () => afterPreamble? b
  let b ← dropFront? (label ++ dashes) b
  let b ← afterBreak? b
  let b := (beforeBreak? b).getD b
  let b ← dropBack? (closing ++ label ++ dashes) b
  let b ← beforeBreak? b
  let digits ← joinLines? b
  Base64.decode? digits

end SignedBoot.Pem
