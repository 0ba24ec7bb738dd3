import SignedBoot.Bytes.Numeral

/-!
# SHA-256

A hasher takes a message octet by octet and compresses each full block of 64. Feeding a message
in pieces is feeding it whole (`Hasher.update_append`), so the digest depends on the octets alone.
-/

namespace SignedBoot

abbrev Digest := Block 32

namespace Sha256

/-- The eight words of the chaining state. -/
structure State where
  a : UInt32
  b : UInt32
  c : UInt32
  d : UInt32
  e : UInt32
  f : UInt32
  g : UInt32
  h : UInt32

/-- The fractional parts of the square roots of the first eight primes. -/
def initialState : State :=
  ⟨0x6a09e667, 0xbb67ae85, 0x3c6ef372, 0xa54ff53a, 0x510e527f, 0x9b05688c, 0x1f83d9ab, 0x5be0cd19⟩

/-- The fractional parts of the cube roots of the first 64 primes, one for each round. -/
def roundConstants : List UInt32 :=
  [0x428a2f98, 0x71374491, 0xb5c0fbcf, 0xe9b5dba5, 0x3956c25b, 0x59f111f1, 0x923f82a4, 0xab1c5ed5,
   0xd807aa98, 0x12835b01, 0x243185be, 0x550c7dc3, 0x72be5d74, 0x80deb1fe, 0x9bdc06a7, 0xc19bf174,
   0xe49b69c1, 0xefbe4786, 0x0fc19dc6, 0x240ca1cc, 0x2de92c6f, 0x4a7484aa, 0x5cb0a9dc, 0x76f988da,
   0x983e5152, 0xa831c66d, 0xb00327c8, 0xbf597fc7, 0xc6e00bf3, 0xd5a79147, 0x06ca6351, 0x14292967,
   0x27b70a85, 0x2e1b2138, 0x4d2c6dfc, 0x53380d13, 0x650a7354, 0x766a0abb, 0x81c2c92e, 0x92722c85,
   0xa2bfe8a1, 0xa81a664b, 0xc24b8b70, 0xc76c51a3, 0xd192e819, 0xd6990624, 0xf40e3585, 0x106aa070,
   0x19a4c116, 0x1e376c08, 0x2748774c, 0x34b0bcb5, 0x391c0cb3, 0x4ed8aa4a, 0x5b9cca4f, 0x682e6ff3,
   0x748f82ee, 0x78a5636f, 0x84c87814, 0x8cc70208, 0x90befffa, 0xa4506ceb, 0xbef9a3f7, 0xc67178f2]

def rotateRight (x n : UInt32) : UInt32 := (x >>> n) ||| (x <<< (32 - n))

/-- The word that follows sixteen words of the message schedule. -/
def scheduleNext (window : List UInt32) : UInt32 :=
  let x := window.getD 1 0
  let y := window.getD 14 0
  let sigma0 := rotateRight x 7 ^^^ rotateRight x 18 ^^^ (x >>> 3)
  let sigma1 := rotateRight y 17 ^^^ rotateRight y 19 ^^^ (y >>> 10)
  sigma1 + window.getD 9 0 + sigma0 + window.getD 0 0

/-- One round under a round constant and a word of the schedule. -/
def round (s : State) (k w : UInt32) : State :=
  let sum1 := rotateRight s.e 6 ^^^ rotateRight s.e 11 ^^^ rotateRight s.e 25
  let choice := (s.e &&& s.f) ^^^ ((s.e ^^^ 0xffffffff) &&& s.g)
  let t1 := s.h + sum1 + choice + k + w
  let sum0 := rotateRight s.a 2 ^^^ rotateRight s.a 13 ^^^ rotateRight s.a 22
  let majority := (s.a &&& s.b) ^^^ (s.a &&& s.c) ^^^ (s.b &&& s.c)
  ⟨t1 + (sum0 + majority), s.a, s.b, s.c, s.d + t1, s.e, s.f, s.g⟩

/-- The rounds for the given constants, over a window of sixteen schedule words. -/
def rounds : (constants window : List UInt32) → State → State
  | [], _, s => s
  | k :: ks, window, s =>
    rounds ks (window.drop 1 ++ [scheduleNext window]) (round s k (window.headD 0))

def wordsOf : Bytes → List UInt32
  | x :: y :: z :: w :: rest => UInt32.ofNat (beValue [x, y, z, w]) :: wordsOf rest
  | _ => []

def compress (s : State) (block : Bytes) : State :=
  let t := rounds roundConstants (wordsOf block) s
  ⟨s.a + t.a, s.b + t.b, s.c + t.c, s.d + t.d, s.e + t.e, s.f + t.f, s.g + t.g, s.h + t.h⟩

def State.digest (s : State) : Digest :=
  ⟨be 4 s.a.toNat ++ (be 4 s.b.toNat ++ (be 4 s.c.toNat ++ (be 4 s.d.toNat ++
    (be 4 s.e.toNat ++ (be 4 s.f.toNat ++ (be 4 s.g.toNat ++ be 4 s.h.toNat)))))),
   by simp⟩

/-- A message on its way into the state. -/
structure Hasher where
  state : State
  pending : Bytes
  filled : Nat
  total : Nat

namespace Hasher

def start : Hasher := ⟨initialState, [], 0, 0⟩

def absorb (h : Hasher) (x : UInt8) : Hasher :=
  if h.filled + 1 = 64 then
    ⟨compress h.state (x :: h.pending).reverse, [], 0, h.total + 1⟩
  else ⟨h.state, x :: h.pending, h.filled + 1, h.total + 1⟩

/-- Takes the octets of a byte string in order. -/
def update (h : Hasher) (b : Bytes) : Hasher := b.foldl absorb h

/-- A one bit, zeros up to the last eight octets of a block, and the message length in bits. -/
def padding (total : Nat) : Bytes :=
  0x80 :: (List.replicate ((119 - total % 64) % 64) 0 ++ be 8 (8 * total))

def finish (h : Hasher) : Digest := (h.update (padding h.total)).state.digest

theorem update_append (h : Hasher) (a b : Bytes) : h.update (a ++ b) = (h.update a).update b :=
  List.foldl_append

theorem foldl_update (h : Hasher) (pieces : List Bytes) :
    pieces.foldl update h = h.update pieces.flatten := by
  induction pieces generalizing h with
  | nil => rfl
  | cons p ps ih => rw [List.foldl_cons, ih, List.flatten_cons, update_append]

end Hasher

end Sha256

def sha256 (b : Bytes) : Digest := (Sha256.Hasher.start.update b).finish

example : beValue (sha256 (ascii "abc")).bytes =
    0xba7816bf8f01cfea414140de5dae2223b00361a396177a9cb410ff61f20015ad := by
  decide +kernel

end SignedBoot
