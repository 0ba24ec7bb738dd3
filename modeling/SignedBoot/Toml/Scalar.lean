import SignedBoot.Toml.Value

/-!
# Texts, numbers and dates of a document

Each reader takes one item off the front of the characters ahead and returns the rest, or fails.
Readers that loop take the number of characters ahead as a bound on their steps.
-/

namespace SignedBoot.Toml

def isBlank (c : Char) : Bool := c = ' ' || c = '\t'

/-- A character that may stand in a comment: no control character but the tab. -/
def isPlain (c : Char) : Bool := c = '\t' || (' ' ≤ c && c ≠ '\x7f')

def isBareKey (c : Char) : Bool := c.isAlphanum || c = '_' || c = '-'

/-- The rest without blanks in front. -/
def skipBlanks (s : List Char) : List Char := s.dropWhile isBlank

/-- What follows the end of a line, in front of which blanks and a comment may stand. -/
def afterLine? (inComment : Bool) : List Char → Option (List Char)
  | [] => some []
  | '\n' :: s => some s
  | '\r' :: '\n' :: s => some s
  | c :: s =>
    if inComment then if isPlain c then afterLine? true s else none
    else if isBlank c then afterLine? false s
    else if c = '#' then afterLine? true s
    else none

/-- The rest without blanks, line ends and comments in front. -/
def skipLines? (inComment : Bool) : List Char → Option (List Char)
  | [] => if inComment then none else some []
  | '\n' :: s => skipLines? false s
  | '\r' :: '\n' :: s => skipLines? false s
  | c :: s =>
    if inComment then if isPlain c then skipLines? true s else none
    else if isBlank c then skipLines? false s
    else if c = '#' then skipLines? true s
    else some (c :: s)

/-! ## Texts -/

def hexDigit? (c : Char) : Option Nat :=
  if '0' ≤ c ∧ c ≤ '9' then some (c.toNat - 48)
  else if 'A' ≤ c ∧ c ≤ 'F' then some (c.toNat - 55)
  else if 'a' ≤ c ∧ c ≤ 'f' then some (c.toNat - 87)
  else none

/-- The character that a fixed number of hexadecimal digits stand for. -/
def codePoint? (count : Nat) (s : List Char) : Option (Char × List Char) := do
  let digits ← (s.take count).mapM hexDigit?
  let n := digits.foldl (16 * · + ·) 0
  if h : digits.length = count ∧ n.isValidChar then some (Char.ofNatAux n h.2, s.drop count)
  else none

/-- The character that an escape stands for, from behind its backslash on. -/
def unescape? : List Char → Option (Char × List Char)
  | 'b' :: s => some ('\x08', s)
  | 't' :: s => some ('\t', s)
  | 'n' :: s => some ('\n', s)
  | 'f' :: s => some ('\x0c', s)
  | 'r' :: s => some ('\r', s)
  | '"' :: s => some ('"', s)
  | '\\' :: s => some ('\\', s)
  | 'u' :: s => codePoint? 4 s
  | 'U' :: s => codePoint? 8 s
  | _ => none

/-- A text on one line between double quotes, from behind the first of them on. -/
def basicText? : (fuel : Nat) → List Char → Option (List Char × List Char)
  | 0, _ => none
  | fuel + 1, s =>
    match s with
    | [] => none
    | c :: s =>
      if c = '"' then some ([], s)
      else do
        let (c, s) ← if c = '\\' then unescape? s else if isPlain c then some (c, s) else none
        let (cs, s) ← basicText? fuel s
        return (c :: cs, s)

/-- A text on one line between single quotes, from behind the first of them on. -/
def literalText? : List Char → Option (List Char × List Char)
  | [] => none
  | c :: s =>
    if c = '\'' then some ([], s)
    else if isPlain c then (literalText? s).map fun (cs, s) => (c :: cs, s)
    else none

def afterNewline? : List Char → Option (List Char)
  | '\n' :: s => some s
  | '\r' :: '\n' :: s => some s
  | _ => none

/-- The rest without blanks and line ends in front. -/
def skipSpace : List Char → List Char
  | '\r' :: '\n' :: s => skipSpace s
  | c :: s => if c = '\n' ∨ isBlank c then skipSpace s else c :: s
  | [] => []

/-- The end of a text between triple quotes, at which up to two more quotes belong to the text. -/
def closing? (quote : Char) : List Char → Option (List Char × List Char)
  | a :: b :: c :: s =>
    if a = quote ∧ b = quote ∧ c = quote then
      let extra := (s.take 2).takeWhile (· = quote)
      some (extra, s.drop extra.length)
    else none
  | _ => none

/-- A text between triple quotes, from behind them on. Escapes work between double quotes only. -/
def longText? (quote : Char) : (fuel : Nat) → List Char → Option (List Char × List Char)
  | 0, _ => none
  | fuel + 1, s =>
    match closing? quote s with
    | some done => some done
    | none =>
      match s with
      | [] => none
      | c :: rest =>
        let next (c : Char) (s : List Char) : Option (List Char × List Char) :=
          (longText? quote fuel s).map fun (cs, s) => (c :: cs, s)
        if c = '\\' ∧ quote = '"' then
          match afterNewline? (skipBlanks rest) with
          | some s => longText? quote fuel (skipSpace s)
          | none =>
            match unescape? rest with
            | some (c, s) => next c s
            | none => none
        else
          match afterNewline? s with
          | some s => next '\n' s
          | none => if isPlain c then next c rest else none

def text? (s : List Char) : Option (List Char × List Char) :=
  let long (quote : Char) (s : List Char) :=
    longText? quote (s.length + 1) ((afterNewline? s).getD s)
  match s with
  | '"' :: '"' :: '"' :: s => long '"' s
  | '\'' :: '\'' :: '\'' :: s => long '\'' s
  | '"' :: s => basicText? (s.length + 1) s
  | '\'' :: s => literalText? s
  | _ => none

/-! ## Numbers -/

def moreDigits? (isDigit : Char → Bool) : List Char → Option (List Char × List Char)
  | [] => some ([], [])
  | '_' :: s =>
    match s with
    | c :: s => if isDigit c then (moreDigits? isDigit s).map fun (cs, s) => (c :: cs, s) else none
    | [] => none
  | c :: s =>
    if isDigit c then (moreDigits? isDigit s).map fun (cs, s) => (c :: cs, s)
    else some ([], c :: s)

def digits? (isDigit : Char → Bool) : List Char → Option (List Char × List Char)
  | c :: s =>
    if isDigit c then (moreDigits? isDigit s).map fun (cs, s) => (c :: cs, s) else none
  | [] => none

def natOfDigits (base : Nat) (digits : List Char) : Nat :=
  digits.foldl (fun n c => base * n + (hexDigit? c).getD 0) 0

/-- Takes a sign off the front; without one a number is positive. -/
def sign (s : List Char) : Bool × List Char :=
  match s with
  | '-' :: s => (true, s)
  | '+' :: s => (false, s)
  | s => (false, s)

/-- The digits of a decimal number, which has no needless zero in front. -/
def decimal? : List Char → Option (List Char × List Char)
  | '0' :: s => some (['0'], s)
  | s => digits? Char.isDigit s

def integer? (negative : Bool) (n : Nat) : Option Value :=
  let i : Int := if negative then -n else n
  if -0x8000000000000000 ≤ i ∧ i < 0x8000000000000000 then some (.integer i) else none

def basedInteger? (base : Nat) (s : List Char) : Option (Value × List Char) := do
  let (digits, s) ← digits? (fun c => (hexDigit? c).any (· < base)) s
  return (← integer? false (natOfDigits base digits), s)

/-- The least number that rounds to infinity as a float of 64 bits. -/
def floatLimit : Nat := (1 <<< 1024) - (1 <<< 970)

/-- Whether a decimal fraction is too large for a float of 64 bits: it rounds to infinity. -/
def overflows (whole fraction : List Char) (exponent : Int) : Bool :=
  let digits := (whole ++ fraction).dropWhile (· = '0')
  let magnitude : Int := exponent - fraction.length + digits.length
  if digits = [] ∨ magnitude < 300 then false
  else if magnitude > 310 then true
  else natOfDigits 10 ((digits ++ List.replicate 310 '0').take magnitude.toNat) ≥ floatLimit

def exponent? (s : List Char) : Option (Option Int × List Char) :=
  match s with
  | c :: rest =>
    if c = 'e' ∨ c = 'E' then do
      let (negative, rest) := sign rest
      let (digits, rest) ← digits? Char.isDigit rest
      let n : Int := natOfDigits 10 digits
      return (some (if negative then -n else n), rest)
    else some (none, s)
  | [] => some (none, [])

def fraction? (s : List Char) : Option (Option (List Char) × List Char) :=
  match s with
  | '.' :: rest => do
    let (digits, rest) ← digits? Char.isDigit rest
    return (some digits, rest)
  | s => some (none, s)

/-- A decimal integer or a float. A float may be too small, but not too large. -/
def decimalNumber? (s : List Char) : Option (Value × List Char) := do
  let (negative, s) := sign s
  let (whole, s) ← decimal? s
  let (fraction, s) ← fraction? s
  let (exponent, s) ← exponent? s
  match fraction, exponent with
  | none, none => return (← integer? negative (natOfDigits 10 whole), s)
  | _, _ =>
    if ¬ negative ∧ overflows whole (fraction.getD []) (exponent.getD 0) then none
    else return (.float, s)

def number? (s : List Char) : Option (Value × List Char) :=
  match s with
  | '0' :: 'x' :: s => basedInteger? 16 s
  | '0' :: 'o' :: s => basedInteger? 8 s
  | '0' :: 'b' :: s => basedInteger? 2 s
  | s =>
    match (sign s).2 with
    | 'i' :: 'n' :: 'f' :: s => some (.float, s)
    | 'n' :: 'a' :: 'n' :: s => some (.float, s)
    | _ => decimalNumber? s

/-! ## Dates and times -/

def fixed? (count lower upper : Nat) (s : List Char) : Option (Nat × List Char) :=
  let digits := s.take count
  let n := natOfDigits 10 digits
  if digits.length = count ∧ digits.all Char.isDigit ∧ lower ≤ n ∧ n ≤ upper then
    some (n, s.drop count)
  else none

def expect? (c : Char) : List Char → Option (List Char)
  | d :: s => if d = c then some s else none
  | [] => none

def daysOf (year month : Nat) : Nat :=
  if month = 2 then
    if year % 4 = 0 ∧ (year % 100 ≠ 0 ∨ year % 400 = 0) then 29 else 28
  else if month = 4 ∨ month = 6 ∨ month = 9 ∨ month = 11 then 30
  else 31

def afterDay? (s : List Char) : Option (List Char) := do
  let (year, s) ← fixed? 4 0 9999 s
  let (month, s) ← fixed? 2 1 12 (← expect? '-' s)
  let (_, s) ← fixed? 2 1 (daysOf year month) (← expect? '-' s)
  return s

/-- What follows the fraction of a second, if there is one. -/
def afterFraction (s : List Char) : List Char :=
  match s with
  | '.' :: c :: rest => if c.isDigit then rest.dropWhile Char.isDigit else s
  | s => s

def afterTime? (s : List Char) : Option (List Char) := do
  let (_, s) ← fixed? 2 0 23 s
  let (_, s) ← fixed? 2 0 59 (← expect? ':' s)
  let (_, s) ← fixed? 2 0 60 (← expect? ':' s)
  return afterFraction s

/-- What follows the offset of a time zone, if there is one. -/
def afterOffset (s : List Char) : List Char :=
  let offset (s : List Char) : Option (List Char) := do
    let (_, s) ← fixed? 2 0 23 s
    let (_, s) ← fixed? 2 0 59 (← expect? ':' s)
    return s
  match s with
  | 'Z' :: s => s
  | 'z' :: s => s
  | '+' :: rest => (offset rest).getD s
  | '-' :: rest => (offset rest).getD s
  | s => s

def afterDate? (s : List Char) : Option (List Char) :=
  match afterDay? s with
  | none => afterTime? s
  | some s =>
    match s with
    | c :: rest =>
      if c = 'T' ∨ c = 't' ∨ c = ' ' then some (((afterTime? rest).map afterOffset).getD s)
      else some s
    | [] => some []

/-! ## Scalars -/

/-- A value without parts. -/
def scalar? (s : List Char) : Option (Value × List Char) :=
  match s with
  | '"' :: _ => (text? s).map fun (cs, s) => (.text (String.ofList cs), s)
  | '\'' :: _ => (text? s).map fun (cs, s) => (.text (String.ofList cs), s)
  | 't' :: 'r' :: 'u' :: 'e' :: s => some (.boolean true, s)
  | 'f' :: 'a' :: 'l' :: 's' :: 'e' :: s => some (.boolean false, s)
  | s =>
    match afterDate? s with
    | some s => some (.date, s)
    | none => number? s

end SignedBoot.Toml
