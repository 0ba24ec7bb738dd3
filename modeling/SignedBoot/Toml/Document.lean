import SignedBoot.Toml.Scalar

/-!
# Configuration documents

A document is a run of lines: pairs of a key and a value, and headers that say into which table
the pairs after them go. Reading it has two halves, the lines with their values and the table
that the lines build.
-/

namespace SignedBoot.Toml

/-- The number of parts that a key may have, and one more than the depth of a value. -/
def nestingLimit : Nat := 80

/-- A key: the tables on the way and the last part. -/
structure Key where
  path : List String
  last : String

structure Pair where
  key : Key
  value : Value

/-! ## Keys and values -/

def keyPart? (s : List Char) : Option (String × List Char) :=
  match s with
  | '"' :: rest => (basicText? (rest.length + 1) rest).map fun (cs, s) => (String.ofList cs, s)
  | '\'' :: rest => (literalText? rest).map fun (cs, s) => (String.ofList cs, s)
  | s =>
    match s.takeWhile isBareKey with
    | [] => none
    | cs => some (String.ofList cs, s.dropWhile isBareKey)

/-- The parts of a key, with dots between them and blanks around them. -/
def keyParts? : (fuel : Nat) → List Char → Option (List String × List Char)
  | 0, _ => none
  | fuel + 1, s => do
    let (part, s) ← keyPart? (skipBlanks s)
    match skipBlanks s with
    | '.' :: s =>
      let (parts, s) ← keyParts? fuel s
      return (part :: parts, s)
    | s => return ([part], s)

def key? (s : List Char) : Option (Key × List Char) := do
  let (parts, s) ← keyParts? (s.length + 1) s
  let last ← parts.getLast?
  if parts.length < nestingLimit then return (⟨parts.dropLast, last⟩, s) else none

/-- A key, an equals sign and a value, for one way to read values. -/
def pair? (value? : List Char → Option (Value × List Char)) (s : List Char) :
    Option (Pair × List Char) := do
  let (key, s) ← key? s
  let s ← expect? '=' s
  let (value, s) ← value? (skipBlanks s)
  return (⟨key, value⟩, s)

/-- The items of an array, from behind its bracket or a comma on. -/
def items? (value? : List Char → Option (Value × List Char)) :
    (fuel : Nat) → List Char → Option (List Value × List Char)
  | 0, _ => none
  | fuel + 1, s => do
    match ← skipLines? false s with
    | ']' :: s => return ([], s)
    | s =>
      let (item, s) ← value? s
      match ← skipLines? false s with
      | ',' :: s =>
        let (items, s) ← items? value? fuel s
        return (item :: items, s)
      | ']' :: s => return ([item], s)
      | _ => none

/-- The pairs of a table between braces, at least one. -/
def pairs? (value? : List Char → Option (Value × List Char)) :
    (fuel : Nat) → List Char → Option (List Pair × List Char)
  | 0, _ => none
  | fuel + 1, s => do
    let (pair, s) ← pair? value? s
    match skipBlanks s with
    | ',' :: s =>
      let (pairs, s) ← pairs? value? fuel s
      return (pair :: pairs, s)
    | '}' :: s => return ([pair], s)
    | _ => none

/-! ## Building tables -/

/-- Changes the table at the end of a path. Tables on the way that are missing are made; a dotted
key may not enter a table that has a header of its own, and nothing may enter a table between
braces. -/
def descend (dotted : Bool) (change : TableOrigin → Entries → Option Entries) :
    (path : List String) → TableOrigin → Entries → Option Entries
  | [], origin, entries => change origin entries
  | key :: path, _, entries =>
    match Entries.get? entries key with
    | none => do
      let origin := if dotted then TableOrigin.dottedKey else .headerPath
      let inner ← descend dotted change path origin []
      return Entries.put entries key (.table origin inner)
    | some (.table origin inner) => do
      if origin = .braces ∨ dotted ∧ origin = .header then none
      else
        let inner ← descend dotted change path origin inner
        return Entries.put entries key (.table origin inner)
    | some (.tables items) =>
      match items.getLast? with
      | some (.table origin inner) => do
        let inner ← descend dotted change path origin inner
        return Entries.put entries key (.tables (items.dropLast ++ [.table origin inner]))
      | _ => none
    | some _ => none

/-- Adds a pair to a table. The last part of a dotted key goes into a table made by dotted keys
only, and that of any other key into no such table. -/
def addPair? (entries : Entries) (pair : Pair) : Option Entries :=
  descend true
    (fun origin inner =>
      if origin = .dottedKey ↔ pair.key.path = [] then none
      else Entries.add? inner pair.key.last pair.value)
    pair.key.path .header entries

def tableOfPairs? (pairs : List Pair) : Option Value :=
  (pairs.foldlM addPair? []).map (Value.table .braces)

/-! ## Values with parts -/

/-- A value with at most `depth` levels of arrays and tables. -/
def value? : (depth : Nat) → List Char → Option (Value × List Char)
  | 0, s => scalar? s
  | depth + 1, s =>
    match s with
    | '[' :: s => (items? (value? depth) (s.length + 1) s).map fun (items, s) => (.array items, s)
    | '{' :: s =>
      match skipBlanks s with
      | '}' :: s => some (.table .braces [], s)
      | s => do
        let (pairs, s) ← pairs? (value? depth) (s.length + 1) s
        return (← tableOfPairs? pairs, s)
    | s => scalar? s

/-! ## Lines -/

/-- A header: a table, or one more of the tables under a key. -/
inductive Header
  | table (key : Key)
  | element (key : Key)

inductive Line
  | pair (p : Pair)
  | header (h : Header)

/-- One line that is not empty, up to its end. -/
def line? (s : List Char) : Option (Line × List Char) := do
  match s with
  | '[' :: '[' :: s =>
    let (key, s) ← key? s
    let s ← expect? ']' (← expect? ']' s)
    return (.header (.element key), s)
  | '[' :: s =>
    let (key, s) ← key? s
    return (.header (.table key), ← expect? ']' s)
  | s =>
    let (pair, s) ← pair? (value? (nestingLimit - 1)) s
    return (.pair pair, s)

def lines? : (fuel : Nat) → List Char → Option (List Line)
  | 0, _ => none
  | fuel + 1, s => do
    match skipBlanks s with
    | [] => return []
    | s@(c :: _) =>
      if c = '#' ∨ c = '\n' ∨ c = '\r' then lines? fuel (← afterLine? false s)
      else
        let (line, s) ← line? s
        return line :: (← lines? fuel (← afterLine? false s))

/-- The pairs before the first header, and each header with the pairs after it. -/
def sections : List Line → List Pair × List (Header × List Pair)
  | [] => ([], [])
  | .pair p :: rest =>
    let (pairs, more) := sections rest
    (p :: pairs, more)
  | .header h :: rest =>
    let (pairs, more) := sections rest
    ([], (h, pairs) :: more)

/-- Adds a header with its pairs to a document. A header may take up a table that so far has only
been passed through by other headers. -/
def addSection? (root : Entries) : Header × List Pair → Option Entries
  | (.table key, pairs) =>
    descend false
      (fun _ entries => do
        let start ←
          match Entries.get? entries key.last with
          | none => some []
          | some (.table .headerPath inner) => some inner
          | some _ => none
        return Entries.put entries key.last (.table .header (← pairs.foldlM addPair? start)))
      key.path .header root
  | (.element key, pairs) =>
    descend false
      (fun _ entries => do
        let items ←
          match Entries.get? entries key.last with
          | none => some []
          | some (.tables items) => some items
          | some _ => none
        let item := Value.table .header (← pairs.foldlM addPair? [])
        return Entries.put entries key.last (.tables (items ++ [item])))
      key.path .header root

/-- The table of a whole document, in front of which a byte order mark may stand. -/
def parse? (text : String) : Option Entries := do
  let s :=
    match text.toList with
    | '\uFEFF' :: s => s
    | s => s
  let (pairs, more) := sections (← lines? (s.length + 1) s)
  let root ← pairs.foldlM addPair? []
  more.foldlM addSection? root

end SignedBoot.Toml
