import SignedBoot.Bytes.Basic
import SignedBoot.Command.Path

/-!
# Files

What commands do with files goes through two operations, reading a whole file and writing one.
`FileStore.access` provides them on a file system that is a value, so that a command run on it is a
function. Commands are tried on a `FileTree`.
-/

namespace SignedBoot

/-- The operations on files in a monad. A file that cannot be read yields nothing, and a file that
cannot be written yields `false`. -/
structure FileAccess (m : Type → Type) where
  read : (path : String) → m (Option Bytes)
  write : (path : String) → Bytes → m Bool

/-- The text of a file, if it holds UTF-8. -/
def textOf? (contents : Bytes) : Option String := String.fromUTF8? (ByteArray.mk contents.toArray)

/-- A file system whose files are held by values of a type. What a write leaves is a value again,
whether or not the write succeeds. -/
structure FileStore (σ : Type) where
  read? : (files : σ) → (path : String) → Option Bytes
  write : (files : σ) → (path : String) → Bytes → Bool × σ

def FileStore.access {σ : Type} (store : FileStore σ) : FileAccess (StateM σ) where
  read path := return store.read? (← get) path
  write path contents := modifyGet (store.write · path contents)

/-- Files by the names of the directories they are in and their own name. The directories are
those that some file is in. Paths that are absolute or lead above the top are outside the tree. -/
structure FileTree where
  files : List (List String × Bytes)

namespace FileTree

/-- Whether a directory is there; the top always is. -/
def isDirectory (t : FileTree) (place : List String) : Bool :=
  place = [] || t.files.any fun (p, _) => place.isPrefixOf p && place ≠ p

/-- The place reached by names from a place, each of which but the last must be a directory. Two
dots go up from any place but the top. -/
def walk? (t : FileTree) : (names : List String) → (place : List String) → Option (List String)
  | [], place => some place
  | name :: names, place =>
    if ¬ t.isDirectory place then none
    else if name = "" ∨ name = "." then walk? t names place
    else if name = ".." then if place = [] then none else walk? t names place.dropLast
    else walk? t names (place ++ [name])

def place? (t : FileTree) (path : String) : Option (List String) :=
  if Path.isAbsolute path then none else t.walk? (Path.names path) []

def read? (t : FileTree) (path : String) : Option Bytes := do
  t.files.lookup (← t.place? path)

/-- The tree with a file added or replaced, if its directory is there and its place is no
directory. -/
def write? (t : FileTree) (path : String) (contents : Bytes) : Option FileTree := do
  let place ← t.place? path
  let name := (Path.names path).getLast?.getD ""
  if name = "" ∨ name = "." ∨ name = ".." ∨ t.isDirectory place then none
  else return ⟨(place, contents) :: t.files.filter fun (p, _) => p ≠ place⟩

/-- Trees as a file system, where a write that fails leaves the tree as it is. -/
def store : FileStore FileTree where
  read? := read?
  write t path contents :=
    match t.write? path contents with
    | some u => (true, u)
    | none => (false, t)

def access : FileAccess (StateM FileTree) := store.access

end FileTree

end SignedBoot
