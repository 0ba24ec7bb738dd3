/-!
# Paths

Paths are texts of names with slashes between them. A name of one dot stands for the directory it
is in, and a name of two dots for the directory above.
-/

namespace SignedBoot.Path

def names (path : String) : List String := path.splitOn "/"

def isAbsolute (path : String) : Bool := path.startsWith "/"

/-- Drops names from the end that stand for no step, but never the first name. -/
def trim : List String → List String
  | [] => []
  | first :: rest => first :: (rest.reverse.dropWhile fun n => n = "" ∨ n = ".").reverse

def parent (path : String) : String :=
  let directory := trim (trim (names path)).dropLast
  if directory = [""] then "/" else "/".intercalate directory

def join (directory path : String) : String :=
  if isAbsolute path ∨ directory = "" then path
  else if directory.endsWith "/" then directory ++ path
  else directory ++ "/" ++ path

end SignedBoot.Path
