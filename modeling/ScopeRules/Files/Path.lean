/-
File paths. A path is a list of bytes in which slashes separate names;
which name is its last is decided without looking at any disk. Empty parts
and single dots say nothing, so they are passed over; two dots name no
file.
-/
namespace ScopeRules.Path

/-- The parts of a list between the places where `sep` stands. -/
def splitAt {α : Type} [DecidableEq α] (sep : α) : List α → List (List α)
  | [] => [[]]
  | x :: rest =>
    if x = sep then [] :: splitAt sep rest
    else
      match splitAt sep rest with
      | [] => [[x]]
      | part :: parts => (x :: part) :: parts

/-- The last name of a path given by its bytes; none for a path that ends
in two dots or has no names at all. -/
def fileName? (bytes : List UInt8) : Option (List UInt8) :=
  let named := (splitAt 47 bytes).filter fun part => part ≠ [] ∧ part ≠ [46]
  named.getLast?.filter (· ≠ [46, 46])

/-- The parts of a path, empty ones and dots included. -/
def parts (path : String) : List String := (splitAt '/' path.toList).map String.ofList

/-- The bytes that a name has at most. -/
def maxName : Nat := 255

/-- The bytes that a path has at most. -/
def maxPath : Nat := 4095

/-- Whether a path does not depend on the directory in which it is used. -/
def isAbsolute (path : String) : Bool := path.toList.head? = some '/'

/-- The path of what `path` leads to from a directory; an absolute path
stays as it is. -/
def join (directory path : String) : String :=
  if isAbsolute path then path
  else if directory.toList.getLast? = some '/' then directory ++ path
  else directory ++ "/" ++ path

/-- Where a path has led after each of its parts, starting `above`: the
names from the outermost directory. Two dots take the last name away. -/
def stops (above : List String) : List String → List (List String)
  | [] => []
  | part :: rest =>
    let here :=
      if part = "" ∨ part = "." then above
      else if part = ".." then above.dropLast
      else above ++ [part]
    here :: stops here rest

/-- The names from the outermost directory to what a path leads to. -/
def names (path : String) : List String := ((stops [] (parts path)).getLast?).getD []

end ScopeRules.Path
