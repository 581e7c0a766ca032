/-
A directory tree as a value: files are their bytes, directories list what
they hold in the order in which a listing happens to give it. Nothing here
depends on that order; where an order matters the entries are sorted by
name.
-/
import ScopeRules.Assoc
import ScopeRules.Files.Path

namespace ScopeRules

inductive FileTree where
  | file (bytes : List UInt8)
  | directory (entries : List (String × FileTree))
  deriving Inhabited

/-- Why a file or directory cannot be had. -/
inductive FileError where
  | notFound
  | notADirectory
  | isADirectory
  /-- The path, or a name in it, has more bytes than it may have. -/
  | nameTooLong
  /-- The path holds the character by which paths are ended. -/
  | nulInPath
  /-- The bytes are no text. -/
  | notText
  deriving DecidableEq, Repr, Inhabited

def FileError.message : FileError → String
  | .notFound => "No such file or directory (os error 2)"
  | .notADirectory => "Not a directory (os error 20)"
  | .isADirectory => "Is a directory (os error 21)"
  | .nameTooLong => "File name too long (os error 36)"
  | .nulInPath => "file name contained an unexpected NUL byte"
  | .notText => "stream did not contain valid UTF-8"

/-- What is wrong with a path before anything is looked up. An absolute path
does not start in any tree, so nothing is there. -/
def FileError.ofPath? (path : String) : Option FileError :=
  if path.toList.contains '\x00' then some .nulInPath
  else if Path.maxPath < path.utf8ByteSize then some .nameTooLong
  else if Path.isAbsolute path then some .notFound
  else none

namespace FileTree

-- ============================================================== finding

/-- What the parts of a path lead to from `here`; `above` are the
directories around it, innermost first. Only a directory has parts, be they
empty, and two dots at the outermost one stay there. A name that is too long
is found to be so where it is looked up. -/
def locate (above : List FileTree) (here : FileTree) : List String → Except FileError FileTree
  | [] => .ok here
  | part :: rest =>
    match here with
    | .file _ => .error .notADirectory
    | .directory entries =>
      if part = "" ∨ part = "." then locate above here rest
      else if part = ".." then
        match above with
        | [] => locate [] here rest
        | outer :: further => locate further outer rest
      else if Path.maxName < part.utf8ByteSize then .error .nameTooLong
      else
        match Assoc.get? entries part with
        | none => .error .notFound
        | some next => locate (here :: above) next rest

def at? (t : FileTree) (path : String) : Except FileError FileTree :=
  match FileError.ofPath? path with
  | some e => .error e
  | none => t.locate [] (Path.parts path)

def hasDirectory (t : FileTree) (path : String) : Bool :=
  match t.at? path with
  | .ok (.directory _) => true
  | _ => false

-- ============================================================= changing

/-- Stores `content` under the last of the names, in the directory that the
others lead to; `none` if there is no such directory. -/
def store (content : FileTree) : List String → FileTree → Option FileTree
  | [], _ => none
  | _ :: _, .file _ => none
  | [name], .directory entries =>
    if Path.maxName < name.utf8ByteSize then none
    else some (.directory (Assoc.put entries name content))
  | name :: rest, .directory entries =>
    (Assoc.get? entries name).bind fun next =>
      (store content rest next).map fun changed => .directory (Assoc.put entries name changed)

/-- Makes a directory in one that is there; one that is there itself
stays. -/
def makeAt (t : FileTree) (names : List String) : Option FileTree :=
  match t.locate [] names with
  | .ok (.directory _) => some t
  | .ok (.file _) => none
  | .error _ => store (.directory []) names t

/-- Makes every directory that the parts of a path lead through. -/
def makeAll (t : FileTree) (parts : List String) : Option FileTree :=
  (Path.stops [] parts).foldlM makeAt t

/-- Makes a directory and those on the way to it. -/
def makeDirectory (t : FileTree) (path : String) : Option FileTree :=
  if (FileError.ofPath? path).isSome then none else t.makeAll (Path.parts path)

/-- Writes a file, in place of one that is there, and makes the directories
on the way to it; never in place of a directory. -/
def write (t : FileTree) (path : String) (bytes : List UInt8) : Option FileTree :=
  if (FileError.ofPath? path).isSome then none
  else
    (t.makeAll (Path.parts path).dropLast).bind fun t =>
      if t.hasDirectory path then none else store (.file bytes) (Path.names path) t

/-- Removes the file under the names. -/
def removeAt : List String → FileTree → Option FileTree
  | [], _ => none
  | _ :: _, .file _ => none
  | [name], .directory entries =>
    match Assoc.get? entries name with
    | some (.file _) => some (.directory (Assoc.erase entries name))
    | _ => none
  | name :: rest, .directory entries =>
    match Assoc.get? entries name with
    | some next =>
      (removeAt rest next).map fun changed => .directory (Assoc.put entries name changed)
    | none => none

def remove (t : FileTree) (path : String) : Option FileTree :=
  match t.at? path with
  | .ok (.file _) => removeAt (Path.names path) t
  | _ => none

end FileTree

end ScopeRules
