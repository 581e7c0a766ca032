/-
The loader's configuration: where grammar files are looked for, and which
files count as such. It is written in TOML; every field may be left out,
and no other field may be there.

A file counts by its name alone: the name has to end in a point and one of
the extensions, in any case of ASCII letters, with something in front of
the point.
-/
import ScopeRules.Files.Tree
import ScopeRules.Toml.Reader
import ScopeRules.Vocabulary

namespace ScopeRules

/-- What is left of a text after its first `n` bytes; none if it has not so
many, or if a character goes on beyond them. -/
def Text.dropBytes? : Nat → List Char → Option (List Char)
  | 0, cs => some cs
  | _ + 1, [] => none
  | n + 1, c :: cs => if c.utf8Size ≤ n + 1 then dropBytes? (n + 1 - c.utf8Size) cs else none

/-- Where and how grammar files are found. -/
structure Config where
  /-- The directories to load, in order. -/
  grammarDirs : List String
  /-- What the names of grammar files end in, without the point. -/
  extensions : List String
  /-- Whether directories inside directories are loaded too. -/
  recursive : Bool
  /-- Whether the session of ids is closed after a batch. -/
  compactAfterLoad : Bool
  deriving DecidableEq, Repr

namespace Config

/-- The configuration of an empty text. -/
def default : Config := ⟨[], ["json"], false, true⟩

instance : Inhabited Config := ⟨default⟩

-- ============================================================== matching

/-- Where the point before the extension has to stand in a name, counted in
bytes from its beginning; none if the name is shorter than what has to
follow. -/
def stemSize? (extension name : String) : Option Nat :=
  if extension.utf8ByteSize + 1 ≤ name.utf8ByteSize then
    some (name.utf8ByteSize - (extension.utf8ByteSize + 1))
  else none

/-- Whether a name is something, a point, and the extension up to the case
of ASCII letters. The name is cut at the byte where the point has to stand;
if that is inside a character there is no point. None says that the
character cut off as the point was longer than a byte. -/
def hasExtension? (extension name : String) : Option Bool :=
  match stemSize? extension name with
  | none | some 0 => some false
  | some stem =>
    match Text.dropBytes? stem name.toList with
    | none => some false
    | some tail =>
      if tail.head? = some '.' then
        (Text.dropBytes? 1 tail).map fun suffix =>
          sameUpToCase (String.ofList suffix) extension
      else some false

/-- Whether a path, given by its bytes, is that of a grammar file. A path
whose last name is no text is not. -/
def accepts (c : Config) (path : List UInt8) : Bool :=
  match (Path.fileName? path).bind fun bytes => String.fromUTF8? ⟨bytes.toArray⟩ with
  | none => false
  | some name => c.extensions.any fun extension => (hasExtension? extension name).getD false

/-- Whether a path is that of a grammar file. -/
def acceptsText (c : Config) (path : String) : Bool := c.accepts path.toUTF8.toList

-- =============================================================== reading

inductive Field where
  | grammarDirs | extensions | recursive | compactAfterLoad
  deriving DecidableEq, Repr, Inhabited

namespace Field

def all : List Field := [grammarDirs, extensions, recursive, compactAfterLoad]

def spelling : Field → String
  | grammarDirs => "grammar_dirs"
  | extensions => "extensions"
  | recursive => "recursive"
  | compactAfterLoad => "compact_after_load"

/-- The field with this key. -/
def ofSpelling? (s : String) : Option Field := all.find? fun field => field.spelling = s

end Field

/-- Why there is no configuration. -/
inductive Error where
  /-- The text is not TOML. -/
  | malformed
  /-- A key is no field. -/
  | unknownField (key : String)
  /-- The value of a field is of the wrong kind. -/
  | wrongKind (field : Field)
  /-- The file with the text cannot be had. -/
  | unreadable (path : String) (cause : FileError)
  deriving DecidableEq, Repr, Inhabited

namespace Error

/-- What is wrong, in words. -/
def detail : Error → String
  | .malformed => "malformed text"
  | .unknownField key =>
    "unknown field `" ++ key ++ "`, expected one of "
      ++ ", ".intercalate (Field.all.map fun field => "`" ++ field.spelling ++ "`")
  | .wrongKind field => "wrong kind of value for `" ++ field.spelling ++ "`"
  | .unreadable path cause => path ++ ": " ++ cause.message

def message (e : Error) : String :=
  match e with
  | .unreadable _ _ => "failed to read config " ++ e.detail
  | _ => "failed to parse config: " ++ e.detail

end Error

/-- The truth value that a TOML value is. -/
def bool? : Toml → Option Bool
  | .bool b => some b
  | _ => none

/-- The strings that a TOML value lists. -/
def strings? : Toml → Option (List String)
  | .array items => items.mapM fun
    | .string s => some s
    | _ => none
  | _ => none

/-- The configuration with one field set. -/
def set (c : Config) (field : Field) (value : Toml) : Except Error Config :=
  let changed := match field with
    | .grammarDirs => (strings? value).map fun dirs => { c with grammarDirs := dirs }
    | .extensions => (strings? value).map fun extensions => { c with extensions := extensions }
    | .recursive => (bool? value).map fun b => { c with recursive := b }
    | .compactAfterLoad => (bool? value).map fun b => { c with compactAfterLoad := b }
  match changed with
  | some c => .ok c
  | none => .error (.wrongKind field)

/-- The configuration with the entries of a table set, one after the
other; the first entry that is wrong is what is wrong. -/
def setAll (c : Config) : List (String × Toml) → Except Error Config
  | [] => .ok c
  | (key, value) :: rest =>
    match Field.ofSpelling? key with
    | none => .error (.unknownField key)
    | some field =>
      match c.set field value with
      | .ok c => c.setAll rest
      | .error e => .error e

/-- The configuration that a text spells. The whole text is read before
any key is looked at, and then the keys are taken in their order as
texts. -/
def ofToml (text : String) : Except Error Config :=
  match Toml.read? text with
  | none => .error .malformed
  | some entries => default.setAll (Assoc.sorted (fun a b => a < b) entries)

def ofFile (files : FileTree) (shown path : String) : Except Error Config :=
  match files.at? path with
  | .error cause => .error (.unreadable shown cause)
  | .ok (.directory _) => .error (.unreadable shown .isADirectory)
  | .ok (.file bytes) =>
    match String.fromUTF8? ⟨bytes.toArray⟩ with
    | none => .error (.unreadable shown .notText)
    | some text => ofToml text

end Config

end ScopeRules
