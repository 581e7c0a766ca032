/-
Loading grammar files into a table. A batch goes through every file that
the configuration accepts and never stops at a bad one: what became of each
file is recorded, and a file that fails leaves nothing behind but that
record.

Which files a directory contributes, and in which order, is settled before
any is loaded: the entries of each directory in the order of their names, a
directory inside it at its place in that order if the configuration
descends into directories at all. `FileTree.grammarFiles` is that list, and
loading a directory is loading the list one by one.
-/
import ScopeRules.Config
import ScopeRules.Document.Decode
import ScopeRules.Table

namespace ScopeRules

-- ============================================================ the files

/-- A file to be loaded: its path as it is reported, and its bytes. -/
structure GrammarFile where
  path : String
  bytes : List UInt8
  deriving DecidableEq, Repr, Inhabited

namespace FileTree

mutual

/-- The grammar files in a directory that is reported as `path`, in the
order in which they are loaded. -/
def grammarFiles (c : Config) (path : String) : FileTree → List GrammarFile
  | .file _ => []
  | .directory entries =>
    (Assoc.sorted (fun a b => a < b) (grammarFilesByName c path entries)).flatMap Prod.snd

/-- The grammar files that each entry of a directory contributes. -/
def grammarFilesByName (c : Config) (path : String) :
    List (String × FileTree) → List (String × List GrammarFile)
  | [] => []
  | (name, .file bytes) :: rest =>
    (name, if c.acceptsText (Path.join path name) then [⟨Path.join path name, bytes⟩] else [])
      :: grammarFilesByName c path rest
  | (name, .directory entries) :: rest =>
    (name, if c.recursive then grammarFiles c (Path.join path name) (.directory entries) else [])
      :: grammarFilesByName c path rest

end

end FileTree

-- ============================================================= failures

/-- Why a grammar could not be loaded. -/
inductive LoadError where
  | unreadable (path : String) (cause : FileError)
  | undecodable (path : String) (cause : DecodeError)
  deriving DecidableEq, Repr, Inhabited

def LoadError.message : LoadError → String
  | .unreadable path cause => "failed to read " ++ path ++ ": " ++ cause.message
  | .undecodable path cause => "failed to decode " ++ path ++ ": " ++ cause.message

def GrammarFile.document (f : GrammarFile) : Except LoadError Document :=
  match Document.decode f.bytes with
  | .ok d => .ok d
  | .error cause => .error (.undecodable f.path cause)

-- ============================================================== reports

/-- What became of a batch: the scopes of the roots that were loaded, the
files whose roots declare none, and the failures, each in order. -/
structure Report where
  scopes : List Symbol
  unnamed : List String
  errors : List (String × LoadError)
  deriving DecidableEq, Repr, Inhabited

namespace Report

def empty : Report := ⟨[], [], []⟩

def isOk (r : Report) : Bool := r.errors.isEmpty

/-- Records what became of the file or directory at a path. -/
def record (r : Report) (path : String) : Except LoadError (Option Symbol) → Report
  | .ok (some scope) => { r with scopes := r.scopes ++ [scope] }
  | .ok none => { r with unnamed := r.unnamed ++ [path] }
  | .error e => { r with errors := r.errors ++ [(path, e)] }

end Report

-- =============================================================== loading

/-- A table and an interner that grammars are loaded into, with what was
reported on the way. -/
structure Loading where
  table : Table
  interner : Interner
  events : List Event

namespace Loading

/-- Adds the document in a file. A file that fails changes nothing. -/
def load (s : Loading) (f : GrammarFile) : Except LoadError (Option Symbol) × Loading :=
  match f.document with
  | .error e => (.error e, s)
  | .ok d =>
    let added := s.table.add s.interner d
    (.ok added.scope, ⟨added.table, added.interner, s.events ++ added.events⟩)

def report (s : Loading) (e : Event) : Loading := { s with events := s.events ++ [e] }

/-- Records an outcome; a failure is reported as well. -/
def record (path : String) (outcome : Except LoadError (Option Symbol)) (s : Report × Loading) :
    Report × Loading :=
  (s.1.record path outcome,
    match outcome with
    | .ok _ => s.2
    | .error e => s.2.report (.loadFailed path e.message))

def loadRecorded (s : Report × Loading) (f : GrammarFile) : Report × Loading :=
  let (outcome, loaded) := s.2.load f
  record f.path outcome (s.1, loaded)

/-- Loads every grammar file of a directory; a directory that cannot be
read is a failure of its own. -/
def loadDirectory (c : Config) (files : FileTree) (shown path : String) (s : Report × Loading) :
    Report × Loading :=
  match files.at? path with
  | .error cause => record shown (.error (.unreadable shown cause)) s
  | .ok (.file _) => record shown (.error (.unreadable shown .notADirectory)) s
  | .ok directory => (directory.grammarFiles c shown).foldl loadRecorded s

/-- Loads the configured directories, those that are there, and closes the
session of ids if the configuration says so. `shown` gives the path by
which a directory is reported. -/
def loadConfigured (c : Config) (files : FileTree) (shown : String → String) (s : Loading) :
    Report × Loading :=
  let (report, loaded) := c.grammarDirs.foldl
    (fun s path =>
      if files.hasDirectory path then loadDirectory c files (shown path) path s
      else (s.1, s.2.report (.skippedDirectory (shown path))))
    (Report.empty, s)
  let closed :=
    if c.compactAfterLoad then
      { loaded with
        table := loaded.table.compact
        events := loaded.events ++ [loaded.table.ruleIds.compactEvent] }
    else loaded
  (report, closed.report (.finished report.scopes.length report.errors.length))

/-- Loads the one file at a path. A directory can be opened like a file but
has no text. -/
def loadFile (files : FileTree) (shown path : String) (s : Loading) :
    Except LoadError (Option Symbol) × Loading :=
  match files.at? path with
  | .error cause => (.error (.unreadable shown cause), s)
  | .ok (.directory _) => (.error (.undecodable shown .noText), s)
  | .ok (.file bytes) => s.load ⟨shown, bytes⟩

end Loading

end ScopeRules
