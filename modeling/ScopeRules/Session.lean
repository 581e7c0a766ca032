/-
Sessions: several tables that share one interner, handles by name to tables
and to nodes, and a tree of grammar files. A table lives as long as a
handle names it; what it has registered dies with it. A handle to a rule
holds that rule and all that it owns, a handle to a reference holds
nothing. What is alive at a moment is the session's `snapshot`.
-/
import ScopeRules.Loader
import ScopeRules.Recipe
import ScopeRules.Snapshot

namespace ScopeRules

/-- The state of a session. `tablesMade` counts the tables that were ever
made, which is how they get their ids. -/
structure Session where
  interner : Interner
  tables : List Table
  tablesMade : Nat
  tableNames : Assoc String TableId
  nodeNames : Assoc String Node
  files : FileTree
  /-- The path by which the outermost directory is reported. -/
  filesPath : String

namespace Session

def empty (filesPath : String) : Session :=
  ⟨.empty, [], 0, [], [], .directory [], filesPath⟩

-- =============================================================== tables

/-- The table that a name is a handle to. -/
def table? (s : Session) (name : String) : Option Table :=
  (s.tableNames.get? name).bind fun id => s.tables.find? fun t => t.id = id

/-- Drops the tables that no name is a handle to. -/
def sweep (s : Session) : Session :=
  { s with tables := s.tables.filter fun t => s.tableNames.any fun (_, id) => t.id = id }

/-- Makes a table and gives it a name; a table that had the name before
loses it. -/
def newTable (s : Session) (name : String) : Session :=
  let id : TableId := ⟨s.tablesMade + 1⟩
  sweep { s with
    tables := s.tables ++ [.new id]
    tablesMade := s.tablesMade + 1
    tableNames := s.tableNames.put name id }

/-- Makes `other` a handle to the table that `name` is a handle to. -/
def cloneTable (s : Session) (name other : String) : Session :=
  match s.tableNames.get? name with
  | none => s
  | some id => sweep { s with tableNames := s.tableNames.put other id }

def dropTable (s : Session) (name : String) : Session :=
  sweep { s with tableNames := s.tableNames.erase name }

/-- The session with a table changed, which keeps its id. -/
def putTable (s : Session) (t : Table) : Session :=
  { s with tables := s.tables.map fun u => if u.id = t.id then t else u }

-- ================================================================ nodes

/-- The node that a name is a handle to. -/
def node? (s : Session) (name : String) : Option Node := s.nodeNames.get? name

/-- Makes a name a handle to a node. -/
def hold (s : Session) (name : String) (x : Node) : Session :=
  { s with nodeNames := s.nodeNames.put name x }

def release (s : Session) (name : String) : Session :=
  { s with nodeNames := s.nodeNames.erase name }

/-- What is alive: the rules that registries and handles hold, and the
tables that have a handle. -/
def snapshot (s : Session) : Snapshot where
  held := s.tables.flatMap (fun t => t.registry.held)
    ++ s.nodeNames.filterMap fun (_, x) => x.rule?
  tables := s.tables

-- ============================================================= grammars

def add (s : Session) (t : Table) (d : Document) : Option Symbol × List Event × Session :=
  let added := t.add s.interner d
  (added.scope, added.events, { s.putTable added.table with interner := added.interner })

def ruleId (s : Session) (t : Table) (name : String) : RuleId × Session :=
  let (id, t) := t.ruleId name
  (id, s.putTable t)

def clear (s : Session) (t : Table) : List Event × Session :=
  ([t.clearEvent], s.putTable t.clear)

/-- Closes a table's session of ids. -/
def compact (s : Session) (t : Table) : List Event × Session :=
  ([t.ruleIds.compactEvent], s.putTable t.compact)

/-- Builds a rule by hand with the ids and numbers of a table. -/
def build (s : Session) (t : Table) (recipe : Recipe) : Rule × Session :=
  let (rule, w) := recipe.build none ⟨t, s.interner⟩
  (rule, { s.putTable w.table with interner := w.interner })

-- ============================================================== strings

def intern (s : Session) (text : String) : Symbol × Session :=
  let (symbol, interner) := s.interner.intern text
  (symbol, { s with interner := interner })

/-- Ends the interner's session. -/
def clearInterner (s : Session) : Session := { s with interner := s.interner.clear }

-- ================================================================ files

/-- The path by which something in the tree is reported. -/
def shown (s : Session) (path : String) : String :=
  if path.isEmpty then s.filesPath else Path.join s.filesPath path

/-- The session after grammars were loaded into a table. -/
def loaded (s : Session) (l : Loading) : Session :=
  { s.putTable l.table with interner := l.interner }

/-- Loads the file at a path into a table. -/
def loadFile (s : Session) (t : Table) (path : String) :
    Except LoadError (Option Symbol) × List Event × Session :=
  let (outcome, l) := Loading.loadFile s.files (s.shown path) path ⟨t, s.interner, []⟩
  (outcome, l.events, s.loaded l)

/-- Loads the directory at a path into a table. -/
def loadDirectory (s : Session) (t : Table) (c : Config) (path : String) :
    Report × List Event × Session :=
  let (report, l) :=
    Loading.loadDirectory c s.files (s.shown path) path (.empty, ⟨t, s.interner, []⟩)
  (report, l.events, s.loaded l)

/-- Loads the configured directories into a table. -/
def loadConfigured (s : Session) (t : Table) (c : Config) : Report × List Event × Session :=
  let (report, l) := Loading.loadConfigured c s.files s.shown ⟨t, s.interner, []⟩
  (report, l.events, s.loaded l)

end Session

end ScopeRules
