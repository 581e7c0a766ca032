/-
The table of grammars: which rule answers to which scope name. Adding a
document compiles it and registers every rule of it that declares a scope,
in document order, so of several rules with one scope the last one counts,
within a document as between documents. Next to the rule an entry holds the
root of its document, and with it everything the root owns.

Compiling settles the ids and symbols first: the names and texts of the
document go through the allocator and the interner in document order, and
the rules are built with what came out. The registry is kept in the order
of the scope names.
-/
import ScopeRules.Compile
import ScopeRules.Event

namespace ScopeRules

-- ============================================================ registries

/-- What a scope is registered with: the rule that answers to it, and the
root of that rule's document. -/
structure Entry where
  node : Rule
  root : Rule
  deriving Inhabited

/-- The registered scopes, in the order of their names. -/
abbrev Registry := Assoc String Entry

namespace Registry

/-- The order of scope names, which is that of their UTF-8 bytes. -/
def before (a b : String) : Bool := a < b

/-- Registers a rule of the document with the given root. -/
def register (registry : Registry) (root : Rule) (scope : String) (node : Rule) : Registry :=
  registry.putSorted before scope ⟨node, root⟩

/-- What registering for `scope` is reported as. -/
def registration (registry : Registry) (scope : String) : Event :=
  if registry.has scope then .replaced scope else .registered scope

def publish (registry : Registry) (root : Rule) (rules : List (String × Rule)) : Registry :=
  rules.foldl (fun registry (scope, node) => registry.register root scope node) registry

/-- What registering rules one after the other is reported as. -/
def publication (registry : Registry) (root : Rule) : List (String × Rule) → List Event
  | [] => []
  | (scope, node) :: rest =>
    registry.registration scope
      :: publication (registry.register root scope node) root rest

/-- The rules that a registry keeps, with all that they own. -/
def held (registry : Registry) : List Rule :=
  registry.flatMap fun (_, entry) => [entry.node, entry.root]

/-- After registering rules, an entry is an old one or stands for one of
them. -/
theorem mem_of_mem_publish {registry : Registry} {root : Rule} {rules : List (String × Rule)}
    {p : String × Entry} (h : p ∈ registry.publish root rules) :
    p ∈ registry ∨ (p.2.root = root ∧ (p.1, p.2.node) ∈ rules) := by
  induction rules generalizing registry with
  | nil => exact .inl h
  | cons rule rest ih =>
    rcases ih h with h | ⟨hroot, hnode⟩
    · rcases Assoc.mem_of_mem_putSorted h with rfl | h
      · exact .inr ⟨rfl, List.mem_cons_self ..⟩
      · exact .inl h
    · exact .inr ⟨hroot, List.mem_cons_of_mem _ hnode⟩

end Registry

-- ================================================================ tables

/-- A table of grammars: who it is, what is registered, its allocator, and
the number of the last rule compiled for it. -/
structure Table where
  id : TableId
  registry : Registry
  ruleIds : RuleIds
  compiled : Nat
  deriving Inhabited

/-- What adding a document yields: the table and interner after it, the
scope of the root, and the report. -/
structure Addition where
  table : Table
  interner : Interner
  scope : Option Symbol
  events : List Event

namespace Table

/-- The table in which nothing was ever registered. -/
def new (id : TableId) : Table := ⟨id, [], .empty, 0⟩

/-- The allocator after a document was compiled. -/
def idsAfter (t : Table) (d : Document) : RuleIds :=
  t.ruleIds.allocateAll (Outline.ofDocument d).names

/-- What the rules of a document are built with. -/
def contextFor (t : Table) (i : Interner) (d : Document) : Context :=
  ⟨t.id, t.idsAfter d, i.internAll (Grammar.texts d)⟩

/-- Compiles a document without registering it. -/
def compile (t : Table) (i : Interner) (d : Document) : Grammar :=
  Grammar.compile (t.contextFor i d) (t.compiled + 1) d

/-- The summary of an addition. -/
def summary (root : Rule) (published : Nat) : Event :=
  match root.scope with
  | some scope => .loaded scope.text root.children.length published
  | none => .loadedUnnamed published

/-- Compiles a document and registers every rule of it that declares a
scope. -/
def add (t : Table) (i : Interner) (d : Document) : Addition :=
  let grammar := t.compile i d
  let declared := grammar.declarations
  { table := ⟨t.id, t.registry.publish grammar.root declared, t.idsAfter d,
      t.compiled + grammar.rules.length⟩
    interner := i.internAll (Grammar.texts d)
    scope := grammar.root.scope
    events := (Outline.ofDocument d).unusableKeys.map .unusableGroup
      ++ t.registry.publication grammar.root declared
      ++ [summary grammar.root declared.length] }

/-- The rule registered for a scope, or the empty rule. -/
def lookup (t : Table) (scope : String) : Rule :=
  match t.registry.get? scope with
  | some entry => entry.node
  | none => .empty

/-- What looking a scope up is reported as. -/
def lookupEvents (t : Table) (scope : String) : List Event :=
  if t.registry.has scope then [] else [.missing scope]

def contains (t : Table) (scope : String) : Bool := t.registry.has scope

def scopes (t : Table) : List String := t.registry.keys

def size (t : Table) : Nat := t.registry.length

def isEmpty (t : Table) : Bool := t.registry.isEmpty

/-- The id of an entry name, allocated on first request. -/
def ruleId (t : Table) (name : String) : RuleId × Table :=
  let (id, ids) := t.ruleIds.idFor name
  (id, { t with ruleIds := ids })

/-- Forgets every registered scope. Ids and numbers stay in use. -/
def clear (t : Table) : Table := { t with registry := [] }

/-- What clearing is reported as. -/
def clearEvent (t : Table) : Event := .cleared t.size

/-- Closes the session of ids. -/
def compact (t : Table) : Table := { t with ruleIds := t.ruleIds.compact }

def printed (t : Table) : String :=
  Text.braced "SyntaxTable"
    ["scopes: " ++ Text.bracketed (t.scopes.map Text.quoted), "rule_ids: " ++ t.ruleIds.printed]

end Table

/-- What closing a session of ids is reported as. -/
def RuleIds.compactEvent (ids : RuleIds) : Event := .compacted ids.size ids.allocated

end ScopeRules
