/-
From outlines to rules. By the time rules are built, every name the outline
mentions has its id and every text its symbol, so building is a recursion
that only looks things up: `Outline.fill` adds the constructs of an outline
to a rule in order, and builds a nested rule completely before it goes on.

Serial numbers are given out on entry. The rules of an outline that starts
at number `n` have the numbers from `n` on, in document order, a rule
before everything nested in it; `Outline.rules` lists them in that order,
those included whose place a later entry takes.
-/
import ScopeRules.Outline
import ScopeRules.Rule.Basic

namespace ScopeRules

/-- What building rules looks things up in: the table it is done for, and
the allocator and interner that already know every name and text. -/
structure Context where
  table : TableId
  ruleIds : RuleIds
  interner : Interner

namespace Context

def ruleId (c : Context) (name : String) : RuleId := (c.ruleIds.idFor name).1

def symbol (c : Context) (text : String) : Symbol := (c.interner.intern text).1

/-- The reference that an include in the rule `anchor` stands for. -/
def reference (c : Context) (anchor : NodeId) : Include → Reference
  | .entry name => .entry (c.ruleId name) (some anchor)
  | .root => .root (some anchor)
  | .foreign scope name =>
    .foreign c.table (c.symbol scope) (name.map c.ruleId) (some anchor)

/-- Puts a reference into its place. Only children and entries can be
references. -/
def placeReference (c : Context) (r : Rule) (place : Place) (reference : Reference) : Rule :=
  match place with
  | .child => r.addChild (.reference reference)
  | .entry name => r.putEntry (c.ruleId name) (.reference reference)
  | .capture _ _ | .injection _ => r

/-- Puts a rule into its place. -/
def placeRule (c : Context) (r : Rule) (place : Place) (rule : Rule) : Rule :=
  match place with
  | .child => r.addChild (.rule rule)
  | .entry name => r.putEntry (c.ruleId name) (.rule rule)
  | .capture key index => r.setCapture key index (.rule rule)
  | .injection selector => r.addInjection (c.symbol selector) rule

/-- The rule without content that gets number `serial`. -/
def unfilled (c : Context) (serial : Nat) (scope : Option String) (parent : Option NodeId) : Rule :=
  .bare ⟨c.table, serial⟩ (scope.map c.symbol) parent

end Context

namespace Outline

/-- Adds the content of an outline to the rule `r`; the nested rules are
numbered from `next` on. -/
def fill (c : Context) (next : Nat) (r : Rule) : Outline → Rule
  | .nothing => r
  | .attribute key text rest => rest.fill c next (r.setAttribute key (c.symbol text))
  | .unusable _ rest => rest.fill c next r
  | .label key index text rest =>
    rest.fill c next (r.setCapture key index (.label (c.symbol text)))
  | .reference place target rest =>
    rest.fill c next (c.placeReference r place (c.reference r.id target))
  | .rule place scope body rest =>
    let nested := body.fill c (next + 1) (c.unfilled next scope (some r.id))
    rest.fill c (next + 1 + body.count) (c.placeRule r place nested)

/-- The rules of an outline in the rule `owner`, at any depth, a rule
before everything nested in it. -/
def rules (c : Context) (next : Nat) (owner : NodeId) : Outline → List Rule
  | .nothing => []
  | .attribute _ _ rest => rest.rules c next owner
  | .unusable _ rest => rest.rules c next owner
  | .label _ _ _ rest => rest.rules c next owner
  | .reference _ _ rest => rest.rules c next owner
  | .rule _ scope body rest =>
    body.fill c (next + 1) (c.unfilled next scope (some owner))
      :: (body.rules c (next + 1) ⟨c.table, next⟩
        ++ rest.rules c (next + 1 + body.count) owner)

end Outline

-- ============================================================= documents

/-- A compiled document: its root, and all its rules in document order, the
root first. -/
structure Grammar where
  root : Rule
  rules : List Rule
  deriving Inhabited

namespace Grammar

/-- The texts that compiling a document interns, in order. -/
def texts (d : Document) : List String :=
  (Outline.scopeOf d).toList ++ (Outline.ofDocument d).texts

/-- Compiles a document to rules numbered from `next` on. -/
def compile (c : Context) (next : Nat) (d : Document) : Grammar :=
  let outline := Outline.ofDocument d
  let root := outline.fill c (next + 1) (c.unfilled next (Outline.scopeOf d) none)
  ⟨root, root :: outline.rules c (next + 1) root.id⟩

/-- The rules that declare a scope, with it, in document order. -/
def declarations (g : Grammar) : List (String × Rule) :=
  g.rules.filterMap fun r => r.scope.map fun scope => (scope.text, r)

end Grammar

end ScopeRules
