/-
Compiled rules. A rule owns what is nested in it, as a tree: children,
repository entries, the rules of its captures, and injections. What it
merely knows it names: the rule that encloses it by id, and the target of
an include by a `Reference` that is followed only when someone asks. So a
rule is a finite value, and whether the rules it names are still there is a
question about the moment, not about the rule.

Every rule has an id of its own, made of the table that compiled it and a
serial number. A rule's serial is smaller than the serials of all that is
nested in it, since numbers are given out on entry; one number, zero, is
kept for the empty rule that answers every miss.

A rule under construction is a rule: the builder operations return the rule
with one thing more, and nothing is ever changed afterwards.
-/
import ScopeRules.Assoc
import ScopeRules.Interner
import ScopeRules.RuleIds
import ScopeRules.Vocabulary

namespace ScopeRules

-- ============================================================ identities

/-- Names a table apart from its registered content. -/
structure TableId where
  serial : Nat
  deriving DecidableEq, Repr, Inhabited

/-- Names a rule: the table that compiled it, and its number there. -/
structure NodeId where
  table : TableId
  serial : Nat
  deriving DecidableEq, Repr, Inhabited

def NodeId.empty : NodeId := ⟨⟨0⟩, 0⟩

-- ============================================================ references

/-- A deferred reference. Its anchor is the rule that contained the
include; a detached reference has none. -/
inductive Reference where
  /-- The nearest entry with this id, from the anchor outwards. -/
  | entry (id : RuleId) (anchor : Option NodeId)
  /-- The outermost rule around the anchor. -/
  | root (anchor : Option NodeId)
  /-- What `table` has registered for `scope`, or the entry of that rule
  with the given id. -/
  | foreign (table : TableId) (scope : Symbol) (id : Option RuleId) (anchor : Option NodeId)
  deriving DecidableEq, Repr, Inhabited

namespace Reference

/-- The rule that contained the include. -/
def anchor : Reference → Option NodeId
  | .entry _ anchor => anchor
  | .root anchor => anchor
  | .foreign _ _ _ anchor => anchor

/-- The id of the entry that is asked for. -/
def ruleId? : Reference → Option RuleId
  | .entry id _ => some id
  | .root _ => none
  | .foreign _ _ id _ => id

/-- The scope that is asked for. -/
def scope? : Reference → Option Symbol
  | .foreign _ scope _ _ => some scope
  | _ => none

end Reference

-- ================================================================= rules

mutual

/-- A compiled rule: who it is, what it says of itself, and what it owns.
The repository is kept in the order of the ids. -/
structure Rule where
  id : NodeId
  scope : Option Symbol
  parent : Option NodeId
  attributes : List (AttributeKey × Symbol)
  captures : List (CaptureKey × CaptureTable)
  children : List Node
  repository : List (RuleId × Node)
  injections : List (Symbol × Rule)

/-- What a rule says about the groups of a match. The table has `size`
slots, of which the listed ones are filled. -/
structure CaptureTable where
  size : Nat
  groups : List (Nat × Capture)

/-- What a filled slot holds: a label for the matched text, or a rule to
apply inside it. -/
inductive Capture where
  | label (text : Symbol)
  | rule (rule : Rule)

/-- A child or a repository entry. -/
inductive Node where
  | rule (rule : Rule)
  | reference (reference : Reference)

end

instance : Inhabited CaptureTable := ⟨⟨0, []⟩⟩

namespace CaptureTable

def empty : CaptureTable := ⟨0, []⟩

/-- What slot `i` holds; nothing beyond the size. -/
def get? (t : CaptureTable) (i : Nat) : Option Capture :=
  if i < t.size then Assoc.get? t.groups i else none

/-- Fills slot `i`, growing the table as far as needed. -/
def fill (t : CaptureTable) (i : Nat) (c : Capture) : CaptureTable :=
  ⟨max t.size (i + 1), Assoc.putSorted (fun a b => a < b) t.groups i c⟩

/-- The table with exactly these slots. -/
def ofSlots (slots : List (Option Capture)) : CaptureTable :=
  ⟨slots.length, slots.zipIdx.filterMap fun (slot, i) => slot.map fun c => (i, c)⟩

end CaptureTable

namespace Rule

-- ============================================================== building

/-- The rule that owns nothing yet. -/
def bare (id : NodeId) (scope : Option Symbol) (parent : Option NodeId) : Rule :=
  ⟨id, scope, parent, [], [], [], [], []⟩

/-- The shared rule without content that answers every miss. -/
def empty : Rule := bare .empty none none

instance : Inhabited Rule := ⟨empty⟩

instance : Inhabited Node := ⟨.rule empty⟩

instance : Inhabited Capture := ⟨.rule empty⟩

/-- Sets an attribute, replacing an earlier value. -/
def setAttribute (r : Rule) (key : AttributeKey) (value : Symbol) : Rule :=
  { r with attributes := Assoc.put r.attributes key value }

/-- Sets the capture table under `key`, or removes it. -/
def setCaptures (r : Rule) (key : CaptureKey) (table : Option CaptureTable) : Rule :=
  { r with captures := Assoc.erase r.captures key ++ (table.map fun t => (key, t)).toList }

/-- Fills one slot of the capture table under `key`. -/
def setCapture (r : Rule) (key : CaptureKey) (i : Nat) (c : Capture) : Rule :=
  let table := (Assoc.get? r.captures key).getD .empty
  { r with captures := Assoc.put r.captures key (table.fill i c) }

def addChild (r : Rule) (child : Node) : Rule := { r with children := r.children ++ [child] }

/-- Stores a repository entry, replacing an earlier one with its id. -/
def putEntry (r : Rule) (id : RuleId) (entry : Node) : Rule :=
  { r with repository := Assoc.putSorted RuleId.before r.repository id entry }

def addInjection (r : Rule) (selector : Symbol) (rule : Rule) : Rule :=
  { r with injections := r.injections ++ [(selector, rule)] }

-- =============================================================== reading

/-- Whether two rules are one and the same, which their ids tell. -/
def identical (r s : Rule) : Bool := r.id = s.id

def isEmpty (r : Rule) : Bool := r.id = .empty

def attribute? (r : Rule) (key : AttributeKey) : Option Symbol := Assoc.get? r.attributes key

def capture? (r : Rule) (key : CaptureKey) : Option CaptureTable := Assoc.get? r.captures key

/-- The rule's own repository entry with this id. -/
def entryAt? (r : Rule) (id : RuleId) : Option Node := Assoc.get? r.repository id

end Rule

namespace Node

/-- The rule that a node is, if it is no reference. -/
def rule? : Node → Option Rule
  | .rule r => some r
  | .reference _ => none

/-- The reference that a node is, if it is no rule. -/
def reference? : Node → Option Reference
  | .rule _ => none
  | .reference p => some p

end Node

/-- The rule that a capture slot holds, if it holds no label. -/
def Capture.rule? : Capture → Option Rule
  | .label _ => none
  | .rule r => some r

end ScopeRules
