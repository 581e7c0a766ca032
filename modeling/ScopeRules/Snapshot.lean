/-
Following what rules only name. A `Snapshot` is what is alive at one
moment: the rules that someone holds, and the tables that someone has a
handle to. A rule is alive when it is owned, at any depth, by a held rule;
an id whose rule is not alive leads nowhere.

Climbing from a rule goes from parent to parent as long as the parents are
alive. It ends, since a parent has a smaller number than the rules nested in
it; the number of the rule bounds the climb.

One hop takes a reference to its target. A chain of references is followed
for at most `maxHops` hops, which also ends the chains that never reach a
rule.
-/
import ScopeRules.Rule.Ownership
import ScopeRules.Table

namespace ScopeRules

/-- What is alive at one moment. -/
structure Snapshot where
  held : List Rule
  tables : List Table

namespace Snapshot

variable (s : Snapshot)

/-- The moment at which `r` is held as well. -/
def holding (r : Rule) : Snapshot := { s with held := s.held ++ [r] }

-- ============================================================== look-up

/-- The live rule with this id. -/
def rule? (id : NodeId) : Option Rule := s.held.findSome? fun r => r.find? id

/-- The live table with this id. -/
def table? (id : TableId) : Option Table := s.tables.find? fun t => t.id = id

/-- The rule that encloses `r`, if it is alive. -/
def parent? (r : Rule) : Option Rule := r.parent.bind s.rule?

-- ============================================================= climbing

/-- The rule and the rules that enclose it, innermost first, in at most
`fuel` steps outwards. -/
def climb : Nat → Rule → List Rule
  | 0, r => [r]
  | fuel + 1, r =>
    match s.parent? r with
    | none => [r]
    | some p => r :: climb fuel p

/-- The rule and the live rules that enclose it, innermost first. -/
def lineage (r : Rule) : List Rule := s.climb r.id.serial r

/-- The outermost live rule around `r`, which is `r` if its parent is not
alive. -/
def root (r : Rule) : Rule := ((s.lineage r).getLast?).getD r

-- =============================================================== hops

/-- The anchor of a reference, if it is alive. -/
def anchor? (p : Reference) : Option Rule := p.anchor.bind s.rule?

/-- One hop: what a reference means at this moment. -/
def target (p : Reference) : Node :=
  match p with
  | .entry id _ =>
    match s.anchor? p with
    | none => .rule .empty
    | some anchor => ((s.lineage anchor).findSome? fun r => r.entryAt? id).getD (.rule .empty)
  | .root _ =>
    match s.anchor? p with
    | none => .rule .empty
    | some anchor => .rule (s.root anchor)
  | .foreign table scope id _ =>
    match s.table? table with
    | none => .rule .empty
    | some t =>
      match id with
      | none => .rule (t.lookup scope.text)
      | some id => ((t.lookup scope.text).entryAt? id).getD (.rule .empty)

/-- What one hop is reported as: only a look-up that misses is. -/
def targetEvents (p : Reference) : List Event :=
  match p with
  | .foreign table scope _ _ =>
    match s.table? table with
    | none => []
    | some t => t.lookupEvents scope.text
  | _ => []

-- ========================================================== resolution

/-- The longest chain of references that is followed. -/
def maxHops : Nat := 64

/-- Where a node leads in at most `n` hops. -/
def follow : Nat → Node → Node
  | 0, x => x
  | _ + 1, .rule r => .rule r
  | n + 1, .reference p => follow n (s.target p)

/-- What following a node for at most `n` hops is reported as. -/
def followEvents : Nat → Node → List Event
  | 0, _ => []
  | _ + 1, .rule _ => []
  | n + 1, .reference p => s.targetEvents p ++ followEvents n (s.target p)

/-- The rule that a node leads to, or the empty rule. -/
def resolve (x : Node) : Rule := ((s.follow maxHops x).rule?).getD .empty

/-- What resolving a node is reported as. -/
def resolveEvents (x : Node) : List Event :=
  s.followEvents maxHops x
    ++ ((s.follow maxHops x).reference?.map fun p => Event.endless p maxHops).toList

/-- The rule under which a node was compiled: of a reference its anchor,
never the parent of its target. -/
def parentOf? (x : Node) : Option Rule :=
  match x with
  | .rule r => s.parent? r
  | .reference p => s.anchor? p

end Snapshot

end ScopeRules
