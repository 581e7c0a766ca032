/-
Walks through compiled rules, the way a tokenizer goes: from a node to what
it resolves to, and from there to a child, an entry, a capture or an
injection. A walk that finds nothing at some step ends there, and says at
which. Only asking for an entry by name changes anything: the name gets an
id if it had none.
-/
import ScopeRules.Session

namespace ScopeRules

/-- Where a walk starts. -/
inductive WalkStart where
  /-- At a node that a name is a handle to. -/
  | node (name : String)
  /-- At the rule registered for a scope. -/
  | scope (scope : String)
  | empty
  deriving DecidableEq, Repr, Inhabited

inductive WalkStep where
  | child (index : Nat)
  | injection (index : Nat)
  /-- The rule in a slot of the capture table under a key. -/
  | capture (key : String) (index : Nat)
  | entryId (id : RuleId)
  | entry (name : String)
  /-- The rule under which the node was compiled. -/
  | parent
  /-- The outermost rule around what the node resolves to. -/
  | root
  | resolve
  deriving DecidableEq, Repr, Inhabited

/-- A walk: the name of the table it asks, the start, and the steps. -/
structure Walk where
  table : String
  start : WalkStart
  steps : List WalkStep
  deriving DecidableEq, Repr, Inhabited

/-- Why a walk reaches nothing. -/
inductive WalkFailure where
  /-- There is no table to start from. -/
  | noTable
  /-- The handle to start from is not there. -/
  | noNode
  /-- The step with this index found nothing. -/
  | missing (step : Nat)
  deriving DecidableEq, Repr, Inhabited

namespace Snapshot

/-- What a step that changes nothing leads to. An entry by name is looked
up by the id it is given here. -/
def next? (s : Snapshot) (idOf : String → Option RuleId) (x : Node) : WalkStep → Option Node
  | .child i => (s.resolve x).children[i]?
  | .injection i => ((s.resolve x).injections[i]?).map fun (_, r) => .rule r
  | .capture key i =>
    (CaptureKey.ofSpelling? key).bind fun key =>
      ((s.resolve x).capture? key).bind fun table =>
        (table.get? i).bind fun c => c.rule?.map Node.rule
  | .entryId id => (s.resolve x).entryAt? id
  | .entry name => (idOf name).bind (s.resolve x).entryAt?
  | .parent => (s.parentOf? x).map Node.rule
  | .root => some (.rule (s.root (s.resolve x)))
  | .resolve => some (.rule (s.resolve x))

end Snapshot

namespace Session

/-- One step of a walk in a table. -/
def walkStep (s : Session) (table : String) (x : Node) (step : WalkStep) : Option Node × Session :=
  match step, s.table? table with
  | .entry name, some t =>
    let (id, after) := s.ruleId t name
    (s.snapshot.next? (fun _ => some id) x step, after)
  | _, _ => (s.snapshot.next? (fun _ => none) x step, s)

/-- The steps of a walk from the step with the given index on. -/
def walkSteps (s : Session) (table : String) (x : Node) (index : Nat) :
    List WalkStep → Except WalkFailure Node × Session
  | [] => (.ok x, s)
  | step :: rest =>
    match s.walkStep table x step with
    | (some y, s) => s.walkSteps table y (index + 1) rest
    | (none, s) => (.error (.missing index), s)

def walkStart (s : Session) (w : Walk) : Except WalkFailure Node :=
  match w.start with
  | .node name =>
    match s.node? name with
    | some x => .ok x
    | none => .error .noNode
  | .scope scope =>
    match s.table? w.table with
    | some t => .ok (.rule (t.lookup scope))
    | none => .error .noTable
  | .empty => .ok (.rule .empty)

def walk (s : Session) (w : Walk) : Except WalkFailure Node × Session :=
  match s.walkStart w with
  | .ok x => s.walkSteps w.table x 0 w.steps
  | .error failure => (.error failure, s)

end Session

end ScopeRules
