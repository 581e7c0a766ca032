/-
What the library reports while it works. An event names what happened and
holds the things it happened to; how urgent it is, its wording and its
fields are read off it here, in one place, so that the operations speak of
causes only.
-/
import ScopeRules.Rule.Basic
import ScopeRules.Text.Quoted

namespace ScopeRules

-- ======================================================= printed forms

def RuleId.printed (id : RuleId) : String := "RuleId(" ++ toString id.value ++ ")"

def RuleId.printedOption : Option RuleId → String
  | none => "None"
  | some id => "Some(" ++ id.printed ++ ")"

def RuleIds.printed (ids : RuleIds) : String :=
  Text.braced "RuleIdInterner" ["len: " ++ toString ids.size]

def Interner.printed (i : Interner) : String :=
  Text.braced "Interner" ["len: " ++ toString i.size]

/-- The printed form of a reference. Its anchor and its table are not part
of it. -/
def Reference.printed : Reference → String
  | .entry id _ => "RuleRef(" ++ Text.braced "RuleIdProxy" ["rule_id: " ++ id.printed, ".."] ++ ")"
  | .root _ => "SelfRef(" ++ Text.braced "SelfProxy" [".."] ++ ")"
  | .foreign _ scope id _ =>
    "ScopeRef("
      ++ Text.braced "ScopeProxy"
        ["scope: " ++ Text.quoted scope.text, "rule_id: " ++ RuleId.printedOption id, ".."]
      ++ ")"

-- ============================================================== events

inductive Level where
  | trace | debug | warn
  deriving DecidableEq, Repr, Inhabited

inductive Event where
  /-- A key of a capture dictionary denotes no group. -/
  | unusableGroup (key : String)
  /-- A scope got its first rule. -/
  | registered (scope : String)
  /-- A scope got another rule in place of the one it had. -/
  | replaced (scope : String)
  /-- A document was added: the scope of its root, the number of the
  root's children, and how many scopes were registered or replaced. -/
  | loaded (scope : String) (children published : Nat)
  /-- A document whose root declares no scope was added. -/
  | loadedUnnamed (published : Nat)
  /-- A scope was asked for that no rule is registered for. -/
  | missing (scope : String)
  /-- A table was cleared of so many scopes. -/
  | cleared (removed : Nat)
  | compacted (dropped allocated : Nat)
  /-- A chain of references did not end. -/
  | endless (reference : Reference) (hops : Nat)
  /-- A grammar file or directory could not be loaded. -/
  | loadFailed (path error : String)
  /-- A configured directory is not there. -/
  | skippedDirectory (path : String)
  /-- A batch of configured directories was loaded. -/
  | finished (good bad : Nat)
  deriving DecidableEq, Repr, Inhabited

namespace Event

def level : Event → Level
  | .unusableGroup _ | .registered _ => .trace
  | .endless _ _ | .loadFailed _ _ => .warn
  | _ => .debug

/-- The wording of an event, apart from what it happened to. -/
def message : Event → String
  | .unusableGroup _ => "Skipping capture entry without a usable group index"
  | .registered _ => "Registered syntax node"
  | .replaced _ => "Replaced syntax node for scope"
  | .loaded _ _ _ => "Loaded grammar"
  | .loadedUnnamed _ => "Loaded grammar without a scope name"
  | .missing _ => "No syntax node registered for scope"
  | .cleared _ => "Cleared syntax table"
  | .compacted _ _ => "Compacted rule id table"
  | .endless _ _ => "Reference chain did not reach a rule"
  | .loadFailed _ _ => "Failed to load grammar"
  | .skippedDirectory _ => "Skipping missing grammar directory"
  | .finished _ _ => "Finished loading grammars"

/-- What an event happened to: field names, in their order, with texts. -/
def fields : Event → List (String × String)
  | .unusableGroup key => [("key", key)]
  | .registered scope => [("scope", scope)]
  | .replaced scope => [("scope", scope)]
  | .loaded scope children published =>
    [("children", toString children), ("published", toString published), ("scope", scope)]
  | .loadedUnnamed published => [("published", toString published)]
  | .missing scope => [("scope", scope)]
  | .cleared removed => [("removed", toString removed)]
  | .compacted dropped allocated =>
    [("allocated", toString allocated), ("dropped", toString dropped)]
  | .endless reference hops => [("hops", toString hops), ("node", reference.printed)]
  | .loadFailed path error => [("error", error), ("path", path)]
  | .skippedDirectory path => [("dir", path)]
  | .finished good bad => [("failed", toString bad), ("loaded", toString good)]

end Event

end ScopeRules
