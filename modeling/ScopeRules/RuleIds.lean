/-
Ids of repository entries. A repository stores its entries under small
numbers instead of names, and one allocator per table says which number a
name has. Names are forgotten when a session is closed, but the counter
runs on, so an id from an earlier session does not come to mean another
name: it can only miss.

Ids are thirty-two bit words and count from one. The counter stops at the
largest word instead of starting again, and every new name gets that one
from then on.
-/
import ScopeRules.Assoc

namespace ScopeRules

/-- The id of a repository entry. -/
structure RuleId where
  value : Nat
  deriving DecidableEq, Repr, Inhabited

namespace RuleId

/-- The largest id. -/
def largest : Nat := 0xffffffff

def order (a b : RuleId) : Ordering := compare a.value b.value

def before (a b : RuleId) : Bool := a.value < b.value

theorem before_strictOrder : Assoc.StrictOrder before where
  irrefl := by
    intro a
    exact decide_eq_false (Nat.lt_irrefl _)
  trans := by
    intro a b c hab hbc
    exact decide_eq_true (Nat.lt_trans (of_decide_eq_true hab) (of_decide_eq_true hbc))
  total := by
    intro a b hne hab
    have hlt : ¬ a.value < b.value := of_decide_eq_false hab
    have hvalue : a.value ≠ b.value := by
      intro hvalue
      cases a
      cases b
      exact hne (congrArg mk hvalue)
    exact decide_eq_true (by omega)

end RuleId

/-- The names of the running session with their ids, and the last id that
was allocated, in this session or before (zero if none was). -/
structure RuleIds where
  session : Assoc String RuleId
  allocated : Nat
  deriving Repr, Inhabited

namespace RuleIds

def empty : RuleIds := ⟨[], 0⟩

/-- The id that the next new name gets. -/
def next (ids : RuleIds) : RuleId := ⟨min (ids.allocated + 1) RuleId.largest⟩

/-- The id of `name`, allocated on first request. -/
def idFor (ids : RuleIds) (name : String) : RuleId × RuleIds :=
  match ids.session.get? name with
  | some id => (id, ids)
  | none => (ids.next, ⟨ids.session.put name ids.next, ids.next.value⟩)

/-- The id of `name`, if the session has one. -/
def get? (ids : RuleIds) (name : String) : Option RuleId := ids.session.get? name

/-- The allocator after requests for all the names, in order. -/
def allocateAll (ids : RuleIds) (names : List String) : RuleIds :=
  names.foldl (fun ids name => (ids.idFor name).2) ids

/-- The number of names of the session. -/
def size (ids : RuleIds) : Nat := ids.session.length

/-- Closes the session: its names are forgotten, the counter is not. -/
def compact (ids : RuleIds) : RuleIds := { ids with session := [] }

end RuleIds

end ScopeRules
