/-
JSON values as a text spells them. Nothing is thrown away at this stage:
an object lists every member that was written, repeated names and nulls
included, because what becomes of a repeated name is for the consumer to
say. `collapse` is one such answer, the object as a store of its members.
-/
import ScopeRules.Assoc
import ScopeRules.Binary64

namespace ScopeRules

/-- A JSON value. An integer literal that fits a signed sixty-four bit word
is an `integer`; every other number is a `real`. -/
inductive Json where
  | null
  | bool (value : Bool)
  | integer (value : Int)
  | real (value : Binary64)
  | string (text : String)
  | array (items : List Json)
  | object (members : List (String × Json))
  deriving Inhabited, Repr

namespace Json

-- ===================================================== repeated names

mutual

/-- The value in which each object holds one member per name: at the place
where the name first came, with the value that came last, a null like any
other. -/
def collapse : Json → Json
  | .array items => .array (collapseItems items)
  | .object members => .object (collapseMembers members [])
  | .null => .null
  | .bool b => .bool b
  | .integer n => .integer n
  | .real x => .real x
  | .string s => .string s

def collapseItems : List Json → List Json
  | [] => []
  | item :: rest => item.collapse :: collapseItems rest

/-- Stores the members, each collapsed, one after the other into `stored`. -/
def collapseMembers : List (String × Json) → Assoc String Json → Assoc String Json
  | [], stored => stored
  | (name, value) :: rest, stored => collapseMembers rest (stored.put name value.collapse)

end

end Json

end ScopeRules
