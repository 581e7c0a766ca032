/-
From JSON to documents. A null says that nothing is there: as an item it
adds nothing to its array, as a member it neither stores, moves nor removes
anything. The other members are stored one after the other, so a name that
comes again replaces the value at its first place.

There are two ways in. `Document.decode` takes a text and meets its members
as they were written. `Document.decodeValue` first makes the text one JSON
value, in which a later null has already replaced an earlier member of its
name; only then are nulls left out. The two agree unless a name comes twice
with a null among the values.
-/
import ScopeRules.Document.Basic
import ScopeRules.Json.Reader

namespace ScopeRules

-- ========================================================= the decoding

mutual

/-- The document value of a JSON value; a null has none. -/
def Value.ofJson : Json → Option Value
  | .null => none
  | .bool b => some (.bool b)
  | .integer n => some (.integer n)
  | .real x => some (.real x)
  | .string s => some (.string s)
  | .array items => some (.array (Value.ofItems items))
  | .object members => some (.dict (Value.ofMembers members []))

/-- The values of the items that are not null. -/
def Value.ofItems : List Json → List Value
  | [] => []
  | item :: rest =>
    match Value.ofJson item with
    | some v => v :: Value.ofItems rest
    | none => Value.ofItems rest

/-- Stores the members that are not null into `stored`, in order. -/
def Value.ofMembers : List (String × Json) → Assoc String Value → Assoc String Value
  | [], stored => stored
  | (name, member) :: rest, stored =>
    match Value.ofJson member with
    | some v => Value.ofMembers rest (stored.put name v)
    | none => Value.ofMembers rest stored

end

-- ============================================================== causes

/-- Why no document could be decoded. -/
inductive DecodeError where
  /-- The text cannot be read. -/
  | unreadable (fault : Json.Fault)
  /-- The bytes of the text could not be had. -/
  | noText
  /-- The outermost value is no dictionary. -/
  | notADictionary
  deriving DecidableEq, Repr, Inhabited

namespace DecodeError

def detail : Json.Fault → String
  | .malformed => "malformed text"
  | .unfinished => "the text ends inside a value"
  | .bareNull => "invalid type: null, expected a property-list value"

def message : DecodeError → String
  | .unreadable fault => "failed to decode JSON document: " ++ detail fault
  | .noText => "failed to decode JSON document: the text cannot be obtained"
  | .notADictionary => "expected a dictionary at the document root"

end DecodeError

namespace Document

-- ============================================================ the ways in

/-- The dictionary that a value is. -/
def ofValue (v : Value) : Except DecodeError Document :=
  match v.dict? with
  | some d => .ok d
  | none => .error .notADictionary

/-- The document of a JSON value. -/
def ofJson (j : Json) : Except DecodeError Document :=
  match Value.ofJson j with
  | some v => ofValue v
  | none => .error (.unreadable .bareNull)

/-- Decodes a text given by its bytes. -/
def decode (bytes : List UInt8) : Except DecodeError Document :=
  match Json.read false bytes with
  | .ok j => ofJson j
  | .error fault => .error (.unreadable fault)

/-- Decodes a text by way of a JSON value with one member per name. -/
def decodeValue (bytes : List UInt8) : Except DecodeError Document :=
  match Json.read true bytes with
  | .ok j => ofJson j.collapse
  | .error fault => .error (.unreadable fault)

def decodeText (text : String) : Except DecodeError Document := decode text.toUTF8.toList

end Document

end ScopeRules
