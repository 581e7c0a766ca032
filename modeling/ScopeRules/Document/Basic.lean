/-
Property-list documents: dictionaries in the order of their text, whose
values are strings, numbers, truth values, arrays and dictionaries again.
There is no null and no repeated key; a document built by `put` or read
from a text has neither, at any depth (`WellFormed`).

Two documents are the same (`Value.same`) when they hold the same things
under the same keys, in whatever order the keys stand. An integer is never
a real, and the two zeros of the reals are one.
-/
import ScopeRules.Assoc
import ScopeRules.Binary64

namespace ScopeRules

inductive Value where
  | string (text : String)
  | integer (value : Int)
  | real (value : Binary64)
  | bool (value : Bool)
  | array (items : List Value)
  | dict (entries : List (String × Value))
  deriving Inhabited, Repr

/-- A property-list document: the entries of its outermost dictionary. -/
abbrev Document := Assoc String Value

namespace Value

-- ============================================================ payloads

def string? : Value → Option String
  | .string s => some s
  | _ => none

def array? : Value → Option (List Value)
  | .array items => some items
  | _ => none

def dict? : Value → Option Document
  | .dict entries => some entries
  | _ => none

-- ============================================================ sameness

mutual

/-- Sameness of values. Arrays are compared place by place, dictionaries
key by key. -/
def same : Value → Value → Bool
  | .string a, .string b => a = b
  | .integer a, .integer b => a = b
  | .real a, .real b => a.same b
  | .bool a, .bool b => a = b
  | .array xs, .array ys => sameItems xs ys
  | .dict es, .dict fs => es.length = fs.length ∧ sameEntries es fs
  | _, _ => false

/-- Sameness of lists of values, place by place. -/
def sameItems : List Value → List Value → Bool
  | [], [] => true
  | x :: xs, y :: ys => x.same y && sameItems xs ys
  | _, _ => false

/-- Whether every entry on the left has its like on the right. -/
def sameEntries : List (String × Value) → List (String × Value) → Bool
  | [], _ => true
  | (k, v) :: es, fs =>
    (match Assoc.get? fs k with
      | some w => v.same w
      | none => false) && sameEntries es fs

end

-- ======================================================= well-formedness

mutual

/-- No dictionary in the value has a key twice. -/
def WellFormed : Value → Prop
  | .array items => WellFormedItems items
  | .dict entries => Assoc.Distinct entries ∧ WellFormedEntries entries
  | _ => True

def WellFormedItems : List Value → Prop
  | [] => True
  | v :: rest => v.WellFormed ∧ WellFormedItems rest

def WellFormedEntries : List (String × Value) → Prop
  | [] => True
  | (_, v) :: rest => v.WellFormed ∧ WellFormedEntries rest

end

end Value

namespace Document

/-- The string under a key, if there is one and it is a string. -/
def getString? (d : Document) (key : String) : Option String :=
  (d.get? key).bind Value.string?

/-- Stores a value under a key, in place or behind all others, and answers
what was there before. -/
def insert (d : Document) (key : String) (value : Value) : Option Value × Document :=
  match d with
  | [] => (none, [(key, value)])
  | (k, v) :: rest =>
    if k = key then (some v, (key, value) :: rest)
    else
      let (before, rest) := insert rest key value
      (before, (k, v) :: rest)

/-- An insertion is a look-up and a `put` in one. -/
theorem insert_eq (d : Document) (key : String) (value : Value) :
    d.insert key value = (d.get? key, d.put key value) := by
  induction d with
  | nil => rfl
  | cons p rest ih =>
    obtain ⟨k, v⟩ := p
    by_cases hk : k = key <;> simp [insert, Assoc.get?, Assoc.put, hk, ih]

/-- Sameness of documents: as many entries, and each with its like. -/
def same (d e : Document) : Bool := Value.same (.dict d) (.dict e)

/-- No dictionary in the document has a key twice. -/
def WellFormed (d : Document) : Prop := Value.WellFormed (.dict d)

end Document

end ScopeRules
