/-
TOML values, and the tables that the statements of a TOML text build up.
Which statement may touch which table is decided by how the table came
into being (`Origin`): a header opens a table once, a dotted key goes on with
tables that no header opened, and what was written as a value is closed.
-/
import ScopeRules.Assoc

namespace ScopeRules

/-- A TOML value. Numbers and dates are kept as they were written. -/
inductive Toml where
  | string (text : String)
  | integer (literal : String)
  | float (literal : String)
  | bool (value : Bool)
  | datetime (literal : String)
  | array (items : List Toml)
  | table (entries : List (String × Toml))
  deriving Inhabited, Repr

namespace Toml

/-- How a table came into being. -/
inductive Origin where
  /-- It is on the way to a table that a header opened. -/
  | implied
  /-- A header opened it. -/
  | header
  /-- A dotted key is inside it. -/
  | dotted
  deriving DecidableEq, Repr, Inhabited

/-- What is stored under a key while a text is read. -/
inductive Item where
  | value (value : Toml)
  | table (origin : Origin) (entries : List (String × Item))
  /-- An array of tables that headers opened, the last one first. -/
  | tables (elements : List (List (String × Item)))
  deriving Inhabited

/-- The entries of a table while a text is read. -/
abbrev Items := Assoc String Item

/-- One statement of a text. -/
inductive Statement where
  | assign (key : List String) (value : Toml)
  | header (path : List String)
  | append (path : List String)
  deriving Inhabited

-- =========================================================== statements

/-- Stores a value under a dotted key; `none` if the key is taken or leads
through something that is closed. Every table that the key leads through
becomes one of a dotted key. The last table of an array may be passed
through, but is no place for the value. -/
def assign (value : Toml) : List String → Items → Option Items
  | [], _ => none
  | [key], items => if items.has key then none else some (items.put key (.value value))
  | key :: rest, items =>
    match items.get? key with
    | none => (assign value rest []).map fun inner => items.put key (.table .dotted inner)
    | some (.table .header _) => none
    | some (.table _ inner) =>
      (assign value rest inner).map fun inner => items.put key (.table .dotted inner)
    | some (.tables (last :: before)) =>
      if rest.length = 1 then none
      else (assign value rest last).map fun inner => items.put key (.tables (inner :: before))
    | some _ => none

/-- Opens the table at a path, or appends one to the array of tables
there; `none` if something else is at the path or on the way. -/
def openTable (append : Bool) : List String → Items → Option Items
  | [], _ => none
  | [key], items =>
    match items.get? key, append with
    | none, false => some (items.put key (.table .header []))
    | none, true => some (items.put key (.tables [[]]))
    | some (.table .implied inner), false => some (items.put key (.table .header inner))
    | some (.tables elements), true => some (items.put key (.tables ([] :: elements)))
    | some _, _ => none
  | key :: rest, items =>
    match items.get? key with
    | none => (openTable append rest []).map fun inner => items.put key (.table .implied inner)
    | some (.table origin inner) =>
      (openTable append rest inner).map fun inner => items.put key (.table origin inner)
    | some (.tables (last :: before)) =>
      (openTable append rest last).map fun inner => items.put key (.tables (inner :: before))
    | some _ => none

/-- Changes the table at a path, which is open. -/
def within (change : Items → Option Items) : List String → Items → Option Items
  | [], items => change items
  | key :: rest, items =>
    match items.get? key with
    | some (.table origin inner) =>
      (within change rest inner).map fun inner => items.put key (.table origin inner)
    | some (.tables (last :: before)) =>
      (within change rest last).map fun inner => items.put key (.tables (inner :: before))
    | _ => none

/-- Carries out statements; `current` is the path of the table that was
opened last. -/
def perform (current : List String) : List Statement → Items → Option Items
  | [], items => some items
  | .assign key value :: rest, items =>
    (within (assign value key) current items).bind (perform current rest)
  | .header path :: rest, items => (openTable false path items).bind (perform path rest)
  | .append path :: rest, items => (openTable true path items).bind (perform path rest)

-- ============================================================== results

mutual

/-- The value that an item is when the text is over. -/
def Item.finished : Item → Toml
  | .value v => v
  | .table _ entries => .table (Item.valuesOf entries)
  | .tables elements => .array (Item.tablesOf elements)

/-- The values under the keys. -/
def Item.valuesOf : List (String × Item) → List (String × Toml)
  | [] => []
  | (key, item) :: rest => (key, item.finished) :: Item.valuesOf rest

/-- The tables of an array, in the order in which they were appended. -/
def Item.tablesOf : List (List (String × Item)) → List Toml
  | [] => []
  | entries :: before => Item.tablesOf before ++ [.table (Item.valuesOf entries)]

end

end Toml

end ScopeRules
