/-
What a document asks for. An `Outline` is a rule dictionary with everything
dropped that means nothing to a rule: unknown keys, values of the wrong
kind, items and entries that are no dictionaries. What is left stands in
document order, one construct per thing the rule gets, and a nested rule
carries the outline of its own content.

All later work reads outlines, never documents. Which names are mentioned
and in which order, which texts are interned, how many rules there are: each
is one recursion over the outline, and each is a list or a number that can
be compared with another.
-/
import ScopeRules.Document.Basic
import ScopeRules.Include

namespace ScopeRules

/-- Where in a rule a nested rule or a reference belongs. -/
inductive Place where
  | child
  | capture (key : CaptureKey) (index : Nat)
  | entry (name : String)
  | injection (selector : String)
  deriving DecidableEq, Repr, Inhabited

/-- The content of a rule dictionary, in document order. Every construct
but the last says one thing and goes on with the rest. -/
inductive Outline where
  | nothing
  /-- An attribute is set. -/
  | attribute (key : AttributeKey) (text : String) (rest : Outline)
  /-- A key of a capture dictionary denotes no group. -/
  | unusable (key : String) (rest : Outline)
  /-- A match group gets a label. -/
  | label (key : CaptureKey) (index : Nat) (text : String) (rest : Outline)
  /-- A reference takes a place. -/
  | reference (place : Place) (target : Include) (rest : Outline)
  /-- A rule takes a place. -/
  | rule (place : Place) (scope : Option String) (body : Outline) (rest : Outline)
  deriving Inhabited, Repr

-- ==================================================== what is mentioned

/-- The entry name that a place mentions. -/
def Place.name? : Place → Option String
  | .entry name => some name
  | _ => none

/-- The text that a place has interned. -/
def Place.text? : Place → Option String
  | .injection selector => some selector
  | _ => none

namespace Outline

/-- The entry names mentioned, in order: that of an entry before those in
its content. -/
def names : Outline → List String
  | .nothing => []
  | .attribute _ _ rest => rest.names
  | .unusable _ rest => rest.names
  | .label _ _ _ rest => rest.names
  | .reference place target rest => place.name?.toList ++ target.name?.toList ++ rest.names
  | .rule place _ body rest => place.name?.toList ++ body.names ++ rest.names

/-- The texts that are interned, in order: of a rule its selector, its
scope, and those in its content. -/
def texts : Outline → List String
  | .nothing => []
  | .attribute _ text rest => text :: rest.texts
  | .unusable _ rest => rest.texts
  | .label _ _ text rest => text :: rest.texts
  | .reference place target rest => place.text?.toList ++ target.scope?.toList ++ rest.texts
  | .rule place scope body rest =>
    place.text?.toList ++ scope.toList ++ body.texts ++ rest.texts

/-- The keys of capture dictionaries that denote no group, in order. -/
def unusableKeys : Outline → List String
  | .nothing => []
  | .attribute _ _ rest => rest.unusableKeys
  | .unusable key rest => key :: rest.unusableKeys
  | .label _ _ _ rest => rest.unusableKeys
  | .reference _ _ rest => rest.unusableKeys
  | .rule _ _ body rest => body.unusableKeys ++ rest.unusableKeys

/-- The number of rules, at any depth. -/
def count : Outline → Nat
  | .nothing => 0
  | .attribute _ _ rest => rest.count
  | .unusable _ rest => rest.count
  | .label _ _ _ rest => rest.count
  | .reference _ _ rest => rest.count
  | .rule _ _ body rest => 1 + body.count + rest.count

-- =================================================== reading a document

/-- The scope name that a rule dictionary declares. -/
def scopeOf (entries : Document) : Option String :=
  entries.getString? AttributeKey.scopeName.spelling

/-- What the include key of a dictionary asks for. One whose value is no
string asks for the grammar of the empty scope. -/
def targetOf (entries : Document) : Include :=
  .ofText ((entries.getString? Vocabulary.includeKey).getD "")

mutual

/-- The entries of a rule dictionary, in front of `rest`. -/
def ofEntries : List (String × Value) → Outline → Outline
  | [], rest => rest
  | (key, value) :: more, rest => ofEntry key value (ofEntries more rest)

def ofEntry (key : String) (value : Value) (rest : Outline) : Outline :=
  match RuleKey.ofSpelling key, value with
  | .attribute a, .string text => .attribute a text rest
  | .captures c, .dict groups => ofGroups c groups rest
  | .structural .patterns, .array items => ofItems items rest
  | .structural .repository, .dict entries => ofRepository entries rest
  | .structural .injections, .dict entries => ofInjections entries rest
  | _, _ => rest

def ofItems : List Value → Outline → Outline
  | [], rest => rest
  | item :: more, rest => ofNested .child item (ofItems more rest)

def ofRepository : List (String × Value) → Outline → Outline
  | [], rest => rest
  | (name, entry) :: more, rest => ofNested (.entry name) entry (ofRepository more rest)

/-- An item or entry: with an include key a reference, else a rule. -/
def ofNested (place : Place) (value : Value) (rest : Outline) : Outline :=
  match value with
  | .dict entries =>
    if Assoc.has entries Vocabulary.includeKey then .reference place (targetOf entries) rest
    else .rule place (scopeOf entries) (ofEntries entries .nothing) rest
  | _ => rest

/-- The entries of an injections dictionary: rules, whatever their keys. -/
def ofInjections : List (String × Value) → Outline → Outline
  | [], rest => rest
  | (selector, .dict entries) :: more, rest =>
    .rule (.injection selector) (scopeOf entries) (ofEntries entries .nothing)
      (ofInjections more rest)
  | _ :: more, rest => ofInjections more rest

/-- The entries of a capture dictionary. The key is looked at first; then
an entry with a string name is a label, and any other a rule. -/
def ofGroups (c : CaptureKey) : List (String × Value) → Outline → Outline
  | [], rest => rest
  | (key, value) :: more, rest =>
    match Vocabulary.captureIndex? key, value with
    | none, _ => .unusable key (ofGroups c more rest)
    | some i, .dict entries =>
      match Document.getString? entries Vocabulary.labelKey with
      | some text => .label c i text (ofGroups c more rest)
      | none =>
        .rule (.capture c i) (scopeOf entries) (ofEntries entries .nothing)
          (ofGroups c more rest)
    | some _, _ => ofGroups c more rest

end

def ofDocument (d : Document) : Outline := ofEntries d .nothing

end Outline

end ScopeRules
