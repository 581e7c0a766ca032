/-
A rule dictionary read as a list. `Outline.ofEntries` and its siblings put
one construct after the other in front of a rest; here the same constructs
stand side by side, as the `Clause`s of a dictionary, in document order.

# Why clauses

A clause of a nested dictionary keeps the dictionary itself. So what the
compiler makes of a document can be stated against the document: the
clauses of `d` are exactly what `d` says of its own rule, and the clauses of
a nested dictionary are found by looking into it.

# What this file closes

- `ofDocument_eq_foldr`: an outline is its clauses, each put in front of the
  ones that follow it. Every later fact about outlines is an induction over
  this list and no longer over seven functions.
- `count_foldr_onto`, `names_foldr_onto`: how many rules a list of clauses
  makes, and which names it mentions.
-/
import ScopeRules.Outline

namespace ScopeRules

-- ============================================================= clauses

/-- One thing that a rule dictionary says. -/
inductive Clause where
  | attribute (key : AttributeKey) (text : String)
  /-- A key of a capture dictionary denotes no group. -/
  | unusable (key : String)
  | label (key : CaptureKey) (index : Nat) (text : String)
  /-- A dictionary takes a place, as a rule or as a reference. -/
  | nested (place : Place) (source : Document)
  deriving Inhabited, Repr

/-- Whether a dictionary at this place is a reference: children and entries
are, if they have an include key. -/
def Place.refers (place : Place) (source : Document) : Bool :=
  match place with
  | .child | .entry _ => Assoc.has source Vocabulary.includeKey
  | .capture _ _ | .injection _ => false

namespace Clause

/-- What an entry of a capture dictionary says. -/
def ofGroup? (c : CaptureKey) (group : String × Value) : Option Clause :=
  match Vocabulary.captureIndex? group.1, group.2 with
  | none, _ => some (.unusable group.1)
  | some i, .dict source =>
    match Document.getString? source Vocabulary.labelKey with
    | some text => some (.label c i text)
    | none => some (.nested (.capture c i) source)
  | some _, _ => none

/-- What a key with its value says in a rule dictionary. -/
def ofEntry (entry : String × Value) : List Clause :=
  match RuleKey.ofSpelling entry.1, entry.2 with
  | .attribute key, .string text => [.attribute key text]
  | .captures c, .dict groups => groups.filterMap (ofGroup? c)
  | .structural .patterns, .array items =>
    items.filterMap fun item => item.dict?.map (.nested .child)
  | .structural .repository, .dict entries =>
    entries.filterMap fun entry => entry.2.dict?.map (.nested (.entry entry.1))
  | .structural .injections, .dict entries =>
    entries.filterMap fun entry => entry.2.dict?.map (.nested (.injection entry.1))
  | _, _ => []

/-- The outline that says a thing and then goes on with `rest`. -/
def onto (clause : Clause) (rest : Outline) : Outline :=
  match clause with
  | .attribute key text => .attribute key text rest
  | .unusable key => .unusable key rest
  | .label key index text => .label key index text rest
  | .nested place source =>
    if place.refers source then .reference place (Outline.targetOf source) rest
    else .rule place (Outline.scopeOf source) (Outline.ofDocument source) rest

/-- The number of rules that a clause makes, at any depth. -/
def count : Clause → Nat
  | .nested place source =>
    if place.refers source then 0 else 1 + (Outline.ofDocument source).count
  | _ => 0

/-- The number of rules that a list of clauses makes. -/
def total : List Clause → Nat
  | [] => 0
  | clause :: more => clause.count + total more

/-- The entry names that a clause mentions, in order. -/
def names : Clause → List String
  | .nested place source =>
    place.name?.toList
      ++ if place.refers source then (Outline.targetOf source).name?.toList
        else (Outline.ofDocument source).names
  | _ => []

end Clause

/-- What a rule dictionary says, in document order. -/
def Document.clauses (d : Document) : List Clause := d.flatMap Clause.ofEntry

-- ================================================ outlines and clauses

open Clause

/-- A nested dictionary is one clause; any other value there is none. -/
theorem ofNested_eq (place : Place) (value : Value) (rest : Outline)
    (hplace : place = .child ∨ ∃ name, place = .entry name) :
    Outline.ofNested place value rest
      = ((value.dict?.map (Clause.nested place)).toList).foldr onto rest := by
  have hrefers : ∀ source, place.refers source = Assoc.has source Vocabulary.includeKey := by
    intro source
    rcases hplace with rfl | ⟨name, rfl⟩ <;> rfl
  cases value with
  | dict source =>
    rw [Outline.ofNested]
    simp only [Value.dict?, Option.map_some, Option.toList_some, List.foldr_cons, List.foldr_nil,
      onto, hrefers, Outline.ofDocument]
  | _ =>
    unfold Outline.ofNested
    rfl

theorem ofItems_eq_foldr (items : List Value) (rest : Outline) :
    Outline.ofItems items rest
      = (items.filterMap fun item => item.dict?.map (.nested .child)).foldr onto rest := by
  induction items with
  | nil =>
    rw [Outline.ofItems]
    rfl
  | cons item more ih =>
    rw [Outline.ofItems, ih, ofNested_eq .child item _ (.inl rfl), List.filterMap_cons]
    cases item.dict? <;> rfl

theorem ofRepository_eq_foldr (entries : List (String × Value)) (rest : Outline) :
    Outline.ofRepository entries rest
      = (entries.filterMap fun entry =>
          entry.2.dict?.map (.nested (.entry entry.1))).foldr onto rest := by
  induction entries with
  | nil =>
    rw [Outline.ofRepository]
    rfl
  | cons entry more ih =>
    obtain ⟨name, value⟩ := entry
    rw [Outline.ofRepository, ih, ofNested_eq (.entry name) value _ (.inr ⟨name, rfl⟩),
      List.filterMap_cons]
    cases value.dict? <;> rfl

theorem ofInjections_eq_foldr (entries : List (String × Value)) (rest : Outline) :
    Outline.ofInjections entries rest
      = (entries.filterMap fun entry =>
          entry.2.dict?.map (.nested (.injection entry.1))).foldr onto rest := by
  induction entries with
  | nil =>
    rw [Outline.ofInjections]
    rfl
  | cons entry more ih =>
    obtain ⟨selector, value⟩ := entry
    cases value with
    | dict source =>
      rw [Outline.ofInjections, ih]
      rfl
    | _ =>
      rw [Outline.ofInjections, ih]
      · rfl
      · intro _ _ h
        cases h

theorem ofGroups_eq_foldr (c : CaptureKey) (groups : List (String × Value)) (rest : Outline) :
    Outline.ofGroups c groups rest = (groups.filterMap (ofGroup? c)).foldr onto rest := by
  induction groups with
  | nil =>
    rw [Outline.ofGroups]
    rfl
  | cons group more ih =>
    obtain ⟨key, value⟩ := group
    rw [Outline.ofGroups.eq_def, List.filterMap_cons]
    simp only [ih]
    generalize more.filterMap (ofGroup? c) = clauses
    unfold ofGroup?
    cases hindex : Vocabulary.captureIndex? key with
    | none => simp only [List.foldr_cons, onto]
    | some i =>
      cases value with
      | dict source =>
        cases hlabel : Document.getString? source Vocabulary.labelKey with
        | none =>
          simp only [hlabel, List.foldr_cons, onto, Place.refers, Outline.ofDocument,
            Bool.false_eq_true, if_false]
        | some text => simp only [hlabel, List.foldr_cons, onto]
      | _ => rfl

/-- One entry of a rule dictionary says its clauses. -/
theorem ofEntry_eq_foldr (key : String) (value : Value) (rest : Outline) :
    Outline.ofEntry key value rest = (ofEntry (key, value)).foldr onto rest := by
  unfold Outline.ofEntry Clause.ofEntry
  cases RuleKey.ofSpelling key with
  | «attribute» a => cases value <;> rfl
  | captures c =>
    cases value with
    | dict groups => exact ofGroups_eq_foldr c groups rest
    | _ => rfl
  | structural s =>
    cases s with
    | patterns =>
      cases value with
      | array items => exact ofItems_eq_foldr items rest
      | _ => rfl
    | repository =>
      cases value with
      | dict entries => exact ofRepository_eq_foldr entries rest
      | _ => rfl
    | injections =>
      cases value with
      | dict entries => exact ofInjections_eq_foldr entries rest
      | _ => rfl
  | unknown => rfl

/-- The entries of a rule dictionary say their clauses, in order. -/
theorem ofEntries_eq_foldr (d : Document) (rest : Outline) :
    Outline.ofEntries d rest = d.clauses.foldr onto rest := by
  induction d with
  | nil =>
    rw [Outline.ofEntries]
    rfl
  | cons entry more ih =>
    obtain ⟨key, value⟩ := entry
    rw [Outline.ofEntries, ofEntry_eq_foldr, ih]
    unfold Document.clauses
    rw [List.flatMap_cons, List.foldr_append]

/-- The outline of a document is its clauses, each in front of those that
follow it. -/
theorem ofDocument_eq_foldr (d : Document) :
    Outline.ofDocument d = d.clauses.foldr onto .nothing :=
  ofEntries_eq_foldr d .nothing

-- ================================================= counts and names

theorem count_foldr_onto (clauses : List Clause) (rest : Outline) :
    (clauses.foldr onto rest).count = Clause.total clauses + rest.count := by
  induction clauses with
  | nil => exact (Nat.zero_add _).symm
  | cons clause more ih =>
    rw [List.foldr_cons, Clause.total]
    cases clause with
    | nested place source =>
      cases hrefers : place.refers source with
      | true =>
        simp only [onto, Clause.count, hrefers, if_true, Outline.count, ih]
        omega
      | false =>
        simp only [onto, Clause.count, hrefers, Bool.false_eq_true, if_false, Outline.count, ih]
        omega
    | _ =>
      simp only [onto, Outline.count, Clause.count, ih]
      omega

/-- A document makes as many rules below its own as its clauses do. -/
theorem count_ofDocument (d : Document) :
    (Outline.ofDocument d).count = Clause.total d.clauses := by
  rw [ofDocument_eq_foldr, count_foldr_onto]
  rfl

/-- A nested rule makes fewer rules than the clauses that it is among. -/
theorem Clause.count_lt_of_mem {clauses : List Clause} {place : Place} {source : Document}
    (h : .nested place source ∈ clauses) (hrefers : place.refers source = false) :
    (Outline.ofDocument source).count < Clause.total clauses := by
  induction clauses with
  | nil => cases h
  | cons clause more ih =>
    rw [Clause.total]
    rcases List.mem_cons.1 h with rfl | h
    · simp only [Clause.count, hrefers, Bool.false_eq_true, if_false]
      omega
    · have hmore := ih h
      omega

theorem names_foldr_onto (clauses : List Clause) (rest : Outline) :
    (clauses.foldr onto rest).names = clauses.flatMap Clause.names ++ rest.names := by
  induction clauses with
  | nil => rfl
  | cons clause more ih =>
    rw [List.foldr_cons, List.flatMap_cons]
    cases clause with
    | nested place source =>
      cases hrefers : place.refers source with
      | true =>
        simp only [onto, Clause.names, hrefers, if_true, Outline.names, ih, List.append_assoc]
      | false =>
        simp only [onto, Clause.names, hrefers, Bool.false_eq_true, if_false, Outline.names, ih,
          List.append_assoc]
    | _ => simp only [onto, Outline.names, Clause.names, ih, List.nil_append]

/-- A document mentions the names that its clauses mention. -/
theorem names_ofDocument (d : Document) :
    (Outline.ofDocument d).names = d.clauses.flatMap Clause.names := by
  rw [ofDocument_eq_foldr, names_foldr_onto]
  exact List.append_nil _

end ScopeRules
