/-
What the interner leaves on rules. A symbol is a text with a stamp, and the
stamp says which interner session made it and when. `unstamped` forgets the
stamps of everything that holds symbols: rules, references, registries, what
is alive at a moment.

# What this file closes

- Two contexts that differ in their interners alone compile a document to
  the same rules but for stamps (`unstamped_fill`, `unstamped_rules`), so
  adding a document to two tables that are the same but for stamps gives two
  such tables again, whatever the interners (`Table.unstamped_add`).
- Whatever is asked of rules does not look at stamps: climbing, hops,
  resolution and the steps of a walk go with `unstamped`
  (`Snapshot.unstamped_next?`).
-/
import Mathlib.Data.List.Basic
import ScopeRules.Proofs.Alive
import ScopeRules.Proofs.Dictionaries

namespace ScopeRules

-- ====================================================== without stamps

/-- The symbol as any interner could have made it. -/
def Symbol.unstamped (s : Symbol) : Symbol := ⟨s.text, 0⟩

def Reference.unstamped : Reference → Reference
  | .foreign table scope id anchor => .foreign table scope.unstamped id anchor
  | .entry id anchor => .entry id anchor
  | .root anchor => .root anchor

mutual

/-- The rule without the stamps of its symbols. -/
def Rule.unstamped : Rule → Rule
  | ⟨id, scope, parent, attributes, captures, children, repository, injections⟩ =>
    ⟨id, scope.map Symbol.unstamped, parent, attributes.map fun p => (p.1, p.2.unstamped),
      unstampedCaptures captures, unstampedChildren children, unstampedEntries repository,
      unstampedInjections injections⟩

def Node.unstamped : Node → Node
  | .rule r => .rule r.unstamped
  | .reference p => .reference p.unstamped

def Capture.unstamped : Capture → Capture
  | .label text => .label text.unstamped
  | .rule r => .rule r.unstamped

def CaptureTable.unstamped : CaptureTable → CaptureTable
  | ⟨size, groups⟩ => ⟨size, unstampedGroups groups⟩

def unstampedChildren : List Node → List Node
  | [] => []
  | x :: rest => x.unstamped :: unstampedChildren rest

def unstampedEntries : List (RuleId × Node) → List (RuleId × Node)
  | [] => []
  | (id, x) :: rest => (id, x.unstamped) :: unstampedEntries rest

def unstampedCaptures : List (CaptureKey × CaptureTable) → List (CaptureKey × CaptureTable)
  | [] => []
  | (key, table) :: rest => (key, table.unstamped) :: unstampedCaptures rest

def unstampedGroups : List (Nat × Capture) → List (Nat × Capture)
  | [] => []
  | (i, c) :: rest => (i, c.unstamped) :: unstampedGroups rest

def unstampedInjections : List (Symbol × Rule) → List (Symbol × Rule)
  | [] => []
  | (selector, r) :: rest => (selector.unstamped, r.unstamped) :: unstampedInjections rest

end

@[simp] theorem unstampedChildren_eq (xs : List Node) :
    unstampedChildren xs = xs.map Node.unstamped := by
  induction xs with
  | nil => rfl
  | cons x rest ih => exact congrArg (_ :: ·) ih

@[simp] theorem unstampedEntries_eq (xs : List (RuleId × Node)) :
    unstampedEntries xs = xs.map fun p => (p.1, p.2.unstamped) := by
  induction xs with
  | nil => rfl
  | cons p rest ih => exact congrArg (_ :: ·) ih

@[simp] theorem unstampedCaptures_eq (xs : List (CaptureKey × CaptureTable)) :
    unstampedCaptures xs = xs.map fun p => (p.1, p.2.unstamped) := by
  induction xs with
  | nil => rfl
  | cons p rest ih => exact congrArg (_ :: ·) ih

@[simp] theorem unstampedGroups_eq (xs : List (Nat × Capture)) :
    unstampedGroups xs = xs.map fun p => (p.1, p.2.unstamped) := by
  induction xs with
  | nil => rfl
  | cons p rest ih => exact congrArg (_ :: ·) ih

@[simp] theorem unstampedInjections_eq (xs : List (Symbol × Rule)) :
    unstampedInjections xs = xs.map fun p => (p.1.unstamped, p.2.unstamped) := by
  induction xs with
  | nil => rfl
  | cons p rest ih => exact congrArg (_ :: ·) ih

theorem Reference.anchor_unstamped (p : Reference) : p.unstamped.anchor = p.anchor := by
  cases p <;> rfl

@[simp] theorem Node.unstamped_rule (r : Rule) : (Node.rule r).unstamped = .rule r.unstamped := rfl

@[simp] theorem Node.unstamped_reference (p : Reference) :
    (Node.reference p).unstamped = .reference p.unstamped := rfl

@[simp] theorem Capture.unstamped_label (text : Symbol) :
    (Capture.label text).unstamped = .label text.unstamped := rfl

@[simp] theorem Capture.unstamped_rule (r : Rule) :
    (Capture.rule r).unstamped = .rule r.unstamped := rfl

@[simp] theorem CaptureTable.size_unstamped (t : CaptureTable) : t.unstamped.size = t.size := by
  cases t
  rfl

@[simp] theorem CaptureTable.groups_unstamped (t : CaptureTable) :
    t.unstamped.groups = t.groups.map fun p => (p.1, p.2.unstamped) := by
  cases t
  exact unstampedGroups_eq _

namespace Rule

variable (r : Rule)

@[simp] theorem id_unstamped : r.unstamped.id = r.id := by
  cases r
  rfl

@[simp] theorem scope_unstamped : r.unstamped.scope = r.scope.map Symbol.unstamped := by
  cases r
  rfl

@[simp] theorem parent_unstamped : r.unstamped.parent = r.parent := by
  cases r
  rfl

@[simp] theorem attributes_unstamped :
    r.unstamped.attributes = r.attributes.map fun p => (p.1, p.2.unstamped) := by
  cases r
  rfl

@[simp] theorem captures_unstamped :
    r.unstamped.captures = r.captures.map fun p => (p.1, p.2.unstamped) := by
  cases r
  exact unstampedCaptures_eq _

@[simp] theorem children_unstamped : r.unstamped.children = r.children.map Node.unstamped := by
  cases r
  exact unstampedChildren_eq _

@[simp] theorem repository_unstamped :
    r.unstamped.repository = r.repository.map fun p => (p.1, p.2.unstamped) := by
  cases r
  exact unstampedEntries_eq _

@[simp] theorem injections_unstamped :
    r.unstamped.injections = r.injections.map fun p => (p.1.unstamped, p.2.unstamped) := by
  cases r
  exact unstampedInjections_eq _

/-- Rules are told by what they are made of. -/
theorem ext_fields {r s : Rule} (hid : r.id = s.id) (hscope : r.scope = s.scope)
    (hparent : r.parent = s.parent) (hattributes : r.attributes = s.attributes)
    (hcaptures : r.captures = s.captures) (hchildren : r.children = s.children)
    (hrepository : r.repository = s.repository) (hinjections : r.injections = s.injections) :
    r = s := by
  cases r
  cases s
  simp_all

@[simp] theorem unstamped_bare (id : NodeId) (scope : Option Symbol) (parent : Option NodeId) :
    (bare id scope parent).unstamped = bare id (scope.map Symbol.unstamped) parent := by
  simp [bare, unstamped]

@[simp] theorem unstamped_empty : empty.unstamped = empty := unstamped_bare _ _ _

-- ============================================================== building

theorem unstamped_setAttribute (key : AttributeKey) (value : Symbol) :
    (r.setAttribute key value).unstamped = r.unstamped.setAttribute key value.unstamped := by
  refine ext_fields ?_ ?_ ?_ ?_ ?_ ?_ ?_ ?_ <;> simp [setAttribute, Assoc.map_put]

theorem unstamped_setCapture (key : CaptureKey) (i : Nat) (c : Capture) :
    (r.setCapture key i c).unstamped = r.unstamped.setCapture key i c.unstamped := by
  have htable : ((Assoc.get? r.captures key).getD .empty).unstamped
      = (Assoc.get? r.unstamped.captures key).getD .empty := by
    rw [captures_unstamped, Assoc.get?_map fun p : CaptureKey × CaptureTable => p.2.unstamped]
    cases Assoc.get? r.captures key <;> simp [CaptureTable.empty, CaptureTable.unstamped]
  have hfill : ∀ t : CaptureTable, (t.fill i c).unstamped = t.unstamped.fill i c.unstamped := by
    intro t
    cases t
    simp [CaptureTable.fill, CaptureTable.unstamped, Assoc.map_putSorted]
  refine ext_fields ?_ ?_ ?_ ?_ ?_ ?_ ?_ ?_ <;>
    simp [setCapture, Assoc.map_put, hfill, htable]

theorem unstamped_addChild (child : Node) :
    (r.addChild child).unstamped = r.unstamped.addChild child.unstamped := by
  refine ext_fields ?_ ?_ ?_ ?_ ?_ ?_ ?_ ?_ <;> simp [addChild]

theorem unstamped_putEntry (id : RuleId) (entry : Node) :
    (r.putEntry id entry).unstamped = r.unstamped.putEntry id entry.unstamped := by
  refine ext_fields ?_ ?_ ?_ ?_ ?_ ?_ ?_ ?_ <;> simp [putEntry, Assoc.map_putSorted]

theorem unstamped_addInjection (selector : Symbol) (rule : Rule) :
    (r.addInjection selector rule).unstamped
      = r.unstamped.addInjection selector.unstamped rule.unstamped := by
  refine ext_fields ?_ ?_ ?_ ?_ ?_ ?_ ?_ ?_ <;> simp [addInjection]

end Rule

-- ============================================================ compiling

/-- Two contexts that differ in their interners alone. -/
structure Context.SameButInterner (c c' : Context) : Prop where
  table : c.table = c'.table
  ruleIds : c.ruleIds = c'.ruleIds

namespace Context.SameButInterner

variable {c c' : Context}

theorem symbol (c c' : Context) (text : String) :
    (c.symbol text).unstamped = (c'.symbol text).unstamped := by
  rw [Symbol.unstamped, Symbol.unstamped, Context.symbol, Context.symbol, Interner.text_intern,
    Interner.text_intern]

theorem ruleId (h : c.SameButInterner c') (name : String) : c.ruleId name = c'.ruleId name := by
  rw [Context.ruleId, Context.ruleId, h.ruleIds]

theorem reference (h : c.SameButInterner c') (anchor : NodeId) (target : Include) :
    (c.reference anchor target).unstamped = (c'.reference anchor target).unstamped := by
  cases target with
  | entry name => simp [Context.reference, Reference.unstamped, h.ruleId]
  | root => rfl
  | foreign scope name =>
    have hids : c.ruleId = c'.ruleId := funext h.ruleId
    simp [Context.reference, Reference.unstamped, h.table, hids, symbol c c']

theorem unfilled (h : c.SameButInterner c') (serial : Nat) (scope : Option String)
    (parent : Option NodeId) :
    (c.unfilled serial scope parent).unstamped = (c'.unfilled serial scope parent).unstamped := by
  rw [Context.unfilled, Context.unfilled, Rule.unstamped_bare, Rule.unstamped_bare, h.table]
  cases scope with
  | none => rfl
  | some text => simp [symbol c c']

theorem placeReference (h : c.SameButInterner c') {r r' : Rule} (hr : r.unstamped = r'.unstamped)
    (place : Place) {p p' : Reference} (hp : p.unstamped = p'.unstamped) :
    (c.placeReference r place p).unstamped = (c'.placeReference r' place p').unstamped := by
  cases place with
  | child => simp [Context.placeReference, Rule.unstamped_addChild, hr, hp]
  | entry name => simp [Context.placeReference, Rule.unstamped_putEntry, hr, hp, h.ruleId]
  | capture key index => exact hr
  | injection selector => exact hr

theorem placeRule (h : c.SameButInterner c') {r r' : Rule} (hr : r.unstamped = r'.unstamped)
    (place : Place) {x x' : Rule} (hx : x.unstamped = x'.unstamped) :
    (c.placeRule r place x).unstamped = (c'.placeRule r' place x').unstamped := by
  cases place with
  | child => simp [Context.placeRule, Rule.unstamped_addChild, hr, hx]
  | entry name => simp [Context.placeRule, Rule.unstamped_putEntry, hr, hx, h.ruleId]
  | capture key index => simp [Context.placeRule, Rule.unstamped_setCapture, hr, hx]
  | injection selector =>
    simp [Context.placeRule, Rule.unstamped_addInjection, hr, hx, symbol c c']

end Context.SameButInterner

namespace Outline

variable {c c' : Context}

/-- What is built does not depend on the interner, but for stamps. -/
theorem unstamped_fill (h : c.SameButInterner c') (o : Outline) (next : Nat) {r r' : Rule}
    (hr : r.unstamped = r'.unstamped) :
    (o.fill c next r).unstamped = (o.fill c' next r').unstamped := by
  induction o generalizing next r r' with
  | nothing => exact hr
  | «attribute» key text rest ih =>
    refine ih next ?_
    rw [Rule.unstamped_setAttribute, Rule.unstamped_setAttribute, hr,
      Context.SameButInterner.symbol c c']
  | unusable key rest ih => exact ih next hr
  | label key index text rest ih =>
    refine ih next ?_
    rw [Rule.unstamped_setCapture, Rule.unstamped_setCapture, hr, Capture.unstamped_label,
      Capture.unstamped_label, Context.SameButInterner.symbol c c']
  | reference place target rest ih =>
    have hid : r.id = r'.id := by rw [← r.id_unstamped, hr, r'.id_unstamped]
    refine ih next (h.placeReference hr place ?_)
    rw [hid]
    exact h.reference r'.id target
  | rule place scope body rest ihbody ih =>
    have hid : r.id = r'.id := by rw [← r.id_unstamped, hr, r'.id_unstamped]
    refine ih _ (h.placeRule hr place (ihbody _ ?_))
    rw [hid]
    exact h.unfilled next scope (some r'.id)

theorem unstamped_rules (h : c.SameButInterner c') (o : Outline) (next : Nat) (owner : NodeId) :
    (o.rules c next owner).map Rule.unstamped = (o.rules c' next owner).map Rule.unstamped := by
  induction o generalizing next owner with
  | nothing => rfl
  | «attribute» key text rest ih => exact ih next owner
  | unusable key rest ih => exact ih next owner
  | label key index text rest ih => exact ih next owner
  | reference place target rest ih => exact ih next owner
  | rule place scope body rest ihbody ih =>
    rw [rules, rules, List.map_cons, List.map_cons, List.map_append, List.map_append, ihbody, ih,
      h.table, unstamped_fill h body (next + 1) (h.unfilled next scope (some owner))]

end Outline

-- =============================================================== tables

def Entry.unstamped (e : Entry) : Entry := ⟨e.node.unstamped, e.root.unstamped⟩

def Registry.unstamped (registry : Registry) : Registry :=
  registry.map fun p => (p.1, p.2.unstamped)

def Table.unstamped (t : Table) : Table := { t with registry := t.registry.unstamped }

theorem Registry.unstamped_publish (registry : Registry) (root : Rule)
    (rules : List (String × Rule)) :
    (registry.publish root rules).unstamped
      = registry.unstamped.publish root.unstamped (rules.map fun p => (p.1, p.2.unstamped)) := by
  induction rules generalizing registry with
  | nil => rfl
  | cons p rest ih =>
    have hregister : (registry.register root p.1 p.2).unstamped
        = registry.unstamped.register root.unstamped p.1 p.2.unstamped :=
      Assoc.map_putSorted (fun q : String × Entry => q.2.unstamped) registry p.1 ⟨p.2, root⟩
    rw [List.map_cons, publish, publish, List.foldl_cons, List.foldl_cons]
    exact (ih _).trans (by rw [hregister]; rfl)

/-- What registering rules is reported as does not depend on stamps. -/
theorem Registry.unstamped_publication (registry : Registry) (root : Rule)
    (rules : List (String × Rule)) :
    registry.publication root rules
      = registry.unstamped.publication root.unstamped
          (rules.map fun p => (p.1, p.2.unstamped)) := by
  induction rules generalizing registry with
  | nil => rfl
  | cons p rest ih =>
    have hregister : (registry.register root p.1 p.2).unstamped
        = registry.unstamped.register root.unstamped p.1 p.2.unstamped :=
      Assoc.map_putSorted (fun q : String × Entry => q.2.unstamped) registry p.1 ⟨p.2, root⟩
    have hhas : registry.unstamped.has p.1 = registry.has p.1 :=
      Assoc.has_map (fun q : String × Entry => q.2.unstamped) registry p.1
    rw [List.map_cons, publication, publication, ih, hregister, registration, registration, hhas]

/-- The rules that declare a scope are the same but for stamps. -/
theorem Grammar.unstamped_declarations {g g' : Grammar}
    (h : g.rules.map Rule.unstamped = g'.rules.map Rule.unstamped) :
    g.declarations.map (fun p => (p.1, p.2.unstamped))
      = g'.declarations.map fun p => (p.1, p.2.unstamped) := by
  have hdeclared : ∀ rules : List Rule,
      (rules.filterMap fun r => r.scope.map fun scope => (scope.text, r)).map
          (fun p => (p.1, p.2.unstamped))
        = (rules.map Rule.unstamped).filterMap fun r => r.scope.map fun scope => (scope.text, r) := by
    intro rules
    induction rules with
    | nil => rfl
    | cons r rest ih =>
      rw [List.filterMap_cons, List.map_cons, List.filterMap_cons, Rule.scope_unstamped]
      cases r.scope with
      | none => exact ih
      | some scope =>
        simp only [Option.map_some, List.map_cons, ih]
        rfl
  rw [declarations, declarations, hdeclared, hdeclared, h]

namespace Table

variable {t t' : Table}

theorem fields_eq_of_unstamped (h : t.unstamped = t'.unstamped) :
    t.id = t'.id ∧ t.registry.unstamped = t'.registry.unstamped ∧ t.ruleIds = t'.ruleIds
      ∧ t.compiled = t'.compiled := by
  cases t
  cases t'
  simpa [unstamped] using h

/-- Documents are compiled to the same rules but for stamps. -/
theorem unstamped_compile (h : t.unstamped = t'.unstamped) (i i' : Interner) (d : Document) :
    (t.compile i d).root.unstamped = (t'.compile i' d).root.unstamped
      ∧ (t.compile i d).rules.map Rule.unstamped = (t'.compile i' d).rules.map Rule.unstamped := by
  obtain ⟨hid, -, hids, hcompiled⟩ := fields_eq_of_unstamped h
  have hcontext : (t.contextFor i d).SameButInterner (t'.contextFor i' d) :=
    ⟨hid, by rw [contextFor, contextFor, idsAfter, idsAfter, hids]⟩
  have hroot := Outline.unstamped_fill hcontext (Outline.ofDocument d) (t.compiled + 1 + 1)
    (hcontext.unfilled (t.compiled + 1) (Outline.scopeOf d) none)
  have hrootId : (t.compile i d).root.id = (t'.compile i' d).root.id := by
    have hunstamped := congrArg Rule.id hroot
    rw [Rule.id_unstamped, Rule.id_unstamped] at hunstamped
    rw [compile, compile, ← hcompiled]
    exact hunstamped
  rw [compile, compile, ← hcompiled] at hrootId ⊢
  refine ⟨hroot, ?_⟩
  have hrules := Outline.unstamped_rules hcontext (Outline.ofDocument d) (t.compiled + 1 + 1)
  simp only [Grammar.compile, List.map_cons] at hrootId ⊢
  rw [hroot, hrules, hrootId]

/-- Adding a document to tables that are the same but for stamps leaves two
such tables, and answers the same scope. The interners do not matter. -/
theorem unstamped_add (h : t.unstamped = t'.unstamped) (i i' : Interner) (d : Document) :
    (t.add i d).table.unstamped = (t'.add i' d).table.unstamped
      ∧ (t.add i d).scope.map Symbol.text = (t'.add i' d).scope.map Symbol.text := by
  obtain ⟨hroot, hrules⟩ := unstamped_compile h i i' d
  have hdeclarations := Grammar.unstamped_declarations hrules
  obtain ⟨hid, hregistry, hids, hcompiled⟩ := fields_eq_of_unstamped h
  have hlength : (t.compile i d).rules.length = (t'.compile i' d).rules.length := by
    simpa using congrArg List.length hrules
  refine ⟨?_, ?_⟩
  · simp only [add, unstamped, Registry.unstamped_publish, hroot, hdeclarations, hid, hregistry,
      hcompiled, hlength, idsAfter, hids]
  · have hscope := congrArg (fun r => r.scope.map Symbol.text) hroot
    simp only [Rule.scope_unstamped, Option.map_map] at hscope
    exact hscope

/-- What adding a document is reported as does not depend on stamps. -/
theorem unstamped_events (h : t.unstamped = t'.unstamped) (i i' : Interner) (d : Document) :
    (t.add i d).events = (t'.add i' d).events := by
  obtain ⟨hroot, hrules⟩ := unstamped_compile h i i' d
  have hdeclarations := Grammar.unstamped_declarations hrules
  have hregistry := (fields_eq_of_unstamped h).2.1
  have hcount : (t.compile i d).declarations.length = (t'.compile i' d).declarations.length := by
    simpa using congrArg List.length hdeclarations
  have hsummary : ∀ (r : Rule) n, summary r.unstamped n = summary r n := by
    intro r n
    rw [summary, summary, Rule.scope_unstamped, Rule.children_unstamped, List.length_map]
    cases r.scope <;> rfl
  show _ ++ t.registry.publication _ _ ++ [summary _ _]
    = _ ++ t'.registry.publication _ _ ++ [summary _ _]
  rw [Registry.unstamped_publication, hdeclarations, hregistry, hroot,
    ← Registry.unstamped_publication, ← hsummary, hroot, hsummary, hcount]

theorem unstamped_lookup (t : Table) (scope : String) :
    t.unstamped.lookup scope = (t.lookup scope).unstamped := by
  have hentry : t.unstamped.registry.get? scope
      = (t.registry.get? scope).map Entry.unstamped :=
    Assoc.get?_map (fun p : String × Entry => p.2.unstamped) t.registry scope
  rw [lookup, lookup, hentry]
  cases t.registry.get? scope with
  | none => exact Rule.unstamped_empty.symm
  | some entry => rfl

end Table

-- ============================================================== reading

namespace Rule

variable (r : Rule)

theorem entryAt?_unstamped (id : RuleId) :
    r.unstamped.entryAt? id = (r.entryAt? id).map Node.unstamped := by
  rw [entryAt?, repository_unstamped, Assoc.get?_map fun p : RuleId × Node => p.2.unstamped]
  rfl

theorem capture?_unstamped (key : CaptureKey) :
    r.unstamped.capture? key = (r.capture? key).map CaptureTable.unstamped := by
  rw [capture?, captures_unstamped,
    Assoc.get?_map fun p : CaptureKey × CaptureTable => p.2.unstamped]
  rfl

theorem nested_unstamped : r.unstamped.nested = r.nested.map unstamped := by
  have hnode : ∀ x : Node, x.unstamped.rule? = x.rule?.map unstamped := by
    intro x
    cases x <;> simp [Node.rule?]
  have hcapture : ∀ c : Capture, c.unstamped.rule? = c.rule?.map unstamped := by
    intro c
    cases c <;> simp [Capture.rule?]
  simp only [nested_eq, children_unstamped, repository_unstamped, captures_unstamped,
    injections_unstamped, CaptureTable.groups_unstamped, List.map_append, List.filterMap_map,
    List.flatMap_map, List.map_flatMap, List.map_filterMap, List.map_map, Function.comp_def, hnode,
    hcapture]

theorem owned_unstamped : r.unstamped.owned = r.owned.map unstamped := by
  induction r using nestedInduction with
  | step r ih =>
    rw [owned_eq, owned_eq, List.map_cons, nested_unstamped, List.flatMap_map, List.map_flatMap]
    exact congrArg _ (List.flatMap_congr ih)

theorem find?_unstamped (id : NodeId) : r.unstamped.find? id = (r.find? id).map unstamped := by
  have hid : (fun s : Rule => decide (s.id = id)) ∘ unstamped = fun s => decide (s.id = id) :=
    funext fun s => by rw [Function.comp_apply, id_unstamped]
  rw [find?, find?, owned_unstamped, List.find?_map, hid]

end Rule

theorem CaptureTable.get?_unstamped (t : CaptureTable) (i : Nat) :
    t.unstamped.get? i = (t.get? i).map Capture.unstamped := by
  rw [get?, get?, size_unstamped, groups_unstamped,
    Assoc.get?_map fun p : Nat × Capture => p.2.unstamped]
  split <;> rfl

namespace Snapshot

/-- What is alive, without stamps. -/
def unstamped (s : Snapshot) : Snapshot := ⟨s.held.map Rule.unstamped, s.tables.map Table.unstamped⟩

variable (s : Snapshot)

theorem rule?_unstamped (id : NodeId) :
    s.unstamped.rule? id = (s.rule? id).map Rule.unstamped := by
  rw [rule?, rule?, unstamped, List.findSome?_map, List.map_findSome?]
  exact congrArg (fun f => s.held.findSome? f) (funext fun r => r.find?_unstamped id)

theorem table?_unstamped (id : TableId) :
    s.unstamped.table? id = (s.table? id).map Table.unstamped := by
  rw [table?, table?, unstamped, List.find?_map]
  rfl

theorem link_unstamped (link : Option NodeId) :
    link.bind s.unstamped.rule? = (link.bind s.rule?).map Rule.unstamped := by
  cases link with
  | none => rfl
  | some id => exact s.rule?_unstamped id

theorem climb_unstamped (fuel : Nat) (r : Rule) :
    s.unstamped.climb fuel r.unstamped = (s.climb fuel r).map Rule.unstamped := by
  induction fuel generalizing r with
  | zero => rfl
  | succ fuel ih =>
    have hparent : s.unstamped.parent? r.unstamped = (s.parent? r).map Rule.unstamped := by
      rw [parent?, parent?, Rule.parent_unstamped, link_unstamped]
    rw [climb, climb, hparent]
    cases s.parent? r with
    | none => rfl
    | some p => exact congrArg (List.cons r.unstamped) (ih p)

theorem lineage_unstamped (r : Rule) :
    s.unstamped.lineage r.unstamped = (s.lineage r).map Rule.unstamped := by
  rw [lineage, lineage, Rule.id_unstamped, climb_unstamped]

theorem root_unstamped (r : Rule) : s.unstamped.root r.unstamped = (s.root r).unstamped := by
  rw [root, root, lineage_unstamped, List.getLast?_map]
  cases (s.lineage r).getLast? <;> rfl

theorem getD_map_unstamped (x : Option Node) :
    (x.map Node.unstamped).getD (.rule .empty) = (x.getD (.rule .empty)).unstamped := by
  cases x with
  | none => simp
  | some x => rfl

/-- A hop does not look at stamps. -/
theorem target_unstamped (p : Reference) :
    s.unstamped.target p.unstamped = (s.target p).unstamped := by
  cases p with
  | entry id anchor =>
    have hclimb : ∀ a : Rule,
        (s.unstamped.lineage a.unstamped).findSome? (fun r => r.entryAt? id)
          = ((s.lineage a).findSome? fun r => r.entryAt? id).map Node.unstamped := by
      intro a
      rw [lineage_unstamped, List.findSome?_map, List.map_findSome?]
      exact congrArg (fun f => (s.lineage a).findSome? f) (funext fun r => r.entryAt?_unstamped id)
    rw [Reference.unstamped, target_entry, target_entry, link_unstamped, ← getD_map_unstamped]
    cases anchor.bind s.rule? with
    | none => rfl
    | some a => exact congrArg (Option.getD · _) (hclimb a)
  | root anchor =>
    rw [Reference.unstamped, target_root, target_root, link_unstamped, ← getD_map_unstamped]
    cases anchor.bind s.rule? with
    | none => rfl
    | some a => simp [root_unstamped]
  | foreign table scope id anchor =>
    rw [Reference.unstamped, target_foreign, target_foreign, table?_unstamped, ← getD_map_unstamped]
    cases s.table? table with
    | none => rfl
    | some t =>
      have hlookup : t.unstamped.lookup scope.unstamped.text = (t.lookup scope.text).unstamped :=
        t.unstamped_lookup scope.text
      cases id with
      | none => simp [hlookup]
      | some id => simp [hlookup, Rule.entryAt?_unstamped, getD_map_unstamped]

theorem follow_unstamped (n : Nat) (x : Node) :
    s.unstamped.follow n x.unstamped = (s.follow n x).unstamped := by
  induction n generalizing x with
  | zero => rfl
  | succ n ih =>
    cases x with
    | rule r => simp [follow]
    | reference p =>
      rw [Node.unstamped_reference, follow, follow, target_unstamped]
      exact ih (s.target p)

theorem resolve_unstamped (x : Node) :
    s.unstamped.resolve x.unstamped = (s.resolve x).unstamped := by
  rw [resolve, resolve, follow_unstamped]
  cases s.follow maxHops x with
  | rule r => simp [Node.rule?]
  | reference p => simp [Node.rule?]

theorem parentOf?_unstamped (x : Node) :
    s.unstamped.parentOf? x.unstamped = (s.parentOf? x).map Rule.unstamped := by
  cases x with
  | rule r =>
    rw [Node.unstamped_rule, parentOf?, parentOf?, parent?, parent?, Rule.parent_unstamped]
    exact s.link_unstamped r.parent
  | reference p =>
    rw [Node.unstamped_reference, parentOf?, parentOf?, anchor?, anchor?, p.anchor_unstamped]
    exact s.link_unstamped p.anchor

/-- A step of a walk does not look at stamps. -/
theorem next?_unstamped (idOf : String → Option RuleId) (x : Node) (step : WalkStep) :
    s.unstamped.next? idOf x.unstamped step = (s.next? idOf x step).map Node.unstamped := by
  cases step with
  | child i => simp [next?, resolve_unstamped]
  | injection i => simp [next?, resolve_unstamped, Function.comp_def]
  | capture key i =>
    rw [next?, next?, resolve_unstamped]
    cases CaptureKey.ofSpelling? key with
    | none => rfl
    | some key =>
      rw [Option.bind_some, Option.bind_some, Rule.capture?_unstamped]
      cases (s.resolve x).capture? key with
      | none => rfl
      | some table =>
        rw [Option.map_some, Option.bind_some, Option.bind_some, CaptureTable.get?_unstamped]
        rcases table.get? i with _ | (text | r)
        · rfl
        · simp [Capture.rule?]
        · simp [Capture.rule?]
  | entryId id => rw [next?, next?, resolve_unstamped, Rule.entryAt?_unstamped]
  | entry name =>
    rw [next?, next?, resolve_unstamped]
    cases idOf name with
    | none => rfl
    | some id => exact (s.resolve x).entryAt?_unstamped id
  | parent =>
    rw [next?, next?, parentOf?_unstamped]
    cases s.parentOf? x <;> simp
  | root => simp [next?, resolve_unstamped, root_unstamped]
  | resolve => simp [next?, resolve_unstamped]

end Snapshot

end ScopeRules
