/-
Which rule a scope is registered for. A document is compiled as a whole,
its rules are listed in document order, and those that declare a scope are
registered one after the other. This file sets two other compilers beside
that, and shows that both come to the same.

# The two other compilers

- `Outline.build` works through an outline once. On entering a rule with a
  scope it reserves a slot at the end of one list, and it fills the slot
  when the rule is complete, after everything nested in it. `build_eq` says
  that the slots come out in document order, and that none is left open.
- `Entering` reads the document itself and registers on the spot: a rule
  takes its number and its scope when it is entered, before anything nested
  in it, and later rules overwrite what is there (`enterEntries_eq`).

# What follows

`registry_add_eq_entering`: adding a document registers what registering on
entry would, so a scope answers with the last rule entered that declares it.
-/
import ScopeRules.Proofs.Pieces
import ScopeRules.Table

namespace ScopeRules

-- ======================================================== declarations

/-- The scope that a rule declares, with the rule. -/
def Rule.declaration? (r : Rule) : Option (String × Rule) :=
  r.scope.map fun scope => (scope.text, r)

@[simp] theorem Context.text_symbol (c : Context) (text : String) : (c.symbol text).text = text :=
  c.interner.text_intern text

/-- Filling an outline into a rule does not change the rule's scope. -/
theorem fill_scope (c : Context) (o : Outline) (next : Nat) (r : Rule) :
    (o.fill c next r).scope = r.scope := by
  induction o generalizing next r with
  | nothing => rfl
  | «attribute» key text rest ih => exact ih next _
  | unusable key rest ih => exact ih next r
  | label key index text rest ih => exact ih next _
  | reference place target rest ih =>
    rw [Outline.fill, ih]
    cases place <;> rfl
  | rule place scope body rest _ ih =>
    rw [Outline.fill, ih]
    cases place <;> rfl

/-- A rule that starts without content ends with the scope it started with. -/
theorem declaration?_fill (c : Context) (o : Outline) (next serial : Nat)
    (scope : Option String) (parent : Option NodeId) :
    (o.fill c next (c.unfilled serial scope parent)).declaration?
      = scope.map fun name => (name, o.fill c next (c.unfilled serial scope parent)) := by
  unfold Rule.declaration?
  rw [fill_scope]
  cases scope <;> simp [Context.unfilled, Rule.bare]

theorem Context.declaration?_rule (c : Context) (serial : Nat) (parent : Option NodeId)
    (d : Document) :
    (c.rule serial parent d).declaration?
      = (Outline.scopeOf d).map fun name => (name, c.rule serial parent d) :=
  declaration?_fill c _ _ _ _ _

-- ================================================== slots, then rules

/-- The scopes of the rules entered so far, in the order of entry, each
with its rule once that is complete. -/
abbrev Slots := List (String × Option Rule)

namespace Slots

/-- Reserves a slot for a rule that declares a scope, and says which. -/
def reserve (slots : Slots) : Option String → Slots × Option Nat
  | none => (slots, none)
  | some scope => (slots ++ [(scope, none)], some slots.length)

/-- Fills the slot that was reserved for a rule, if there was one. -/
def fill (slots : Slots) (slot : Option Nat) (r : Rule) : Slots :=
  match slot with
  | none => slots
  | some i => slots.modify i fun p => (p.1, some r)

/-- The slots of rules that are complete. -/
def ofRules (rules : List Rule) : Slots :=
  (rules.filterMap Rule.declaration?).map fun p => (p.1, some p.2)

theorem ofRules_append (a b : List Rule) : ofRules (a ++ b) = ofRules a ++ ofRules b := by
  simp [ofRules]

theorem ofRules_cons (r : Rule) (rest : List Rule) :
    ofRules (r :: rest) = ofRules [r] ++ ofRules rest := ofRules_append [r] rest

/-- A slot that is filled when others have come after it is the one that
was reserved. -/
theorem fill_reserve (slots later : Slots) (scope : Option String) (r : Rule)
    (hscope : r.declaration? = scope.map fun scope => (scope, r)) :
    fill ((slots.reserve scope).1 ++ later) (slots.reserve scope).2 r
      = slots ++ (ofRules [r] ++ later) := by
  cases scope with
  | none => simp [reserve, fill, ofRules, hscope]
  | some scope => simp [reserve, fill, ofRules, hscope, List.modify_eq_take_drop]

end Slots

/-- Adds the content of an outline to the rule `r`, as `fill` does, with a
slot for every nested rule that declares a scope. -/
def Outline.build (c : Context) (next : Nat) (r : Rule) (slots : Slots) : Outline → Rule × Slots
  | .nothing => (r, slots)
  | .attribute key text rest => rest.build c next (r.setAttribute key (c.symbol text)) slots
  | .unusable _ rest => rest.build c next r slots
  | .label key index text rest =>
    rest.build c next (r.setCapture key index (.label (c.symbol text))) slots
  | .reference place target rest =>
    rest.build c next (c.placeReference r place (c.reference r.id target)) slots
  | .rule place scope body rest =>
    let reserved := slots.reserve scope
    let nested := body.build c (next + 1) (c.unfilled next scope (some r.id)) reserved.1
    rest.build c (next + 1 + body.count) (c.placeRule r place nested.1)
      (Slots.fill nested.2 reserved.2 nested.1)

/-- Compiles a document with slots: the root, and the slots at the end. -/
def Grammar.build (c : Context) (next : Nat) (d : Document) : Rule × Slots :=
  let reserved := Slots.reserve [] (Outline.scopeOf d)
  let root := (Outline.ofDocument d).build c (next + 1)
    (c.unfilled next (Outline.scopeOf d) none) reserved.1
  (root.1, Slots.fill root.2 reserved.2 root.1)

/-- Compiling with slots gives the same rule, and one slot for every rule of
the outline that declares a scope, in document order, each of them filled. -/
theorem Outline.build_eq (c : Context) (o : Outline) (next : Nat) (r : Rule) (slots : Slots) :
    o.build c next r slots = (o.fill c next r, slots ++ Slots.ofRules (o.rules c next r.id)) := by
  induction o generalizing next r slots with
  | nothing => simp [Outline.build, Outline.fill, Outline.rules, Slots.ofRules]
  | «attribute» key text rest ih => exact ih next _ slots
  | unusable key rest ih => exact ih next r slots
  | label key index text rest ih => exact ih next _ slots
  | reference place target rest ih =>
    have hid : (c.placeReference r place (c.reference r.id target)).id = r.id := by
      cases place <;> rfl
    rw [Outline.build, ih, hid]
    rfl
  | rule place scope body rest ihbody ih =>
    -- by now the slots of what is nested stand behind the one to be filled
    have hid : ∀ nested, (c.placeRule r place nested).id = r.id := by
      intro nested
      cases place <;> rfl
    have hfill := Slots.fill_reserve slots
      (Slots.ofRules (body.rules c (next + 1) ⟨c.table, next⟩)) scope _
      (declaration?_fill c body (next + 1) next scope (some r.id))
    simp only [Outline.build, ihbody, ih, hid, Outline.fill, Outline.rules]
    rw [Slots.ofRules_cons, Slots.ofRules_append, ← List.append_assoc, ← List.append_assoc,
      List.append_assoc slots]
    refine congrArg (Prod.mk _) (congrArg (· ++ _) ?_)
    exact hfill

/-- The rules of a compiled document: the root, and those below it. -/
theorem Grammar.rules_compile (c : Context) (next : Nat) (d : Document) :
    (Grammar.compile c next d).rules
      = c.rule next none d :: (Outline.ofDocument d).rules c (next + 1) ⟨c.table, next⟩ := by
  rw [← c.rule_id next none d]
  rfl

/-- Compiling a document with slots leaves none of them open. -/
theorem Grammar.build_eq (c : Context) (next : Nat) (d : Document) :
    Grammar.build c next d = ((Grammar.compile c next d).root,
      (Grammar.compile c next d).declarations.map fun p => (p.1, some p.2)) := by
  have hfill := Slots.fill_reserve []
    (Slots.ofRules ((Outline.ofDocument d).rules c (next + 1) ⟨c.table, next⟩)) (Outline.scopeOf d)
    _ (declaration?_fill c (Outline.ofDocument d) (next + 1) next (Outline.scopeOf d) none)
  have hslots : (Grammar.compile c next d).declarations.map (fun p => (p.1, some p.2))
      = Slots.ofRules (Grammar.compile c next d).rules := rfl
  unfold Grammar.build
  rw [hslots, rules_compile, Slots.ofRules_cons]
  simp only [Outline.build_eq]
  exact congrArg (Prod.mk _) hfill

-- ============================================ registering on entry

/-- How far a compiler that registers on entry has come: the number of the
next rule, the registry, and the rules entered, each with its dictionary. -/
structure Entering where
  next : Nat
  registry : Registry
  entered : List (Rule × Document)

namespace Entering

variable (c : Context) (root : Rule)

/-- Enters the rule of the dictionary `d` inside the rule `parent`: it takes
the next number, and the scope that it declares, whatever had that. -/
def enter (e : Entering) (parent : Option NodeId) (d : Document) : Entering :=
  let r := c.rule e.next parent d
  { next := e.next + 1
    registry := match Outline.scopeOf d with
      | some scope => e.registry.register root scope r
      | none => e.registry
    entered := e.entered ++ [(r, d)] }

mutual

/-- Goes through the dictionary of the rule `owner`, entry by entry. -/
def throughEntries (owner : NodeId) : List (String × Value) → Entering → Entering
  | [], e => e
  | (key, value) :: more, e => throughEntries owner more (throughEntry owner key value e)

def throughEntry (owner : NodeId) (key : String) (value : Value) (e : Entering) : Entering :=
  match RuleKey.ofSpelling key, value with
  | .captures key, .dict groups => throughGroups owner key groups e
  | .structural .patterns, .array items => throughItems owner items e
  | .structural .repository, .dict entries => throughNamed owner .entry entries e
  | .structural .injections, .dict entries => throughNamed owner .injection entries e
  | _, _ => e

def throughItems (owner : NodeId) : List Value → Entering → Entering
  | [], e => e
  | item :: more, e => throughItems owner more (throughNested owner .child item e)

/-- Goes through a dictionary whose keys say where its values belong. -/
def throughNamed (owner : NodeId) (place : String → Place) :
    List (String × Value) → Entering → Entering
  | [], e => e
  | (name, value) :: more, e =>
    throughNamed owner place more (throughNested owner (place name) value e)

/-- Goes through a capture dictionary. A key that denotes no group, and an
entry with a string name, make no rule. -/
def throughGroups (owner : NodeId) (key : CaptureKey) :
    List (String × Value) → Entering → Entering
  | [], e => e
  | (group, value) :: more, e =>
    match Vocabulary.captureIndex? group with
    | none => throughGroups owner key more e
    | some index =>
      if ((value.dict?.getD []).getString? Vocabulary.labelKey).isSome then
        throughGroups owner key more e
      else throughGroups owner key more (throughNested owner (.capture key index) value e)

/-- Enters a dictionary that is a rule, and then goes through it; what is a
reference is passed by. -/
def throughNested (owner : NodeId) (place : Place) (value : Value) (e : Entering) : Entering :=
  match value with
  | .dict source =>
    if place.refers source then e
    else throughEntries ⟨c.table, e.next⟩ source (e.enter c root (some owner) source)
  | _ => e

end

/-- Compiles a document into a registry, registering on entry. The root is
entered whatever its keys are. -/
def document (next : Nat) (registry : Registry) (d : Document) : Entering :=
  throughEntries c root ⟨c.table, next⟩ d (enter c root ⟨next, registry, []⟩ none d)

-- ==================================================== clause by clause

/-- What a clause does to a compiler that registers on entry. -/
def throughClause (owner : NodeId) (e : Entering) : Clause → Entering
  | .nested place source => throughNested c root owner place (.dict source) e
  | _ => e

theorem throughItems_eq (owner : NodeId) (items : List Value) (e : Entering) :
    throughItems c root owner items e
      = (items.filterMap fun item => item.dict?.map (.nested .child)).foldl
          (throughClause c root owner) e := by
  induction items generalizing e with
  | nil => simp [throughItems]
  | cons item more ih =>
    cases item <;> simp [throughItems, throughNested, throughClause, Value.dict?, ih]

theorem throughNamed_eq (owner : NodeId) (place : String → Place)
    (entries : List (String × Value)) (e : Entering) :
    throughNamed c root owner place entries e
      = (entries.filterMap fun p => p.2.dict?.map (.nested (place p.1))).foldl
          (throughClause c root owner) e := by
  induction entries generalizing e with
  | nil => simp [throughNamed]
  | cons p more ih =>
    obtain ⟨name, value⟩ := p
    cases value <;> simp [throughNamed, throughNested, throughClause, Value.dict?, ih]

theorem throughGroups_eq (owner : NodeId) (key : CaptureKey) (groups : List (String × Value))
    (e : Entering) :
    throughGroups c root owner key groups e
      = (groups.filterMap (Clause.ofGroup? key)).foldl (throughClause c root owner) e := by
  induction groups generalizing e with
  | nil => simp [throughGroups]
  | cons p more ih =>
    obtain ⟨group, value⟩ := p
    rw [throughGroups, List.filterMap_cons, Clause.ofGroup?]
    cases hindex : Vocabulary.captureIndex? group with
    | none => simp [ih, throughClause]
    | some index =>
      cases value with
      | dict source =>
        cases hlabel : Document.getString? source Vocabulary.labelKey <;>
          simp [Value.dict?, hlabel, ih, throughClause]
      | _ => simp [Value.dict?, Document.getString?, throughNested, ih]

theorem throughEntry_eq (owner : NodeId) (key : String) (value : Value) (e : Entering) :
    throughEntry c root owner key value e
      = (Clause.ofEntry (key, value)).foldl (throughClause c root owner) e := by
  unfold throughEntry Clause.ofEntry
  cases hkey : RuleKey.ofSpelling key with
  | «attribute» a => cases value <;> rfl
  | captures key => cases value <;> simp [throughGroups_eq]
  | structural s => cases s <;> cases value <;> simp [throughItems_eq, throughNamed_eq]
  | unknown => rfl

/-- Going through a dictionary is going through its clauses. -/
theorem throughEntries_eq (owner : NodeId) (d : Document) (e : Entering) :
    throughEntries c root owner d e = d.clauses.foldl (throughClause c root owner) e := by
  induction d generalizing e with
  | nil => simp [throughEntries, Document.clauses]
  | cons p more ih =>
    obtain ⟨key, value⟩ := p
    rw [throughEntries, ih, throughEntry_eq, ← List.foldl_append]
    rfl

-- ============================================= what entering comes to

/-- Whether the rules entered so far were compiled from their dictionaries,
and are what the registry was changed by. -/
structure Orderly (registry : Registry) (e : Entering) : Prop where
  compiled : ∀ p ∈ e.entered, p.1 = c.rule p.1.id.serial p.1.parent p.2
  registered : e.registry
    = registry.publish root (e.entered.filterMap fun p => p.1.declaration?)

/-- Whether exactly these rules were entered on the way from `e` to `after`. -/
structure Enters (e after : Entering) (rules : List Rule) : Prop where
  next : after.next = e.next + rules.length
  entered : after.entered.map Prod.fst = e.entered.map Prod.fst ++ rules
  orderly : ∀ registry, Orderly c root registry e → Orderly c root registry after

variable {c root}

theorem enters_self (e : Entering) : Enters c root e e [] where
  next := rfl
  entered := by simp
  orderly := fun _ h => h

theorem Enters.trans {e f g : Entering} {rules more : List Rule} (h : Enters c root e f rules)
    (h' : Enters c root f g more) : Enters c root e g (rules ++ more) where
  next := by
    have hf := h.next
    have hg := h'.next
    rw [List.length_append]
    omega
  entered := by rw [h'.entered, h.entered, List.append_assoc]
  orderly := fun registry horderly => h'.orderly registry (h.orderly registry horderly)

theorem enters_enter (e : Entering) (parent : Option NodeId) (d : Document) :
    Enters c root e (e.enter c root parent d) [c.rule e.next parent d] where
  next := rfl
  entered := by simp [enter]
  orderly := by
    intro registry h
    refine ⟨?_, ?_⟩
    · intro p hp
      rcases List.mem_append.1 hp with hp | hp
      · exact h.compiled p hp
      · rw [List.mem_singleton.1 hp, c.rule_id, c.rule_parent]
    · simp only [enter, List.filterMap_append, List.filterMap_cons, List.filterMap_nil,
        c.declaration?_rule, h.registered]
      unfold Registry.publish
      rw [List.foldl_append]
      cases Outline.scopeOf d <;> rfl

/-- Going through clauses enters the rules of their pieces, if going through
each nested dictionary enters the rules of that. -/
theorem enters_foldl_throughClause (owner : NodeId) (clauses : List Clause) (e : Entering)
    (hnested : ∀ place source, .nested place source ∈ clauses → place.refers source = false →
      ∀ owner e, Enters c root e (throughEntries c root owner source e)
        ((Outline.ofDocument source).rules c e.next owner)) :
    Enters c root e (clauses.foldl (throughClause c root owner) e)
      ((c.pieces owner e.next clauses).flatMap (Piece.rules c)) := by
  induction clauses generalizing e with
  | nil => exact enters_self e
  | cons clause more ih =>
    have hmore := fun e => ih e fun place source h => hnested place source (.tail _ h)
    rw [List.foldl_cons]
    cases clause with
    | nested place source =>
      cases hrefers : place.refers source with
      | true =>
        simp only [throughClause, throughNested, Context.pieces, hrefers, if_true]
        exact hmore e
      | false =>
        have hbelow := hnested place source (.head _) hrefers ⟨c.table, e.next⟩
          (e.enter c root (some owner) source)
        have hnext : (throughEntries c root ⟨c.table, e.next⟩ source
            (e.enter c root (some owner) source)).next
              = e.next + 1 + (Outline.ofDocument source).count := by
          rw [hbelow.next, length_rules]
          rfl
        have hall := ((enters_enter e (some owner) source).trans hbelow).trans (hmore _)
        rw [hnext] at hall
        simp only [throughClause, throughNested, Context.pieces, hrefers, Bool.false_eq_true,
          if_false, List.flatMap_cons, Piece.rules, c.rule_id]
        exact hall
    | _ => exact hmore e

/-- Going through a dictionary enters the rules below its own, in document
order. The nested dictionaries make fewer rules, which is what the
induction is on. -/
theorem enters_throughEntries (owner : NodeId) (d : Document) (e : Entering) :
    Enters c root e (throughEntries c root owner d e)
      ((Outline.ofDocument d).rules c e.next owner) := by
  generalize hcount : (Outline.ofDocument d).count = count
  induction count using Nat.strongRecOn generalizing owner d e with
  | ind count ih =>
    rw [throughEntries_eq, ofDocument_eq_foldr, rules_foldr_onto]
    refine enters_foldl_throughClause owner d.clauses e fun place source hmem hrefers => ?_
    have hfewer := Clause.count_lt_of_mem hmem hrefers
    rw [← count_ofDocument, hcount] at hfewer
    exact fun owner e => ih _ hfewer owner source e rfl

/-- Registering on entry enters the rules of the compiled document, the root
first, and registers them in that order. -/
theorem enters_document (next : Nat) (registry : Registry) (d : Document) :
    Enters c root ⟨next, registry, []⟩ (document c root next registry d)
      (Grammar.compile c next d).rules := by
  rw [Grammar.rules_compile]
  exact (enters_enter _ none d).trans (enters_throughEntries ⟨c.table, next⟩ d _)

end Entering

-- ============================================== the last one entered

/-- After registering rules, a scope has the last one of them that declares
it, or what it had before. -/
theorem Registry.get?_publish (registry : Registry) (root : Rule) (rules : List (String × Rule))
    (scope : String) :
    (registry.publish root rules).get? scope
      = (((rules.filter fun p => p.1 = scope).getLast?).map fun p => ⟨p.2, root⟩).or
          (registry.get? scope) := by
  induction rules generalizing registry with
  | nil => rfl
  | cons p more ih =>
    obtain ⟨name, node⟩ := p
    show ((registry.register root name node).publish root more).get? scope = _
    rw [ih, Registry.register, Assoc.get?_putSorted]
    by_cases hname : name = scope
    · cases hlast : (more.filter fun p => p.1 = scope).getLast? <;>
        simp [hname, hlast, List.getLast?_cons]
    · simp [hname]

/-- Rules that were compiled from their dictionaries declare the scopes of
these. -/
theorem filter_declaration? {c : Context} {entered : List (Rule × Document)}
    (hentered : ∀ p ∈ entered, p.1 = c.rule p.1.id.serial p.1.parent p.2) (scope : String) :
    (entered.filterMap fun p => p.1.declaration?).filter (fun p => p.1 = scope)
      = (entered.filter fun p => Outline.scopeOf p.2 = some scope).map fun p => (scope, p.1) := by
  induction entered with
  | nil => rfl
  | cons p more ih =>
    obtain ⟨hp, hmore⟩ := List.forall_mem_cons.1 hentered
    have hdeclares : p.1.declaration? = (Outline.scopeOf p.2).map fun name => (name, p.1) := by
      have hrule := c.declaration?_rule p.1.id.serial p.1.parent p.2
      rwa [← hp] at hrule
    rw [List.filterMap_cons, hdeclares]
    cases hscope : Outline.scopeOf p.2 with
    | none => simpa [hscope] using ih hmore
    | some name => by_cases hname : name = scope <;> simp [hscope, hname, ih hmore]

/-- Adding a document registers what a compiler does that goes through it in
document order and, on entering a rule, overwrites what the scope of that
rule has. So all rules of the document are entered, each compiled from its
dictionary; a scope has the last rule entered that declares it, or what it
had before; a compiler with slots leaves none of them open; and the scope
that is answered is the root's own, whatever is registered for it. -/
theorem Table.registry_add_eq_entering (t : Table) (i : Interner) (d : Document) :
    let c := t.contextFor i d
    let root := (t.compile i d).root
    let done := Entering.document c root (t.compiled + 1) t.registry d
    (t.add i d).table.registry = done.registry
      ∧ done.entered.map Prod.fst = (t.compile i d).rules
      ∧ (∀ p ∈ done.entered, p.1 = c.rule p.1.id.serial p.1.parent p.2)
      ∧ (∀ scope, (t.add i d).table.lookup scope
          = ((done.entered.filter fun p => Outline.scopeOf p.2 = some scope).getLast?.map
              Prod.fst).getD (t.lookup scope))
      ∧ Grammar.build c (t.compiled + 1) d
          = (root, (t.compile i d).declarations.map fun p => (p.1, some p.2))
      ∧ (t.add i d).scope.map Symbol.text = Outline.scopeOf d := by
  intro c root done
  have henters : Entering.Enters c root ⟨t.compiled + 1, t.registry, []⟩ done
      (t.compile i d).rules := Entering.enters_document _ _ _
  have hentered : done.entered.map Prod.fst = (t.compile i d).rules := henters.entered
  obtain ⟨hcompiled, hregistered⟩ := henters.orderly t.registry ⟨by simp, rfl⟩
  have hdeclared : (t.compile i d).declarations
      = done.entered.filterMap fun p => p.1.declaration? := by
    show (t.compile i d).rules.filterMap Rule.declaration? = _
    rw [← hentered, List.filterMap_map]
    rfl
  have hregistry : (t.add i d).table.registry = done.registry := by
    rw [hregistered, ← hdeclared]
    rfl
  refine ⟨hregistry, hentered, hcompiled, ?_, Grammar.build_eq _ _ _, ?_⟩
  · intro scope
    unfold Table.lookup
    rw [hregistry, hregistered, Registry.get?_publish, filter_declaration? hcompiled,
      List.getLast?_map]
    cases (done.entered.filter fun p => Outline.scopeOf p.2 = some scope).getLast? <;> rfl
  · have hscope : (t.add i d).scope = (Outline.scopeOf d).map c.symbol :=
      fill_scope c (Outline.ofDocument d) _ _
    rw [hscope]
    cases Outline.scopeOf d <;> simp

/-- A child that declares the root's scope takes it, and the scope that is
answered is the root's all the same. -/
example :
    let added := (Table.new ⟨1⟩).add .empty [("scopeName", .string "r"),
      ("patterns", .array [.dict [("scopeName", .string "r")]])]
    (added.table.lookup "r").id = ⟨⟨1⟩, 2⟩ ∧ added.scope.map Symbol.text = some "r" := by
  decide

end ScopeRules
