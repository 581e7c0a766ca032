/-
Rules built by hand. A recipe lists builder steps; carrying it out gives
the rule that the steps, one after the other, make. Nested rules are built
when their step comes up, and every rule takes its number before its steps
are carried out, so numbers grow inwards here as they do for documents.
-/
import ScopeRules.Table

namespace ScopeRules

mutual

/-- A rule to build: its scope, and the steps that build it. -/
inductive Recipe where
  | rule (scope : Option String) (steps : List RecipeStep)

inductive RecipeStep where
  | attribute (key : AttributeKey) (text : String)
  /-- Sets a capture table, or removes it. -/
  | captures (key : CaptureKey) (slots : Option (List RecipeSlot))
  | child (entry : RecipeEntry)
  | entry (name : String) (entry : RecipeEntry)
  | injection (selector : String) (recipe : Recipe)

/-- What a capture slot is filled with. -/
inductive RecipeSlot where
  | vacant
  | label (text : String)
  | rule (recipe : Recipe)

/-- What a child or entry is. References are anchored at the rule being
built unless they are detached. -/
inductive RecipeEntry where
  | entry (name : String) (detached : Bool)
  | root (detached : Bool)
  | empty
  /-- A node that is there already. -/
  | node (node : Node)
  | rule (recipe : Recipe)

end

instance : Inhabited Recipe := ⟨.rule none []⟩

/-- What building changes: the table, which gives out ids and numbers, and
the interner. -/
structure Workshop where
  table : Table
  interner : Interner

namespace Workshop

def symbol (w : Workshop) (text : String) : Symbol × Workshop :=
  let (symbol, interner) := w.interner.intern text
  (symbol, { w with interner := interner })

def symbol? (w : Workshop) : Option String → Option Symbol × Workshop
  | none => (none, w)
  | some text =>
    let (symbol, w) := w.symbol text
    (some symbol, w)

def ruleId (w : Workshop) (name : String) : RuleId × Workshop :=
  let (id, table) := w.table.ruleId name
  (id, { w with table := table })

/-- A rule without content, with the next number. -/
def unfilled (w : Workshop) (scope : Option Symbol) (parent : Option NodeId) : Rule × Workshop :=
  let serial := w.table.compiled + 1
  (.bare ⟨w.table.id, serial⟩ scope parent, { w with table := { w.table with compiled := serial } })

end Workshop

namespace Recipe

mutual

/-- Builds the rule of a recipe inside the rule `parent`. -/
def build (parent : Option NodeId) : Recipe → Workshop → Rule × Workshop
  | .rule scope steps, w =>
    let (scope, w) := w.symbol? scope
    let (r, w) := w.unfilled scope parent
    buildSteps steps r w

/-- Carries out steps on the rule `r`. -/
def buildSteps : List RecipeStep → Rule → Workshop → Rule × Workshop
  | [], r, w => (r, w)
  | step :: rest, r, w =>
    let (r, w) := buildStep step r w
    buildSteps rest r w

def buildStep : RecipeStep → Rule → Workshop → Rule × Workshop
  | .attribute key text, r, w =>
    let (symbol, w) := w.symbol text
    (r.setAttribute key symbol, w)
  | .captures key none, r, w => (r.setCaptures key none, w)
  | .captures key (some slots), r, w =>
    let (slots, w) := buildSlots slots r.id w
    (r.setCaptures key (some (.ofSlots slots)), w)
  | .child entry, r, w =>
    let (node, w) := buildEntry entry r.id w
    (r.addChild node, w)
  | .entry name entry, r, w =>
    let (id, w) := w.ruleId name
    let (node, w) := buildEntry entry r.id w
    (r.putEntry id node, w)
  | .injection selector recipe, r, w =>
    let (selector, w) := w.symbol selector
    let (built, w) := recipe.build (some r.id) w
    (r.addInjection selector built, w)

/-- Builds what fills the slots of a capture table of the rule `owner`. -/
def buildSlots : List RecipeSlot → NodeId → Workshop → List (Option Capture) × Workshop
  | [], _, w => ([], w)
  | slot :: rest, owner, w =>
    let (capture, w) := buildSlot slot owner w
    let (captures, w) := buildSlots rest owner w
    (capture :: captures, w)

def buildSlot : RecipeSlot → NodeId → Workshop → Option Capture × Workshop
  | .vacant, _, w => (none, w)
  | .label text, _, w =>
    let (symbol, w) := w.symbol text
    (some (.label symbol), w)
  | .rule recipe, owner, w =>
    let (built, w) := recipe.build (some owner) w
    (some (.rule built), w)

/-- Builds a child or entry of the rule `owner`. -/
def buildEntry : RecipeEntry → NodeId → Workshop → Node × Workshop
  | .entry name detached, owner, w =>
    let (id, w) := w.ruleId name
    (.reference (.entry id (if detached then none else some owner)), w)
  | .root detached, owner, w => (.reference (.root (if detached then none else some owner)), w)
  | .empty, _, w => (.rule .empty, w)
  | .node node, _, w => (node, w)
  | .rule recipe, owner, w =>
    let (built, w) := recipe.build (some owner) w
    (.rule built, w)

end

end Recipe

end ScopeRules
