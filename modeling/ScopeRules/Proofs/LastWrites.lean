/-
A rule under construction keeps what was written last. What a builder is told
comes in any order and any number of times (`Rule.Write`); the rule that comes
of it has for each key and each id what was written under it last, and its
children and injections as they came (`Rule.Records`).

# Three ways of writing, one way of reading

An attribute is replaced where it stands, a capture table is taken out and put
at the end, and an entry goes to the place that its id has in the order of ids.
A look-up takes the first pair with a key. All that it has to know of a way of
writing is that it changes the answer for one key and for no other; then the
last write decides (`Assoc.get?_foldl_store`).

# Kinds of writing

Each container is a fold over the writes of its own kind (`field_writeAll`), so
writes of other kinds, in whatever number and between whichever, leave it as it
is. Rules that are built by hand from a recipe are rules of this sort, each
step of the recipe being one write (`Recipe.exists_build_eq_writeAll`).
-/
import Mathlib.Data.List.Forall2
import ScopeRules.Proofs.Dictionaries
import ScopeRules.Recipe

namespace ScopeRules

namespace Rule

-- =============================================================== writes

/-- One thing that is written into a rule under construction. -/
inductive Write where
  | attribute (key : AttributeKey) (value : Symbol)
  /-- Sets a capture table, or removes it. -/
  | captures (key : CaptureKey) (table : Option CaptureTable)
  | child (node : Node)
  | entry (id : RuleId) (node : Node)
  | injection (selector : Symbol) (rule : Rule)

namespace Write

def attribute? : Write → Option (AttributeKey × Symbol)
  | .attribute key value => some (key, value)
  | _ => none

def captures? : Write → Option (CaptureKey × Option CaptureTable)
  | .captures key table => some (key, table)
  | _ => none

def child? : Write → Option Node
  | .child node => some node
  | _ => none

def entry? : Write → Option (RuleId × Node)
  | .entry id node => some (id, node)
  | _ => none

def injection? : Write → Option (Symbol × Rule)
  | .injection selector rule => some (selector, rule)
  | _ => none

end Write

/-- The rule with one thing more. -/
def write (r : Rule) : Write → Rule
  | .attribute key value => r.setAttribute key value
  | .captures key table => r.setCaptures key table
  | .child node => r.addChild node
  | .entry id node => r.putEntry id node
  | .injection selector rule => r.addInjection selector rule

/-- The rule after some writes, one after the other. -/
def writeAll (r : Rule) (writes : List Write) : Rule := writes.foldl write r

/-- The capture tables after one is set or removed. -/
def setTable (tables : Assoc CaptureKey CaptureTable) (key : CaptureKey)
    (table : Option CaptureTable) : Assoc CaptureKey CaptureTable :=
  tables.erase key ++ (table.map fun t => (key, t)).toList

-- ===================================================== field by field

/-- What a single write does to a field, all writes do, if one that is of
another kind leaves the field alone. -/
theorem field_writeAll {β γ : Type} {field : Rule → β} {part? : Write → Option γ}
    {add : β → γ → β} (hwrite : ∀ r w, field (write r w) = (part? w).toList.foldl add (field r))
    (r : Rule) (writes : List Write) :
    field (r.writeAll writes) = (writes.filterMap part?).foldl add (field r) := by
  induction writes generalizing r with
  | nil => rfl
  | cons w rest ih =>
    show field ((r.write w).writeAll rest) = _
    rw [ih, hwrite, List.filterMap_cons]
    cases part? w <;> rfl

theorem attributes_writeAll (r : Rule) (writes : List Write) :
    (r.writeAll writes).attributes
      = (writes.filterMap Write.attribute?).foldl
          (fun d p => Assoc.put d p.1 p.2) r.attributes := by
  apply field_writeAll
  intro r w
  cases w <;> rfl

theorem captures_writeAll (r : Rule) (writes : List Write) :
    (r.writeAll writes).captures
      = (writes.filterMap Write.captures?).foldl (fun d p => setTable d p.1 p.2) r.captures := by
  apply field_writeAll
  intro r w
  cases w <;> rfl

theorem repository_writeAll (r : Rule) (writes : List Write) :
    (r.writeAll writes).repository
      = (writes.filterMap Write.entry?).foldl
          (fun d p => Assoc.putSorted RuleId.before d p.1 p.2) r.repository := by
  apply field_writeAll
  intro r w
  cases w <;> rfl

/-- Appending things one after the other appends them all. -/
theorem foldl_append_singleton {α : Type} (front items : List α) :
    items.foldl (fun l x => l ++ [x]) front = front ++ items := by
  induction items generalizing front with
  | nil => exact (List.append_nil _).symm
  | cons x rest ih => rw [List.foldl_cons, ih, List.append_assoc, List.singleton_append]

theorem children_writeAll (r : Rule) (writes : List Write) :
    (r.writeAll writes).children = r.children ++ writes.filterMap Write.child? := by
  rw [← foldl_append_singleton]
  apply field_writeAll
  intro r w
  cases w <;> rfl

theorem injections_writeAll (r : Rule) (writes : List Write) :
    (r.writeAll writes).injections = r.injections ++ writes.filterMap Write.injection? := by
  rw [← foldl_append_singleton]
  apply field_writeAll
  intro r w
  cases w <;> rfl

/-- Writing changes neither who a rule is nor where it stands. -/
theorem identity_writeAll (r : Rule) (writes : List Write) :
    (r.writeAll writes).id = r.id ∧ (r.writeAll writes).scope = r.scope
      ∧ (r.writeAll writes).parent = r.parent := by
  induction writes generalizing r with
  | nil => exact ⟨rfl, rfl, rfl⟩
  | cons w rest ih =>
    have hwrite : (r.write w).id = r.id ∧ (r.write w).scope = r.scope
        ∧ (r.write w).parent = r.parent := by
      cases w <;> exact ⟨rfl, rfl, rfl⟩
    obtain ⟨hid, hscope, hparent⟩ := ih (r.write w)
    exact ⟨hid.trans hwrite.1, hscope.trans hwrite.2.1, hparent.trans hwrite.2.2⟩

-- ======================================================= capture tables

/-- Setting or removing a table changes the answer for its key only. -/
theorem get?_setTable (tables : Assoc CaptureKey CaptureTable) (key other : CaptureKey)
    (table : Option CaptureTable) :
    Assoc.get? (setTable tables key table) other
      = if key = other then table else Assoc.get? tables other := by
  have happend : ∀ (d e : Assoc CaptureKey CaptureTable),
      Assoc.get? (d ++ e) other = (Assoc.get? d other).or (Assoc.get? e other) := by
    intro d e
    induction d with
    | nil => rfl
    | cons p rest ih =>
      obtain ⟨j, w⟩ := p
      by_cases hj : j = other
      · simp [Assoc.get?, hj]
      · simpa [Assoc.get?, hj] using ih
  unfold setTable
  rw [happend, Assoc.get?_erase]
  by_cases hkey : key = other
  · cases table <;> simp [Assoc.get?, hkey]
  · cases table <;> simp [Assoc.get?, hkey]

theorem setTable_distinct {tables : Assoc CaptureKey CaptureTable} (h : tables.Distinct)
    (key : CaptureKey) (table : Option CaptureTable) : (setTable tables key table).Distinct := by
  have herased : ¬ key ∈ (tables.erase key).keys := by
    rw [Assoc.mem_keys_iff_has, Assoc.has, Assoc.get?_erase, if_pos rfl]
    exact Bool.false_ne_true
  unfold setTable
  cases table with
  | none =>
    rw [Option.map_none, Option.toList_none, List.append_nil]
    exact Assoc.erase_distinct h key
  | some t =>
    show (List.map Prod.fst (tables.erase key ++ [(key, t)])).Nodup
    rw [List.map_append]
    refine List.nodup_append.2 ⟨Assoc.erase_distinct h key, by simp, ?_⟩
    intro k hk j hj heq
    obtain rfl : j = key := List.mem_singleton.1 hj
    exact herased (heq ▸ hk)

-- =============================================================== records

/-- Whether a rule is the record of these writes: it answers each key and each
id with what was written under it last, has each at most once, and lists its
attributes in the order in which their keys first came, and its children and
injections in the order in which they came. -/
structure Records (r : Rule) (writes : List Write) : Prop where
  attribute? : ∀ key, r.attribute? key = Assoc.last? (writes.filterMap Write.attribute?) key
  attributeKeys : Assoc.keys r.attributes
    = ((writes.filterMap Write.attribute?).map Prod.fst).eraseDups
  attributes : Assoc.Distinct r.attributes
  /-- There is no table if the last write removed it. -/
  capture? : ∀ key, r.capture? key = (Assoc.last? (writes.filterMap Write.captures?) key).join
  captures : Assoc.Distinct r.captures
  entryAt? : ∀ id, r.entryAt? id = Assoc.last? (writes.filterMap Write.entry?) id
  repository : Assoc.Distinct r.repository
  children : r.children = writes.filterMap Write.child?
  injections : r.injections = writes.filterMap Write.injection?

variable (id : NodeId) (scope : Option Symbol) (parent : Option NodeId)

theorem captures_writeAll_distinct (writes : List Write) :
    Assoc.Distinct ((bare id scope parent).writeAll writes).captures := by
  rw [captures_writeAll]
  generalize writes.filterMap Write.captures? = settings
  induction settings using List.reverseRecOn with
  | nil => exact List.nodup_nil
  | append_singleton settings p ih =>
    rw [List.foldl_append]
    exact setTable_distinct ih p.1 p.2

theorem repository_writeAll_sorted (writes : List Write) :
    Assoc.Sorted RuleId.before ((bare id scope parent).writeAll writes).repository := by
  rw [repository_writeAll]
  generalize writes.filterMap Write.entry? = entries
  induction entries using List.reverseRecOn with
  | nil => exact List.Pairwise.nil
  | append_singleton entries p ih =>
    rw [List.foldl_append]
    exact Assoc.putSorted_sorted RuleId.before_strictOrder ih p.1 p.2

theorem records_writeAll (writes : List Write) :
    ((bare id scope parent).writeAll writes).Records writes where
  attribute? key := by
    rw [Rule.attribute?, attributes_writeAll]
    exact Assoc.get?_ofPairs _ key
  attributeKeys := by
    rw [attributes_writeAll]
    exact Assoc.keys_ofPairs _
  attributes := by
    rw [attributes_writeAll]
    exact Assoc.ofPairs_distinct _
  capture? key := by
    rw [Rule.capture?, captures_writeAll,
      Assoc.get?_foldl_store setTable fun d k v j => get?_setTable d k j v]
    cases Assoc.last? (writes.filterMap Write.captures?) key <;> rfl
  captures := captures_writeAll_distinct id scope parent writes
  entryAt? key := by
    rw [Rule.entryAt?, repository_writeAll,
      Assoc.get?_foldl_store (Assoc.putSorted RuleId.before)
        fun d k v j => Assoc.get?_putSorted RuleId.before d k j v]
    cases Assoc.last? (writes.filterMap Write.entry?) key <;> rfl
  repository :=
    (repository_writeAll_sorted id scope parent writes).distinct RuleId.before_strictOrder
  children := children_writeAll _ writes
  injections := injections_writeAll _ writes

/-- Whether two rules have the same in each container of which they were told
the same. -/
structure AlikeByKind (r s : Rule) (writes others : List Write) : Prop where
  attributes : writes.filterMap Write.attribute? = others.filterMap Write.attribute? →
    r.attributes = s.attributes
  captures : writes.filterMap Write.captures? = others.filterMap Write.captures? →
    r.captures = s.captures
  repository : writes.filterMap Write.entry? = others.filterMap Write.entry? →
    r.repository = s.repository
  children : writes.filterMap Write.child? = others.filterMap Write.child? →
    r.children = s.children
  injections : writes.filterMap Write.injection? = others.filterMap Write.injection? →
    r.injections = s.injections

theorem alikeByKind_writeAll (r : Rule) (writes others : List Write) :
    AlikeByKind (r.writeAll writes) (r.writeAll others) writes others where
  attributes h := by rw [attributes_writeAll, attributes_writeAll, h]
  captures h := by rw [captures_writeAll, captures_writeAll, h]
  repository h := by rw [repository_writeAll, repository_writeAll, h]
  children h := by rw [children_writeAll, children_writeAll, h]
  injections h := by rw [injections_writeAll, injections_writeAll, h]

/-- A rule that is built by any writes in any order is the record of them, with
the identity, scope and parent that it was begun with. What was written of one
kind settles what the rule has of that kind: other writes, of other kinds or
between, make no difference to it. -/
theorem last_writes_kept (writes : List Write) :
    let r := (bare id scope parent).writeAll writes
    (r.id = id ∧ r.scope = scope ∧ r.parent = parent)
      ∧ r.Records writes
      ∧ ∀ others, AlikeByKind r ((bare id scope parent).writeAll others) writes others :=
  ⟨identity_writeAll _ writes, records_writeAll id scope parent writes,
    alikeByKind_writeAll _ writes⟩

/-- An attribute set twice keeps its place, and a table that is removed is gone. -/
example :
    let r := (bare .empty none none).writeAll
      [.attribute .name ⟨"a", 0⟩, .captures .captures (some ⟨2, []⟩),
        .attribute .matchPattern ⟨"b", 1⟩, .captures .captures none, .child (.rule .empty),
        .attribute .name ⟨"c", 2⟩]
    r.attributes = [(.name, ⟨"c", 2⟩), (.matchPattern, ⟨"b", 1⟩)] ∧ r.captures = [] := by
  exact ⟨rfl, rfl⟩

end Rule

-- ======================================================= rules by hand

/-- What a slot of a recipe is filled with. -/
inductive RecipeSlot.Fills : RecipeSlot → Option Capture → Prop where
  | vacant : Fills .vacant none
  | label (s : Symbol) : Fills (.label s.text) (some (.label s))
  | rule (recipe : Recipe) (r : Rule) : Fills (.rule recipe) (some (.rule r))

/-- What a step of a recipe writes. -/
inductive RecipeStep.Tells : RecipeStep → Rule.Write → Prop where
  | attribute (key : AttributeKey) (s : Symbol) : Tells (.attribute key s.text) (.attribute key s)
  | removal (key : CaptureKey) : Tells (.captures key none) (.captures key none)
  | captures (key : CaptureKey) {slots : List RecipeSlot} {filled : List (Option Capture)}
      (h : List.Forall₂ RecipeSlot.Fills slots filled) :
    Tells (.captures key (some slots)) (.captures key (some (.ofSlots filled)))
  | child (entry : RecipeEntry) (node : Node) : Tells (.child entry) (.child node)
  | entry (name : String) (entry : RecipeEntry) (id : RuleId) (node : Node) :
    Tells (.entry name entry) (.entry id node)
  | injection (s : Symbol) (recipe : Recipe) (r : Rule) :
    Tells (.injection s.text recipe) (.injection s r)

namespace Recipe

theorem text_symbol (w : Workshop) (text : String) : (w.symbol text).1.text = text :=
  w.interner.text_intern text

theorem fills_buildSlots (slots : List RecipeSlot) (owner : NodeId) (w : Workshop) :
    List.Forall₂ RecipeSlot.Fills slots (buildSlots slots owner w).1 := by
  induction slots generalizing w with
  | nil =>
    rw [buildSlots]
    exact .nil
  | cons slot rest ih =>
    rw [buildSlots]
    refine .cons ?_ (ih _)
    cases slot with
    | vacant =>
      rw [buildSlot]
      exact .vacant
    | label text =>
      rw [buildSlot]
      have hfills := RecipeSlot.Fills.label (w.symbol text).1
      rwa [text_symbol] at hfills
    | rule recipe =>
      rw [buildSlot]
      exact .rule recipe _

/-- A step of a recipe is one write. -/
theorem exists_buildStep_eq_write (step : RecipeStep) (r : Rule) (w : Workshop) :
    ∃ write, step.Tells write ∧ (buildStep step r w).1 = r.write write := by
  cases step with
  | «attribute» key text =>
    refine ⟨.attribute key (w.symbol text).1, ?_, by rw [buildStep]; rfl⟩
    have htells := RecipeStep.Tells.attribute key (w.symbol text).1
    rwa [text_symbol] at htells
  | captures key slots =>
    cases slots with
    | none => exact ⟨.captures key none, .removal key, by rw [buildStep]; rfl⟩
    | some slots =>
      refine ⟨.captures key (some (.ofSlots (buildSlots slots r.id w).1)), ?_, by
        rw [buildStep]; rfl⟩
      exact .captures key (fills_buildSlots slots r.id w)
  | child entry =>
    exact ⟨.child (buildEntry entry r.id w).1, .child entry _, by rw [buildStep]; rfl⟩
  | entry name entry =>
    refine ⟨.entry (w.ruleId name).1 (buildEntry entry r.id (w.ruleId name).2).1, ?_, by
      rw [buildStep]; rfl⟩
    exact .entry name entry _ _
  | injection selector recipe =>
    refine ⟨.injection (w.symbol selector).1
      (recipe.build (some r.id) (w.symbol selector).2).1, ?_, by rw [buildStep]; rfl⟩
    have htells := RecipeStep.Tells.injection (w.symbol selector).1 recipe
      (recipe.build (some r.id) (w.symbol selector).2).1
    rwa [text_symbol] at htells

theorem exists_buildSteps_eq_writeAll (steps : List RecipeStep) (r : Rule) (w : Workshop) :
    ∃ writes, List.Forall₂ RecipeStep.Tells steps writes
      ∧ (buildSteps steps r w).1 = r.writeAll writes := by
  induction steps generalizing r w with
  | nil =>
    refine ⟨[], .nil, ?_⟩
    rw [buildSteps]
    rfl
  | cons step rest ih =>
    obtain ⟨write, htells, hwrite⟩ := exists_buildStep_eq_write step r w
    obtain ⟨writes, hrest, hwrites⟩ := ih (buildStep step r w).1 (buildStep step r w).2
    refine ⟨write :: writes, .cons htells hrest, ?_⟩
    rw [buildSteps]
    show (buildSteps rest (buildStep step r w).1 (buildStep step r w).2).1 = _
    rw [hwrites, hwrite]
    rfl

/-- A rule that is built by hand is the record of one write for each step of
its recipe, in the order of the steps. -/
theorem exists_build_eq_writeAll (scope : Option String) (steps : List RecipeStep)
    (parent : Option NodeId) (w : Workshop) :
    ∃ writes, List.Forall₂ RecipeStep.Tells steps writes
      ∧ ((Recipe.rule scope steps).build parent w).1
        = (Rule.bare ⟨w.table.id, w.table.compiled + 1⟩ (w.symbol? scope).1 parent).writeAll writes
      ∧ ((Recipe.rule scope steps).build parent w).1.Records writes := by
  obtain ⟨writes, htells, hwrites⟩ := exists_buildSteps_eq_writeAll steps
    ((w.symbol? scope).2.unfilled (w.symbol? scope).1 parent).1
    ((w.symbol? scope).2.unfilled (w.symbol? scope).1 parent).2
  have htable : (w.symbol? scope).2.table = w.table := by cases scope <;> rfl
  have hbuild : ((Recipe.rule scope steps).build parent w).1
      = (Rule.bare ⟨w.table.id, w.table.compiled + 1⟩ (w.symbol? scope).1 parent).writeAll
          writes := by
    rw [build]
    refine hwrites.trans ?_
    rw [Workshop.unfilled, htable]
  refine ⟨writes, htells, hbuild, ?_⟩
  rw [hbuild]
  exact Rule.records_writeAll _ _ _ writes

end Recipe

end ScopeRules
