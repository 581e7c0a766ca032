/-
What a document says is all that counts. Pruning deletes from every rule
dictionary what no key wants: unknown keys, values of a wrong kind, items
and entries that are no dictionaries, groups without a usable numeral. The
pruned document is compiled to the same rules, under the same numbers, ids
and symbols, and adding it leaves the same table and interner
(`Table.add_prune`). So whatever is skipped is skipped before it can ask
for an id, a symbol, a number or a registration.

# From documents to outlines

Key by key, the clauses of a pruned dictionary are those of the dictionary
with their sources pruned, and without the groups that have no usable
numeral (`Clause.clauses_prune`). So the outline of a pruned document is the
`settled` outline of the document: the same constructs in the same order,
without the unusable keys (`ofDocument_prune`). Nothing but the report looks
at these.

# References

A dictionary that is compiled as a reference is asked for its include, and
for nothing else. What pruning leaves of it besides is of no account, and
is a parameter here (`Keeping`).
-/
import ScopeRules.Proofs.Dictionaries
import ScopeRules.Proofs.Readings

namespace ScopeRules

-- =============================================================== pruning

/-- What pruning leaves of a dictionary that is compiled as a reference: at
least its include. -/
structure Keeping where
  kept : Document → Document
  keeps_include : ∀ d : Document,
    Assoc.get? (kept d) Vocabulary.includeKey = Assoc.get? d Vocabulary.includeKey

/-- The least that can be left. -/
def Keeping.includeOnly : Keeping where
  kept d := ((Assoc.get? d Vocabulary.includeKey).map fun v => (Vocabulary.includeKey, v)).toList
  keeps_include d := by
    cases Assoc.get? d Vocabulary.includeKey <;> rfl

namespace Document

mutual

/-- What pruning leaves of the entries of a rule dictionary. -/
def pruneKeys (keep : Keeping) : List (String × Value) → List (String × Value)
  | [] => []
  | (key, value) :: more =>
    match pruneUnder keep (RuleKey.ofSpelling key) value with
    | some left => (key, left) :: pruneKeys keep more
    | none => pruneKeys keep more

/-- What pruning leaves of the value under a key of a rule dictionary. -/
def pruneUnder (keep : Keeping) : RuleKey → Value → Option Value
  | .attribute _, .string text => some (.string text)
  | .captures _, .dict groups => some (.dict (pruneGroups keep groups))
  | .structural .patterns, .array items => some (.array (pruneItems keep items))
  | .structural .repository, .dict entries => some (.dict (pruneEntries keep .entry entries))
  | .structural .injections, .dict entries => some (.dict (pruneEntries keep .injection entries))
  | _, _ => none

/-- What pruning leaves of an item or entry. -/
def pruneNested (keep : Keeping) (place : Place) : Value → Option Value
  | .dict source =>
    some (.dict (if place.refers source then keep.kept source else pruneKeys keep source))
  | _ => none

def pruneItems (keep : Keeping) : List Value → List Value
  | [] => []
  | item :: more =>
    match pruneNested keep .child item with
    | some left => left :: pruneItems keep more
    | none => pruneItems keep more

def pruneEntries (keep : Keeping) (place : String → Place) :
    List (String × Value) → List (String × Value)
  | [] => []
  | (name, entry) :: more =>
    match pruneNested keep (place name) entry with
    | some left => (name, left) :: pruneEntries keep place more
    | none => pruneEntries keep place more

/-- What pruning leaves of a group: of one with a label the label alone. -/
def pruneGroup (keep : Keeping) : Value → Option Value
  | .dict source =>
    match Document.getString? source Vocabulary.labelKey with
    | some text => some (.dict [(Vocabulary.labelKey, .string text)])
    | none => some (.dict (pruneKeys keep source))
  | _ => none

def pruneGroups (keep : Keeping) : List (String × Value) → List (String × Value)
  | [] => []
  | (key, value) :: more =>
    match Vocabulary.captureIndex? key, pruneGroup keep value with
    | some _, some left => (key, left) :: pruneGroups keep more
    | _, _ => pruneGroups keep more

end

/-- The document without what no key wants. -/
def prune (d : Document) (keep : Keeping) : Document := pruneKeys keep d

variable (keep : Keeping)

theorem prune_eq_filterMap (d : Document) :
    d.prune keep
      = d.filterMap fun p =>
          (pruneUnder keep (RuleKey.ofSpelling p.1) p.2).map fun left => (p.1, left) := by
  unfold prune
  induction d with
  | nil =>
    rw [pruneKeys]
    rfl
  | cons p more ih =>
    obtain ⟨key, value⟩ := p
    rw [pruneKeys, List.filterMap_cons, ih]
    cases pruneUnder keep (RuleKey.ofSpelling key) value <;> rfl

theorem pruneItems_eq_filterMap (items : List Value) :
    pruneItems keep items = items.filterMap (pruneNested keep .child) := by
  induction items with
  | nil =>
    rw [pruneItems]
    rfl
  | cons item more ih =>
    rw [pruneItems, List.filterMap_cons, ih]
    cases pruneNested keep .child item <;> rfl

theorem pruneEntries_eq_filterMap (place : String → Place) (entries : List (String × Value)) :
    pruneEntries keep place entries
      = entries.filterMap fun p =>
          (pruneNested keep (place p.1) p.2).map fun left => (p.1, left) := by
  induction entries with
  | nil =>
    rw [pruneEntries]
    rfl
  | cons p more ih =>
    obtain ⟨name, entry⟩ := p
    rw [pruneEntries, List.filterMap_cons, ih]
    cases pruneNested keep (place name) entry <;> rfl

theorem pruneGroups_eq_filterMap (groups : List (String × Value)) :
    pruneGroups keep groups
      = groups.filterMap fun p =>
          (Vocabulary.captureIndex? p.1).bind fun _ =>
            (pruneGroup keep p.2).map fun left => (p.1, left) := by
  induction groups with
  | nil =>
    rw [pruneGroups]
    rfl
  | cons p more ih =>
    obtain ⟨key, value⟩ := p
    rw [pruneGroups, List.filterMap_cons, ih]
    cases Vocabulary.captureIndex? key with
    | none => rfl
    | some i => cases pruneGroup keep value <;> rfl

-- ================================================= what is read from it

variable {keep} {d : Document}

/-- Pruning leaves the strings under attribute keys. -/
theorem getString?_prune (hd : Assoc.Distinct d) (key : AttributeKey) :
    (d.prune keep).getString? key.spelling = d.getString? key.spelling := by
  have hkey : RuleKey.ofSpelling key.spelling = .attribute key :=
    RuleKey.ofSpelling_eq_attribute_iff.2 key.ofSpelling?_spelling
  unfold getString?
  rw [prune_eq_filterMap,
    Assoc.get?_filterMap hd fun key value => pruneUnder keep (RuleKey.ofSpelling key) value, hkey]
  cases Assoc.get? d key.spelling with
  | none => rfl
  | some value =>
    rw [Option.bind_some, Option.bind_some]
    unfold pruneUnder
    cases value <;> rfl

/-- Pruning takes the include from a dictionary that is compiled as a rule. -/
theorem has_include_prune (hd : Assoc.Distinct d) :
    Assoc.has (d.prune keep) Vocabulary.includeKey = false := by
  have hkey : RuleKey.ofSpelling Vocabulary.includeKey = .unknown := by decide
  unfold Assoc.has
  rw [prune_eq_filterMap,
    Assoc.get?_filterMap hd fun key value => pruneUnder keep (RuleKey.ofSpelling key) value, hkey]
  cases Assoc.get? d Vocabulary.includeKey with
  | none => rfl
  | some value =>
    rw [Option.bind_some]
    unfold pruneUnder
    cases value <;> rfl

end Document

-- =============================================================== clauses

namespace Clause

/-- What pruning leaves of a dictionary at a place. -/
def left (keep : Keeping) (place : Place) (source : Document) : Document :=
  if place.refers source then keep.kept source else source.prune keep

/-- What a clause says after pruning. -/
def pruned? (keep : Keeping) : Clause → Option Clause
  | .unusable _ => none
  | .nested place source => some (.nested place (left keep place source))
  | clause => some clause

variable (keep : Keeping)

theorem dict?_pruneNested (place : Place) (value : Value) :
    (Document.pruneNested keep place value).bind Value.dict?
      = value.dict?.map (left keep place) := by
  unfold Document.pruneNested
  cases value <;> rfl

/-- The entries of a dictionary of places say, after pruning, what they say
with their sources pruned. -/
theorem filterMap_pruneEntries (place : String → Place) (entries : List (String × Value)) :
    (Document.pruneEntries keep place entries).filterMap
        (fun p => p.2.dict?.map (nested (place p.1)))
      = (entries.filterMap fun p => p.2.dict?.map (nested (place p.1))).filterMap
          (pruned? keep) := by
  rw [Document.pruneEntries_eq_filterMap, List.filterMap_filterMap, List.filterMap_filterMap]
  refine List.filterMap_congr fun p _ => ?_
  have hdict := dict?_pruneNested keep (place p.1) p.2
  cases hleft : Document.pruneNested keep (place p.1) p.2 with
  | none => cases hsource : p.2.dict? <;> simp_all
  | some value => cases hsource : p.2.dict? <;> simp_all [pruned?]

theorem filterMap_pruneItems (items : List Value) :
    (Document.pruneItems keep items).filterMap (fun item => item.dict?.map (nested .child))
      = (items.filterMap fun item => item.dict?.map (nested .child)).filterMap
          (pruned? keep) := by
  rw [Document.pruneItems_eq_filterMap, List.filterMap_filterMap, List.filterMap_filterMap]
  refine List.filterMap_congr fun item _ => ?_
  have hdict := dict?_pruneNested keep .child item
  cases hleft : Document.pruneNested keep .child item with
  | none => cases hsource : item.dict? <;> simp_all
  | some value => cases hsource : item.dict? <;> simp_all [pruned?]

/-- A group says, after pruning, what it says with its source pruned. One
without a label still has none. -/
theorem dict?_pruneGroup (c : CaptureKey) (index : Nat) {value : Value} (hwf : value.WellFormed) :
    ((Document.pruneGroup keep value).bind Value.dict?).map (ofGroup c index)
      = (value.dict?.map (ofGroup c index)).bind (pruned? keep) := by
  cases value with
  | dict source =>
    have hlabel : Document.getString? (Document.prune source keep) Vocabulary.labelKey
        = Document.getString? source Vocabulary.labelKey := Document.getString?_prune hwf.1 .name
    unfold Document.pruneGroup
    rw [Value.dict?, Option.map_some, Option.bind_some]
    cases htext : Document.getString? source Vocabulary.labelKey with
    | some text =>
      have hkept : Document.getString? [(Vocabulary.labelKey, .string text)] Vocabulary.labelKey
          = some text := rfl
      simp [ofGroup, htext, hkept, Value.dict?, pruned?]
    | none =>
      have hprune : Document.getString? (Document.pruneKeys keep source) Vocabulary.labelKey
          = none := hlabel.trans htext
      simp [ofGroup, htext, hprune, Value.dict?, pruned?, left, Place.refers, Document.prune]
  | _ => rfl

/-- The groups of a capture dictionary say, after pruning, what those with a
usable numeral say. -/
theorem filterMap_pruneGroups (c : CaptureKey) {groups : List (String × Value)}
    (hwf : ∀ p ∈ groups, p.2.WellFormed) :
    (Document.pruneGroups keep groups).filterMap (ofGroup? c)
      = (groups.filterMap (ofGroup? c)).filterMap (pruned? keep) := by
  rw [Document.pruneGroups_eq_filterMap, List.filterMap_filterMap, List.filterMap_filterMap]
  refine List.filterMap_congr fun p hp => ?_
  cases hindex : Vocabulary.captureIndex? p.1 with
  | none =>
    unfold ofGroup?
    rw [hindex]
    rfl
  | some index =>
    rw [ofGroup?_of_captureIndex? hindex, ← dict?_pruneGroup keep c index (hwf p hp)]
    cases hleft : Document.pruneGroup keep p.2 with
    | none => simp
    | some value =>
      have hvalue : ofGroup? c (p.1, value) = value.dict?.map (ofGroup c index) :=
        ofGroup?_of_captureIndex? hindex
      simpa using hvalue

/-- What stands under a key says, after pruning, what it says with the
sources pruned, and without the unusable keys. -/
theorem flatMap_ofEntry_pruneUnder {p : String × Value} (hwf : p.2.WellFormed) :
    (((Document.pruneUnder keep (RuleKey.ofSpelling p.1) p.2).map fun left =>
        (p.1, left)).toList).flatMap ofEntry
      = (ofEntry p).filterMap (pruned? keep) := by
  obtain ⟨key, value⟩ := p
  cases hkey : RuleKey.ofSpelling key with
  | «attribute» a =>
    rw [ofEntry_attribute value hkey]
    unfold Document.pruneUnder
    cases value with
    | string text => simp [ofEntry_attribute _ hkey, Value.string?, pruned?]
    | _ => rfl
  | captures c =>
    rw [ofEntry_captures value hkey]
    unfold Document.pruneUnder
    cases value with
    | dict groups =>
      have hgroups := filterMap_pruneGroups keep c (Value.wellFormedEntries_iff.1 hwf.2)
      simpa [ofEntry_captures _ hkey, Value.dict?] using hgroups
    | _ => rfl
  | structural s =>
    cases s with
    | patterns =>
      rw [ofEntry_patterns value hkey]
      unfold Document.pruneUnder
      cases value with
      | array items =>
        simpa [ofEntry_patterns _ hkey, Value.array?] using filterMap_pruneItems keep items
      | _ => rfl
    | repository =>
      rw [ofEntry_repository value hkey]
      unfold Document.pruneUnder
      cases value with
      | dict entries =>
        simpa [ofEntry_repository _ hkey, Value.dict?] using
          filterMap_pruneEntries keep .entry entries
      | _ => rfl
    | injections =>
      rw [ofEntry_injections value hkey]
      unfold Document.pruneUnder
      cases value with
      | dict entries =>
        simpa [ofEntry_injections _ hkey, Value.dict?] using
          filterMap_pruneEntries keep .injection entries
      | _ => rfl
  | unknown =>
    unfold Document.pruneUnder ofEntry
    simp [hkey]

/-- A pruned dictionary says what the dictionary says, in the same order, with
the sources pruned, and without the unusable keys. -/
theorem clauses_prune {d : Document} (hd : d.WellFormed) :
    (d.prune keep).clauses = d.clauses.filterMap (pruned? keep) := by
  unfold Document.clauses
  rw [Document.prune_eq_filterMap, List.filterMap_eq_flatMap_toList, List.flatMap_assoc,
    List.filterMap_flatMap]
  refine List.flatMap_congr fun p hp => ?_
  exact flatMap_ofEntry_pruneUnder keep (Value.wellFormedEntries_iff.1 hd.2 p hp)

end Clause

-- ============================================================== outlines

namespace Outline

/-- An outline without the keys of capture dictionaries that denote no
group. -/
def settled : Outline → Outline
  | .nothing => .nothing
  | .attribute key text rest => .attribute key text rest.settled
  | .unusable _ rest => rest.settled
  | .label key index text rest => .label key index text rest.settled
  | .reference place target rest => .reference place target rest.settled
  | .rule place scope body rest => .rule place scope body.settled rest.settled

theorem names_settled (o : Outline) : o.settled.names = o.names := by
  induction o with
  | nothing => rfl
  | «attribute» key text rest ih => exact ih
  | unusable key rest ih => exact ih
  | label key index text rest ih => exact ih
  | reference place target rest ih => rw [settled, names, names, ih]
  | rule place scope body rest ihbody ih => rw [settled, names, names, ihbody, ih]

theorem texts_settled (o : Outline) : o.settled.texts = o.texts := by
  induction o with
  | nothing => rfl
  | «attribute» key text rest ih => rw [settled, texts, texts, ih]
  | unusable key rest ih => exact ih
  | label key index text rest ih => rw [settled, texts, texts, ih]
  | reference place target rest ih => rw [settled, texts, texts, ih]
  | rule place scope body rest ihbody ih => rw [settled, texts, texts, ihbody, ih]

theorem count_settled (o : Outline) : o.settled.count = o.count := by
  induction o with
  | nothing => rfl
  | «attribute» key text rest ih => exact ih
  | unusable key rest ih => exact ih
  | label key index text rest ih => exact ih
  | reference place target rest ih => exact ih
  | rule place scope body rest ihbody ih => rw [settled, count, count, ihbody, ih]

theorem unusableKeys_settled (o : Outline) : o.settled.unusableKeys = [] := by
  induction o with
  | nothing => rfl
  | «attribute» key text rest ih => exact ih
  | unusable key rest ih => exact ih
  | label key index text rest ih => exact ih
  | reference place target rest ih => exact ih
  | rule place scope body rest ihbody ih => rw [settled, unusableKeys, ihbody, ih, List.append_nil]

/-- Filling passes over an unusable key. -/
theorem fill_settled (c : Context) (o : Outline) (next : Nat) (r : Rule) :
    o.settled.fill c next r = o.fill c next r := by
  induction o generalizing next r with
  | nothing => rfl
  | «attribute» key text rest ih => exact ih next (r.setAttribute key (c.symbol text))
  | unusable key rest ih => exact ih next r
  | label key index text rest ih => exact ih next (r.setCapture key index (.label (c.symbol text)))
  | reference place target rest ih => exact ih next _
  | rule place scope body rest ihbody ih =>
    rw [settled, fill, fill, ihbody, count_settled, ih]

theorem rules_settled (c : Context) (o : Outline) (next : Nat) (owner : NodeId) :
    o.settled.rules c next owner = o.rules c next owner := by
  induction o generalizing next owner with
  | nothing => rfl
  | «attribute» key text rest ih => exact ih next owner
  | unusable key rest ih => exact ih next owner
  | label key index text rest ih => exact ih next owner
  | reference place target rest ih => exact ih next owner
  | rule place scope body rest ihbody ih =>
    rw [settled, rules, rules, fill_settled, ihbody, count_settled, ih]

end Outline

/-- A dictionary is compiled at its place as before: as a reference to the same
target, or as a rule with the same scope. -/
theorem onto_pruned (keep : Keeping) {place : Place} {source : Document} (hwf : source.WellFormed)
    (hbody : place.refers source = false →
      Outline.ofDocument (source.prune keep) = (Outline.ofDocument source).settled)
    (rest : Outline) :
    Clause.onto (.nested place (Clause.left keep place source)) rest.settled
      = (Clause.onto (.nested place source) rest).settled := by
  cases hrefers : place.refers source with
  | true =>
    have hinclude := keep.keeps_include source
    have hkept : place.refers (keep.kept source) = true := by
      rw [← hrefers]
      cases place with
      | child => exact congrArg Option.isSome hinclude
      | entry name => exact congrArg Option.isSome hinclude
      | _ => rfl
    have htarget : Outline.targetOf (keep.kept source) = Outline.targetOf source := by
      unfold Outline.targetOf Document.getString?
      rw [hinclude]
    simp only [Clause.left, hrefers, if_true, Clause.onto, hkept, htarget, Outline.settled]
  | false =>
    have hpruned : place.refers (source.prune keep) = false := by
      cases place with
      | child => exact Document.has_include_prune hwf.1
      | entry name => exact Document.has_include_prune hwf.1
      | _ => rfl
    have hscope : Outline.scopeOf (source.prune keep) = Outline.scopeOf source :=
      Document.getString?_prune hwf.1 .scopeName
    simp only [Clause.left, hrefers, Bool.false_eq_true, if_false, Clause.onto, hpruned, hscope,
      hbody hrefers, Outline.settled]

/-- The outline of a pruned document is the settled outline of the document.
The induction is along the nested dictionaries, and in each of them along
the clauses. -/
theorem ofDocument_prune (keep : Keeping) {d : Document} (hd : d.WellFormed) :
    Outline.ofDocument (d.prune keep) = (Outline.ofDocument d).settled := by
  induction d using Document.nestedInduction with
  | step d ih =>
    have hclauses : ∀ clauses : List Clause, clauses ⊆ d.clauses →
        (clauses.filterMap (Clause.pruned? keep)).foldr Clause.onto .nothing
          = (clauses.foldr Clause.onto .nothing).settled := by
      intro clauses hsubset
      induction clauses with
      | nil => rfl
      | cons clause more ihmore =>
        obtain ⟨hclause, hmore⟩ := List.cons_subset.1 hsubset
        rw [List.filterMap_cons, List.foldr_cons]
        cases clause with
        | nested place source =>
          have hwf := hd.nested hclause
          have hmore := ihmore hmore
          rw [← onto_pruned keep hwf (fun _ => ih place source hclause hwf), ← hmore]
          rfl
        | unusable key => exact ihmore hmore
        | «attribute» key text => exact congrArg (Outline.attribute key text) (ihmore hmore)
        | label key index text => exact congrArg (Outline.label key index text) (ihmore hmore)
    rw [ofDocument_eq_foldr, ofDocument_eq_foldr, Clause.clauses_prune keep hd]
    exact hclauses d.clauses (List.Subset.refl _)

-- ================================================================ tables

section Adding

variable (keep : Keeping) {d : Document}

theorem Grammar.texts_prune (hd : d.WellFormed) :
    Grammar.texts (d.prune keep) = Grammar.texts d := by
  have hscope : Outline.scopeOf (d.prune keep) = Outline.scopeOf d :=
    Document.getString?_prune hd.1 .scopeName
  rw [Grammar.texts, Grammar.texts, hscope, ofDocument_prune keep hd, Outline.texts_settled]

/-- A pruned document is compiled to the same rules. -/
theorem Grammar.compile_prune (hd : d.WellFormed) (c : Context) (next : Nat) :
    Grammar.compile c next (d.prune keep) = Grammar.compile c next d := by
  have hscope : Outline.scopeOf (d.prune keep) = Outline.scopeOf d :=
    Document.getString?_prune hd.1 .scopeName
  unfold Grammar.compile
  simp only [hscope, ofDocument_prune keep hd, Outline.fill_settled, Outline.rules_settled]

/-- Adding a document and adding what pruning leaves of it come to the same: the
same rules with the same ids, numbers and symbols in the same order, hence
the same registrations; the same table, with its ids and its counters, and
the same interner. Only the report names the keys that were passed over. -/
theorem Table.add_prune (t : Table) (i : Interner) (hd : d.WellFormed) :
    t.compile i (d.prune keep) = t.compile i d
      ∧ (t.add i (d.prune keep)).table = (t.add i d).table
      ∧ (t.add i (d.prune keep)).interner = (t.add i d).interner
      ∧ (t.add i (d.prune keep)).scope = (t.add i d).scope
      ∧ (t.add i d).events
        = (Outline.ofDocument d).unusableKeys.map .unusableGroup
            ++ (t.add i (d.prune keep)).events := by
  have hids : t.idsAfter (d.prune keep) = t.idsAfter d := by
    rw [Table.idsAfter, Table.idsAfter, ofDocument_prune keep hd, Outline.names_settled]
  have hcompile : t.compile i (d.prune keep) = t.compile i d := by
    rw [Table.compile, Table.compile, Table.contextFor, Table.contextFor, hids,
      Grammar.texts_prune keep hd, Grammar.compile_prune keep hd]
  have hkeys : (Outline.ofDocument (d.prune keep)).unusableKeys = [] := by
    rw [ofDocument_prune keep hd, Outline.unusableKeys_settled]
  refine ⟨hcompile, ?_, ?_, ?_, ?_⟩
  · simp only [Table.add, hcompile, hids]
  · simp only [Table.add, Grammar.texts_prune keep hd]
  · simp only [Table.add, hcompile]
  · simp only [Table.add, hcompile, hkeys, List.map_nil, List.nil_append, List.append_assoc]

-- ------------------------------------------------------------- a document

/-- A grammar with something under every kind of key that is passed over. -/
def Table.littered : Document :=
  [("uuid", .string "u"),
    ("scopeName", .string "s"),
    ("name", .integer 3),
    ("captures", .array []),
    ("beginCaptures", .dict
      [("0", .dict [("name", .string "label"), ("match", .string "a")]),
        ("zero", .dict [("name", .string "none")]),
        ("1", .bool true),
        ("2", .dict [("name", .bool false), ("include", .string "#x")])]),
    ("Patterns", .array
      [.string "none", .dict [("comment", .string "c"), ("include", .string "#x")]]),
    ("patterns", .dict []),
    ("REPOSITORY", .dict
      [("x", .dict [("uuid", .string "v"), ("match", .string "b")]), ("y", .string "none")]),
    ("injections", .dict [("L:s", .dict [("include", .string "$self")]), ("R:s", .integer 1)])]

/-- What pruning leaves of it. -/
def Table.swept : Document :=
  [("scopeName", .string "s"),
    ("beginCaptures", .dict [("0", .dict [("name", .string "label")]), ("2", .dict [])]),
    ("Patterns", .array [.dict [("include", .string "#x")]]),
    ("REPOSITORY", .dict [("x", .dict [("match", .string "b")])]),
    ("injections", .dict [("L:s", .dict [])])]

/-- Both come to the same, and one key is reported. -/
theorem Table.add_prune_littered :
    littered.prune .includeOnly = swept
      ∧ ((Table.new ⟨1⟩).add .empty swept).table = ((Table.new ⟨1⟩).add .empty littered).table
      ∧ ((Table.new ⟨1⟩).add .empty swept).interner
          = ((Table.new ⟨1⟩).add .empty littered).interner
      ∧ ((Table.new ⟨1⟩).add .empty littered).events
          = .unusableGroup "zero" :: ((Table.new ⟨1⟩).add .empty swept).events := by
  have hprune : littered.prune .includeOnly = swept := rfl
  have hwf : littered.WellFormed := by
    simp [Document.WellFormed, littered, Value.WellFormed, Value.WellFormedEntries,
      Value.WellFormedItems, Assoc.Distinct, Assoc.keys]
  obtain ⟨-, htable, hinterner, -, hevents⟩ :=
    add_prune .includeOnly (.new ⟨1⟩) .empty hwf
  rw [hprune] at htable hinterner hevents
  exact ⟨hprune, htable, hinterner, hevents⟩

end Adding

end ScopeRules
