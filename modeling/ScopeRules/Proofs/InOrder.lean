/-
What a rule holds is what its dictionary says: the same things, in the same
order, with nothing lost and nothing twice. `Compilation.Renders` states it
list by list. Children, injections and attributes are lists on both sides,
so there the correspondence is one to one and in order. A repository is kept
by id instead, so there it says which dictionary the entry under an id was
compiled from.

# Ids and names

Under one id stands the last of the dictionaries whose names have that id.
This is one entry for one name exactly while the ids tell the names in the
repository apart (`Trail.rendersNames_iff`), and they do as long as the table
has not used up its ids (`Compilation.IdsApart`). Once it has, they need not
(`rule_renders_crowded`).

# What is compiled where

An item or an entry is a reference if it has an include key, and else a rule
(`Compilation.Nests`); what is injected is a rule, whatever its keys. A rule
compiled from a dictionary inside another rule is the next one on its trail,
and that is how `Renders` says so.
-/
import ScopeRules.Proofs.Counterparts
import ScopeRules.Proofs.Dictionaries
import ScopeRules.Proofs.Readings
import ScopeRules.Proofs.Requests

namespace ScopeRules

/-- A dictionary without a key twice speaks of every attribute once. -/
theorem Document.attributes_distinct {d : Document} (hd : Assoc.Distinct d) :
    Assoc.Distinct d.attributes := by
  refine List.pairwise_map.2 ((List.pairwise_map.1 hd).filterMap _ ?_)
  intro p q hpq a ha b hb hab
  obtain ⟨key, hkey, hp⟩ := Option.bind_eq_some_iff.1 ha
  obtain ⟨key', hkey', hq⟩ := Option.bind_eq_some_iff.1 hb
  obtain ⟨text, -, rfl⟩ := Option.map_eq_some_iff.1 hp
  obtain ⟨text', -, rfl⟩ := Option.map_eq_some_iff.1 hq
  obtain rfl : key = key' := hab
  exact hpq ((AttributeKey.spelling_of_ofSpelling? hkey).symm.trans
    (AttributeKey.spelling_of_ofSpelling? hkey'))

-- =============================================================== storing

/-- The attribute that a piece sets. -/
def Piece.assigned? : Piece → Option (AttributeKey × Symbol)
  | .attribute key text => some (key, text)
  | _ => none

namespace Context

variable (c : Context)

theorem attributes_store (r : Rule) (q : Piece) :
    (c.store r q).attributes
      = q.assigned?.toList.foldl (fun d p => Assoc.put d p.1 p.2) r.attributes := by
  cases q with
  | node place source x => cases place <;> cases x <;> rfl
  | _ => rfl

theorem attributes_foldl_store (pieces : List Piece) (r : Rule) :
    (pieces.foldl c.store r).attributes
      = (pieces.filterMap Piece.assigned?).foldl (fun d p => Assoc.put d p.1 p.2)
          r.attributes := by
  induction pieces generalizing r with
  | nil => rfl
  | cons q more ih =>
    rw [List.foldl_cons, ih, attributes_store, List.filterMap_cons]
    cases q.assigned? <;> rfl

variable {c} {n : Nat} {parent : Option NodeId} {d : Document}

/-- The pieces of a dictionary set the attributes that it speaks of. -/
theorem map_assigned?_contents (c : Context) (n : Nat) (d : Document) :
    ((c.contents n d).filterMap Piece.assigned?).map (fun a => (a.1, a.2.text))
      = d.attributes := by
  have hcontents : List.Forall₂ (fun (e : AttributeKey × String) a => e = (a.1, a.2.text))
      d.attributes ((c.contents n d).filterMap Piece.assigned?) := by
    rw [← Clause.filterMap_attribute?_clauses]
    refine c.forall₂_clauses_contents n d (fun _ => rfl) fun q _ => ?_
    cases q with
    | «attribute» key text => exact .some rfl
    | _ => exact .none
  have hmap := map_eq_of_forall₂ (f := id) hcontents fun _ _ he => he
  rw [List.map_id] at hmap
  exact hmap.symm

/-- A dictionary without a key twice sets every attribute once. -/
theorem attributes_rule (hd : Assoc.Distinct d) :
    (c.rule n parent d).attributes = (c.contents n d).filterMap Piece.assigned? := by
  have hdistinct : Assoc.Distinct ((c.contents n d).filterMap Piece.assigned?) := by
    have hkeys := Document.attributes_distinct hd
    rw [← c.map_assigned?_contents n d, Assoc.Distinct, Assoc.keys, List.map_map] at hkeys
    exact hkeys
  rw [rule_eq_foldl, attributes_foldl_store]
  exact Assoc.foldl_put_eq_append (d := []) hdistinct

end Context

-- ======================================================== what it renders

/-- The last of the dictionaries in the repositories of a rule dictionary, of
those under names that `P` tells. -/
def Document.lastEntry? (d : Document) (P : String → Bool) : Option Document :=
  ((d.named .repository).filter fun e => P e.1).getLast?.map Prod.snd

theorem Document.lastEntry?_eq (d : Document) (P : String → Bool) :
    d.lastEntry? P
      = (d.clauses.filterMap fun clause =>
          (clause.entry?.filter fun e => P e.1).map Prod.snd).getLast? := by
  unfold lastEntry?
  rw [← Clause.filterMap_entry?_clauses, ← List.getLast?_map, ← List.filterMap_eq_filter,
    List.filterMap_filterMap, List.map_filterMap]
  congr 2
  funext clause
  cases clause.entry? <;> rfl

namespace Compilation

/-- Whether a node is what the innermost rule of a trail has for an item or
entry of its dictionary: with an include key a reference, else a rule. -/
def Nests (k : Compilation) (r : Rule) (d : Document) (outer : List (Rule × Document))
    (source : Document) : Node → Prop
  | .rule x => Assoc.has source Vocabulary.includeKey = false
      ∧ k.Trail ((x, source) :: (r, d) :: outer)
  | .reference p => Assoc.has source Vocabulary.includeKey = true
      ∧ p = k.context.reference r.id (Outline.targetOf source)

/-- Whether the innermost rule of a trail holds what its dictionary says, in
the order of the document. -/
structure Renders (k : Compilation) (r : Rule) (d : Document) (outer : List (Rule × Document)) :
    Prop where
  children : List.Forall₂ (k.Nests r d outer) d.items r.children
  injections : List.Forall₂
    (fun e i => i.1.text = e.1 ∧ k.Trail ((i.2, e.2) :: (r, d) :: outer))
    (d.named .injections) r.injections
  attributes : r.attributes.map (fun a => (a.1, a.2.text)) = d.attributes
  /-- One entry for an id. -/
  sorted : Assoc.Sorted RuleId.before r.repository
  entries : ∀ id, Option.Rel (k.Nests r d outer)
    (d.lastEntry? fun name => k.context.ruleId name = id) (r.entryAt? id)

/-- Whether the repository of the innermost rule of a trail has one entry for
each name, compiled from the last dictionary under the name. -/
structure RendersNames (k : Compilation) (r : Rule) (d : Document)
    (outer : List (Rule × Document)) : Prop where
  names : (Assoc.keys r.repository).Perm
    (((d.named .repository).map Prod.fst).dedup.map k.context.ruleId)
  entries : ∀ name ∈ (d.named .repository).map Prod.fst,
    Option.Rel (k.Nests r d outer) (d.lastEntry? fun other => other = name)
      (r.entryAt? (k.context.ruleId name))

variable {k : Compilation} {r x : Rule} {d source : Document} {outer : List (Rule × Document)}
  {place : Place}

/-- What a child or an entry was compiled to. -/
theorem Trail.nests (h : k.Trail ((r, d) :: outer)) {x : Node}
    (hx : .node place source x ∈ k.contents r d)
    (hplace : place.refers source = Assoc.has source Vocabulary.includeKey) :
    k.Nests r d outer source x := by
  have hkind := k.context.isSome_reference?_of_mem_pieces hx
  rw [hplace] at hkind
  cases x with
  | rule x => exact ⟨hkind.symm, .nested h hx⟩
  | reference p => exact ⟨hkind.symm, h.reference_eq hx⟩

theorem Trail.children_renders (h : k.Trail ((r, d) :: outer)) :
    List.Forall₂ (k.Nests r d outer) d.items r.children := by
  rw [h.children_eq, ← Clause.filterMap_item?_clauses]
  refine k.context.forall₂_clauses_contents _ d (fun _ => rfl) fun q hq => ?_
  cases q with
  | node place source x =>
    cases place with
    | child => exact .some (h.nests hq rfl)
    | _ => exact .none
  | _ => exact .none

theorem Trail.injections_renders (h : k.Trail ((r, d) :: outer)) :
    List.Forall₂ (fun e i => i.1.text = e.1 ∧ k.Trail ((i.2, e.2) :: (r, d) :: outer))
      (d.named .injections) r.injections := by
  have hinjections : r.injections = (k.contents r d).filterMap k.context.injected? :=
    (congrArg Rule.injections h.eq_rule).trans Context.injections_rule
  rw [hinjections, ← Clause.filterMap_injection?_clauses]
  refine k.context.forall₂_clauses_contents _ d (fun _ => rfl) fun q hq => ?_
  cases q with
  | node place source x =>
    cases place with
    | injection selector =>
      have hkind := k.context.isSome_reference?_of_mem_pieces hq
      cases x with
      | rule x => exact .some ⟨k.context.text_symbol selector, .nested h hq⟩
      | reference p => cases hkind
    | _ => cases x <;> exact .none
  | _ => exact .none

theorem Trail.attributes_renders (h : k.Trail ((r, d) :: outer)) (hd : Assoc.Distinct d) :
    r.attributes.map (fun a => (a.1, a.2.text)) = d.attributes := by
  have hattributes : r.attributes = (k.contents r d).filterMap Piece.assigned? :=
    (congrArg Rule.attributes h.eq_rule).trans (Context.attributes_rule hd)
  rw [hattributes]
  exact k.context.map_assigned?_contents r.id.serial d

/-- Under an id stands what the last of the dictionaries under names with
that id was compiled to. -/
theorem Trail.entries_renders (h : k.Trail ((r, d) :: outer)) (id : RuleId) :
    Option.Rel (k.Nests r d outer) (d.lastEntry? fun name => k.context.ruleId name = id)
      (r.entryAt? id) := by
  have hentry : r.entryAt? id
      = ((k.contents r d).filterMap (k.context.entryNode? id)).getLast? :=
    (congrArg (fun s : Rule => s.entryAt? id) h.eq_rule).trans (k.context.entryAt?_rule _ _ _ _)
  rw [hentry, Document.lastEntry?_eq]
  refine getLast?_of_forall₂
    (k.context.forall₂_clauses_contents _ d (fun _ => rfl) fun q hq => ?_)
  cases q with
  | node place source x =>
    cases place with
    | entry name =>
      by_cases hname : k.context.ruleId name = id
      · simpa [Piece.clause, Clause.entry?, Context.entryNode?, Option.filter, hname]
          using h.nests hq rfl
      · simp [Piece.clause, Clause.entry?, Context.entryNode?, Option.filter, hname]
    | _ => exact .none
  | _ => exact .none

/-- A rule holds what its dictionary says. -/
theorem Trail.renders (h : k.Trail ((r, d) :: outer)) (hd : Assoc.Distinct d) :
    k.Renders r d outer where
  children := h.children_renders
  injections := h.injections_renders
  attributes := h.attributes_renders hd
  sorted := by
    have htidy := k.context.tidy_rule r.id.serial (outer.head?.map fun f => f.1.id) d
    rw [← h.eq_rule] at htidy
    exact htidy.repository
  entries := h.entries_renders

-- ============================================================== by name

/-- The names that something is put under are those in the repositories. -/
theorem entryNames_eq (k : Compilation) (r : Rule) (d : Document) :
    k.entryNames r d = (d.named .repository).map Prod.fst := by
  rw [← Clause.filterMap_entry?_clauses, List.map_filterMap, eq_comm, ← List.forall₂_eq_eq_eq]
  refine k.context.forall₂_clauses_contents _ d (fun _ => rfl) fun q _ => ?_
  cases q with
  | node place source x =>
    cases place with
    | entry name => cases x <;> exact .some rfl
    | _ => cases x <;> exact .none
  | _ => exact .none

/-- A repository has one entry for each name if and only if the ids tell the
names in it apart. -/
theorem Trail.rendersNames_iff (h : k.Trail ((r, d) :: outer)) :
    k.RendersNames r d outer
      ↔ ∀ m ∈ (d.named .repository).map Prod.fst, ∀ n ∈ (d.named .repository).map Prod.fst,
        k.context.ruleId m = k.context.ruleId n → m = n := by
  have hkeys := h.keys_repository_iff
  rw [k.entryNames_eq r d] at hkeys
  refine ⟨fun hnames => hkeys.1 hnames.names, fun hids => ⟨hkeys.2 hids, fun name hname => ?_⟩⟩
  have hsame : d.lastEntry? (fun other => k.context.ruleId other = k.context.ruleId name)
      = d.lastEntry? fun other => other = name := by
    refine congrArg (fun es : List (String × Document) => es.getLast?.map Prod.snd)
      (List.filter_congr fun e he => ?_)
    rw [Bool.eq_iff_iff, decide_eq_true_iff, decide_eq_true_iff]
    have he' := List.mem_map_of_mem (f := Prod.fst) he
    exact ⟨hids _ he' _ hname, congrArg k.context.ruleId⟩
  exact hsame ▸ h.entries_renders (k.context.ruleId name)

/-- While the ids of a document tell its names apart, a repository has one
entry for each name. -/
theorem Trail.rendersNames (h : k.Trail ((r, d) :: outer)) (hids : k.IdsApart) :
    k.RendersNames r d outer :=
  h.rendersNames_iff.2 (k.entryNames_eq r d ▸ h.entryNames_apart hids)

end Compilation

namespace World

variable {w : World}

/-- Every rule that a document was compiled to holds what its dictionary says.
Its children are the items of all `patterns` arrays and its injections the
entries of all injections dictionaries, one to one and in document order;
its attributes are those that the dictionary gives a string; and its
repository has under an id what the last dictionary under a name with that
id was compiled to. While the table has not used up its ids, this is one
entry for each name. -/
theorem rule_renders (hw : w.Reachable) {k : Compilation} (hk : k ∈ w.log)
    (hwf : k.document.WellFormed) {r : Rule} {d : Document} {outer : List (Rule × Document)}
    (htrail : k.Trail ((r, d) :: outer)) :
    k.Renders r d outer
      ∧ (w.allocations k.table.id ≤ RuleId.largest → k.RendersNames r d outer) := by
  refine ⟨htrail.renders (htrail.wellFormed hwf).1, fun hroom => ?_⟩
  obtain ⟨issued, haccounts⟩ := hw.sound.accounted k.table.id hroom
  exact htrail.rendersNames (Compilation.idsApart_of_recorded (haccounts.compiled k hk rfl))

-- ------------------------------------------------------------- a document

/-- A grammar with two keys for patterns and two repositories, an injection
that includes, and values that no key wants. -/
def scattered : Document :=
  [("name", .string "n"),
    ("PATTERNS", .array
      [.dict [("match", .string "a")], .integer 1, .dict [("include", .string "#x")]]),
    ("comment", .bool true),
    ("Repository", .dict [("x", .dict [("name", .string "early")]), ("y", .string "none"),
      ("z", .dict [])]),
    ("injections", .dict [("L:s", .dict [("include", .string "$self")]), ("R:s", .array [])]),
    ("repository", .dict [("x", .dict [("include", .string "$self")])]),
    ("patterns", .array [.dict []]),
    ("match", .string "m")]

def scatteredCompilation : Compilation := ⟨.new ⟨1⟩, .empty, scattered, 0⟩

/-- Three children, one injected rule, two attributes and two entries, of
which `x` is the later one. -/
theorem rule_renders_scattered :
    scatteredCompilation.Renders scatteredCompilation.root scattered []
      ∧ scatteredCompilation.RendersNames scatteredCompilation.root scattered []
      ∧ scattered.items = [[("match", .string "a")], [("include", .string "#x")], []]
      ∧ scattered.named .injections = [("L:s", [("include", .string "$self")])]
      ∧ scattered.attributes = [(.name, "n"), (.matchPattern, "m")]
      ∧ scattered.lastEntry? (fun name => name = "x") = some [("include", .string "$self")] := by
  have hwf : scattered.WellFormed := by
    simp [Document.WellFormed, scattered, Value.WellFormed, Value.WellFormedEntries,
      Value.WellFormedItems, Assoc.Distinct, Assoc.keys]
  have hroot := rule_renders (w := run "" [.newTable "t", .add "t" scattered]) ⟨"", _, rfl⟩
    (k := scatteredCompilation) (.head _) hwf .root
  exact ⟨hroot.1, hroot.2 (by decide +kernel), rfl, rfl, by decide +kernel, rfl⟩

-- -------------------------------------------------- more names than ids

/-- A grammar with an empty rule under each of the names. -/
def crowded (names : List String) : Document :=
  [("repository", .dict (names.map fun name => (name, .dict [])))]

theorem named_crowded (names : List String) :
    (crowded names).named .repository = names.map fun name => (name, []) := by
  have hkey : sameUpToCase StructuralKey.repository.spelling "repository" = true := by decide
  simp [crowded, Document.named, hkey, Value.dict?, List.filterMap_map]

theorem names_crowded (names : List String) :
    (Outline.ofDocument (crowded names)).names = names := by
  have hentries : ∀ names : List String, (Outline.ofRepository
      (names.map fun name => (name, .dict [])) .nothing).names = names := by
    intro names
    induction names with
    | nil => rfl
    | cons name rest ih => exact congrArg (name :: ·) ih
  exact hentries names

def crowdedCompilation (names : List String) : Compilation := ⟨.new ⟨1⟩, .empty, crowded names, 0⟩

theorem ruleIds_crowded (names : List String) :
    (crowdedCompilation names).context.ruleIds = RuleIds.empty.allocateAll names :=
  congrArg (RuleIds.allocateAll .empty) (names_crowded names)

theorem wellFormed_crowded {names : List String} (h : names.Nodup) :
    (crowded names).WellFormed := by
  have hentries : ∀ names : List String,
      Value.WellFormedEntries (names.map fun name => (name, .dict [])) := by
    intro names
    induction names with
    | nil => trivial
    | cons name rest ih => exact ⟨⟨List.nodup_nil, trivial⟩, ih⟩
  have hkeys : Assoc.keys (names.map fun name => (name, Value.dict [])) = names := by
    rw [Assoc.keys, List.map_map]
    exact List.map_id names
  have hnames : Assoc.Distinct (names.map fun name => (name, Value.dict [])) :=
    show (Assoc.keys _).Nodup from hkeys.symm ▸ h
  exact ⟨List.nodup_singleton _, ⟨hnames, hentries names⟩, trivial⟩

/-- With one entry for each name, no two names have the same id. -/
theorem eq_of_rendersNames_crowded {names : List String}
    (h : (crowdedCompilation names).RendersNames (crowdedCompilation names).root (crowded names) [])
    {a b : String} (ha : a ∈ names) (hb : b ∈ names) {id : RuleId}
    (haid : (RuleIds.empty.allocateAll names).get? a = some id)
    (hbid : (RuleIds.empty.allocateAll names).get? b = some id) : a = b := by
  have hentries : ((crowded names).named .repository).map Prod.fst = names := by
    rw [named_crowded, List.map_map]
    exact List.map_id names
  have hids := (Compilation.Trail.root (k := crowdedCompilation names)).rendersNames_iff.1 h
  refine hids a (hentries.symm ▸ ha) b (hentries.symm ▸ hb) ?_
  rw [Context.ruleId, Context.ruleId, ruleIds_crowded, RuleIds.idFor_of_get? haid,
    RuleIds.idFor_of_get? hbid]

/-- Once the ids are used up there need not be one entry for each name. A
grammar with one name more than there are ids has the same id for two. -/
theorem rule_renders_crowded :
    let names := (List.range (RuleId.largest + 1)).map Nat.repr
    let w := run "" [.newTable "t", .add "t" (crowded names)]
    let k := crowdedCompilation names
    w.Reachable ∧ k ∈ w.log ∧ k.document.WellFormed ∧ k.Trail [(k.root, crowded names)]
      ∧ RuleId.largest < w.allocations k.table.id
      ∧ ¬ k.RendersNames k.root (crowded names) [] := by
  intro names w k
  have hw : w.Reachable := ⟨"", _, rfl⟩
  have hk : k ∈ w.log := .head _
  have hnot : ¬ k.RendersNames k.root (crowded names) [] := by
    intro hnames
    obtain ⟨a, ha, b, hb, hne, id, haid, hbid⟩ := RuleIds.exists_get?_eq (Nat.lt_succ_self _)
    exact hne (eq_of_rendersNames_crowded hnames ha hb haid hbid)
  refine ⟨hw, hk, wellFormed_crowded (RuleIds.nodup_map_repr _), .root, ?_, hnot⟩
  by_contra hroom
  obtain ⟨issued, haccounts⟩ := hw.sound.accounted k.table.id (Nat.le_of_not_lt hroom)
  have hids := Compilation.idsApart_of_recorded (haccounts.compiled k hk rfl)
  exact hnot (Compilation.Trail.root.rendersNames hids)

end World

end ScopeRules
