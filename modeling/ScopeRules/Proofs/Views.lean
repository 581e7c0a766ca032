/-
The views of a registry. A table can be asked which scopes it has, how
many, whether there are any, whether a given one is there, and which rule
answers to it. These are one registry read in different ways, and in every
state that a run leads to they tell the same story (`Table.ViewsAgree`).

Two facts about the registry carry all of it (`Registry.Faithful`): its
scopes stand in strictly increasing order, and what is stored under a scope
is a compiled rule that declares this very scope. A compiled rule has a
number and the shared empty rule has none, so a registered rule is told from
the empty one by who it is, not by what it holds: a grammar without any
content is registered like every other.
-/
import ScopeRules.Proofs.Abreast
import ScopeRules.Proofs.ByteOrder

namespace ScopeRules

-- ============================================================ registries

/-- Whether a scope is registered with a compiled rule that declares it, in
a document with a compiled root. -/
structure Entry.AnswersTo (entry : Entry) (scope : String) : Prop where
  declares : entry.node.scope.map Symbol.text = some scope
  node : entry.node.isEmpty = false
  root : entry.root.isEmpty = false

/-- Whether a registry is in order and every entry belongs under its scope. -/
structure Registry.Faithful (registry : Registry) : Prop where
  sorted : registry.Sorted Registry.before
  entries : ∀ p ∈ registry, p.2.AnswersTo p.1

namespace Table

/-- Whether the questions that a table answers about its scopes have answers
that agree. -/
structure ViewsAgree (t : Table) : Prop where
  /-- The listed scopes strictly increase in the order of their UTF-8 bytes. -/
  increasing : t.scopes.Pairwise fun a b => Text.bytes a < Text.bytes b
  counted : t.scopes.length = t.size
  isEmpty_iff : t.isEmpty = true ↔ t.scopes = []
  contains_iff : ∀ scope, t.contains scope = true ↔ scope ∈ t.scopes
  found_iff : ∀ scope, (t.lookup scope).isEmpty = false ↔ scope ∈ t.scopes
  missing : ∀ scope, scope ∉ t.scopes → t.lookup scope = .empty
  declares : ∀ scope ∈ t.scopes, (t.lookup scope).scope.map Symbol.text = some scope
  /-- Nothing that is registered is taken for the empty rule. -/
  compiled : ∀ p ∈ t.registry, p.2.node.isEmpty = false ∧ p.2.root.isEmpty = false

variable {t : Table} {scope : String}

/-- The rule of a listed scope is that of an entry. -/
theorem exists_lookup_eq (h : scope ∈ t.scopes) :
    ∃ entry, (scope, entry) ∈ t.registry ∧ t.lookup scope = entry.node := by
  have hhas : Assoc.has t.registry scope = true := Assoc.mem_keys_iff_has.1 h
  obtain ⟨entry, hentry⟩ := Option.isSome_iff_exists.1 hhas
  refine ⟨entry, Assoc.mem_of_get?_eq_some hentry, ?_⟩
  rw [lookup, hentry]

/-- A scope that is not listed is answered with the empty rule. -/
theorem lookup_eq_empty (h : scope ∉ t.scopes) : t.lookup scope = .empty := by
  have hnone : Assoc.get? t.registry scope = none := by
    rw [← Option.not_isSome_iff_eq_none]
    exact fun hsome => h (Assoc.mem_keys_iff_has.2 hsome)
  rw [lookup, hnone]

theorem viewsAgree_of_faithful (h : t.registry.Faithful) : t.ViewsAgree where
  increasing := h.sorted.imp fun hbefore => Text.bytes_lt_iff.2 (of_decide_eq_true hbefore)
  counted := List.length_map _
  isEmpty_iff := by
    show List.isEmpty t.registry = true ↔ List.map Prod.fst t.registry = []
    rw [List.isEmpty_iff, List.map_eq_nil_iff]
  contains_iff := by
    intro scope
    exact Assoc.mem_keys_iff_has.symm
  found_iff := by
    intro scope
    constructor
    · intro hfound
      by_contra hmissing
      rw [lookup_eq_empty hmissing] at hfound
      cases hfound
    · intro hlisted
      obtain ⟨entry, hentry, heq⟩ := exists_lookup_eq hlisted
      rw [heq]
      exact (h.entries _ hentry).node
  missing := fun _ => lookup_eq_empty
  declares := by
    intro scope hlisted
    obtain ⟨entry, hentry, heq⟩ := exists_lookup_eq hlisted
    rw [heq]
    exact (h.entries _ hentry).declares
  compiled := by
    intro p hp
    exact ⟨(h.entries p hp).node, (h.entries p hp).root⟩

end Table

-- ================================================================ runs

namespace Compilation

variable {k : Compilation}

/-- A compiled rule is not the shared empty rule, whatever it holds. -/
theorem isEmpty_eq_false {r : Rule} (h : r ∈ k.rules) : r.isEmpty = false :=
  decide_eq_false (id_ne_empty h)

theorem scope_of_mem_declarations {scope : String} {r : Rule}
    (h : (scope, r) ∈ k.grammar.declarations) : r.scope.map Symbol.text = some scope := by
  obtain ⟨s, -, hs⟩ := List.mem_filterMap.1 h
  obtain ⟨symbol, hsymbol, heq⟩ := Option.map_eq_some_iff.1 hs
  cases heq
  rw [hsymbol]
  rfl

end Compilation

namespace World

variable {w : World}

/-- Every run keeps registries in order, and registers only compiled rules
under scopes that they declare. -/
theorem Reachable.faithful (hw : w.Reachable) {t : Table} (ht : t ∈ w.session.tables) :
    t.registry.Faithful where
  sorted := hw.order t ht
  entries := by
    intro p hp
    obtain ⟨k, -, -, hroot, hnode⟩ := hw.sound.registered t ht p hp
    exact ⟨Compilation.scope_of_mem_declarations hnode,
      Compilation.isEmpty_eq_false (mem_rules_of_mem_declarations hnode),
      hroot ▸ Compilation.isEmpty_eq_false k.root_mem_rules⟩

/-- In every state that a run leads to, through whichever handle a table is
asked: the scopes are listed in the byte order of their names, each once, and
there are as many as the size says; the table is empty if and only if none
is listed; a scope is contained if and only if it is listed, if and only if
its look-up finds a rule other than the empty one; the rule that is found
declares that scope; and no registered rule or root is the empty rule. -/
theorem views_agree (hw : w.Reachable) {handle : String} {t : Table}
    (ht : w.session.table? handle = some t) : t.ViewsAgree :=
  Table.viewsAgree_of_faithful (hw.faithful (Session.mem_of_table?_eq_some ht).1)

-- ------------------------------------------------------------- a document

/-- A grammar whose scope has no name and no content, around a rule that
declares it again and one that declares another. -/
def nameless : Document :=
  [("scopeName", .string ""), ("patterns", .array [.dict [("scopeName", .string "é")],
    .dict [("scopeName", .string "")]])]

/-- The grammar is added through one handle, and one without content through
a second handle to the same table. -/
def sparseWorld : World :=
  run "" [.newTable "t", .cloneTable "t" "u", .add "u" nameless,
    .add "t" [("scopeName", .string "z")]]

/-- Through the second handle, the empty name is listed and its rule is the
inner one; and the rule that holds nothing but its scope is found. -/
theorem views_agree_sparse :
    ∃ t, sparseWorld.session.table? "u" = some t ∧ t.scopes = ["", "z", "é"]
      ∧ (t.lookup "").id = ⟨⟨1⟩, 3⟩ ∧ (t.lookup "").isEmpty = false
      ∧ (t.lookup "z").isEmpty = false ∧ (t.lookup "y").isEmpty ≠ false := by
  obtain ⟨t, ht, hscopes, hid⟩ : ∃ t, sparseWorld.session.table? "u" = some t
      ∧ t.scopes = ["", "z", "é"] ∧ (t.lookup "").id = ⟨⟨1⟩, 3⟩ :=
    ⟨_, rfl, by decide, by decide⟩
  have hviews := views_agree (w := sparseWorld) ⟨"", _, rfl⟩ ht
  refine ⟨t, ht, hscopes, hid, (hviews.found_iff "").2 ?_, (hviews.found_iff "z").2 ?_,
    fun hfound => absurd ((hviews.found_iff "y").1 hfound) ?_⟩ <;>
    rw [hscopes] <;> decide

end World

end ScopeRules
