/-
What an include names whose value is no string. It is not left out: its
reference asks for the grammar of the empty scope, and a document may declare
that scope like any other. So the reference resolves to the empty rule exactly
as long as no live table has the empty scope (`World.resolve_wrong_kind`), and
for good if no document ever declares it.

A scope that a table has was declared by a document that was added to it.
Nothing else puts a scope into a registry (`World.Reachable.exists_declared`).
-/
import ScopeRules.Proofs.ForeignEntry
import ScopeRules.Proofs.IncludeStrings
import ScopeRules.Proofs.Rearranged
import ScopeRules.Proofs.SelfReferences
import ScopeRules.Proofs.Views

namespace ScopeRules

namespace World

variable {w : World} {k : Compilation} {r : Rule} {d source : Document}
  {outer : List (Rule × Document)} {place : Place} {p : Reference}

/-- A scope that a table has is declared by a document that was added to
it. -/
theorem Reachable.exists_declared (hw : w.Reachable) {t : Table} (ht : t ∈ w.session.tables)
    {scope : String} (hscope : scope ∈ t.scopes) :
    ∃ j ∈ w.log, j.table.id = t.id ∧ scope ∈ j.document.declared := by
  obtain ⟨⟨name, entry⟩, hentry, rfl⟩ := List.mem_map.1 hscope
  obtain ⟨j, hj, hid, -, hnode⟩ := hw.sound.registered t ht _ hentry
  refine ⟨j, hj, hid, ?_⟩
  rw [← Compilation.map_fst_declarations]
  exact List.mem_map_of_mem hnode

/-- An include that is no string asks for the grammar of the empty scope. -/
theorem targetOf_wrong_kind (hkind : source.getString? Vocabulary.includeKey = none) :
    Outline.targetOf source = .foreign "" none := by
  have hempty : Include.Spells "" (.foreign "" none) := .scope (by decide) (by decide)
  rw [Outline.targetOf, hkind]
  exact hempty.ofText_eq

/-- It is answered with what the table has for that scope. -/
theorem resolve_wrong_kind_of_handle (hw : w.Reachable) (htrail : k.Trail ((r, d) :: outer))
    (hp : .node place source (.reference p) ∈ k.contents r d)
    (hkind : source.getString? Vocabulary.includeKey = none) {handle : String} {t : Table}
    (ht : w.session.table? handle = some t) (hid : t.id = k.table.id) :
    w.session.snapshot.resolve (.reference p) = t.lookup "" := by
  have hfound := Session.table?_id hw.sound.distinct (Session.mem_of_table?_eq_some ht).1
  have hsymbol : (k.context.symbol "").text = "" := k.context.interner.text_intern ""
  apply Snapshot.resolve_of_target_eq
  rw [htrail.reference_eq hp, targetOf_wrong_kind hkind, Context.reference,
    Snapshot.target_foreign, show k.context.table = t.id from hid.symm, hfound, hsymbol]
  rfl

/-- Once the table has no handle, it is answered with the empty rule. -/
theorem resolve_wrong_kind_of_no_handle (hw : w.Reachable) (htrail : k.Trail ((r, d) :: outer))
    (hp : .node place source (.reference p) ∈ k.contents r d)
    (hkind : source.getString? Vocabulary.includeKey = none)
    (hnone : ∀ handle t, w.session.table? handle = some t → t.id ≠ k.table.id) :
    w.session.snapshot.resolve (.reference p) = .empty := by
  apply Snapshot.resolve_of_target_eq
  rw [htrail.reference_eq hp, targetOf_wrong_kind hkind, Context.reference,
    Snapshot.target_foreign, show k.context.table = k.table.id from rfl,
    hw.named.table?_eq_none hw.sound.distinct hnone]
  rfl

/-- An item or entry whose include is no string is compiled to a reference
that resolves to the rule of the empty scope, in its table, and so to the
empty rule if and only if the table has no handle or does not have that
scope. If no document that is added to the table declares the empty scope, it
resolves to the empty rule at every moment. -/
theorem resolve_wrong_kind (hw : w.Reachable) (htrail : k.Trail ((r, d) :: outer))
    (hclause : .nested place source ∈ d.clauses) (hrefers : place.refers source = true)
    (hkind : source.getString? Vocabulary.includeKey = none) :
    ∃ p, .node place source (.reference p) ∈ k.contents r d
      ∧ (∀ handle t, w.session.table? handle = some t → t.id = k.table.id →
          w.session.snapshot.resolve (.reference p) = t.lookup "")
      ∧ (w.session.snapshot.resolve (.reference p) = .empty
        ↔ ∀ handle t, w.session.table? handle = some t → t.id = k.table.id → "" ∉ t.scopes)
      ∧ ((∀ j ∈ w.log, j.table.id = k.table.id → "" ∉ j.document.declared) →
        w.session.snapshot.resolve (.reference p) = .empty) := by
  have hp := htrail.reference_mem_contents hclause hrefers
  refine ⟨_, hp, ?_⟩
  generalize k.context.reference r.id (Outline.targetOf source) = p at hp
  have hanswer : ∀ handle t, w.session.table? handle = some t → t.id = k.table.id →
      w.session.snapshot.resolve (.reference p) = t.lookup "" :=
    fun _ _ ht hid => resolve_wrong_kind_of_handle hw htrail hp hkind ht hid
  have hempty : w.session.snapshot.resolve (.reference p) = .empty
      ↔ ∀ handle t, w.session.table? handle = some t → t.id = k.table.id → "" ∉ t.scopes := by
    constructor
    · intro h handle t ht hid hscope
      have hfound := ((views_agree hw ht).found_iff "").2 hscope
      rw [← hanswer handle t ht hid, h] at hfound
      cases hfound
    · intro h
      by_cases hhandle : ∃ handle t, w.session.table? handle = some t ∧ t.id = k.table.id
      · obtain ⟨handle, t, ht, hid⟩ := hhandle
        rw [hanswer handle t ht hid, Table.lookup_eq_empty (h handle t ht hid)]
      · exact resolve_wrong_kind_of_no_handle hw htrail hp hkind
          fun handle t ht hid => hhandle ⟨handle, t, ht, hid⟩
  refine ⟨hanswer, hempty, fun hdeclared => hempty.2 fun handle t ht hid hscope => ?_⟩
  obtain ⟨j, hj, hjid, hdeclares⟩ :=
    hw.exists_declared (Session.mem_of_table?_eq_some ht).1 hscope
  exact hdeclared j hj (hjid.trans hid) hdeclares

-- ------------------------------------------------------------- a document

/-- A grammar with an include that is a number, and beside it a rule with an
empty scope. -/
def miskinded : Document :=
  [("scopeName", .string "r"), ("patterns", .array
    [.dict [("include", .integer 3)], .dict [("scopeName", .string "")]])]

def miskindedCompilation : Compilation := ⟨.new ⟨1⟩, .empty, miskinded, 0⟩

def miskindedWorld : World := run "" [.newTable "t", .add "t" miskinded]

/-- An include that is no string can name a rule. -/
theorem resolve_ne_empty_miskinded :
    ∃ k ∈ miskindedWorld.log, ∃ p,
      .node .child [("include", .integer 3)] (.reference p) ∈ k.contents k.root k.document
      ∧ Document.getString? [("include", .integer 3)] Vocabulary.includeKey = none
      ∧ miskindedWorld.session.snapshot.resolve (.reference p) ≠ .empty := by
  refine ⟨miskindedCompilation, .head _, _, .tail _ (.head _), rfl, ?_⟩
  intro hempty
  exact absurd (congrArg Rule.id hempty) (by decide)

/-- The rule that it names is the one with the empty scope. -/
theorem resolve_wrong_kind_miskinded :
    ∃ p, .node .child [("include", .integer 3)] (.reference p)
        ∈ miskindedCompilation.contents miskindedCompilation.root miskinded
      ∧ ∃ t, miskindedWorld.session.table? "t" = some t
        ∧ miskindedWorld.session.snapshot.resolve (.reference p) = t.lookup ""
        ∧ (t.lookup "").id = ⟨⟨1⟩, 2⟩ := by
  obtain ⟨t, ht, hid, hlookup⟩ : ∃ t, miskindedWorld.session.table? "t" = some t
      ∧ t.id = miskindedCompilation.table.id ∧ (t.lookup "").id = ⟨⟨1⟩, 2⟩ :=
    ⟨_, rfl, rfl, by decide⟩
  have hreachable : miskindedWorld.Reachable := ⟨"", _, rfl⟩
  have hclause : .nested .child [("include", .integer 3)] ∈ miskindedCompilation.document.clauses :=
    .tail _ (.head _)
  obtain ⟨p, hp, hanswer, -⟩ := resolve_wrong_kind hreachable .root hclause rfl rfl
  exact ⟨p, hp, t, ht, hanswer "t" t ht hid, hlookup⟩

end World

end ScopeRules
