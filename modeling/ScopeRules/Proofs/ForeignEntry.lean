/-
What an include of another grammar means. Such a reference asks its table,
at the moment it is followed, for what is registered for a scope, and for
an entry of that by an id it got when it was compiled.
`World.target_eq_foreign` says for every moment of every run what comes
out: nothing once the table has no handle or while the scope has no rule,
the registered rule, or the rule's own entry of that name, and the last only
if the ids of the table were compacted equally often before the reference
and before the rule's document.

A table is there exactly as long as some name is a handle to it; that is
`Session.Named`, kept by every operation.
-/
import ScopeRules.Proofs.NearestEntry

namespace ScopeRules

-- ======================================================= tables and names

namespace Session

variable {s : Session}

/-- Whether names are told apart and every table has one. -/
structure Named (s : Session) : Prop where
  distinct : s.tableNames.Distinct
  named : ∀ t ∈ s.tables, ∃ name, s.tableNames.get? name = some t.id

/-- Dropping the tables without a name leaves those with one. -/
theorem named_sweep (h : s.tableNames.Distinct) : s.sweep.Named where
  distinct := h
  named := by
    intro t ht
    obtain ⟨p, hp, hid⟩ := List.any_eq_true.1 (List.mem_filter.1 ht).2
    exact ⟨p.1, (of_decide_eq_true hid) ▸ Assoc.get?_of_mem h hp⟩

theorem Named.keeps {after : Session} (h : s.Named) (hkeeps : s.Keeps after) : after.Named where
  distinct := hkeeps.tableNames ▸ h.distinct
  named := by
    intro t ht
    have hid : t.id ∈ s.tables.map Table.id := hkeeps.ids ▸ List.mem_map_of_mem ht
    obtain ⟨u, hu, hid⟩ := List.mem_map.1 hid
    rw [hkeeps.tableNames, ← hid]
    exact h.named u hu

theorem Named.perform (h : s.Named) (op : Operation) : (s.perform op).Named := by
  rcases s.perform_handles op with hkeeps | ⟨name, rfl⟩ | ⟨name, other, rfl⟩ | ⟨name, rfl⟩
    | ⟨name, walk, x, after, -, -, hkeeps, hperform⟩ | ⟨name, rfl⟩
  · exact h.keeps hkeeps
  · exact named_sweep (Assoc.put_distinct h.distinct _ _)
  · show (s.cloneTable name other).Named
    unfold cloneTable
    split
    · exact h
    · exact named_sweep (Assoc.put_distinct h.distinct _ _)
  · exact named_sweep (Assoc.erase_distinct h.distinct _)
  · rw [hperform]
    exact ⟨(h.keeps hkeeps).distinct, (h.keeps hkeeps).named⟩
  · exact ⟨h.distinct, h.named⟩

/-- A table without a handle is not there. -/
theorem Named.table?_eq_none (h : s.Named) (hids : (s.tables.map Table.id).Nodup) {id : TableId}
    (hnone : ∀ name t, s.table? name = some t → t.id ≠ id) : s.snapshot.table? id = none := by
  refine Session.table?_eq_none fun t ht hid => ?_
  obtain ⟨name, hname⟩ := h.named t ht
  refine hnone name t ?_ hid
  unfold table?
  rw [hname]
  exact table?_id hids ht

end Session

namespace World

variable {w : World}

theorem Reachable.named (h : w.Reachable) : w.session.Named := by
  refine h.induction (motive := fun w => w.session.Named) ?_ fun _ op hnamed => hnamed.perform op
  intro filesPath
  refine ⟨List.nodup_nil, ?_⟩
  intro t ht
  cases ht

-- ============================================================== the law

/-- What is registered is a rule of a document of the log, with the
dictionary that it was compiled from. -/
theorem Sound.exists_trail_of_registered {w : World} (h : w.Sound) {t : Table} {scope : String}
    {entry : Entry} (ht : t ∈ w.session.tables) (hentry : t.registry.get? scope = some entry) :
    ∃ j ∈ w.log, j.table.id = t.id ∧ entry.root = j.root
      ∧ ∃ d outer, j.Trail ((entry.node, d) :: outer) := by
  obtain ⟨j, hj, hid, hroot, hnode⟩ := h.registered t ht _ (Assoc.mem_of_get?_eq_some hentry)
  exact ⟨j, hj, hid, hroot,
    Compilation.exists_trail_of_mem_rules (mem_rules_of_mem_declarations hnode)⟩

/-- A name that is kept is not the empty one. -/
theorem filter_ne_empty {n : String} (h : n ≠ "") :
    (some n).filter (fun n => n ≠ "") = some n := by
  rw [Option.filter_some, if_pos (decide_eq_true h)]

/-- What an include of another grammar means: without a handle to its table,
or without a rule for the scope, nothing; with no name, or an empty one, the
rule; and with a name the rule's own entry of that name, if the ids were not
compacted between the two documents. -/
theorem target_eq_foreign (hw : w.Reachable) {k : Compilation} (hk : k ∈ w.log)
    (hroom : w.allocations k.table.id ≤ RuleId.largest) {r : Rule} {d : Document}
    {outer : List (Rule × Document)} (htrail : k.Trail ((r, d) :: outer)) {place : Place}
    {source : Document} {p : Reference}
    (hp : .node place source (.reference p) ∈ k.contents r d) {scope : String}
    {name : Option String}
    (htext : (source.getString? Vocabulary.includeKey).getD "" = Include.written scope name)
    (hscope : '#' ∉ scope.toList) (hstart : scope ≠ "" ∨ name = none)
    (hself : Vocabulary.isSelfWord (Include.written scope name) = false) :
    ((∀ handle t, w.session.table? handle = some t → t.id ≠ k.table.id) →
      w.session.snapshot.target p = .rule .empty)
    ∧ ∀ handle t, w.session.table? handle = some t → t.id = k.table.id →
      (t.registry.get? scope = none → w.session.snapshot.target p = .rule .empty)
      ∧ ∀ entry, t.registry.get? scope = some entry →
        (name = none ∨ name = some "" → w.session.snapshot.target p = .rule entry.node)
        ∧ ∀ n, name = some n → n ≠ "" →
          ∃ j ∈ w.log, j.table.id = k.table.id ∧ entry.root = j.root
            ∧ ∃ e inner, j.Trail ((entry.node, e) :: inner)
              ∧ w.session.snapshot.target p
                = (if k.epoch = j.epoch then (j.entryNamed? entry.node e n).getD (.rule .empty)
                  else .rule .empty)
              ∧ (j.entries entry.node e n).map Prod.fst = e.entriesNamed n := by
  have htarget : Outline.targetOf source = .foreign scope (name.filter fun n => n ≠ "") := by
    rw [Outline.targetOf, htext]
    exact Include.ofText_written hscope hstart hself
  have hreference : p = .foreign k.table.id (k.context.symbol scope)
      ((name.filter fun n => n ≠ "").map k.context.ruleId) (some r.id) := by
    rw [htrail.reference_eq hp, htarget]
    rfl
  have hsymbol : (k.context.symbol scope).text = scope := k.context.interner.text_intern scope
  refine ⟨?_, ?_⟩
  · intro hnone
    rw [hreference, Snapshot.target_foreign,
      hw.named.table?_eq_none hw.sound.distinct hnone]
    rfl
  · intro handle t ht hid
    have hmem := (Session.mem_of_table?_eq_some ht).1
    have hfound := Session.table?_id hw.sound.distinct hmem
    rw [hid] at hfound
    rw [hreference, Snapshot.target_foreign, hfound, Option.map_some, Option.getD_some, hsymbol]
    refine ⟨?_, ?_⟩
    · intro hentry
      have hlookup : t.lookup scope = .empty := by rw [Table.lookup, hentry]
      rw [hlookup]
      cases name.filter fun n => n ≠ "" <;> rfl
    · intro entry hentry
      have hlookup : t.lookup scope = entry.node := by rw [Table.lookup, hentry]
      rw [hlookup]
      refine ⟨?_, ?_⟩
      · intro hname
        rcases hname with rfl | rfl
        · rfl
        · rfl
      · intro n hname hne
        subst hname
        obtain ⟨j, hj, hjid, hroot, e, inner, hinner⟩ :=
          hw.sound.exists_trail_of_registered hmem hentry
        obtain ⟨issued, haccounts⟩ := hw.sound.accounted k.table.id hroom
        have hmentioned : n ∈ (Outline.ofDocument k.document).names := by
          refine htrail.mem_names (Compilation.mem_names_of_reference_mem_contents hp ?_)
          rw [htarget, filter_ne_empty hne]
          rfl
        have hanswer := hinner.entryAt?_eq haccounts.distinct (haccounts.compiled k hk rfl)
          (haccounts.compiled j hj (hjid.trans hid)) hmentioned
        refine ⟨j, hj, hjid.trans hid, hroot, e, inner, hinner, ?_, j.map_fst_entries _ _ _⟩
        rw [filter_ne_empty hne, Option.map_some]
        show ((entry.node).entryAt? (k.context.ruleId n)).getD (.rule .empty) = _
        rw [hanswer]
        split <;> rfl

-- ------------------------------------------------------------- a document

/-- A grammar that includes an entry of another one. -/
def including : Document :=
  [("scopeName", .string "host"), ("patterns", .array [.dict [("include", .string "guest#x")]])]

/-- The other grammar. -/
def included : Document :=
  [("scopeName", .string "guest"), ("repository", .dict [("x", .dict [("name", .string "found")])])]

def includingCompilation : Compilation := ⟨.new ⟨1⟩, .empty, including, 0⟩

/-- The other grammar is loaded later, in the same session of ids. -/
def includedWorld : World := run "" [.newTable "t", .add "t" including, .add "t" included]

/-- The include means the entry of the other grammar. -/
theorem target_eq_foreign_included :
    ∃ j ∈ includedWorld.log, ∃ node, ∃ e inner, j.Trail ((node, e) :: inner)
      ∧ includedWorld.session.snapshot.target
          (.foreign ⟨1⟩ ⟨"guest", 1⟩ (some ⟨1⟩) (some ⟨⟨1⟩, 1⟩))
        = if 0 = j.epoch then (j.entryNamed? node e "x").getD (.rule .empty) else .rule .empty := by
  have hp : Piece.node .child [("include", .string "guest#x")]
      (.reference (.foreign ⟨1⟩ ⟨"guest", 1⟩ (some ⟨1⟩) (some ⟨⟨1⟩, 1⟩)))
        ∈ includingCompilation.contents includingCompilation.root including :=
    .tail _ (.head _)
  have htext : (Document.getString? [("include", .string "guest#x")] Vocabulary.includeKey).getD ""
      = Include.written "guest" (some "x") := rfl
  obtain ⟨t, entry, ht, hid, hentry⟩ : ∃ t entry, includedWorld.session.table? "t" = some t
      ∧ t.id = ⟨1⟩ ∧ t.registry.get? "guest" = some entry := ⟨_, _, rfl, rfl, rfl⟩
  have hmeaning := (target_eq_foreign (w := includedWorld) ⟨"", _, rfl⟩
    (k := includingCompilation) (.head _) (by decide) .root hp htext (by decide)
    (.inl (by decide)) (by decide)).2 "t" t ht hid
  obtain ⟨j, hj, -, -, e, inner, hinner, htarget, -⟩ :=
    (hmeaning.2 entry hentry).2 "x" rfl (by decide)
  exact ⟨j, hj, entry.node, e, inner, hinner, htarget⟩

end World

end ScopeRules
