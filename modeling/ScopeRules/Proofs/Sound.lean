/-
What holds of every world that a run leads to. `World.Sound` is one
invariant in parts: table ids are apart, numbers go up and documents of the
log do not share them, what is registered or kept comes from the log, and
for every table that has not run out of ids there is a record of all the
ids that it has issued.

# How it is kept

Every part is checked against what one operation can do, which Run.lean has
listed once (`World.exists_changed`), and never against the operations
themselves. `Sound.perform` is the step and `Reachable.sound` the run.
-/
import ScopeRules.Proofs.Entries
import ScopeRules.Proofs.Run

namespace ScopeRules

-- ======================================================== the invariant

/-- Whether what a scope is registered with comes from a document of the
log that was added to the table `id`. -/
def Registered (log : List Compilation) (id : TableId) (p : String × Entry) : Prop :=
  ∃ k ∈ log, k.table.id = id ∧ p.2.root = k.root ∧ (p.1, p.2.node) ∈ k.grammar.declarations

namespace World

/-- Whether a record is that of all the ids that a table has issued. -/
structure Accounts (w : World) (id : TableId) (issued : List (Nat × String)) : Prop where
  counted : issued.length = w.allocations id
  distinct : issued.Nodup
  compiled : ∀ k ∈ w.log, k.table.id = id → RuleIds.Recorded k.context.ruleIds k.epoch issued
  current : ∀ t ∈ w.session.tables, t.id = id →
    RuleIds.Issued t.ruleIds (w.compactions id) issued

/-- What holds of every world that a run leads to. -/
structure Sound (w : World) : Prop where
  distinct : (w.session.tables.map Table.id).Nodup
  made : ∀ t ∈ w.session.tables, t.id.serial ≤ w.session.tablesMade
  logged : ∀ k ∈ w.log, k.table.id.serial ≤ w.session.tablesMade
  coherent : Coherent w.log
  numbered : ∀ t ∈ w.session.tables, ∀ k ∈ w.log, k.table.id = t.id → k.last ≤ t.compiled
  registered : ∀ t ∈ w.session.tables, ∀ p ∈ t.registry, Registered w.log t.id p
  handled : ∀ p ∈ w.session.nodeNames, Known w.log p.2
  unmade : ∀ id : TableId, w.session.tablesMade < id.serial →
    w.compactions id = 0 ∧ w.allocations id = 0
  accounted : ∀ id, w.allocations id ≤ RuleId.largest → ∃ issued, w.Accounts id issued

variable {w : World}

/-- A rule that declares a scope is a rule of the document. -/
theorem mem_rules_of_mem_declarations {k : Compilation} {p : String × Rule}
    (h : p ∈ k.grammar.declarations) : p.2 ∈ k.rules := by
  obtain ⟨r, hr, hp⟩ := List.mem_filterMap.1 h
  obtain ⟨scope, -, rfl⟩ := Option.map_eq_some_iff.1 hp
  exact hr

/-- What is held and registered comes from the log. -/
theorem Sound.from (h : w.Sound) : w.session.snapshot.From w.log := by
  refine ⟨?_, ?_⟩
  · intro r hr
    rcases List.mem_append.1 hr with hr | hr
    · obtain ⟨t, ht, hr⟩ := List.mem_flatMap.1 hr
      obtain ⟨p, hp, hr⟩ := List.mem_flatMap.1 hr
      obtain ⟨k, hk, -, hroot, hnode⟩ := h.registered t ht p hp
      rcases List.mem_cons.1 hr with rfl | hr
      · exact .inr ⟨k, hk, mem_rules_of_mem_declarations hnode⟩
      · rw [List.mem_singleton.1 hr, hroot]
        exact .inr ⟨k, hk, k.root_mem_rules⟩
    · obtain ⟨⟨name, x⟩, hx, hr⟩ := List.mem_filterMap.1 hr
      cases x with
      | rule s =>
        cases hr
        exact h.handled _ hx
      | reference p => cases hr
  · intro t ht p hp
    obtain ⟨k, hk, -, -, hnode⟩ := h.registered t ht p hp
    exact .inr ⟨k, hk, mem_rules_of_mem_declarations hnode⟩

theorem sound_start (filesPath : String) : (start filesPath).Sound where
  distinct := List.nodup_nil
  made := by
    intro t ht
    cases ht
  logged := by
    intro k hk
    cases hk
  coherent := List.Pairwise.nil
  numbered := by
    intro t ht
    cases ht
  registered := by
    intro t ht
    cases ht
  handled := by
    intro p hp
    cases hp
  unmade := by
    intro id _
    exact ⟨rfl, rfl⟩
  accounted := by
    intro id _
    refine ⟨[], rfl, List.nodup_nil, ?_, ?_⟩
    · intro k hk
      cases hk
    · intro t ht
      cases ht

end World

-- ======================================================= what is named

namespace Session

variable {s : Session}

/-- Whether two sessions have the same tables, but for what is in them, and
the same handles. -/
structure Keeps (s after : Session) : Prop where
  ids : after.tables.map Table.id = s.tables.map Table.id
  tablesMade : after.tablesMade = s.tablesMade
  tableNames : after.tableNames = s.tableNames
  nodeNames : after.nodeNames = s.nodeNames

theorem keeps_self (s : Session) : s.Keeps s := ⟨rfl, rfl, rfl, rfl⟩

theorem keeps_putTable (s : Session) (t : Table) : s.Keeps (s.putTable t) :=
  ⟨s.map_id_putTable t, rfl, rfl, rfl⟩

theorem keeps_inTable (s : Session) (name : String) {f : Table → Session}
    (hf : ∀ t, s.Keeps (f t)) : s.Keeps (s.inTable name f) := by
  rw [inTable]
  split
  · exact hf _
  · exact s.keeps_self

theorem Asked.keeps {table : String} {after : Session} (h : s.Asked table after) :
    s.Keeps after := by
  rcases h with rfl | ⟨t, names, -, rfl⟩
  · exact keeps_self _
  · exact s.keeps_putTable _

/-- What an operation does to tables as a whole and to handles. -/
theorem perform_handles (s : Session) (op : Operation) :
    s.Keeps (s.perform op)
    ∨ (∃ name, op = .newTable name)
    ∨ (∃ name other, op = .cloneTable name other)
    ∨ (∃ name, op = .dropTable name)
    ∨ (∃ name walk x after, op = .hold name walk ∧ (s.walk walk).1 = .ok x ∧ s.Keeps after
        ∧ s.perform op = after.hold name x)
    ∨ ∃ name, op = .release name := by
  have hadd : ∀ t d, s.Keeps (s.add t d).2.2 := by
    intro t d
    exact ⟨s.map_id_putTable _, rfl, rfl, rfl⟩
  cases op with
  | newTable name => exact .inr (.inl ⟨name, rfl⟩)
  | cloneTable name other => exact .inr (.inr (.inl ⟨name, other, rfl⟩))
  | dropTable name => exact .inr (.inr (.inr (.inl ⟨name, rfl⟩)))
  | release name => exact .inr (.inr (.inr (.inr (.inr ⟨name, rfl⟩))))
  | add name d => exact .inl (s.keeps_inTable name fun t => hadd t d)
  | clear name => exact .inl (s.keeps_inTable name fun t => s.keeps_putTable _)
  | compact name => exact .inl (s.keeps_inTable name fun t => s.keeps_putTable _)
  | ruleId name entry => exact .inl (s.keeps_inTable name fun t => s.keeps_putTable _)
  | intern text => exact .inl ⟨rfl, rfl, rfl, rfl⟩
  | clearInterner => exact .inl ⟨rfl, rfl, rfl, rfl⟩
  | hold name walk =>
    have hkeeps := (s.asked_walk walk).keeps
    rw [perform]
    split
    · rename_i x after heq
      rw [heq] at hkeeps
      exact .inr (.inr (.inr (.inr (.inl ⟨name, walk, x, after, rfl, by rw [heq], hkeeps, rfl⟩))))
    · rename_i after heq
      rw [heq] at hkeeps
      exact .inl hkeeps

/-- Tables keep their ids, and a new one gets the next. -/
theorem map_id_perform (s : Session) (op : Operation) :
    ((s.perform op).tables.map Table.id).Sublist
      (s.tables.map Table.id ++ [⟨s.tablesMade + 1⟩]) := by
  rcases s.perform_handles op with hkeeps | ⟨name, rfl⟩ | ⟨name, other, rfl⟩ | ⟨name, rfl⟩
    | ⟨name, walk, x, after, -, -, hkeeps, hperform⟩ | ⟨name, rfl⟩
  · rw [hkeeps.ids]
    exact List.sublist_append_left _ _
  · have hmade : s.tables.map Table.id ++ [⟨s.tablesMade + 1⟩]
        = (s.tables ++ [Table.new ⟨s.tablesMade + 1⟩]).map Table.id := by
      rw [List.map_append]
      rfl
    rw [hmade]
    exact List.filter_sublist.map _
  · show ((s.cloneTable name other).tables.map Table.id).Sublist _
    unfold cloneTable
    split
    · exact List.sublist_append_left _ _
    · exact (List.filter_sublist.map _).trans (List.sublist_append_left _ _)
  · exact (List.filter_sublist.map _).trans (List.sublist_append_left _ _)
  · rw [hperform]
    show (after.tables.map Table.id).Sublist _
    rw [hkeeps.ids]
    exact List.sublist_append_left _ _
  · exact List.sublist_append_left _ _

theorem tablesMade_le_perform (s : Session) (op : Operation) :
    s.tablesMade ≤ (s.perform op).tablesMade := by
  rcases s.perform_handles op with hkeeps | ⟨name, rfl⟩ | ⟨name, other, rfl⟩ | ⟨name, rfl⟩
    | ⟨name, walk, x, after, -, -, hkeeps, hperform⟩ | ⟨name, rfl⟩
  · exact Nat.le_of_eq hkeeps.tablesMade.symm
  · exact Nat.le_succ _
  · show s.tablesMade ≤ (s.cloneTable name other).tablesMade
    unfold cloneTable
    split <;> exact Nat.le_refl _
  · exact Nat.le_refl _
  · rw [hperform]
    exact Nat.le_of_eq hkeeps.tablesMade.symm
  · exact Nat.le_refl _

/-- A handle to a node is an old one, or was made to what a walk reached. -/
theorem mem_nodeNames_perform {op : Operation} {p : String × Node}
    (h : p ∈ (s.perform op).nodeNames) :
    p ∈ s.nodeNames ∨ ∃ walk, (s.walk walk).1 = .ok p.2 := by
  rcases s.perform_handles op with hkeeps | ⟨name, rfl⟩ | ⟨name, other, rfl⟩ | ⟨name, rfl⟩
    | ⟨name, walk, x, after, -, hreached, hkeeps, hperform⟩ | ⟨name, rfl⟩
  · exact .inl (hkeeps.nodeNames ▸ h)
  · exact .inl h
  · have hclone : p ∈ (s.cloneTable name other).nodeNames := h
    unfold cloneTable at hclone
    split at hclone <;> exact .inl hclone
  · exact .inl h
  · rw [hperform] at h
    rcases Assoc.mem_of_mem_put h with rfl | h
    · exact .inr ⟨walk, hreached⟩
    · exact .inl (hkeeps.nodeNames ▸ h)
  · exact .inl ((Assoc.erase_sublist _ _).subset h)

end Session

-- ================================================================ one step

namespace World

variable {w : World}

/-- What an operation compiles in a table does not remove the table. -/
theorem mem_map_id_of_mem_compiles {op : Operation} {k : Compilation} (h : k ∈ w.compiles op) :
    k.table ∈ w.session.tables
      ∧ k.table.id ∈ (w.perform op).session.tables.map Table.id := by
  obtain ⟨name, d, rfl, ht⟩ := table_of_mem_compiles h
  have hmem := (Session.mem_of_table?_eq_some ht).1
  refine ⟨hmem, ?_⟩
  have htables : (w.perform (.add name d)).session.tables
      = (w.session.putTable (k.table.add w.session.interner d).table).tables :=
    Session.inTable_some ht
  rw [htables, Session.map_id_putTable]
  exact List.mem_map_of_mem hmem

theorem Sound.nodup_next (h : w.Sound) :
    (w.session.tables.map Table.id ++ [TableId.mk (w.session.tablesMade + 1)]).Nodup := by
  refine List.nodup_append.2 ⟨h.distinct, by simp, ?_⟩
  intro a ha b hb hab
  obtain ⟨t, ht, rfl⟩ := List.mem_map.1 ha
  rw [List.mem_singleton.1 hb] at hab
  have hmade := h.made t ht
  rw [hab] at hmade
  exact absurd hmade (Nat.not_succ_le_self _)

theorem Sound.distinct_perform (h : w.Sound) (op : Operation) :
    ((w.perform op).session.tables.map Table.id).Nodup :=
  (w.session.map_id_perform op).nodup h.nodup_next

theorem Sound.coherent_perform (h : w.Sound) (op : Operation) :
    Coherent (w.perform op).log := by
  refine List.pairwise_append.2 ⟨h.coherent, ?_, ?_⟩
  · cases op with
    | add name d =>
      rw [compiles]
      split
      · exact List.pairwise_singleton _ _
      · exact List.Pairwise.nil
    | _ => exact List.Pairwise.nil
  · intro j hj k hk hid
    have hlast := h.numbered k.table (mem_map_id_of_mem_compiles hk).1 j hj hid
    unfold Compilation.first
    omega

theorem Sound.made_perform (h : w.Sound) (op : Operation) :
    ∀ t ∈ (w.perform op).session.tables, t.id.serial ≤ (w.perform op).session.tablesMade := by
  intro u hu
  rcases exists_changed hu with ⟨rfl, hmade⟩ | ⟨t, ht, hchanged⟩
  · rw [hmade]
    exact Nat.le_refl _
  · rw [hchanged.id]
    exact Nat.le_trans (h.made t ht) (w.session.tablesMade_le_perform op)

theorem Sound.logged_perform (h : w.Sound) (op : Operation) :
    ∀ k ∈ (w.perform op).log, k.table.id.serial ≤ (w.perform op).session.tablesMade := by
  intro k hk
  refine Nat.le_trans ?_ (w.session.tablesMade_le_perform op)
  rcases List.mem_append.1 hk with hk | hk
  · exact h.logged k hk
  · exact h.made k.table (mem_map_id_of_mem_compiles hk).1

theorem Sound.numbered_perform (h : w.Sound) (op : Operation) :
    ∀ t ∈ (w.perform op).session.tables, ∀ k ∈ (w.perform op).log,
      k.table.id = t.id → k.last ≤ t.compiled := by
  intro u hu k hk hid
  rcases exists_changed hu with ⟨rfl, hmade⟩ | ⟨t, ht, hchanged⟩
  · have hserial : k.table.id.serial = w.session.tablesMade + 1 := congrArg TableId.serial hid
    rcases List.mem_append.1 hk with hk | hk
    · have hlogged := h.logged k hk
      omega
    · have hlogged := h.made k.table (mem_map_id_of_mem_compiles hk).1
      omega
  · rw [hchanged.id] at hid
    rcases hchanged.log k hk hid with hk | ⟨-, -, hlast, -⟩
    · exact Nat.le_trans (h.numbered t ht k hk hid) hchanged.compiled
    · exact Nat.le_of_eq hlast

theorem Sound.registered_perform (h : w.Sound) (op : Operation) :
    ∀ t ∈ (w.perform op).session.tables, ∀ p ∈ t.registry,
      Registered (w.perform op).log t.id p := by
  intro u hu p hp
  rcases exists_changed hu with ⟨rfl, -⟩ | ⟨t, ht, hchanged⟩
  · cases hp
  · rw [hchanged.id]
    rcases hchanged.registry p hp with hp | ⟨k, hk, rfl, hroot, hnode⟩
    · obtain ⟨k, hk, hid, hentry⟩ := h.registered t ht p hp
      exact ⟨k, List.mem_append_left _ hk, hid, hentry⟩
    · exact ⟨k, hk, rfl, hroot, hnode⟩

theorem Sound.handled_perform (h : w.Sound) (op : Operation) :
    ∀ p ∈ (w.perform op).session.nodeNames, Known (w.perform op).log p.2 := by
  intro p hp
  refine Known.append ?_ (w.compiles op)
  rcases Session.mem_nodeNames_perform hp with hp | ⟨walk, hreached⟩
  · exact h.handled p hp
  · exact Session.known_walk h.from h.handled hreached

theorem exists_of_compacts {op : Operation} {id : TableId}
    (h : w.session.compacts id op = true) : ∃ t ∈ w.session.tables, t.id = id := by
  cases op with
  | compact name =>
    rw [Session.compacts] at h
    cases ht : w.session.table? name with
    | none =>
      rw [ht] at h
      cases h
    | some t =>
      rw [ht] at h
      exact ⟨t, (Session.mem_of_table?_eq_some ht).1, of_decide_eq_true h⟩
  | _ => cases h

/-- A table that is yet to be made has no history. -/
theorem Sound.unmade_next (h : w.Sound) (op : Operation) {id : TableId}
    (hid : w.session.tablesMade < id.serial) :
    (w.perform op).compactions id = 0 ∧ w.allocations id = 0
      ∧ ∀ k ∈ (w.perform op).log, k.table.id ≠ id := by
  obtain ⟨hcompactions, hallocations⟩ := h.unmade id hid
  refine ⟨?_, hallocations, ?_⟩
  · rw [compactions_perform, hcompactions]
    refine Bool.eq_false_iff.2 fun hcompacts => ?_
    obtain ⟨t, ht, rfl⟩ := exists_of_compacts hcompacts
    exact absurd (h.made t ht) (Nat.not_le.2 hid)
  · intro k hk heq
    subst heq
    rcases List.mem_append.1 hk with hk | hk
    · exact absurd (h.logged k hk) (Nat.not_le.2 hid)
    · exact absurd (h.made k.table (mem_map_id_of_mem_compiles hk).1) (Nat.not_le.2 hid)

theorem Sound.unmade_perform (h : w.Sound) (op : Operation) :
    ∀ id : TableId, (w.perform op).session.tablesMade < id.serial →
      (w.perform op).compactions id = 0 ∧ (w.perform op).allocations id = 0 := by
  intro id hid
  have hbefore := Nat.lt_of_le_of_lt (w.session.tablesMade_le_perform op) hid
  obtain ⟨hcompactions, hallocations, -⟩ := h.unmade_next op hbefore
  refine ⟨hcompactions, ?_⟩
  have hnames : (w.perform op).session.names id = 0 := by
    refine Session.names_eq_zero fun t ht htid => ?_
    have hmade := h.made_perform op t ht
    rw [htid] at hmade
    omega
  show w.allocations id + ((w.perform op).session.names id - w.session.names id) = 0
  omega

/-- What an operation does to a table adds to the record of its ids. -/
theorem Changed.issued {after : World} {t u : Table} (h : Changed w after t u)
    {issued : List (Nat × String)}
    (hissued : RuleIds.Issued t.ruleIds (w.compactions t.id) issued)
    (hroom : issued.length + (u.ruleIds.size - t.ruleIds.size) ≤ RuleId.largest) :
    ∃ new, new.length = u.ruleIds.size - t.ruleIds.size
      ∧ RuleIds.Issued u.ruleIds (after.compactions t.id) (issued ++ new) := by
  rcases h.ids with ⟨hcompactions, names, hids⟩ | ⟨hcompactions, hids⟩
  · rw [hids] at hroom ⊢
    rw [hcompactions]
    exact hissued.allocateAll names hroom
  · rw [hids, hcompactions]
    refine ⟨[], (Nat.zero_sub _).symm, ?_⟩
    rw [List.append_nil]
    exact hissued.compact

/-- The record of a table that is there goes on. -/
theorem Sound.accounts_of_changed (h : w.Sound) {op : Operation} {t u : Table}
    (ht : t ∈ w.session.tables) (hu : u ∈ (w.perform op).session.tables)
    (hchanged : Changed w (w.perform op) t u)
    (hroom : (w.perform op).allocations t.id ≤ RuleId.largest) :
    ∃ issued, (w.perform op).Accounts t.id issued := by
  have hallocations : (w.perform op).allocations t.id
      = w.allocations t.id + (u.ruleIds.size - t.ruleIds.size) := by
    show w.allocations t.id + ((w.perform op).session.names t.id - w.session.names t.id) = _
    rw [Session.names_id h.distinct ht, ← hchanged.id,
      Session.names_id (h.distinct_perform op) hu]
  obtain ⟨issued, haccounts⟩ := h.accounted t.id (by omega)
  have hcounted := haccounts.counted
  obtain ⟨new, hlength, hissued⟩ := hchanged.issued (haccounts.current t ht rfl) (by omega)
  refine ⟨issued ++ new, ?_, hissued.distinct, ?_, ?_⟩
  · rw [List.length_append]
    omega
  · intro k hk hid
    rcases hchanged.log k hk hid with hk | ⟨-, hepoch, -, hids⟩
    · exact (haccounts.compiled k hk hid).append new
    · rw [hids, hepoch]
      exact hissued.recorded
  · intro v hv hid
    rw [List.inj_on_of_nodup_map (h.distinct_perform op) hv hu (hid.trans hchanged.id.symm)]
    exact hissued

theorem Sound.accounted_perform (h : w.Sound) (op : Operation) :
    ∀ id, (w.perform op).allocations id ≤ RuleId.largest →
      ∃ issued, (w.perform op).Accounts id issued := by
  intro id hroom
  have hallocations : (w.perform op).allocations id
      = w.allocations id + ((w.perform op).session.names id - w.session.names id) := rfl
  by_cases hthere : ∃ u ∈ (w.perform op).session.tables, u.id = id
  · obtain ⟨u, hu, rfl⟩ := hthere
    rcases exists_changed hu with ⟨hnew, -⟩ | ⟨t, ht, hchanged⟩
    · -- a new table: nothing was issued yet
      have hserial : w.session.tablesMade < u.id.serial := by
        rw [hnew]
        exact Nat.lt_succ_self _
      obtain ⟨hcompactions, hbefore, hlog⟩ := h.unmade_next op hserial
      have hnames : (w.perform op).session.names u.id = 0 := by
        rw [Session.names_id (h.distinct_perform op) hu, hnew]
        rfl
      refine ⟨[], ?_, List.nodup_nil, ?_, ?_⟩
      · rw [hallocations, hbefore, hnames, Nat.zero_sub]
        rfl
      · intro k hk hid
        exact absurd hid (hlog k hk)
      · intro v hv hid
        rw [List.inj_on_of_nodup_map (h.distinct_perform op) hv hu hid, hcompactions, hnew]
        exact RuleIds.issued_empty
    · rw [hchanged.id] at hroom ⊢
      exact h.accounts_of_changed ht hu hchanged hroom
  · -- the table is not there: its record is closed
    have hgone : ∀ u ∈ (w.perform op).session.tables, u.id ≠ id := by
      intro u hu hid
      exact hthere ⟨u, hu, hid⟩
    rw [Session.names_eq_zero hgone] at hallocations
    obtain ⟨issued, haccounts⟩ := h.accounted id (by omega)
    refine ⟨issued, ?_, haccounts.distinct, ?_, ?_⟩
    · have hcounted := haccounts.counted
      omega
    · intro k hk hid
      rcases List.mem_append.1 hk with hk | hk
      · exact haccounts.compiled k hk hid
      · obtain ⟨u, hu, huid⟩ := List.mem_map.1 (mem_map_id_of_mem_compiles hk).2
        exact absurd (huid.trans hid) (hgone u hu)
    · intro u hu hid
      exact absurd hid (hgone u hu)

-- ================================================================ the run

/-- Operations keep the invariant. -/
theorem Sound.perform (h : w.Sound) (op : Operation) : (w.perform op).Sound where
  distinct := h.distinct_perform op
  made := h.made_perform op
  logged := h.logged_perform op
  coherent := h.coherent_perform op
  numbered := h.numbered_perform op
  registered := h.registered_perform op
  handled := h.handled_perform op
  unmade := h.unmade_perform op
  accounted := h.accounted_perform op

/-- Whether some operations lead to a world, from the start. -/
def Reachable (w : World) : Prop := ∃ filesPath ops, w = run filesPath ops

/-- What holds at the start and is kept by operations holds of every world
that a run leads to. -/
theorem Reachable.induction {motive : World → Prop} (start : ∀ filesPath, motive (start filesPath))
    (perform : ∀ w op, motive w → motive (w.perform op)) (h : w.Reachable) : motive w := by
  obtain ⟨filesPath, ops, rfl⟩ := h
  unfold run
  have hfold : ∀ v, motive v → motive (ops.foldl World.perform v) := by
    induction ops with
    | nil => exact fun _ hv => hv
    | cons op ops ih => exact fun v hv => ih _ (perform v op hv)
  exact hfold _ (start filesPath)

/-- Every run keeps the invariant. -/
theorem Reachable.sound (h : w.Reachable) : w.Sound :=
  h.induction sound_start fun _ op hsound => hsound.perform op

end World

end ScopeRules
