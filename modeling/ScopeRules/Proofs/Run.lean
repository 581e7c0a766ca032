/-
Runs of a session, with what has to be remembered of them. An `Operation` is
one thing that a caller can do: make, share and drop tables, add documents,
clear, compact, ask for ids and symbols, keep what a walk reaches, and let
go of it. A `World` is the session together with three records that no
operation reads:

- the log: what was compiled, oldest first, as `Compilation`s;
- how often the ids of a table were compacted;
- how many ids a table has allocated, in all its sessions.

# What one operation does to a table

Tables go away, come new, or change one at a time. `Changed` lists all that
a change can be, with what the records say of it, and `exists_changed` says
that nothing else happens to a table. The invariants of a run
(Sound.lean) are derived from this and look at no operation again.
-/
import Mathlib.Data.String.Basic
import ScopeRules.Proofs.Alive
import ScopeRules.Proofs.Dictionaries

namespace ScopeRules

-- ========================================================== operations

/-- One thing that a caller can do to a session. -/
inductive Operation where
  | newTable (name : String)
  | cloneTable (name other : String)
  | dropTable (name : String)
  | add (table : String) (document : Document)
  | clear (table : String)
  | compact (table : String)
  /-- Asks for the id of an entry name. -/
  | ruleId (table : String) (name : String)
  | intern (text : String)
  | clearInterner
  /-- Makes a name a handle to what a walk reaches, if it reaches something. -/
  | hold (name : String) (walk : Walk)
  /-- Drops a handle to a node. -/
  | release (name : String)
  deriving Inhabited

namespace Session

/-- Does something in the table that a name is a handle to, if there is
one. -/
def inTable (s : Session) (name : String) (f : Table → Session) : Session :=
  match s.table? name with
  | some t => f t
  | none => s

/-- The session after an operation. -/
def perform (s : Session) : Operation → Session
  | .newTable name => s.newTable name
  | .cloneTable name other => s.cloneTable name other
  | .dropTable name => s.dropTable name
  | .add table d => s.inTable table fun t => (s.add t d).2.2
  | .clear table => s.inTable table fun t => (s.clear t).2
  | .compact table => s.inTable table fun t => (s.compact t).2
  | .ruleId table name => s.inTable table fun t => (s.ruleId t name).2
  | .intern text => (s.intern text).2
  | .clearInterner => s.clearInterner
  | .hold name walk =>
    match s.walk walk with
    | (.ok x, after) => after.hold name x
    | (.error _, after) => after
  | .release name => s.release name

/-- Whether an operation compacts the ids of a table. -/
def compacts (s : Session) (id : TableId) : Operation → Bool
  | .compact name => (s.table? name).any fun t => t.id = id
  | _ => false

/-- The number of names in a table's session of ids. -/
def names (s : Session) (id : TableId) : Nat :=
  ((s.snapshot.table? id).map fun t => t.ruleIds.size).getD 0

end Session

-- =============================================================== worlds

/-- A session with the records of how it came about. -/
structure World where
  session : Session
  /-- What was compiled, oldest first. -/
  log : List Compilation
  /-- How often the ids of a table were compacted. -/
  compactions : TableId → Nat
  /-- How many ids a table has allocated. -/
  allocations : TableId → Nat

namespace World

/-- What an operation compiles. -/
def compiles (w : World) : Operation → List Compilation
  | .add name d =>
    match w.session.table? name with
    | some t => [⟨t, w.session.interner, d, w.compactions t.id⟩]
    | none => []
  | _ => []

/-- The world after an operation. -/
def perform (w : World) (op : Operation) : World :=
  let after := w.session.perform op
  { session := after
    log := w.log ++ w.compiles op
    compactions := fun id => w.compactions id + if w.session.compacts id op then 1 else 0
    allocations := fun id => w.allocations id + (after.names id - w.session.names id) }

/-- The world in which nothing was done. -/
def start (filesPath : String) : World := ⟨.empty filesPath, [], fun _ => 0, fun _ => 0⟩

/-- The world after some operations, from the start. -/
def run (filesPath : String) (ops : List Operation) : World := ops.foldl perform (start filesPath)

end World

-- ==================================================== tables by handle

/-- The table that is found by an id has it. -/
theorem Table.mem_of_find?_eq_some {tables : List Table} {id : TableId} {t : Table}
    (h : (tables.find? fun t => t.id = id) = some t) : t ∈ tables ∧ t.id = id := by
  have hid := List.find?_some h
  exact ⟨List.mem_of_find?_eq_some h, of_decide_eq_true hid⟩

/-- The table after requests for some entry names. -/
def Table.asking (t : Table) (names : List String) : Table :=
  { t with ruleIds := t.ruleIds.allocateAll names }

/-- A table that takes the place of one with its id is found there. -/
theorem Table.find?_replace {tables : List Table} {t u : Table}
    (h : (tables.find? fun v => v.id = t.id) = some t) (hid : u.id = t.id) :
    ((tables.map fun v => if v.id = u.id then u else v).find? fun v => v.id = u.id)
      = some u := by
  induction tables with
  | nil => cases h
  | cons v rest ih =>
    rw [List.find?_cons] at h
    rw [List.map_cons, List.find?_cons]
    by_cases hv : v.id = u.id
    · rw [if_pos hv, decide_eq_true rfl]
    · rw [decide_eq_false (hid ▸ hv)] at h
      rw [if_neg hv, decide_eq_false hv]
      exact ih h

namespace Session

variable {s : Session}

theorem inTable_none {name : String} {f : Table → Session} (h : s.table? name = none) :
    s.inTable name f = s := by
  rw [inTable, h]

theorem inTable_some {name : String} {t : Table} {f : Table → Session}
    (h : s.table? name = some t) : (s.inTable name f).tables = (f t).tables := by
  rw [inTable, h]

theorem mem_of_table?_eq_some {name : String} {t : Table} (h : s.table? name = some t) :
    t ∈ s.tables ∧ s.tableNames.get? name = some t.id := by
  obtain ⟨id, hname, hfound⟩ := Option.bind_eq_some_iff.1 h
  obtain ⟨ht, rfl⟩ := Table.mem_of_find?_eq_some hfound
  exact ⟨ht, hname⟩

/-- While no two tables have one id, the id tells the table. -/
theorem table?_id (h : (s.tables.map Table.id).Nodup) {t : Table} (ht : t ∈ s.tables) :
    s.snapshot.table? t.id = some t := by
  cases hfound : s.snapshot.table? t.id with
  | none =>
    have hnone := List.find?_eq_none.1 hfound t ht
    exact absurd (decide_eq_true rfl) hnone
  | some u =>
    obtain ⟨hu, hid⟩ := Table.mem_of_find?_eq_some hfound
    rw [List.inj_on_of_nodup_map h hu ht hid]

theorem table?_eq_none {id : TableId} (h : ∀ t ∈ s.tables, t.id ≠ id) :
    s.snapshot.table? id = none := by
  refine List.find?_eq_none.2 fun t ht hid => ?_
  exact h t ht (of_decide_eq_true hid)

theorem names_id (h : (s.tables.map Table.id).Nodup) {t : Table} (ht : t ∈ s.tables) :
    s.names t.id = t.ruleIds.size := by
  rw [names, table?_id h ht]
  rfl

theorem names_eq_zero {id : TableId} (h : ∀ t ∈ s.tables, t.id ≠ id) : s.names id = 0 := by
  rw [names, table?_eq_none h]
  rfl

-- ==================================================== changing a table

theorem mem_putTable {t u : Table} (h : u ∈ (s.putTable t).tables) :
    u = t ∨ (u ∈ s.tables ∧ u.id ≠ t.id) := by
  obtain ⟨v, hv, rfl⟩ := List.mem_map.1 h
  split
  · exact .inl rfl
  · exact .inr ⟨hv, ‹_›⟩

theorem map_id_putTable (s : Session) (t : Table) :
    (s.putTable t).tables.map Table.id = s.tables.map Table.id := by
  show (s.tables.map _).map Table.id = _
  rw [List.map_map]
  refine List.map_congr_left fun u _ => ?_
  show (if u.id = t.id then t else u).id = u.id
  split
  · exact Eq.symm ‹_›
  · rfl

theorem putTable_putTable (s : Session) {t u : Table} (h : t.id = u.id) :
    (s.putTable t).putTable u = s.putTable u := by
  unfold putTable
  congr 1
  show (s.tables.map _).map _ = s.tables.map _
  rw [List.map_map]
  refine List.map_congr_left fun v _ => ?_
  show (if (if v.id = t.id then t else v).id = u.id then u else if v.id = t.id then t else v)
    = if v.id = u.id then u else v
  by_cases hv : v.id = t.id
  · rw [if_pos hv, if_pos h, if_pos (hv.trans h)]
  · rw [if_neg hv]

/-- A changed table is found under the names of the table it was. -/
theorem table?_putTable {name : String} {t u : Table} (h : s.table? name = some t)
    (hid : u.id = t.id) : (s.putTable u).table? name = some u := by
  obtain ⟨id, hname, hfound⟩ := Option.bind_eq_some_iff.1 h
  obtain ⟨-, rfl⟩ := Table.mem_of_find?_eq_some hfound
  show (s.tableNames.get? name).bind _ = _
  rw [hname, ← hid]
  exact Table.find?_replace hfound hid

-- ================================================================ walks

/-- Whether a session differs from `s` at most in names that were asked for
in the table that `table` is a handle to. -/
def Asked (s : Session) (table : String) (after : Session) : Prop :=
  after = s ∨ ∃ t names, s.table? table = some t
    ∧ after = s.putTable (t.asking names)

theorem Asked.trans {table : String} {a b : Session} (ha : s.Asked table a)
    (hb : a.Asked table b) : s.Asked table b := by
  rcases ha with rfl | ⟨t, names, ht, rfl⟩
  · exact hb
  · rcases hb with rfl | ⟨u, more, hu, rfl⟩
    · exact .inr ⟨t, names, ht, rfl⟩
    · rw [table?_putTable (u := t.asking names) ht rfl] at hu
      cases hu
      refine .inr ⟨t, names ++ more, ht, ?_⟩
      have hid : (t.asking names).id = ((t.asking names).asking more).id := rfl
      rw [putTable_putTable s hid]
      unfold Table.asking RuleIds.allocateAll
      rw [List.foldl_append]

/-- Names that were asked for keep nothing alive and register nothing. -/
theorem Asked.from {table : String} {after : Session} {log : List Compilation}
    (h : s.Asked table after) (hs : s.snapshot.From log) : after.snapshot.From log := by
  rcases h with rfl | ⟨t, names, ht, rfl⟩
  · exact hs
  · have hregistry : ∀ u ∈ (s.putTable (t.asking names)).tables,
        ∃ v ∈ s.tables, u.registry = v.registry := by
      intro u hu
      rcases mem_putTable hu with rfl | ⟨hu, -⟩
      · exact ⟨t, (mem_of_table?_eq_some ht).1, rfl⟩
      · exact ⟨u, hu, rfl⟩
    refine ⟨?_, ?_⟩
    · intro r hr
      rcases List.mem_append.1 hr with hr | hr
      · obtain ⟨u, hu, hr⟩ := List.mem_flatMap.1 hr
        obtain ⟨v, hv, heq⟩ := hregistry u hu
        rw [heq] at hr
        exact hs.held r (List.mem_append_left _ (List.mem_flatMap_of_mem hv hr))
      · exact hs.held r (List.mem_append_right _ hr)
    · intro u hu p hp
      obtain ⟨v, hv, heq⟩ := hregistry u hu
      rw [heq] at hp
      exact hs.registered v hv p hp

theorem asked_walkStep (s : Session) (table : String) (x : Node) (step : WalkStep) :
    s.Asked table (s.walkStep table x step).2 := by
  unfold walkStep
  split
  · rename_i name t ht
    exact .inr ⟨t, [name], ht, rfl⟩
  · exact .inl rfl

theorem asked_walkSteps (s : Session) (table : String) (x : Node) (index : Nat)
    (steps : List WalkStep) : s.Asked table (s.walkSteps table x index steps).2 := by
  induction steps generalizing s x index with
  | nil => exact .inl rfl
  | cons step rest ih =>
    have hstep := s.asked_walkStep table x step
    rw [walkSteps]
    split
    · rename_i y after heq
      rw [heq] at hstep
      exact hstep.trans (ih after y (index + 1))
    · rename_i after heq
      rw [heq] at hstep
      exact hstep

/-- A walk does nothing but ask for names. -/
theorem asked_walk (s : Session) (w : Walk) : s.Asked w.table (s.walk w).2 := by
  unfold walk
  split
  · exact s.asked_walkSteps w.table _ 0 w.steps
  · exact .inl rfl

/-- Keeping what a walk reaches leaves the tables as the walk left them. -/
theorem tables_perform_hold (s : Session) (name : String) (w : Walk) :
    (s.perform (.hold name w)).tables = (s.walk w).2.tables := by
  rw [perform]
  split
  · rename_i heq
    rw [heq]
    rfl
  · rename_i heq
    rw [heq]

theorem known_walkStep {log : List Compilation} (hs : s.snapshot.From log) {table : String}
    {x y : Node} {step : WalkStep} (hx : Known log x)
    (h : (s.walkStep table x step).1 = some y) : Known log y := by
  unfold walkStep at h
  split at h
  · rename_i name t ht
    have hnext : s.snapshot.next? (fun _ => some (s.ruleId t name).1) x (.entry name) = some y := h
    exact hs.known_next? hx hnext
  · exact hs.known_next? hx h

theorem known_walkSteps {log : List Compilation} (hs : s.snapshot.From log) {table : String}
    {x y : Node} {index : Nat} {steps : List WalkStep} (hx : Known log x)
    (h : (s.walkSteps table x index steps).1 = .ok y) : Known log y := by
  induction steps generalizing s x index with
  | nil =>
    cases h
    exact hx
  | cons step rest ih =>
    have hasked := s.asked_walkStep table x step
    rw [walkSteps] at h
    split at h
    · rename_i z after heq
      rw [heq] at hasked
      have hz : Known log z := known_walkStep hs hx (congrArg Prod.fst heq)
      exact ih (hasked.from hs) hz h
    · cases h

/-- What a walk reaches is of the log, if the handles lead there. -/
theorem known_walk {log : List Compilation} (hs : s.snapshot.From log)
    (hhandles : ∀ p ∈ s.nodeNames, Known log p.2) {w : Walk} {x : Node}
    (h : (s.walk w).1 = .ok x) : Known log x := by
  unfold walk at h
  split at h
  · rename_i start hstart
    refine known_walkSteps hs ?_ h
    unfold walkStart at hstart
    split at hstart
    · split at hstart
      · rename_i hfound
        cases hstart
        exact hhandles _ (Assoc.mem_of_get?_eq_some hfound)
      · cases hstart
    · split at hstart
      · rename_i t ht
        cases hstart
        exact hs.known_lookup (mem_of_table?_eq_some ht).1 _
      · cases hstart
    · cases hstart
      exact .inl rfl
  · cases h

end Session

-- ============================================ what one operation does

namespace Registry

theorem before_strictOrder : Assoc.StrictOrder before :=
  Assoc.strictOrder_of_lt fun _ _ => decide_eq_true_iff

/-- Registering rules keeps a registry in order. -/
theorem publish_sorted {registry : Registry} (h : registry.Sorted before) (root : Rule)
    (rules : List (String × Rule)) : (registry.publish root rules).Sorted before := by
  induction rules generalizing registry with
  | nil => exact h
  | cons rule rest ih => exact ih (Assoc.putSorted_sorted before_strictOrder h _ _)

end Registry

namespace World

variable {w : World}

/-- What an operation may do to a table that is there before and after it. -/
structure Changed (w after : World) (t u : Table) : Prop where
  id : u.id = t.id
  compiled : t.compiled ≤ u.compiled
  /-- Names are asked for, or all of them are forgotten. -/
  ids : (after.compactions t.id = w.compactions t.id
        ∧ ∃ names, u.ruleIds = t.ruleIds.allocateAll names)
    ∨ (after.compactions t.id = w.compactions t.id + 1 ∧ u.ruleIds = t.ruleIds.compact)
  /-- What is compiled takes the numbers and ids of the table further. -/
  log : ∀ k ∈ after.log, k.table.id = t.id → k ∈ w.log
    ∨ (k.table = t ∧ k.epoch = after.compactions t.id ∧ k.last = u.compiled
      ∧ k.context.ruleIds = u.ruleIds)
  /-- What is registered declares its scope in what is compiled. -/
  registry : ∀ p ∈ u.registry, p ∈ t.registry
    ∨ ∃ k ∈ after.log, k.table = t ∧ p.2.root = k.root
      ∧ (p.1, p.2.node) ∈ k.grammar.declarations
  /-- Whatever is registered, the registry stays in order. -/
  order : t.registry.Sorted Registry.before → u.registry.Sorted Registry.before

/-- What an operation compiles, it compiles in a table of the session. -/
theorem table_of_mem_compiles {op : Operation} {k : Compilation} (h : k ∈ w.compiles op) :
    ∃ name d, op = .add name d ∧ w.session.table? name = some k.table := by
  cases op with
  | add name d =>
    rw [compiles] at h
    split at h
    · rename_i t ht
      rw [List.mem_singleton.1 h]
      exact ⟨name, d, rfl, ht⟩
    · cases h
  | _ => cases h

theorem compactions_perform {op : Operation} {id : TableId}
    (h : w.session.compacts id op = false) :
    (w.perform op).compactions id = w.compactions id := by
  show w.compactions id + (if w.session.compacts id op then 1 else 0) = _
  rw [h]
  rfl

/-- An operation that neither compiles in a table nor compacts it, and
leaves it as it is. -/
theorem changed_self {op : Operation} {t : Table}
    (hcompiles : ∀ k ∈ w.compiles op, k.table.id ≠ t.id)
    (hcompacts : w.session.compacts t.id op = false) : Changed w (w.perform op) t t where
  id := rfl
  compiled := Nat.le_refl _
  ids := .inl ⟨compactions_perform hcompacts, [], rfl⟩
  log := by
    intro k hk hid
    rcases List.mem_append.1 hk with hk | hk
    · exact .inl hk
    · exact absurd hid (hcompiles k hk)
  registry := by
    intro p hp
    exact .inl hp
  order := fun h => h

/-- An operation that changes one table leaves the other ones alone. -/
theorem exists_changed_of_putTable {op : Operation} {name : String} {t v : Table}
    (ht : w.session.table? name = some t)
    (htables : (w.perform op).session.tables = (w.session.putTable v).tables) (hid : v.id = t.id)
    (hcompiles : ∀ k ∈ w.compiles op, k.table = t)
    (hcompacts : ∀ id, id ≠ t.id → w.session.compacts id op = false)
    (hv : Changed w (w.perform op) t v) {u : Table} (hu : u ∈ (w.perform op).session.tables) :
    ∃ t ∈ w.session.tables, Changed w (w.perform op) t u := by
  rw [htables] at hu
  rcases Session.mem_putTable hu with rfl | ⟨hu, hother⟩
  · exact ⟨t, (Session.mem_of_table?_eq_some ht).1, hv⟩
  · rw [hid] at hother
    refine ⟨u, hu, changed_self ?_ (hcompacts u.id hother)⟩
    intro k hk
    rw [hcompiles k hk]
    exact Ne.symm hother

/-- Names that are asked for change nothing but the ids. -/
theorem changed_asking {op : Operation} {t : Table} (hcompiles : w.compiles op = [])
    (hcompacts : ∀ id, w.session.compacts id op = false) (names : List String) :
    Changed w (w.perform op) t (t.asking names) := by
  have hsame : Changed w (w.perform op) t t := by
    refine changed_self ?_ (hcompacts t.id)
    rw [hcompiles]
    intro k hk
    cases hk
  refine ⟨rfl, Nat.le_refl _, .inl ⟨compactions_perform (hcompacts t.id), names, rfl⟩, ?_,
    hsame.registry, hsame.order⟩
  intro k hk hid
  rcases List.mem_append.1 hk with hk | hk
  · exact .inl hk
  · rw [hcompiles] at hk
    cases hk

theorem changed_compact {name : String} {t : Table} (ht : w.session.table? name = some t) :
    Changed w (w.perform (.compact name)) t t.compact where
  id := rfl
  compiled := Nat.le_refl _
  ids := by
    refine .inr ⟨?_, rfl⟩
    have hcompacts : w.session.compacts t.id (.compact name) = true := by
      rw [Session.compacts, ht]
      exact decide_eq_true rfl
    show w.compactions t.id + (if w.session.compacts t.id (.compact name) then 1 else 0) = _
    rw [if_pos hcompacts]
  log := by
    intro k hk hid
    exact .inl (List.append_nil w.log ▸ hk)
  registry := by
    intro p hp
    exact .inl hp
  order := fun h => h

/-- A document takes the table further by its names and numbers, and what
it registers stands in the log. -/
theorem changed_add {name : String} {d : Document} {t : Table}
    (hcompiles : w.compiles (.add name d) = [⟨t, w.session.interner, d, w.compactions t.id⟩]) :
    Changed w (w.perform (.add name d)) t (t.add w.session.interner d).table where
  id := rfl
  compiled := Nat.le_add_right _ _
  ids := .inl ⟨rfl, (Outline.ofDocument d).names, rfl⟩
  log := by
    intro k hk hid
    rcases List.mem_append.1 hk with hk | hk
    · exact .inl hk
    · rw [hcompiles] at hk
      rw [List.mem_singleton.1 hk]
      exact .inr ⟨rfl, rfl, rfl, rfl⟩
  registry := by
    intro p hp
    rcases Registry.mem_of_mem_publish hp with hp | ⟨hroot, hnode⟩
    · exact .inl hp
    · refine .inr ⟨⟨t, w.session.interner, d, w.compactions t.id⟩, ?_, rfl, hroot, hnode⟩
      show _ ∈ w.log ++ w.compiles (.add name d)
      rw [hcompiles]
      exact List.mem_append_right _ (List.mem_cons_self ..)
  order := fun h => Registry.publish_sorted h _ _

/-- A table after an operation is a new one, or is what the operation made
of a table that was there. -/
theorem exists_changed {op : Operation} {u : Table} (hu : u ∈ (w.perform op).session.tables) :
    (u = .new ⟨w.session.tablesMade + 1⟩
      ∧ (w.perform op).session.tablesMade = w.session.tablesMade + 1)
    ∨ ∃ t ∈ w.session.tables, Changed w (w.perform op) t u := by
  have hself : w.compiles op = [] → (∀ id, w.session.compacts id op = false) →
      u ∈ w.session.tables → ∃ t ∈ w.session.tables, Changed w (w.perform op) t u := by
    intro hcompiles hcompacts hu
    refine ⟨u, hu, changed_self ?_ (hcompacts u.id)⟩
    rw [hcompiles]
    intro k hk
    cases hk
  cases op with
  | newTable name =>
    rcases List.mem_append.1 (List.mem_filter.1 hu).1 with hu | hu
    · exact .inr (hself rfl (fun _ => rfl) hu)
    · exact .inl ⟨List.mem_singleton.1 hu, rfl⟩
  | cloneTable name other =>
    refine .inr (hself rfl (fun _ => rfl) ?_)
    have hclone : u ∈ (w.session.cloneTable name other).tables := hu
    unfold Session.cloneTable at hclone
    split at hclone
    · exact hclone
    · exact (List.mem_filter.1 hclone).1
  | dropTable name => exact .inr (hself rfl (fun _ => rfl) (List.mem_filter.1 hu).1)
  | intern text => exact .inr (hself rfl (fun _ => rfl) hu)
  | clearInterner => exact .inr (hself rfl (fun _ => rfl) hu)
  | release name => exact .inr (hself rfl (fun _ => rfl) hu)
  | add name d =>
    refine .inr ?_
    cases ht : w.session.table? name with
    | none => exact hself (by rw [compiles, ht]) (fun _ => rfl) (Session.inTable_none ht ▸ hu)
    | some t =>
      have hcompiles : w.compiles (.add name d)
          = [⟨t, w.session.interner, d, w.compactions t.id⟩] := by rw [compiles, ht]
      have htables : (w.perform (.add name d)).session.tables
          = (w.session.putTable (t.add w.session.interner d).table).tables :=
        Session.inTable_some ht
      refine exists_changed_of_putTable ht htables rfl ?_ (fun _ _ => rfl) ?_ hu
      · intro k hk
        rw [hcompiles] at hk
        rw [List.mem_singleton.1 hk]
      · exact changed_add hcompiles
  | clear name =>
    refine .inr ?_
    cases ht : w.session.table? name with
    | none => exact hself rfl (fun _ => rfl) (Session.inTable_none ht ▸ hu)
    | some t =>
      have htables : (w.perform (.clear name)).session.tables
          = (w.session.putTable t.clear).tables := Session.inTable_some ht
      refine exists_changed_of_putTable ht htables rfl ?_ (fun _ _ => rfl) ?_ hu
      · intro k hk
        cases hk
      · have hsame : Changed w (w.perform (.clear name)) t t := changed_self (by
          intro k hk
          cases hk) rfl
        exact { hsame with
          registry := by
            intro p hp
            cases hp
          order := fun _ => List.Pairwise.nil }
  | compact name =>
    refine .inr ?_
    cases ht : w.session.table? name with
    | none =>
      refine hself rfl (fun id => ?_) (Session.inTable_none ht ▸ hu)
      rw [Session.compacts, ht]
      rfl
    | some t =>
      have htables : (w.perform (.compact name)).session.tables
          = (w.session.putTable t.compact).tables := Session.inTable_some ht
      refine exists_changed_of_putTable ht htables rfl ?_ ?_ ?_ hu
      · intro k hk
        cases hk
      · intro id hid
        rw [Session.compacts, ht]
        exact decide_eq_false (Ne.symm hid)
      · exact changed_compact ht
  | ruleId name entry =>
    refine .inr ?_
    cases ht : w.session.table? name with
    | none => exact hself rfl (fun _ => rfl) (Session.inTable_none ht ▸ hu)
    | some t =>
      have htables : (w.perform (.ruleId name entry)).session.tables
          = (w.session.putTable (t.asking [entry])).tables := Session.inTable_some ht
      refine exists_changed_of_putTable ht htables rfl ?_ (fun _ _ => rfl) ?_ hu
      · intro k hk
        cases hk
      · exact changed_asking rfl (fun _ => rfl) [entry]
  | hold name walk =>
    refine .inr ?_
    have htables : (w.perform (.hold name walk)).session.tables = (w.session.walk walk).2.tables :=
      w.session.tables_perform_hold name walk
    rcases w.session.asked_walk walk with hsame | ⟨t, names, ht, hasked⟩
    · rw [hsame] at htables
      exact hself rfl (fun _ => rfl) (htables ▸ hu)
    · rw [hasked] at htables
      refine exists_changed_of_putTable ht htables rfl ?_ (fun _ _ => rfl) ?_ hu
      · intro k hk
        cases hk
      · exact changed_asking rfl (fun _ => rfl) names

end World

end ScopeRules
