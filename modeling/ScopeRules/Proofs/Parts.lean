/-
What a run means for one table. Several tables share an interner and may be
used in any order; `Session.part` is what an operation means for one of
them: itself, if it is an operation on the table or on a node from it; that
a name is let go of, if the operation gives the name to something else; or
nothing. A walk that asks another table for ids on its way is the walk by
these ids (`walkAlone`), and one that asks the table for ids on its way
through nodes from elsewhere is that it asks for them. `Session.parts` is
the part of a run, and `runAlone` performs it, with a new interner for every
operation.

# Side by side

A session is put beside the one in which the part was performed:
`TablesApart` for the tables, `HandlesApart` for the handles to nodes. For
everything that can happen to tables and handles there is one lemma that
says what has to happen in the other session, so that the two stay as they
are side by side.
-/
import ScopeRules.Proofs.Within

namespace ScopeRules

namespace Session

-- ================================================= the part of a table

/-- Whether a name is a handle to a table. -/
def isNameOf (s : Session) (id : TableId) (name : String) : Bool :=
  s.tableNames.get? name = some id

/-- Whether a name is a handle to a node that was compiled for a table. -/
def isNodeOf (s : Session) (id : TableId) (name : String) : Bool :=
  (s.node? name).any fun x => x.home? = some id

/-- Whether a walk starts at a node that was compiled for a table. -/
def startsIn (s : Session) (id : TableId) (walk : Walk) : Bool :=
  match walk.start with
  | .node name => s.isNodeOf id name
  | .scope _ => s.isNameOf id walk.table
  | .empty => false

/-- The ids of the table that a walk asks. -/
def idsFor (s : Session) (walk : Walk) : Option RuleIds :=
  (s.table? walk.table).map Table.ruleIds

/-- A walk as it is without other tables: names that another table is asked
for are replaced by their ids. -/
def walkAlone (s : Session) (id : TableId) (walk : Walk) : Walk :=
  if s.isNameOf id walk.table then walk
  else { walk with steps := WalkStep.spelled (s.idsFor walk) walk.steps }

/-- What keeping the end of a walk means for a table. -/
def partOfHold (s : Session) (id : TableId) (name : String) (walk : Walk) : List Operation :=
  match s.walkStart walk with
  | .error _ => []
  | .ok x =>
    if s.startsIn id walk then [.hold name (s.walkAlone id walk)]
    else
      let (result, asked) := s.snapshot.pass (s.idsFor walk) x 0 walk.steps
      (if s.isNameOf id walk.table then asked.map (.ruleId walk.table) else [])
        ++ if result.isOk && s.isNodeOf id name then [.release name] else []

/-- What an operation means for a table and the nodes from it. -/
def part (s : Session) (id : TableId) : Operation → List Operation
  | .newTable name =>
    if id.serial = s.tablesMade + 1 then [.newTable name]
    else if s.isNameOf id name then [.dropTable name] else []
  | .cloneTable name other =>
    if s.isNameOf id name then [.cloneTable name other]
    else if (s.tableNames.has name) && s.isNameOf id other then [.dropTable other] else []
  | .dropTable name => if s.isNameOf id name then [.dropTable name] else []
  | .add name d => if s.isNameOf id name then [.add name d] else []
  | .clear name => if s.isNameOf id name then [.clear name] else []
  | .compact name => if s.isNameOf id name then [.compact name] else []
  | .ruleId name entry => if s.isNameOf id name then [.ruleId name entry] else []
  | .intern _ => []
  | .clearInterner => []
  | .hold name walk => s.partOfHold id name walk
  | .release name => if s.isNodeOf id name then [.release name] else []

/-- What operations one after the other mean for a table. -/
def parts (s : Session) (id : TableId) : List Operation → List Operation
  | [] => []
  | op :: rest => s.part id op ++ (s.perform op).parts id rest

/-- The session after an operation with an interner of its own. -/
def performAlone (s : Session) (op : Operation) : Session :=
  ({ s with interner := .empty }).perform op

/-- The session in which the table made after `made` others is used by
itself. -/
def runAlone (filesPath : String) (made : Nat) (ops : List Operation) : Session :=
  (((empty filesPath).parts ⟨made + 1⟩ ops).foldl performAlone
    { empty filesPath with tablesMade := made })

-- ========================================================= the relation

/-- The node that a name is a handle to, if it was compiled for the table,
without stamps. -/
def handle? (s : Session) (id : TableId) (name : String) : Option Node :=
  ((s.node? name).filter fun x => x.home? = some id).map Node.unstamped

/-- The tables of a session beside those of a session with one table only:
this table is the same in both, but for stamps, and has the same names. -/
structure TablesApart (id : TableId) (s a : Session) : Prop where
  table : (s.snapshot.table? id).map Table.unstamped = (a.snapshot.table? id).map Table.unstamped
  alone : ∀ t ∈ a.tables, t.id = id
  distinct : (a.tables.map Table.id).Nodup
  isNameOf : ∀ name, s.isNameOf id name = a.isNameOf id name
  namedAlone : ∀ name other, a.tableNames.get? name = some other → other = id
  made : s.tablesMade < id.serial →
    a.tablesMade + 1 = id.serial ∧ ∀ name, s.isNameOf id name = false

/-- The handles to nodes beside those of a session with one table only. -/
structure HandlesApart (id : TableId) (s a : Session) : Prop where
  handle? : ∀ name, s.handle? id name = a.handle? id name
  alone : ∀ name x, a.node? name = some x →
    x.home? = some id ∨ x.unstamped = .rule .empty
  distinct : a.nodeNames.Distinct

variable {s a : Session} {id : TableId}

theorem isNameOf_iff {name : String} :
    s.isNameOf id name = true ↔ s.tableNames.get? name = some id := decide_eq_true_iff

theorem table?_of_isNameOf {name : String} (h : s.isNameOf id name = true) :
    s.table? name = s.snapshot.table? id := by
  rw [table?, isNameOf_iff.1 h]
  rfl

theorem id_ne_of_not_isNameOf {name : String} {t : Table} (h : s.isNameOf id name = false)
    (ht : s.table? name = some t) : t.id ≠ id := by
  rintro rfl
  exact Bool.eq_false_iff.1 h (isNameOf_iff.2 (mem_of_table?_eq_some ht).2)

-- ============================================================== tables

theorem snapshot_table?_putTable_of_ne {t : Table} (h : t.id ≠ id) :
    (s.putTable t).snapshot.table? id = s.snapshot.table? id := by
  show (s.tables.map fun u => if u.id = t.id then t else u).find? (fun u => u.id = id)
    = s.tables.find? fun u => u.id = id
  induction s.tables with
  | nil => rfl
  | cons u rest ih =>
    rw [List.map_cons, List.find?_cons, List.find?_cons, ih]
    by_cases hu : u.id = t.id
    · simp [hu, h]
    · simp [hu]

theorem snapshot_table?_putTable {t u : Table} (h : s.snapshot.table? id = some t)
    (hid : u.id = t.id) : (s.putTable u).snapshot.table? id = some u := by
  obtain ⟨-, rfl⟩ := Table.mem_of_find?_eq_some h
  rw [← hid]
  exact Table.find?_replace h hid

/-- Whether some name is a handle to a table. -/
def isNamed (s : Session) (id : TableId) : Bool := s.tableNames.any fun p => id = p.2

theorem isNamed_iff (h : s.tableNames.Distinct) :
    s.isNamed id = true ↔ ∃ name, s.isNameOf id name = true := by
  simp only [isNamed, List.any_eq_true, decide_eq_true_eq, isNameOf_iff]
  constructor
  · rintro ⟨p, hp, rfl⟩
    exact ⟨p.1, Assoc.get?_of_mem h hp⟩
  · rintro ⟨name, hname⟩
    exact ⟨(name, id), Assoc.mem_of_get?_eq_some hname, rfl⟩

/-- Without the tables that no name is a handle to, a table is there if it
has a name. -/
theorem snapshot_table?_sweep (s : Session) (id : TableId) :
    s.sweep.snapshot.table? id = if s.isNamed id then s.snapshot.table? id else none := by
  show (s.tables.filter fun t => s.tableNames.any fun p => t.id = p.2).find? (fun t => t.id = id)
    = if s.isNamed id then s.tables.find? (fun t => t.id = id) else none
  have hnamed : ∀ t : Table, t.id = id → (s.tableNames.any fun p => t.id = p.2) = s.isNamed id :=
    fun t ht => by rw [isNamed, ht]
  induction s.tables with
  | nil => simp
  | cons t rest ih =>
    rw [List.filter_cons]
    by_cases ht : t.id = id
    · rw [hnamed t ht]
      cases hid : s.isNamed id with
      | true => simp [ht]
      | false => simpa [hid] using ih
    · rw [List.find?_cons_of_neg (by simpa using ht), ← ih]
      split
      · rw [List.find?_cons_of_neg (by simpa using ht)]
      · rfl

theorem Named.sweep_eq (h : s.Named) : s.sweep = s := by
  have htables : s.sweep.tables = s.tables := by
    refine List.filter_eq_self.2 fun t ht => ?_
    exact (isNamed_iff h.distinct).2 ((h.named t ht).imp fun name hname => isNameOf_iff.2 hname)
  show { s with tables := s.sweep.tables } = s
  rw [htables]

namespace TablesApart

/-- Dropping the tables that no name is a handle to. -/
theorem sweep (h : TablesApart id s a) (hs : s.tableNames.Distinct)
    (ha : a.tableNames.Distinct) : TablesApart id s.sweep a.sweep where
  table := by
    have hnamed : s.isNamed id = a.isNamed id := by
      rw [Bool.eq_iff_iff, isNamed_iff hs, isNamed_iff ha]
      simp only [h.isNameOf]
    rw [snapshot_table?_sweep, snapshot_table?_sweep, hnamed]
    split
    · exact h.table
    · rfl
  alone t ht := h.alone t (List.mem_filter.1 ht).1
  distinct := (List.filter_sublist.map _).nodup h.distinct
  isNameOf := h.isNameOf
  namedAlone := h.namedAlone
  made := h.made

/-- Another table changes. -/
theorem putTable_other (h : TablesApart id s a) {t : Table} (ht : t.id ≠ id) :
    TablesApart id (s.putTable t) a where
  table := by
    rw [snapshot_table?_putTable_of_ne ht]
    exact h.table
  alone := h.alone
  distinct := h.distinct
  isNameOf := h.isNameOf
  namedAlone := h.namedAlone
  made := h.made

/-- The table changes in the same way in both. -/
theorem putTable (h : TablesApart id s a) {t t' u u' : Table}
    (ht : s.snapshot.table? id = some t) (hu : a.snapshot.table? id = some u)
    (htid : t'.id = t.id) (huid : u'.id = u.id) (hsame : t'.unstamped = u'.unstamped) :
    TablesApart id (s.putTable t') (a.putTable u') where
  table := by
    rw [snapshot_table?_putTable ht htid, snapshot_table?_putTable hu huid, Option.map_some,
      Option.map_some, hsame]
  alone v hv := by
    rcases mem_putTable hv with rfl | ⟨hv, -⟩
    · rw [huid]
      exact (Table.mem_of_find?_eq_some hu).2
    · exact h.alone v hv
  distinct := by
    rw [map_id_putTable]
    exact h.distinct
  isNameOf := h.isNameOf
  namedAlone := h.namedAlone
  made := h.made

/-- Both have the table, or neither. -/
theorem cases_table (h : TablesApart id s a) :
    (s.snapshot.table? id = none ∧ a.snapshot.table? id = none)
      ∨ ∃ t u, s.snapshot.table? id = some t ∧ a.snapshot.table? id = some u
          ∧ t.unstamped = u.unstamped := by
  have htable := h.table
  cases ht : s.snapshot.table? id with
  | none =>
    rw [ht, Option.map_none] at htable
    exact .inl ⟨rfl, Option.map_eq_none_iff.1 htable.symm⟩
  | some t =>
    rw [ht, Option.map_some] at htable
    obtain ⟨u, hu, hsame⟩ := Option.map_eq_some_iff.1 htable.symm
    exact .inr ⟨t, u, rfl, hu, hsame.symm⟩

theorem fresh (h : TablesApart id s a) : TablesApart id s { a with interner := .empty } :=
  ⟨h.table, h.alone, h.distinct, h.isNameOf, h.namedAlone, h.made⟩

/-- Nothing but tables and their names matters. -/
theorem of_eq (h : TablesApart id s a) {s' a' : Session} (htables : s'.tables = s.tables)
    (hnames : s'.tableNames = s.tableNames) (hmade : s'.tablesMade = s.tablesMade)
    (htables' : a'.tables = a.tables) (hnames' : a'.tableNames = a.tableNames)
    (hmade' : a'.tablesMade = a.tablesMade) : TablesApart id s' a' := by
  cases s
  cases a
  cases s'
  cases a'
  simp only at htables hnames hmade htables' hnames' hmade'
  subst htables hnames hmade htables' hnames' hmade'
  exact ⟨h.table, h.alone, h.distinct, h.isNameOf, h.namedAlone, h.made⟩

/-- Something is done in the table that a name is a handle to. -/
theorem inTable (h : TablesApart id s a) (name : String) {f : Interner → Table → Table}
    {k : Interner → Table → Interner} (hid : ∀ i t, (f i t).id = t.id)
    (hsame : ∀ i j t u, t.unstamped = u.unstamped → (f i t).unstamped = (f j u).unstamped) :
    TablesApart id
      (s.inTable name fun t => { s.putTable (f s.interner t) with interner := k s.interner t })
      (if s.isNameOf id name then
        a.inTable name fun t => { a.putTable (f a.interner t) with interner := k a.interner t }
      else a) := by
  cases hname : s.isNameOf id name with
  | true =>
    have hname' : a.isNameOf id name = true := h.isNameOf name ▸ hname
    rw [if_pos rfl, Session.inTable, Session.inTable, table?_of_isNameOf hname,
      table?_of_isNameOf hname']
    rcases h.cases_table with ⟨ht, hu⟩ | ⟨t, u, ht, hu, htu⟩
    · rw [ht, hu]
      exact h
    · rw [ht, hu]
      have hput := h.putTable ht hu (hid s.interner t) (hid a.interner u) (hsame _ _ t u htu)
      exact hput.of_eq rfl rfl rfl rfl rfl rfl
  | false =>
    rw [if_neg Bool.false_ne_true, Session.inTable]
    split
    · rename_i t ht
      have hput := h.putTable_other (t := f s.interner t) (by
        rw [hid]
        exact id_ne_of_not_isNameOf hname ht)
      exact hput.of_eq rfl rfl rfl rfl rfl rfl
    · exact h

/-- A name is given to something else, or let go of, and what no name is a
handle to is dropped. -/
theorem rename (h : TablesApart id s a) (other : Option TableId) (after : Session) {name : String}
    (htable : after.snapshot.table? id = s.snapshot.table? id) (hother : other ≠ some id)
    (hnames : ∀ n, after.tableNames.get? n = if name = n then other else s.tableNames.get? n)
    (hdistinct : after.tableNames.Distinct) (hmade : s.tablesMade ≤ after.tablesMade)
    (ha : a.Named) :
    TablesApart id after.sweep (if s.isNameOf id name then a.dropTable name else a) := by
  have hafter : ∀ n, after.isNameOf id n = if name = n then false else s.isNameOf id n := by
    intro n
    rw [Session.isNameOf, hnames]
    split
    · exact decide_eq_false hother
    · rfl
  cases hname : s.isNameOf id name with
  | true =>
    rw [if_pos rfl]
    refine TablesApart.sweep (a := { a with tableNames := a.tableNames.erase name })
      ⟨htable ▸ h.table, h.alone, h.distinct, fun n => ?_, fun n i hn => ?_, fun hlt => ?_⟩
      hdistinct (Assoc.erase_distinct ha.distinct _)
    · show after.isNameOf id n = decide ((a.tableNames.erase name).get? n = some id)
      rw [hafter, Assoc.get?_erase]
      split
      · rfl
      · exact h.isNameOf n
    · rw [Assoc.get?_erase] at hn
      split at hn
      · cases hn
      · exact h.namedAlone n i hn
    · have hnone := (h.made (Nat.lt_of_le_of_lt hmade hlt)).2 name
      rw [hname] at hnone
      cases hnone
  | false =>
    rw [if_neg Bool.false_ne_true, ← ha.sweep_eq]
    refine TablesApart.sweep ⟨htable ▸ h.table, h.alone, h.distinct, fun n => ?_, h.namedAlone,
      fun hlt => ?_⟩ hdistinct ha.distinct
    · rw [hafter, ← h.isNameOf]
      split
      · rename_i hn
        rw [← hn, hname]
      · rfl
    · obtain ⟨hserial, hnone⟩ := h.made (Nat.lt_of_le_of_lt hmade hlt)
      refine ⟨hserial, fun n => ?_⟩
      rw [hafter, hnone]
      exact ite_self _

/-- A new table that is not the one that is looked at. -/
theorem newTable_other (h : TablesApart id s a) (hs : s.Named) (ha : a.Named) (name : String)
    (hid : id.serial ≠ s.tablesMade + 1) :
    TablesApart id (s.newTable name) (if s.isNameOf id name then a.dropTable name else a) := by
  have hne : (⟨s.tablesMade + 1⟩ : TableId) ≠ id := fun heq => hid (heq ▸ rfl)
  refine h.rename (some ⟨s.tablesMade + 1⟩) _ ?_ (fun heq => hne (Option.some.inj heq))
    (fun n => Assoc.get?_put _ _ _ _) (Assoc.put_distinct hs.distinct _ _) (Nat.le_succ _) ha
  have hfind : [Table.new ⟨s.tablesMade + 1⟩].find? (fun t => t.id = id) = none :=
    List.find?_eq_none.2 fun t ht heq => hne (by
      rw [List.mem_singleton.1 ht] at heq
      exact of_decide_eq_true heq)
  show (s.tables ++ [Table.new ⟨s.tablesMade + 1⟩]).find? (fun t => t.id = id)
    = s.tables.find? fun t => t.id = id
  rw [List.find?_append, hfind, Option.or_none]

/-- The table that is looked at is made. -/
theorem newTable_self (h : TablesApart id s a) (hs : s.Named) (ha : a.Named)
    (hmade : ∀ t ∈ s.tables, t.id.serial ≤ s.tablesMade) (name : String)
    (hid : id.serial = s.tablesMade + 1) : TablesApart id (s.newTable name) (a.newTable name) := by
  obtain ⟨hserial, hnone⟩ := h.made (by omega)
  have hsid : (⟨s.tablesMade + 1⟩ : TableId) = id := by rw [← hid]
  have haid : (⟨a.tablesMade + 1⟩ : TableId) = id := by rw [hserial]
  have hstable : s.snapshot.table? id = none := table?_eq_none fun t ht htid => by
    have hle := hmade t ht
    rw [htid] at hle
    omega
  have hatables : a.tables = [] := by
    have htable := h.table
    rw [hstable, Option.map_none] at htable
    have hatable := Option.map_eq_none_iff.1 htable.symm
    refine List.eq_nil_iff_forall_not_mem.2 fun t ht => ?_
    have hfound := table?_id h.distinct ht
    rw [h.alone t ht, hatable] at hfound
    cases hfound
  refine TablesApart.sweep (s := { s with
      tables := s.tables ++ [.new ⟨s.tablesMade + 1⟩]
      tablesMade := s.tablesMade + 1
      tableNames := s.tableNames.put name ⟨s.tablesMade + 1⟩ })
    (a := { a with
      tables := a.tables ++ [.new ⟨a.tablesMade + 1⟩]
      tablesMade := a.tablesMade + 1
      tableNames := a.tableNames.put name ⟨a.tablesMade + 1⟩ }) ?_
    (Assoc.put_distinct hs.distinct _ _) (Assoc.put_distinct ha.distinct _ _)
  rw [hsid, haid, hatables]
  refine ⟨?_, ?_, ?_, fun n => ?_, fun n other hn => ?_, fun hlt => ?_⟩
  · show ((s.tables ++ [Table.new id]).find? fun t => t.id = id).map _
      = ([Table.new id].find? fun t => t.id = id).map _
    have hfind : (s.tables.find? fun t => t.id = id) = none := hstable
    rw [List.find?_append, hfind, Option.none_or]
  · simp [Table.new]
  · simp
  · show decide ((s.tableNames.put name id).get? n = some id)
      = decide ((a.tableNames.put name id).get? n = some id)
    rw [Assoc.get?_put, Assoc.get?_put]
    split
    · rfl
    · exact h.isNameOf n
  · rw [Assoc.get?_put] at hn
    split at hn
    · exact (Option.some.inj hn).symm
    · exact h.namedAlone n other hn
  · exact absurd hlt (by
      show ¬ s.tablesMade + 1 < id.serial
      omega)

/-- Another name is made a handle to the table. -/
theorem cloneTable_self (h : TablesApart id s a) (hs : s.Named) (ha : a.Named)
    {name : String} (other : String) (hname : s.isNameOf id name = true) :
    TablesApart id (s.cloneTable name other) (a.cloneTable name other) := by
  have hname' : a.isNameOf id name = true := h.isNameOf name ▸ hname
  rw [cloneTable, cloneTable, isNameOf_iff.1 hname, isNameOf_iff.1 hname']
  refine TablesApart.sweep (s := { s with tableNames := s.tableNames.put other id })
    (a := { a with tableNames := a.tableNames.put other id })
    ⟨h.table, h.alone, h.distinct, fun n => ?_, fun n i hn => ?_, fun hlt => ?_⟩
    (Assoc.put_distinct hs.distinct _ _) (Assoc.put_distinct ha.distinct _ _)
  · show decide ((s.tableNames.put other id).get? n = some id)
      = decide ((a.tableNames.put other id).get? n = some id)
    rw [Assoc.get?_put, Assoc.get?_put]
    split
    · rfl
    · exact h.isNameOf n
  · rw [Assoc.get?_put] at hn
    split at hn
    · exact (Option.some.inj hn).symm
    · exact h.namedAlone n i hn
  · have hnone := (h.made hlt).2 name
    rw [hname] at hnone
    cases hnone

/-- A name is made a handle to another table, if the other name is one. -/
theorem cloneTable_other (h : TablesApart id s a) (hs : s.Named) (ha : a.Named)
    {name : String} (other : String) (hname : s.isNameOf id name = false) :
    TablesApart id (s.cloneTable name other)
      (if (s.tableNames.has name) && s.isNameOf id other then a.dropTable other else a) := by
  rw [cloneTable, Assoc.has]
  cases hget : s.tableNames.get? name with
  | none => exact h
  | some i =>
    have hne : some i ≠ some id := fun heq =>
      Bool.eq_false_iff.1 hname (isNameOf_iff.2 (hget.trans heq))
    exact h.rename (some i) { s with tableNames := s.tableNames.put other i } rfl hne
      (fun n => Assoc.get?_put _ _ _ _) (Assoc.put_distinct hs.distinct _ _) (Nat.le_refl _) ha

theorem dropTable (h : TablesApart id s a) (hs : s.Named) (ha : a.Named) (name : String) :
    TablesApart id (s.dropTable name) (if s.isNameOf id name then a.dropTable name else a) :=
  h.rename none { s with tableNames := s.tableNames.erase name } rfl
    (fun heq => nomatch heq) (fun _ => Assoc.get?_erase _ _ _) (Assoc.erase_distinct hs.distinct _)
    (Nat.le_refl _) ha

end TablesApart

-- ============================================================= handles

theorem isNodeOf_iff {name : String} :
    s.isNodeOf id name = true ↔ ∃ x, s.node? name = some x ∧ x.home? = some id := by
  rw [isNodeOf, Option.any_eq_true]
  exact exists_congr fun x => and_congr_right fun _ => decide_eq_true_iff

theorem handle?_eq_some_iff {name : String} {y : Node} :
    s.handle? id name = some y
      ↔ ∃ x, s.node? name = some x ∧ x.home? = some id ∧ x.unstamped = y := by
  rw [handle?, Option.map_eq_some_iff]
  simp only [Option.filter_eq_some_iff, decide_eq_true_eq, and_assoc]

theorem handle?_eq_none {name : String} (h : s.isNodeOf id name = false) :
    s.handle? id name = none := by
  rw [handle?, Option.map_eq_none_iff, Option.filter_eq_none_iff]
  intro x hx hhome
  exact Bool.eq_false_iff.1 h (isNodeOf_iff.2 ⟨x, hx, of_decide_eq_true hhome⟩)

theorem handle?_hold (s : Session) (name : String) (x : Node) (n : String) :
    (s.hold name x).handle? id n
      = if name = n then ((some x).filter fun x => x.home? = some id).map Node.unstamped
        else s.handle? id n := by
  show (((s.nodeNames.put name x).get? n).filter _).map _ = _
  rw [Assoc.get?_put]
  split <;> rfl

theorem handle?_release (s : Session) (name n : String) :
    (s.release name).handle? id n = if name = n then none else s.handle? id n := by
  show (((s.nodeNames.erase name).get? n).filter _).map _ = _
  rw [Assoc.get?_erase]
  split <;> rfl

namespace HandlesApart

theorem fresh (h : HandlesApart id s a) : HandlesApart id s { a with interner := .empty } :=
  ⟨h.handle?, h.alone, h.distinct⟩

/-- Sessions with the same handles. -/
theorem keeps (h : HandlesApart id s a) {s' a' : Session} (hs : s'.nodeNames = s.nodeNames)
    (ha : a'.nodeNames = a.nodeNames) : HandlesApart id s' a' := by
  obtain ⟨hhandle, halone, hdistinct⟩ := h
  unfold Session.handle? node? at *
  rw [← hs, ← ha] at *
  exact ⟨hhandle, halone, hdistinct⟩

/-- A name is made a handle to the same node. -/
theorem hold (h : HandlesApart id s a) (name : String) {x y : Node}
    (hxy : x.unstamped = y.unstamped)
    (hy : y.home? = some id ∨ y.unstamped = .rule .empty) :
    HandlesApart id (s.hold name x) (a.hold name y) where
  handle? n := by
    have hhome : x.home? = y.home? := by rw [← x.home?_unstamped, hxy, y.home?_unstamped]
    rw [handle?_hold, handle?_hold, h.handle?, Option.filter_some, Option.filter_some, hhome]
    split
    · split
      · exact congrArg some hxy
      · rfl
    · rfl
  alone n z hz := by
    have hput : (a.nodeNames.put name y).get? n = some z := hz
    rw [Assoc.get?_put] at hput
    split at hput
    · exact Option.some.inj hput ▸ hy
    · exact h.alone n z hput
  distinct := Assoc.put_distinct h.distinct _ _

theorem release_self (h : HandlesApart id s a) (name : String) :
    HandlesApart id (s.release name) (a.release name) where
  handle? n := by rw [handle?_release, handle?_release, h.handle?]
  alone n z hz := by
    have herase : (a.nodeNames.erase name).get? n = some z := hz
    rw [Assoc.get?_erase] at herase
    split at herase
    · cases herase
    · exact h.alone n z herase
  distinct := Assoc.erase_distinct h.distinct _

/-- A name is let go of; it matters if it was a handle to a node of the
table. -/
theorem release (h : HandlesApart id s a) (name : String) :
    HandlesApart id (s.release name) (if s.isNodeOf id name then a.release name else a) := by
  cases hname : s.isNodeOf id name with
  | true => exact h.release_self name
  | false =>
    refine ⟨fun n => ?_, h.alone, h.distinct⟩
    rw [handle?_release, if_neg Bool.false_ne_true, ← h.handle?]
    split
    · rename_i hn
      rw [← hn, handle?_eq_none hname]
    · rfl

/-- A name is made a handle to a node from elsewhere. -/
theorem hold_other (h : HandlesApart id s a) (name : String) {x : Node}
    (hx : x.home? ≠ some id) :
    HandlesApart id (s.hold name x) (if s.isNodeOf id name then a.release name else a) := by
  have hsame : ∀ n, (s.hold name x).handle? id n = (s.release name).handle? id n := by
    intro n
    rw [handle?_hold, handle?_release]
    split
    · rw [Option.filter_some, if_neg (by simpa using hx)]
      rfl
    · rfl
  obtain ⟨hhandle, halone, hdistinct⟩ := h.release name
  exact ⟨fun n => (hsame n).trans (hhandle n), halone, hdistinct⟩

end HandlesApart

end Session

namespace World

/-- A name is a handle to one node at a time. -/
theorem Reachable.nodeNames_distinct {w : World} (h : w.Reachable) :
    w.session.nodeNames.Distinct := by
  refine h.induction (motive := fun w => w.session.nodeNames.Distinct) (fun _ => List.nodup_nil)
    fun w op hdistinct => ?_
  rcases w.session.perform_handles op with hkeeps | ⟨name, rfl⟩ | ⟨name, other, rfl⟩ | ⟨name, rfl⟩
    | ⟨name, walk, x, after, -, -, hkeeps, hperform⟩ | ⟨name, rfl⟩
  · exact hkeeps.nodeNames ▸ hdistinct
  · exact hdistinct
  · show (w.session.cloneTable name other).nodeNames.Distinct
    unfold Session.cloneTable
    split <;> exact hdistinct
  · exact hdistinct
  · show (w.session.perform op).nodeNames.Distinct
    rw [hperform]
    exact Assoc.put_distinct (hkeeps.nodeNames ▸ hdistinct) _ _
  · exact Assoc.erase_distinct hdistinct _

end World

end ScopeRules
