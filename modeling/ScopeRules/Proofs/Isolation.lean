/-
Tables are isolated. What is seen of one table, and of the nodes that come
from it, is what is seen of it when nothing else is done, with a new interner
for every document (`World.tables_isolated`).

# The relation

`Isolated` relates a session to the one in which the part of a table was
performed: the same table but for stamps, the same names for it, the same
nodes under the same names. Other tables cannot be told from what is related:
a walk from a node within the table does not leave it, so the two moments
agree on all that it can come to (`Isolated.agreeOn`), and the texts of
symbols do not depend on interners. Every operation keeps the relation
(`Isolated.perform`), so a run does (`Isolated.run`).
-/
import ScopeRules.Proofs.Abreast
import ScopeRules.Proofs.Parts

namespace ScopeRules

open Session

/-- A session beside the one in which only the part of a table was
performed. -/
structure Isolated (id : TableId) (s a : Session) : Prop where
  tables : TablesApart id s a
  handles : HandlesApart id s a
  named : a.Named

theorem Registry.held_unstamped (registry : Registry) :
    registry.unstamped.held = registry.held.map Rule.unstamped := by
  simp [held, unstamped, List.flatMap_map, List.map_flatMap, Entry.unstamped]

theorem Node.eq_rule_of_unstamped {x : Node} {r : Rule} (h : x.unstamped = .rule r) :
    ∃ s, x = .rule s ∧ s.unstamped = r := by
  cases x with
  | rule s =>
    rw [unstamped_rule] at h
    exact ⟨s, rfl, Node.rule.inj h⟩
  | reference p =>
    rw [unstamped_reference] at h
    cases h

/-- A node of the log is compiled for a table and within it. -/
theorem Known.exists_home {log : List Compilation} {x : Node} (h : Known log x) :
    ∃ id, x.home? = some id ∧ x.Within id := by
  obtain ⟨id, hid⟩ := h.exists_within
  rcases hid.home with hhome | rfl
  · exact ⟨id, hhome, hid⟩
  · exact ⟨⟨0⟩, rfl, .inl rfl⟩

namespace World

variable {w : World} {a : Session} {id : TableId}

-- ============================================================= moments

/-- What is held for the table is held in both sessions. -/
theorem Reachable.exists_held (hw : w.Reachable) (h : Isolated id w.session a) {r : Rule}
    (hr : r ∈ w.session.snapshot.held) (hid : r.id.table = id) :
    ∃ r' ∈ a.snapshot.held, r'.unstamped = r.unstamped := by
  rcases List.mem_append.1 hr with hr | hr
  · obtain ⟨t, ht, hr⟩ := List.mem_flatMap.1 hr
    have htid : t.id = id := by
      obtain ⟨p, hp, hrule⟩ := List.mem_flatMap.1 hr
      obtain ⟨k, -, hk, hroot, hnode⟩ := hw.sound.registered t ht p hp
      have hrules : r ∈ k.rules := by
        rcases List.mem_cons.1 hrule with rfl | hrule
        · exact mem_rules_of_mem_declarations hnode
        · rw [List.mem_singleton.1 hrule, hroot]
          exact k.root_mem_rules
      rw [← hk, ← (k.id_of_mem_rules hrules).1, hid]
    have hfound := table?_id hw.sound.distinct ht
    rw [htid] at hfound
    obtain ⟨-, hnone⟩ | ⟨t', u, ht', hu, hsame⟩ := h.tables.cases_table
    · have htable := h.tables.table
      rw [hfound, hnone] at htable
      cases htable
    · obtain rfl := Option.some.inj (hfound.symm.trans ht')
      have hheld := congrArg Registry.held (Table.fields_eq_of_unstamped hsame).2.1
      rw [Registry.held_unstamped, Registry.held_unstamped] at hheld
      have hmem : r.unstamped ∈ u.registry.held.map Rule.unstamped :=
        hheld ▸ List.mem_map_of_mem hr
      obtain ⟨r', hr', heq⟩ := List.mem_map.1 hmem
      exact ⟨r', List.mem_append_left _ (List.mem_flatMap_of_mem
        (Table.mem_of_find?_eq_some hu).1 hr'), heq⟩
  · obtain ⟨⟨name, x⟩, hx, hrule⟩ := List.mem_filterMap.1 hr
    cases x with
    | reference p => cases hrule
    | rule s =>
      obtain rfl := Option.some.inj hrule
      have hnode : w.session.node? name = some (.rule s) :=
        Assoc.get?_of_mem hw.nodeNames_distinct hx
      have hhandle : w.session.handle? id name = some (.rule s.unstamped) :=
        handle?_eq_some_iff.2 ⟨_, hnode, congrArg some hid, Node.unstamped_rule s⟩
      rw [h.handles.handle?] at hhandle
      obtain ⟨y, hy, -, heq⟩ := handle?_eq_some_iff.1 hhandle
      obtain ⟨s', rfl, hs'⟩ := Node.eq_rule_of_unstamped heq
      exact ⟨s', List.mem_append_right _ (List.mem_filterMap.2
        ⟨_, Assoc.mem_of_get?_eq_some hy, rfl⟩), hs'⟩

/-- What is held in the session of the part is held for the table. -/
theorem held_of_mem_held (h : Isolated id w.session a) {r : Rule} (hr : r ∈ a.snapshot.held) :
    r.unstamped = .empty ∨ ∃ r' ∈ w.session.snapshot.held, r'.unstamped = r.unstamped := by
  rcases List.mem_append.1 hr with hr | hr
  · obtain ⟨u, hu, hr⟩ := List.mem_flatMap.1 hr
    have hfound := table?_id h.tables.distinct hu
    rw [h.tables.alone u hu] at hfound
    obtain ⟨-, hnone⟩ | ⟨t, u', ht, hu', hsame⟩ := h.tables.cases_table
    · rw [hnone] at hfound
      cases hfound
    · obtain rfl := Option.some.inj (hfound.symm.trans hu')
      have hheld := congrArg Registry.held (Table.fields_eq_of_unstamped hsame).2.1
      rw [Registry.held_unstamped, Registry.held_unstamped] at hheld
      have hmem : r.unstamped ∈ t.registry.held.map Rule.unstamped :=
        hheld ▸ List.mem_map_of_mem hr
      obtain ⟨r', hr', heq⟩ := List.mem_map.1 hmem
      exact .inr ⟨r', List.mem_append_left _ (List.mem_flatMap_of_mem
        (Table.mem_of_find?_eq_some ht).1 hr'), heq⟩
  · obtain ⟨⟨name, x⟩, hx, hrule⟩ := List.mem_filterMap.1 hr
    cases x with
    | reference p => cases hrule
    | rule s =>
      obtain rfl := Option.some.inj hrule
      have hnode : a.node? name = some (.rule s) := Assoc.get?_of_mem h.handles.distinct hx
      rcases h.handles.alone name _ hnode with hhome | hempty
      · have hhandle : a.handle? id name = some (.rule s.unstamped) :=
          handle?_eq_some_iff.2 ⟨_, hnode, hhome, Node.unstamped_rule s⟩
        rw [← h.handles.handle?] at hhandle
        obtain ⟨y, hy, -, heq⟩ := handle?_eq_some_iff.1 hhandle
        obtain ⟨s', rfl, hs'⟩ := Node.eq_rule_of_unstamped heq
        exact .inr ⟨s', List.mem_append_right _ (List.mem_filterMap.2
          ⟨_, Assoc.mem_of_get?_eq_some hy, rfl⟩), hs'⟩
      · rw [Node.unstamped_rule] at hempty
        exact .inl (Node.rule.inj hempty)

/-- The rules of the table are alive in both sessions, or in neither. -/
theorem Reachable.rule?_eq (hw : w.Reachable) (h : Isolated id w.session a) (hid : id.serial ≠ 0)
    {link : NodeId} (hlink : link.table = id) :
    w.session.snapshot.unstamped.rule? link = a.snapshot.unstamped.rule? link := by
  have hiff : ∀ r, w.session.snapshot.rule? link = some r
      ↔ w.session.snapshot.Alive r ∧ r.id = link := fun r =>
    hw.sound.from.rule?_eq_some_iff hw.sound.coherent
  -- what is found in the session of the part is alive in the session
  have hback : ∀ q, a.snapshot.rule? link = some q →
      ∃ r, w.session.snapshot.rule? link = some r ∧ r.unstamped = q.unstamped := by
    intro q hq
    obtain ⟨⟨o, ho, hqo⟩, hqid⟩ := Snapshot.alive_of_rule?_eq_some hq
    have howned : q.unstamped ∈ o.unstamped.owned := by
      rw [Rule.owned_unstamped]
      exact List.mem_map_of_mem hqo
    rcases held_of_mem_held h ho with hempty | ⟨o', ho', hsame⟩
    · have hq : q.unstamped = .empty := by
        rw [hempty] at howned
        rcases Rule.mem_owned_iff.1 howned with heq | ⟨t, ht, -⟩
        · exact heq
        · cases ht
      refine absurd ?_ hid
      rw [← hlink, ← hqid, ← q.id_unstamped, hq]
      rfl
    · rw [← hsame, Rule.owned_unstamped] at howned
      obtain ⟨r, hr, heq⟩ := List.mem_map.1 howned
      refine ⟨r, (hiff r).2 ⟨⟨o', ho', hr⟩, ?_⟩, heq⟩
      rw [← r.id_unstamped, heq, q.id_unstamped, hqid]
  rw [Snapshot.rule?_unstamped, Snapshot.rule?_unstamped]
  cases hr : w.session.snapshot.rule? link with
  | none =>
    cases hq : a.snapshot.rule? link with
    | none => rfl
    | some q =>
      obtain ⟨r, hr', -⟩ := hback q hq
      rw [hr] at hr'
      cases hr'
  | some r =>
    obtain ⟨⟨o, ho, hro⟩, hrid⟩ := Snapshot.alive_of_rule?_eq_some hr
    have hoid : o.id.table = id := by
      obtain ⟨i, hi, hwithin⟩ := (hw.sound.from.held o ho).exists_home
      obtain rfl := Option.some.inj hi
      rcases hwithin with rfl | hwithin
      · rcases Rule.mem_owned_iff.1 hro with rfl | ⟨t, ht, -⟩
        · rw [hrid, hlink]
        · cases ht
      · rw [← (hwithin r hro).1, hrid, hlink]
    obtain ⟨o', ho', hsame⟩ := hw.exists_held h ho hoid
    have howned : r.unstamped ∈ o'.unstamped.owned := by
      rw [hsame, Rule.owned_unstamped]
      exact List.mem_map_of_mem hro
    rw [Rule.owned_unstamped] at howned
    obtain ⟨q', hq', heq⟩ := List.mem_map.1 howned
    have hq'id : q'.id = link := by rw [← q'.id_unstamped, heq, r.id_unstamped, hrid]
    cases hq : a.snapshot.rule? link with
    | none =>
      have hnone := List.findSome?_eq_none_iff.1 hq o' ho'
      exact absurd (decide_eq_true hq'id) (List.find?_eq_none.1 hnone q' hq')
    | some q =>
      obtain ⟨r', hr', hsame'⟩ := hback q hq
      obtain rfl := Option.some.inj (hr.symm.trans hr')
      exact congrArg some hsame'

/-- The two moments agree on the nodes within the table. -/
theorem Reachable.agreeOn (hw : w.Reachable) (h : Isolated id w.session a) (hid : id.serial ≠ 0) :
    Snapshot.AgreeOn (Node.Within id) w.session.snapshot.unstamped a.snapshot.unstamped := by
  have hregistry : (w.session.snapshot.unstamped.table? id).map Table.registry
      = (a.snapshot.unstamped.table? id).map Table.registry := by
    rw [Snapshot.table?_unstamped, Snapshot.table?_unstamped, h.tables.table]
  refine Snapshot.agreeOn_within (fun link hlink => hw.rule?_eq h hid hlink) ?_ hregistry ?_
  · rintro link r rfl hr
    rw [Snapshot.rule?_unstamped] at hr
    obtain ⟨r, hfound, rfl⟩ := Option.map_eq_some_iff.1 hr
    rw [← Node.unstamped_rule]
    exact (hw.sound.within_of_rule?_eq_some hfound).unstamped
  · intro t ht scope
    rw [Snapshot.table?_unstamped] at ht
    obtain ⟨t, hfound, rfl⟩ := Option.map_eq_some_iff.1 ht
    obtain ⟨hmem, rfl⟩ := Table.mem_of_find?_eq_some hfound
    rw [Table.unstamped_lookup, ← Node.unstamped_rule]
    exact (hw.sound.within_lookup hmem scope).unstamped

end World

-- =============================================================== walks

namespace Session

variable {s a : Session} {id : TableId}

@[simp] theorem walkAlone_table (s : Session) (id : TableId) (walk : Walk) :
    (s.walkAlone id walk).table = walk.table := by
  unfold walkAlone
  split <;> rfl

@[simp] theorem walkAlone_start (s : Session) (id : TableId) (walk : Walk) :
    (s.walkAlone id walk).start = walk.start := by
  unfold walkAlone
  split <;> rfl

/-- A walk in one go, from where it starts. -/
theorem walk_eq (hdistinct : (s.tables.map Table.id).Nodup) {walk : Walk} {x : Node}
    (hstart : s.walkStart walk = .ok x) :
    s.walk walk = ((s.snapshot.pass (s.idsFor walk) x 0 walk.steps).1,
      s.asking walk.table (s.snapshot.pass (s.idsFor walk) x 0 walk.steps).2) := by
  rw [Session.walk, hstart]
  exact walkSteps_eq hdistinct walk.table x 0 walk.steps

theorem walk_error {walk : Walk} {failure : WalkFailure}
    (hstart : s.walkStart walk = .error failure) :
    s.walk walk = (.error failure, s) := by
  rw [Session.walk, hstart]

/-- A name that is no handle to the table is a handle to nothing in the
session of the part. -/
theorem TablesApart.table?_eq_none (h : TablesApart id s a) {name : String}
    (hname : s.isNameOf id name = false) : a.table? name = none := by
  cases hget : a.tableNames.get? name with
  | none =>
    rw [Session.table?, hget]
    rfl
  | some other =>
    obtain rfl := h.namedAlone name other hget
    rw [h.isNameOf, isNameOf_iff.2 hget] at hname
    cases hname

/-- The ids that a walk asks. -/
theorem TablesApart.idsFor (h : TablesApart id s a) (walk : Walk) :
    a.idsFor (s.walkAlone id walk)
      = if s.isNameOf id walk.table then s.idsFor walk else none := by
  rw [Session.idsFor, walkAlone_table]
  cases hname : s.isNameOf id walk.table with
  | true =>
    have hname' : a.isNameOf id walk.table = true := h.isNameOf _ ▸ hname
    rw [if_pos rfl, Session.idsFor, table?_of_isNameOf hname, table?_of_isNameOf hname']
    rcases h.cases_table with ⟨ht, hu⟩ | ⟨t, u, ht, hu, hsame⟩
    · rw [ht, hu]
    · rw [ht, hu, Option.map_some, Option.map_some, (Table.fields_eq_of_unstamped hsame).2.2.1]
  | false =>
    rw [h.table?_eq_none hname]
    rfl

end Session

namespace World

variable {w : World} {a : Session} {id : TableId}

/-- From nodes within the table that are the same but for stamps, steps lead
to such nodes, and ask for the same names. -/
theorem Reachable.pass_eq (hw : w.Reachable) (h : Isolated id w.session a) (hid : id.serial ≠ 0)
    {x y : Node} (hx : x.Within id) (hxy : x.unstamped = y.unstamped) (ids : Option RuleIds)
    (steps : List WalkStep) :
    (w.session.snapshot.pass ids x 0 steps).1.map Node.unstamped
        = (a.snapshot.pass ids y 0 steps).1.map Node.unstamped
      ∧ (w.session.snapshot.pass ids x 0 steps).2 = (a.snapshot.pass ids y 0 steps).2 := by
  have hpass := ((hw.agreeOn h hid).pass_eq hx.unstamped ids 0 steps).1
  rw [Snapshot.pass_unstamped, hxy, Snapshot.pass_unstamped] at hpass
  exact Prod.mk.inj hpass

/-- Where a walk starts that starts in the table. -/
theorem Reachable.walkStart_alone (hw : w.Reachable) (h : Isolated id w.session a) {walk : Walk}
    (hstarts : w.session.startsIn id walk = true) :
    (∃ failure, w.session.walkStart walk = .error failure
        ∧ a.walkStart (w.session.walkAlone id walk) = .error failure)
      ∨ ∃ x y, w.session.walkStart walk = .ok x
          ∧ a.walkStart (w.session.walkAlone id walk) = .ok y
          ∧ x.unstamped = y.unstamped ∧ x.Within id := by
  rw [Session.walkStart, Session.walkStart, walkAlone_start, walkAlone_table]
  rw [Session.startsIn] at hstarts
  cases hstart : walk.start with
  | node name =>
    rw [hstart] at hstarts
    obtain ⟨x, hx, hhome⟩ := isNodeOf_iff.1 hstarts
    have hhandle := handle?_eq_some_iff.2 ⟨x, hx, hhome, rfl⟩
    rw [h.handles.handle?] at hhandle
    obtain ⟨y, hy, -, hsame⟩ := handle?_eq_some_iff.1 hhandle
    have hknown := hw.sound.handled _ (Assoc.mem_of_get?_eq_some hx)
    exact .inr ⟨x, y, by simp only [hx], by simp only [hy], hsame.symm, hknown.within hhome⟩
  | scope scope =>
    rw [hstart] at hstarts
    have hstarts' : a.isNameOf id walk.table = true := h.tables.isNameOf _ ▸ hstarts
    simp only [table?_of_isNameOf hstarts, table?_of_isNameOf hstarts']
    rcases h.tables.cases_table with ⟨ht, hu⟩ | ⟨t, u, ht, hu, hsame⟩
    · exact .inl ⟨.noTable, by rw [ht], by rw [hu]⟩
    · obtain ⟨hmem, rfl⟩ := Table.mem_of_find?_eq_some ht
      refine .inr ⟨_, _, by rw [ht], by rw [hu], ?_, hw.sound.within_lookup hmem scope⟩
      rw [Node.unstamped_rule, Node.unstamped_rule, ← Table.unstamped_lookup, hsame,
        Table.unstamped_lookup]
  | empty =>
    rw [hstart] at hstarts
    cases hstarts

/-- Where a walk leads that starts in the table, and what it asks for. -/
theorem Reachable.walk_alone (hw : w.Reachable) (h : Isolated id w.session a) (hid : id.serial ≠ 0)
    {walk : Walk} (hstarts : w.session.startsIn id walk = true) :
    ∃ result result' names, w.session.walk walk = (result, w.session.asking walk.table names)
      ∧ a.walk (w.session.walkAlone id walk)
          = (result', if w.session.isNameOf id walk.table then a.asking walk.table names else a)
      ∧ result.map Node.unstamped = result'.map Node.unstamped
      ∧ ∀ x, result = .ok x → x.Within id := by
  rcases hw.walkStart_alone h hstarts with ⟨failure, hx, hy⟩ | ⟨x, y, hx, hy, hxy, hwithin⟩
  · refine ⟨.error failure, .error failure, [], ?_, ?_, rfl, fun x hx => nomatch hx⟩
    · rw [walk_error hx, asking_nil hw.sound.distinct]
    · rw [walk_error hy, asking_nil h.tables.distinct, ite_self]
  · have hclass := ((hw.sound.agreeOn_within id).pass_eq hwithin (w.session.idsFor walk) 0
      walk.steps).2
    have hids := h.tables.idsFor walk
    have hdistinct := h.tables.distinct
    cases hname : w.session.isNameOf id walk.table with
    | true =>
      rw [hname, if_pos rfl] at hids
      have halone : w.session.walkAlone id walk = walk := by
        rw [walkAlone, hname]
        rfl
      rw [halone] at hids hy ⊢
      obtain ⟨hresult, hasked⟩ := hw.pass_eq h hid hwithin hxy (w.session.idsFor walk) walk.steps
      refine ⟨_, _, _, walk_eq hw.sound.distinct hx, ?_, hresult, hclass⟩
      rw [if_pos rfl, walk_eq hdistinct hy, hids, hasked]
    | false =>
      rw [hname, if_neg Bool.false_ne_true] at hids
      have hsteps : (w.session.walkAlone id walk).steps
          = WalkStep.spelled (w.session.idsFor walk) walk.steps := by
        rw [walkAlone, hname]
        rfl
      have hresult := (hw.pass_eq h hid hwithin hxy none
        (WalkStep.spelled (w.session.idsFor walk) walk.steps)).1
      rw [Snapshot.pass_spelled] at hresult
      refine ⟨_, _, _, walk_eq hw.sound.distinct hx, ?_, hresult, hclass⟩
      rw [if_neg Bool.false_ne_true, walk_eq hdistinct hy, hids, hsteps, walkAlone_table, asking,
        h.tables.table?_eq_none hname]

end World

-- ========================================================== operations

namespace Isolated

variable {s a : Session} {id : TableId}

theorem fresh (h : Isolated id s a) : Isolated id s { a with interner := .empty } :=
  ⟨h.tables.fresh, h.handles.fresh, ⟨h.named.distinct, h.named.named⟩⟩

/-- An operation that the part may have or not. -/
theorem perform_if (h : Isolated id s a) {s' : Session} {c : Bool} {op : Operation}
    (hop : ∀ b, Isolated id s b → Isolated id s' (if c then b.perform op else b)) :
    Isolated id s' ((if c then [op] else []).foldl performAlone a) := by
  cases c with
  | true => exact hop _ h.fresh
  | false => exact hop a h

/-- An operation on tables leaves the handles to nodes alone. -/
theorem of_tables (h : Isolated id s a) {s' : Session} {c : Bool} {op : Operation}
    (htables : TablesApart id s' (if c then a.perform op else a)) (hs : s'.nodeNames = s.nodeNames)
    (ha : (a.perform op).nodeNames = a.nodeNames) :
    Isolated id s' (if c then a.perform op else a) := by
  cases c with
  | true => exact ⟨htables, h.handles.keeps hs ha, h.named.perform op⟩
  | false => exact ⟨htables, h.handles.keeps hs rfl, h.named⟩

theorem nodeNames_inTable (s : Session) (name : String) (f : Table → Table) (k : Table → Interner) :
    (s.inTable name fun t => { s.putTable (f t) with interner := k t }).nodeNames
      = s.nodeNames := by
  unfold Session.inTable
  split <;> rfl

/-- Letting go of a handle leaves the tables alone. -/
theorem of_handles (h : Isolated id s a) {s' : Session} {c : Bool} {name : String}
    (hhandles : HandlesApart id s' (if c then a.release name else a))
    (htables : s'.tables = s.tables) (hnames : s'.tableNames = s.tableNames)
    (hmade : s'.tablesMade = s.tablesMade) :
    Isolated id s' (if c then a.perform (.release name) else a) := by
  cases c with
  | true =>
    exact ⟨h.tables.of_eq htables hnames hmade rfl rfl rfl, hhandles,
      h.named.perform (.release name)⟩
  | false => exact ⟨h.tables.of_eq htables hnames hmade rfl rfl rfl, hhandles, h.named⟩

/-- An operation within the table that a name is a handle to. -/
theorem inTable (h : Isolated id s a) {op : Operation} {name : String}
    {f : Interner → Table → Table} {k : Interner → Table → Interner}
    (hop : ∀ b : Session, b.perform op
      = b.inTable name fun t => { b.putTable (f b.interner t) with interner := k b.interner t })
    (hid : ∀ i t, (f i t).id = t.id)
    (hsame : ∀ i j t u, t.unstamped = u.unstamped → (f i t).unstamped = (f j u).unstamped) :
    Isolated id (s.perform op) (if s.isNameOf id name then a.perform op else a) := by
  refine h.of_tables ?_ ?_ ?_
  · rw [hop, hop]
    exact h.tables.inTable name hid hsame
  · rw [hop]
    exact nodeNames_inTable s name _ _
  · rw [hop]
    exact nodeNames_inTable a name _ _

/-- Names are asked for in a table. -/
theorem asking (h : Isolated id s a) (table : String) (names : List String) :
    Isolated id (s.asking table names)
      (if s.isNameOf id table then a.asking table names else a) := by
  have hnodes : ∀ b : Session, (b.asking table names).nodeNames = b.nodeNames := fun b =>
    (b.asking_asked table names).keeps.nodeNames
  have htables := h.tables.inTable table (f := fun _ t => t.asking names)
    (k := fun i _ => i) (fun _ _ => rfl) fun _ _ t u htu => by
      obtain ⟨hid, hregistry, hids, hcompiled⟩ := Table.fields_eq_of_unstamped htu
      simp [Table.asking, Table.unstamped, hid, hregistry, hids, hcompiled]
  change TablesApart id (s.asking table names) (if _ then a.asking table names else a) at htables
  cases hname : s.isNameOf id table with
  | true =>
    rw [hname] at htables
    exact ⟨htables, h.handles.keeps (hnodes s) (hnodes a),
      h.named.keeps (a.asking_asked table names).keeps⟩
  | false =>
    rw [hname] at htables
    exact ⟨htables, h.handles.keeps (hnodes s) rfl, h.named⟩

/-- Names are asked for in a table, one after the other. -/
theorem asks (h : Isolated id s a) (hdistinct : (s.tables.map Table.id).Nodup) (table : String)
    (names : List String) :
    Isolated id (s.asking table names)
      ((if s.isNameOf id table then names.map (Operation.ruleId table) else []).foldl
        performAlone a) := by
  cases hname : s.isNameOf id table with
  | false =>
    have hasking := h.asking table names
    rw [hname] at hasking
    exact hasking
  | true =>
    rw [if_pos rfl]
    induction names generalizing s a with
    | nil =>
      rw [asking_nil hdistinct]
      exact h
    | cons name rest ih =>
      have hasking := h.fresh.asking table [name]
      rw [hname, if_pos rfl] at hasking
      rw [← List.singleton_append, ← asking_asking]
      refine ih hasking ?_ ?_
      · rw [(s.asking_asked table [name]).keeps.ids]
        exact hdistinct
      · rw [Session.isNameOf, (s.asking_asked table [name]).keeps.tableNames]
        exact hname

end Isolated

namespace World

variable {w : World} {a : Session} {id : TableId}

theorem perform_hold_ok {s after : Session} {name : String} {walk : Walk} {x : Node}
    (h : s.walk walk = (.ok x, after)) : s.perform (.hold name walk) = after.hold name x := by
  rw [Session.perform, h]

theorem perform_hold_error {s after : Session} {name : String} {walk : Walk}
    {failure : WalkFailure} (h : s.walk walk = (.error failure, after)) :
    s.perform (.hold name walk) = after := by
  rw [Session.perform, h]

/-- Keeping what a walk from the table reaches. -/
theorem Reachable.isolated_hold (hw : w.Reachable) (h : Isolated id w.session a)
    (hid : id.serial ≠ 0) (name : String) {walk : Walk}
    (hstarts : w.session.startsIn id walk = true) :
    Isolated id (w.session.perform (.hold name walk))
      (a.perform (.hold name (w.session.walkAlone id walk))) := by
  obtain ⟨result, result', names, hwalk, hwalk', hsame, hclass⟩ := hw.walk_alone h hid hstarts
  have hasking := h.asking walk.table names
  cases result with
  | error failure =>
    cases result' with
    | error failure' =>
      rw [perform_hold_error hwalk, perform_hold_error hwalk']
      exact hasking
    | ok y => cases hsame
  | ok x =>
    cases result' with
    | error failure' => cases hsame
    | ok y =>
      rw [perform_hold_ok hwalk, perform_hold_ok hwalk']
      have hxy : x.unstamped = y.unstamped := Except.ok.inj hsame
      have hy : y.home? = some id ∨ y.unstamped = .rule .empty := by
        rcases (hclass x rfl).home with hhome | rfl
        · refine .inl ?_
          rw [← y.home?_unstamped, ← hxy, x.home?_unstamped, hhome]
        · exact .inr (by rw [← hxy, Node.unstamped_rule, Rule.unstamped_empty])
      exact ⟨hasking.tables.of_eq rfl rfl rfl rfl rfl rfl, hasking.handles.hold name hxy hy,
        ⟨hasking.named.distinct, hasking.named.named⟩⟩

/-- A walk that starts elsewhere starts within another table. -/
theorem Reachable.exists_within_start (hw : w.Reachable) (hid : id.serial ≠ 0) {walk : Walk}
    (hstarts : w.session.startsIn id walk = false) {x : Node}
    (hx : w.session.walkStart walk = .ok x) : ∃ other, other ≠ id ∧ x.Within other := by
  have hempty : (⟨0⟩ : TableId) ≠ id := fun heq => hid (heq ▸ rfl)
  rw [Session.startsIn] at hstarts
  rw [Session.walkStart] at hx
  cases hstart : walk.start with
  | node name =>
    simp only [hstart] at hstarts hx
    cases hnode : w.session.node? name with
    | none =>
      rw [hnode] at hx
      cases hx
    | some y =>
      rw [hnode] at hx
      cases hx
      have hknown := hw.sound.handled _ (Assoc.mem_of_get?_eq_some hnode)
      obtain ⟨other, hhome, hwithin⟩ := hknown.exists_home
      refine ⟨other, ?_, hwithin⟩
      rintro rfl
      exact Bool.eq_false_iff.1 hstarts (isNodeOf_iff.2 ⟨_, hnode, hhome⟩)
  | scope scope =>
    simp only [hstart] at hstarts hx
    cases ht : w.session.table? walk.table with
    | none =>
      rw [ht] at hx
      cases hx
    | some t =>
      rw [ht] at hx
      cases hx
      exact ⟨t.id, id_ne_of_not_isNameOf hstarts ht,
        hw.sound.within_lookup (mem_of_table?_eq_some ht).1 scope⟩
  | empty =>
    simp only [hstart] at hx
    cases hx
    exact ⟨⟨0⟩, hempty, .inl rfl⟩

/-- Keeping what a walk from elsewhere reaches: the table is asked for names,
and a name may be let go of. -/
theorem Reachable.isolated_hold_other (hw : w.Reachable) (h : Isolated id w.session a)
    (hid : id.serial ≠ 0) (name : String) {walk : Walk}
    (hstarts : w.session.startsIn id walk = false) :
    Isolated id (w.session.perform (.hold name walk))
      ((w.session.partOfHold id name walk).foldl performAlone a) := by
  rw [Session.partOfHold]
  cases hx : w.session.walkStart walk with
  | error failure =>
    rw [perform_hold_error (walk_error hx)]
    exact h
  | ok x =>
    obtain ⟨other, hne, hwithin⟩ := hw.exists_within_start hid hstarts hx
    have hclass := ((hw.sound.agreeOn_within other).pass_eq hwithin (w.session.idsFor walk) 0
      walk.steps).2
    have hwalk := walk_eq hw.sound.distinct hx
    simp only [hstarts, if_neg Bool.false_ne_true, List.foldl_append]
    generalize w.session.snapshot.pass (w.session.idsFor walk) x 0 walk.steps = pass
      at hclass hwalk ⊢
    obtain ⟨result, asked⟩ := pass
    have hasks := h.asks hw.sound.distinct walk.table asked
    generalize (List.foldl performAlone a _) = b at hasks ⊢
    cases result with
    | error failure =>
      rw [perform_hold_error hwalk]
      exact hasks
    | ok y =>
      rw [perform_hold_ok hwalk]
      have hy : y.home? ≠ some id := by
        rcases (hclass y rfl).home with hhome | rfl
        · rw [hhome]
          exact fun heq => hne (Option.some.inj heq)
        · exact fun heq => hid (Option.some.inj heq ▸ rfl)
      have hnode : (w.session.asking walk.table asked).isNodeOf id name
          = w.session.isNodeOf id name := by
        rw [isNodeOf, node?, (w.session.asking_asked walk.table asked).keeps.nodeNames]
        rfl
      refine hasks.perform_if fun c hc => ?_
      have hhandles := hc.handles.hold_other name hy
      rw [hnode] at hhandles
      exact hc.of_handles hhandles rfl rfl rfl

/-- Operations keep the relation. -/
theorem Reachable.isolated_perform (hw : w.Reachable) (h : Isolated id w.session a)
    (hid : id.serial ≠ 0) (op : Operation) :
    Isolated id (w.perform op).session ((w.session.part id op).foldl performAlone a) := by
  have hnamed := hw.named
  show Isolated id (w.session.perform op) _
  cases op with
  | newTable name =>
    rw [part]
    split
    · rename_i hserial
      exact ⟨h.fresh.tables.newTable_self hnamed h.fresh.named hw.sound.made name hserial,
        h.handles.keeps rfl rfl, h.fresh.named.perform (.newTable name)⟩
    · rename_i hserial
      exact h.perform_if fun b hb =>
        hb.of_tables (hb.tables.newTable_other hnamed hb.named name hserial) rfl rfl
  | cloneTable name other =>
    have hnodes : ∀ b : Session, (b.cloneTable name other).nodeNames = b.nodeNames := by
      intro b
      unfold Session.cloneTable
      split <;> rfl
    rw [part]
    split
    · rename_i hname
      exact ⟨h.fresh.tables.cloneTable_self hnamed h.fresh.named other hname,
        h.fresh.handles.keeps (hnodes _) (hnodes _), h.fresh.named.perform (.cloneTable name other)⟩
    · rename_i hname
      exact h.perform_if fun b hb =>
        hb.of_tables (hb.tables.cloneTable_other hnamed hb.named other
          (Bool.eq_false_iff.2 hname)) (hnodes _) rfl
  | dropTable name =>
    exact h.perform_if fun b hb => hb.of_tables (hb.tables.dropTable hnamed hb.named name) rfl rfl
  | add name d =>
    refine h.perform_if fun b hb => hb.inTable (f := fun i t => (t.add i d).table)
      (k := fun i t => (t.add i d).interner) (fun _ => rfl) (fun _ _ => rfl) ?_
    intro i j t u htu
    exact (Table.unstamped_add htu i j d).1
  | clear name =>
    refine h.perform_if fun b hb => hb.inTable (f := fun _ t => t.clear) (k := fun i _ => i)
      (fun _ => rfl) (fun _ _ => rfl) ?_
    intro i j t u htu
    obtain ⟨hid, -, hids, hcompiled⟩ := Table.fields_eq_of_unstamped htu
    simp [Table.clear, Table.unstamped, hid, hids, hcompiled]
  | compact name =>
    refine h.perform_if fun b hb => hb.inTable (f := fun _ t => t.compact) (k := fun i _ => i)
      (fun _ => rfl) (fun _ _ => rfl) ?_
    intro i j t u htu
    obtain ⟨hid, hregistry, hids, hcompiled⟩ := Table.fields_eq_of_unstamped htu
    simp [Table.compact, Table.unstamped, hid, hregistry, hids, hcompiled]
  | ruleId name entry =>
    refine h.perform_if fun b hb => hb.inTable (f := fun _ t => (t.ruleId entry).2)
      (k := fun i _ => i) (fun _ => rfl) (fun _ _ => rfl) ?_
    intro i j t u htu
    obtain ⟨hid, hregistry, hids, hcompiled⟩ := Table.fields_eq_of_unstamped htu
    simp [Table.ruleId, Table.unstamped, hid, hregistry, hids, hcompiled]
  | intern text => exact ⟨h.tables.of_eq rfl rfl rfl rfl rfl rfl, h.handles.keeps rfl rfl, h.named⟩
  | clearInterner =>
    exact ⟨h.tables.of_eq rfl rfl rfl rfl rfl rfl, h.handles.keeps rfl rfl, h.named⟩
  | hold name walk =>
    cases hstarts : w.session.startsIn id walk with
    | true =>
      have hhold := hw.isolated_hold h.fresh hid name hstarts
      rw [part, partOfHold]
      cases hx : w.session.walkStart walk with
      | error failure =>
        rw [perform_hold_error (walk_error hx)]
        exact h
      | ok x =>
        simp only [hstarts]
        exact hhold
    | false => exact hw.isolated_hold_other h hid name hstarts
  | release name =>
    exact h.perform_if fun b hb => hb.of_handles (hb.handles.release name) rfl rfl rfl

/-- So do runs. -/
theorem Reachable.isolated_run (hw : w.Reachable) (h : Isolated id w.session a)
    (hid : id.serial ≠ 0) (ops : List Operation) :
    Isolated id (ops.foldl World.perform w).session
      ((w.session.parts id ops).foldl performAlone a) := by
  induction ops generalizing w a with
  | nil => exact h
  | cons op rest ih =>
    rw [List.foldl_cons, parts, List.foldl_append]
    exact ih (hw.perform op) (hw.isolated_perform h hid op)

theorem isolated_start (filesPath : String) (made : Nat) :
    Isolated ⟨made + 1⟩ (start filesPath).session
      { Session.empty filesPath with tablesMade := made } where
  tables :=
    { table := rfl
      alone := fun _ ht => nomatch ht
      distinct := List.nodup_nil
      isNameOf := fun _ => rfl
      namedAlone := fun _ _ hname => nomatch hname
      made := fun _ => ⟨rfl, fun _ => rfl⟩ }
  handles := ⟨fun _ => rfl, fun _ _ hx => (nomatch hx), List.nodup_nil⟩
  named := ⟨List.nodup_nil, fun _ ht => (nomatch ht)⟩

end World

-- ======================================================= what is seen

/-- Two tables of which the same is seen: what is registered, the ids of
names, the rules that scopes lead to, and what further documents are reported
as, whatever interners they are compiled with. -/
structure Table.SeenAlike (t u : Table) : Prop where
  scopes : t.scopes = u.scopes
  size : t.size = u.size
  contains : ∀ scope, t.contains scope = u.contains scope
  ruleId : ∀ name, (t.ruleId name).1 = (u.ruleId name).1
  lookup : ∀ scope, (t.lookup scope).unstamped = (u.lookup scope).unstamped
  add : ∀ i j d, (t.add i d).scope.map Symbol.text = (u.add j d).scope.map Symbol.text
    ∧ (t.add i d).events = (u.add j d).events

/-- Two sessions in which the same is seen of a table and of the nodes that
come from it. Walks from there, in which names may be asked for, lead to the
same rules, with the same attributes, labels, selectors and content; and a
step of a walk may be that a reference is resolved. -/
structure SeenAlike (id : TableId) (s a : Session) : Prop where
  names : ∀ name, s.isNameOf id name = a.isNameOf id name
  handles : ∀ name, s.handle? id name = a.handle? id name
  table : (s.snapshot.table? id = none ∧ a.snapshot.table? id = none)
    ∨ ∃ t u, s.snapshot.table? id = some t ∧ a.snapshot.table? id = some u ∧ t.SeenAlike u
  walks : ∀ walk, s.startsIn id walk = true →
    (s.walk walk).1.map Node.unstamped = (a.walk (s.walkAlone id walk)).1.map Node.unstamped

/-- Of tables that are the same but for stamps the same is seen. -/
theorem Table.seenAlike_of_unstamped {t u : Table} (h : t.unstamped = u.unstamped) :
    t.SeenAlike u := by
  obtain ⟨-, hregistry, hids, -⟩ := fields_eq_of_unstamped h
  have hkeys : ∀ registry : Registry, registry.unstamped.keys = registry.keys := by
    intro registry
    simp [Assoc.keys, Registry.unstamped, Function.comp_def]
  have hhas : ∀ (registry : Registry) scope, registry.unstamped.has scope = registry.has scope :=
    fun registry scope => Assoc.has_map (fun p : String × Entry => p.2.unstamped) registry scope
  refine ⟨?_, ?_, fun scope => ?_, fun name => ?_, fun scope => ?_, fun i j d => ⟨?_, ?_⟩⟩
  · rw [scopes, scopes, ← hkeys, hregistry, hkeys]
  · have hlength := congrArg List.length hregistry
    rw [Registry.unstamped, Registry.unstamped, List.length_map, List.length_map] at hlength
    exact hlength
  · rw [contains, contains, ← hhas, hregistry, hhas]
  · rw [ruleId, ruleId, hids]
  · rw [← unstamped_lookup, h, unstamped_lookup]
  · exact (unstamped_add h i j d).2
  · exact unstamped_events h i j d

namespace World

/-- Tables are isolated, and the interner is invisible to them: after any
operations on any tables, with an interner that all of them share and that is
used and cleared in between, the same is seen of one table and of its nodes
as after the part of the operations that is about them, with a new interner
each time. -/
theorem tables_isolated (filesPath : String) (ops : List Operation) (made : Nat) :
    SeenAlike ⟨made + 1⟩ (run filesPath ops).session (Session.runAlone filesPath made ops) := by
  have hid : (⟨made + 1⟩ : TableId).serial ≠ 0 := Nat.succ_ne_zero made
  have hstart : (start filesPath).Reachable := ⟨filesPath, [], rfl⟩
  have hw : (run filesPath ops).Reachable := ⟨filesPath, ops, rfl⟩
  have h : Isolated ⟨made + 1⟩ (run filesPath ops).session
      (Session.runAlone filesPath made ops) :=
    hstart.isolated_run (isolated_start filesPath made) hid ops
  refine ⟨h.tables.isNameOf, h.handles.handle?, ?_, fun walk hstarts => ?_⟩
  · rcases h.tables.cases_table with hnone | ⟨t, u, ht, hu, hsame⟩
    · exact .inl hnone
    · exact .inr ⟨t, u, ht, hu, Table.seenAlike_of_unstamped hsame⟩
  · obtain ⟨result, result', names, hwalk, hwalk', hsame, -⟩ := hw.walk_alone h hid hstarts
    rw [hwalk, hwalk']
    exact hsame

end World

end ScopeRules
