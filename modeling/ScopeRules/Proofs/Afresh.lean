/-
A table that was cleared is used like a new one. Clearing empties the
registry and keeps the ids, so names that were known before have old ids
afterwards, where a new table gives out new ones; and sessions of ids are
counted on, where those of a new table start at zero. Neither can be told
from what is registered and from where walks lead.

# The relation

`World.Afresh` relates a run that goes on in a table since it was cleared to
one that does the same in a new table: the documents compiled since then are
paired in order, the registries have rules that are alike, and what handles
lead to is older. It is about two tables, of two worlds or of one. The new
table has no more names than the other one, and has not allocated more ids
(`Afresh.room`), so it is enough to know of the first one that it did not
run out.

# Steps

Every step in the tables keeps the relation (`Afresh.step`), and a walk from
a scope ends alike and asks for the same names (`Afresh.walk`). The induction
is on the steps of the walk, in worlds in which its names so far were asked
for (`Afresh.pass`).
-/
import ScopeRules.Proofs.Apart
import ScopeRules.Proofs.Compactions
import ScopeRules.Proofs.LoadOrder
import ScopeRules.Proofs.Parts

namespace ScopeRules

-- ============================================================ allocations

namespace RuleIds

theorem allocateAll_distinct {ids : RuleIds} (h : ids.session.Distinct) (names : List String) :
    (ids.allocateAll names).session.Distinct := by
  induction names generalizing ids with
  | nil => exact h
  | cons name rest ih =>
    rw [allocateAll_cons]
    refine ih ?_
    unfold idFor
    split
    · exact h
    · exact Assoc.put_distinct h _ _

/-- An allocator goes on having the names that another one has. -/
theorem isSome_allocateAll_of_isSome {ids ids' : RuleIds}
    (h : ∀ name, (ids'.get? name).isSome = true → (ids.get? name).isSome = true)
    (names : List String) (name : String)
    (hname : ((ids'.allocateAll names).get? name).isSome = true) :
    ((ids.allocateAll names).get? name).isSome = true := by
  rw [isSome_get?_allocateAll, Bool.or_eq_true] at hname ⊢
  exact hname.imp_left (h name)

/-- An allocator with no other names has no more. -/
theorem size_le_of_get? {ids ids' : RuleIds} (hdistinct : ids'.session.Distinct)
    (h : ∀ name, (ids'.get? name).isSome = true → (ids.get? name).isSome = true) :
    ids'.size ≤ ids.size := by
  have hsubset : ids'.session.keys ⊆ ids.session.keys := fun name hname =>
    Assoc.mem_keys_iff_has.2 (h name (Assoc.mem_keys_iff_has.1 hname))
  have hlength := (List.subperm_of_subset hdistinct hsubset).length_le
  rw [Assoc.keys, Assoc.keys, List.length_map, List.length_map] at hlength
  exact hlength

end RuleIds

/-- Tables that have entries for the same scopes have the same scopes. -/
theorem Table.scopes_eq {t t' : Table} {R : Entry → Entry → Prop}
    (h : ∀ scope, Option.Rel R (t.registry.get? scope) (t'.registry.get? scope))
    (ht : t.registry.Sorted Registry.before) (ht' : t'.registry.Sorted Registry.before) :
    t.scopes = t'.scopes ∧ t.size = t'.size ∧ ∀ scope, t.contains scope = t'.contains scope := by
  have hhas : ∀ scope, t.registry.has scope = t'.registry.has scope :=
    fun scope => isSome_eq_of_rel (h scope)
  have hkeys : t.registry.keys = t'.registry.keys :=
    Assoc.keys_eq_of_has Registry.before_strictOrder ht ht' hhas
  refine ⟨hkeys, ?_, hhas⟩
  have hlength := congrArg List.length hkeys
  rw [Assoc.keys, Assoc.keys, List.length_map, List.length_map] at hlength
  exact hlength

namespace World

variable {w v a b : World} {name name' : String} {id id' : TableId}
  {pairs : List (Compilation × Compilation)} {t t' : Table}

/-- The names of a session of ids are told apart. -/
theorem Reachable.session_distinct (h : w.Reachable) :
    ∀ t ∈ w.session.tables, t.ruleIds.session.Distinct := by
  refine h.induction (motive := fun w => ∀ t ∈ w.session.tables, t.ruleIds.session.Distinct)
    (fun _ t ht => nomatch ht) fun w op hdistinct u hu => ?_
  rcases exists_changed hu with ⟨rfl, -⟩ | ⟨t, ht, hchanged⟩
  · exact List.nodup_nil
  · rcases hchanged.ids with ⟨-, names, hids⟩ | ⟨-, hids⟩
    · rw [hids]
      exact RuleIds.allocateAll_distinct (hdistinct t ht) names
    · rw [hids]
      exact List.nodup_nil

/-- The names that a table has now were allocated. -/
theorem Reachable.names_le (h : w.Reachable) (id : TableId) :
    w.session.names id ≤ w.allocations id := by
  refine h.induction (motive := fun w => w.session.names id ≤ w.allocations id)
    (fun _ => Nat.le_refl 0) fun w op hle => ?_
  show (w.session.perform op).names id
    ≤ w.allocations id + ((w.session.perform op).names id - w.session.names id)
  omega

/-- What an operation allocates in a table. -/
theorem allocations_perform (hw : w.Reachable) {op : Operation} {u : Table}
    (ht : w.session.table? name = some t) (hu : (w.perform op).session.table? name = some u)
    (hid : u.id = t.id) :
    (w.perform op).allocations t.id
      = w.allocations t.id + (u.ruleIds.size - t.ruleIds.size) := by
  have hbefore := Session.names_id hw.sound.distinct (Session.mem_of_table?_eq_some ht).1
  have hafter := Session.names_id (hw.perform op).sound.distinct
    (Session.mem_of_table?_eq_some hu).1
  rw [hid] at hafter
  rw [← hbefore, ← hafter]
  rfl

-- =========================================================== the relation

/-- Two tables of which one has the names of the other, and is registered
alike. -/
structure TablesAfresh (a b : World) (pairs : List (Compilation × Compilation)) (t t' : Table) :
    Prop where
  registry : ∀ scope, Option.Rel (EntriesAlike pairs) (t.registry.get? scope)
    (t'.registry.get? scope)
  names : ∀ entry, (t'.ruleIds.get? entry).isSome = true → (t.ruleIds.get? entry).isSome = true
  allocations : b.allocations t'.id + t.ruleIds.size ≤ a.allocations t.id + t'.ruleIds.size

/-- Further names are asked for in both. -/
theorem TablesAfresh.allocations_allocateAll {a' b' : World} (h : TablesAfresh a b pairs t t')
    (names : List String)
    (ha : a'.allocations t.id = a.allocations t.id
      + ((t.ruleIds.allocateAll names).size - t.ruleIds.size))
    (hb : b'.allocations t'.id = b.allocations t'.id
      + ((t'.ruleIds.allocateAll names).size - t'.ruleIds.size)) :
    b'.allocations t'.id + (t.ruleIds.allocateAll names).size
      ≤ a'.allocations t.id + (t'.ruleIds.allocateAll names).size := by
  have hallocations := h.allocations
  have hsize := RuleIds.size_le_size_allocateAll t.ruleIds names
  have hsize' := RuleIds.size_le_size_allocateAll t'.ruleIds names
  omega

/-- A run that has gone on from `w` in the table `id`, which was cleared then,
and one that has gone on from `v` in the new table `id'`. -/
structure Afresh (w v a b : World) (name name' : String) (id id' : TableId)
    (pairs : List (Compilation × Compilation)) : Prop where
  left : a.Reachable
  right : b.Reachable
  log : a.log = w.log ++ pairs.map Prod.fst
  log' : b.log = v.log ++ pairs.map Prod.snd
  ofTable : ∀ q ∈ pairs, q.1.table.id = id ∧ q.2.table.id = id'
  document : ∀ q ∈ pairs, q.1.document = q.2.document
  epoch : ∀ q ∈ pairs, q.1.epoch = q.2.epoch + w.compactions id
  compactions : a.compactions id = b.compactions id' + w.compactions id
  handled : ∀ p ∈ a.session.nodeNames, Known w.log p.2
  handled' : ∀ p ∈ b.session.nodeNames, Known v.log p.2
  tables : ∃ t t', a.session.table? name = some t ∧ b.session.table? name' = some t'
    ∧ t.id = id ∧ t'.id = id' ∧ TablesAfresh a b pairs t t'

/-- What is compiled later is not of the earlier log. -/
theorem Reachable.not_known_of_log_eq (h : a.Reachable) {log new : List Compilation}
    (hlog : a.log = log ++ new) {k : Compilation} (hk : k ∈ new) {r : Rule} (hr : r ∈ k.rules) :
    ¬ Known log (.rule r) := by
  intro hknown
  rcases hknown with rfl | ⟨j, hj, hrj⟩
  · exact Compilation.id_ne_empty hr rfl
  · have hjk := h.sound.coherent.eq_of_mem_rules (hlog ▸ List.mem_append_left _ hj)
      (hlog ▸ List.mem_append_right _ hk) hrj hr rfl
    exact h.not_mem_of_log_eq hlog k hk (hjk ▸ hj)

namespace Afresh

/-- The new table has not allocated more than the other one. -/
theorem room (h : Afresh w v a b name name' id id' pairs) :
    b.allocations id' ≤ a.allocations id := by
  obtain ⟨t, t', ht, ht', rfl, rfl, htables⟩ := h.tables
  have hdistinct := h.right.session_distinct t' (Session.mem_of_table?_eq_some ht').1
  have hsize := RuleIds.size_le_of_get? hdistinct htables.names
  have hallocations := htables.allocations
  omega

/-- What was compiled since is none of what was compiled before. -/
theorem not_known (h : Afresh w v a b name name' id id' pairs) {q : Compilation × Compilation}
    (hq : q ∈ pairs) {r : Rule} (hr : r ∈ q.1.rules) : ¬ Known w.log (.rule r) :=
  h.left.not_known_of_log_eq h.log (List.mem_map_of_mem hq) hr

theorem not_known' (h : Afresh w v a b name name' id id' pairs) {q : Compilation × Compilation}
    (hq : q ∈ pairs) {r : Rule} (hr : r ∈ q.2.rules) : ¬ Known v.log (.rule r) :=
  h.right.not_known_of_log_eq h.log' (List.mem_map_of_mem hq) hr

/-- Nor are nodes that correspond. -/
theorem not_known_of_alike (h : Afresh w v a b name name' id id' pairs) {x x' : Node}
    (hx : Alike pairs x x') : x = .rule .empty ∨ ¬ Known w.log x := by
  cases hx with
  | empty => exact .inl rfl
  | @twins q _ _ hq htwins =>
    cases htwins with
    | rule left right => exact .inr (h.not_known hq (List.mem_of_getElem? left))
    | @reference r _ d source outer _ place p _ anchors left memLeft right memRight =>
      -- a reference tells its anchor, and with it its document
      refine .inr fun hknown => ?_
      obtain ⟨k, hk, s, e, outer', place', source', htrail, hmem⟩ := hknown
      have hanchor := (left.anchor_eq memLeft).symm.trans (htrail.anchor_eq hmem)
      refine h.not_known hq left.mem_rules (.inr ⟨k, hk, ?_⟩)
      have hsame := eq_of_known h.left.sound.coherent (r := r) (s := s)
        (.inr ⟨q.1, h.log ▸ List.mem_append_right _ (List.mem_map_of_mem hq), left.mem_rules⟩)
        (.inr ⟨k, h.log ▸ List.mem_append_left _ hk, htrail.mem_rules⟩) (Option.some.inj hanchor)
      exact hsame ▸ htrail.mem_rules

/-- A record of the ids that the tables have issued goes with the pairs. -/
theorem paired (h : Afresh w v a b name name' id id' pairs) {issued issued' : List (Nat × String)}
    (hissued : a.Accounts id issued) (hissued' : b.Accounts id' issued') :
    Paired id id' a.log b.log issued issued' pairs := by
  have hmem : ∀ {q : Compilation × Compilation}, q ∈ pairs → q.1 ∈ a.log ∧ q.2 ∈ b.log := by
    intro q hq
    rw [h.log, h.log']
    exact ⟨List.mem_append_right _ (List.mem_map_of_mem hq),
      List.mem_append_right _ (List.mem_map_of_mem hq)⟩
  have hnodup := h.left.sound.coherent.nodup
  have hnodup' := h.right.sound.coherent.nodup
  rw [h.log] at hnodup
  rw [h.log'] at hnodup'
  refine ⟨h.left.sound.coherent, h.right.sound.coherent, (List.nodup_append.1 hnodup).2.1,
    (List.nodup_append.1 hnodup').2.1, fun hq => ⟨(hmem hq).1, (h.ofTable _ hq).1⟩,
    fun hq => ⟨(hmem hq).2, (h.ofTable _ hq).2⟩, h.document, hissued.distinct,
    hissued'.distinct, fun q hq => ?_, fun q hq => ?_, fun p hp q hq hpq => ?_⟩
  · exact hissued.compiled q.1 (hmem hq).1 (h.ofTable q hq).1
  · exact hissued'.compiled q.2 (hmem hq).2 (h.ofTable q hq).2
  · rw [h.epoch p hp, h.epoch q hq, hpq]

/-- Nothing is compacted away on one side only. -/
theorem not_missed (h : Afresh w v a b name name' id id' pairs) : ¬ Mirror.Missed pairs := by
  rintro ⟨p, hp, q, hq, hleft, hright⟩
  rw [h.epoch p hp, h.epoch q hq] at hleft
  exact hright (Nat.add_right_cancel hleft)

/-- What is alive of a pair is held by the registries. -/
theorem mirror (h : Afresh w v a b name name' id id' pairs) {issued issued' : List (Nat × String)}
    (hp : Paired id id' a.log b.log issued issued' pairs) :
    Mirror id id' a.log b.log pairs a.session.snapshot b.session.snapshot := by
  obtain ⟨t, t', ht, ht', rfl, rfl, htables⟩ := h.tables
  refine ⟨h.left.sound.from, h.right.sound.from, ?_, t, t', ?_, ?_,
    fun scope => alike_lookup (htables.registry scope)⟩
  · intro q hq r r' htwins
    have hr : r.id.table = t.id := by
      rw [(q.1.id_of_mem_rules htwins.mem_left).1, (hp.mem_left hq).2]
    have hr' : r'.id.table = t'.id := by
      rw [(q.2.id_of_mem_rules htwins.mem_right).1, (hp.mem_right hq).2]
    have hhandle : ¬ ∃ p ∈ a.session.nodeNames, p.2 = .rule r := by
      rintro ⟨p, hp, hx⟩
      exact h.not_known hq htwins.mem_left (hx ▸ h.handled p hp)
    have hhandle' : ¬ ∃ p ∈ b.session.nodeNames, p.2 = .rule r' := by
      rintro ⟨p, hp, hx⟩
      exact h.not_known' hq htwins.mem_right (hx ▸ h.handled' p hp)
    rw [h.left.mem_held_iff ht hr, h.right.mem_held_iff ht' hr', or_iff_left hhandle,
      or_iff_left hhandle']
    refine exists_congr fun scope => ?_
    have hrule := Alike.twins hq htwins
    rcases cases_of_rel (htables.registry scope)
      with ⟨hnone, hnone'⟩ | ⟨e, e', he, he', hnode, hroot⟩
    · simp [hnone, hnone']
    · simp [he, he', hp.alike_eq_iff hrule hnode, hp.alike_eq_iff hrule hroot]
  · exact Session.table?_id h.left.sound.distinct (Session.mem_of_table?_eq_some ht).1
  · exact Session.table?_id h.right.sound.distinct (Session.mem_of_table?_eq_some ht').1

-- ================================================================= steps

/-- Worlds in which nothing was compiled since. -/
theorem keep (h : Afresh w v a b name name' id id' pairs) {a' b' : World} (ha : a'.Reachable)
    (hb : b'.Reachable) (hlog : a'.log = a.log) (hlog' : b'.log = b.log)
    (hcompactions : a'.compactions id = b'.compactions id' + w.compactions id)
    (hnames : a'.session.nodeNames ⊆ a.session.nodeNames)
    (hnames' : b'.session.nodeNames ⊆ b.session.nodeNames)
    (htables : ∃ t t', a'.session.table? name = some t ∧ b'.session.table? name' = some t'
      ∧ t.id = id ∧ t'.id = id' ∧ TablesAfresh a' b' pairs t t') :
    Afresh w v a' b' name name' id id' pairs :=
  ⟨ha, hb, hlog.trans h.log, hlog'.trans h.log', h.ofTable, h.document, h.epoch, hcompactions,
    fun p hp => h.handled p (hnames hp), fun p hp => h.handled' p (hnames' hp), htables⟩

/-- A document that is added in both runs. -/
theorem add (h : Afresh w v a b name name' id id' pairs) (d : Document) :
    ∃ q, Afresh w v (a.perform (.add name d)) (b.perform (.add name' d)) name name' id id'
      (pairs ++ [q]) := by
  obtain ⟨t, t', ht, ht', rfl, rfl, htables⟩ := h.tables
  let k : Compilation := ⟨t, a.session.interner, d, a.compactions t.id⟩
  let k' : Compilation := ⟨t', b.session.interner, d, b.compactions t'.id⟩
  have hlog : (a.perform (.add name d)).log = a.log ++ [k] := TableStep.log_perform_add ht d
  have hlog' : (b.perform (.add name' d)).log = b.log ++ [k'] := TableStep.log_perform_add ht' d
  have hafter := TableStep.table?_perform ht (.add d)
  have hafter' := TableStep.table?_perform ht' (.add d)
  have hlast : ∀ {P : Compilation × Compilation → Prop}, (∀ q ∈ pairs, P q) → P (k, k') →
      ∀ q ∈ pairs ++ [(k, k')], P q := by
    intro P hpairs hk q hq
    rcases List.mem_append.1 hq with hq | hq
    · exact hpairs q hq
    · exact List.mem_singleton.1 hq ▸ hk
  refine ⟨(k, k'), h.left.perform _, h.right.perform _, ?_, ?_, hlast h.ofTable ⟨rfl, rfl⟩,
    hlast h.document rfl, hlast h.epoch h.compactions, ?_, ?_, ?_, _, _, hafter, hafter', rfl, rfl,
    ?_⟩
  · rw [hlog, h.log, List.map_append, List.append_assoc]
    rfl
  · rw [hlog', h.log', List.map_append, List.append_assoc]
    rfl
  · have hcompactions := TableStep.compactions_perform ht (.add d)
    have hcompactions' := TableStep.compactions_perform ht' (.add d)
    have hbefore := h.compactions
    show (a.perform (TableStep.on name (.add d))).compactions t.id
      = (b.perform (TableStep.on name' (.add d))).compactions t'.id + _
    rw [hcompactions, hcompactions']
    simp only [TableStep.closes, Bool.false_eq_true, if_false]
    exact hbefore
  · intro p hp
    exact h.handled p (TableStep.nodeNames_perform a name (.add d) ▸ hp)
  · intro p hp
    exact h.handled' p (TableStep.nodeNames_perform b name' (.add d) ▸ hp)
  · refine ⟨fun scope => ?_, RuleIds.isSome_allocateAll_of_isSome htables.names _, ?_⟩
    · have hold := imp_of_rel (htables.registry scope) fun e e' he =>
        he.mono (List.subset_append_left pairs [(k, k')])
      have hpair : (k, k') ∈ pairs ++ [(k, k')] := List.mem_append_right _ (.head _)
      have hboth := or_of_rel (alike_registers? hpair rfl scope) hold
      rw [← k.get?_add, ← k'.get?_add] at hboth
      exact hboth
    · exact htables.allocations_allocateAll _ (allocations_perform h.left ht hafter rfl)
        (allocations_perform h.right ht' hafter' rfl)

/-- A step that compiles nothing. -/
theorem step_keep (h : Afresh w v a b name name' id id' pairs) (step : TableStep)
    (hstep : ∀ d, step ≠ .add d) :
    Afresh w v (a.perform (step.on name)) (b.perform (step.on name')) name name' id id' pairs := by
  obtain ⟨t, t', ht, ht', rfl, rfl, htables⟩ := h.tables
  have hafter := TableStep.table?_perform ht step
  have hafter' := TableStep.table?_perform ht' step
  have hallocations := allocations_perform h.left ht hafter (step.of_id _)
  have hallocations' := allocations_perform h.right ht' hafter' (step.of_id _)
  refine h.keep (h.left.perform _) (h.right.perform _) (TableStep.log_perform a name hstep)
    (TableStep.log_perform b name' hstep) ?_
    (TableStep.nodeNames_perform a name step ▸ List.Subset.refl _)
    (TableStep.nodeNames_perform b name' step ▸ List.Subset.refl _)
    ⟨_, _, hafter, hafter', step.of_id _, step.of_id _, ?_⟩
  · have hbefore := h.compactions
    rw [TableStep.compactions_perform ht, TableStep.compactions_perform ht']
    omega
  · refine ⟨fun scope => TableStep.rel_registry htables.registry hstep _ _ scope, ?_, ?_⟩
    · cases step with
      | add d => exact absurd rfl (hstep d)
      | clear => exact htables.names
      | compact => exact fun entry hentry => hentry
      | ruleId entry => exact RuleIds.isSome_allocateAll_of_isSome htables.names [entry]
    · have hbefore := htables.allocations
      have hroom := h.room
      rw [step.of_id, step.of_id]
      cases step with
      | add d => exact absurd rfl (hstep d)
      | clear =>
        rw [hallocations, hallocations']
        simp only [TableStep.of, Table.clear]
        omega
      | compact =>
        rw [hallocations, hallocations']
        simp only [TableStep.of, Table.compact, RuleIds.compact, RuleIds.size, List.length_nil]
        omega
      | ruleId entry =>
        exact htables.allocations_allocateAll [entry] hallocations hallocations'

/-- Every step keeps the relation. -/
theorem step (h : Afresh w v a b name name' id id' pairs) (done : TableStep) :
    ∃ more, Afresh w v (a.perform (done.on name)) (b.perform (done.on name')) name name' id id'
      (pairs ++ more) := by
  by_cases hadd : ∃ d, done = .add d
  · obtain ⟨d, rfl⟩ := hadd
    obtain ⟨q, hq⟩ := h.add d
    exact ⟨[q], hq⟩
  · refine ⟨[], ?_⟩
    rw [List.append_nil]
    exact h.step_keep done fun d hd => hadd ⟨d, hd⟩

/-- Names are asked for in both tables. -/
theorem asks (h : Afresh w v a b name name' id id' pairs) (names : List String) :
    Afresh w v (a.steps name (names.map .ruleId)) (b.steps name' (names.map .ruleId)) name name'
      id id' pairs := by
  induction names generalizing a b with
  | nil => exact h
  | cons entry rest ih => exact ih (h.step_keep (.ruleId entry) fun d hd => nomatch hd)

end Afresh

-- =============================================================== walks

/-- Asking for names one after the other. -/
theorem session_steps_ruleId (hw : w.Reachable) (name : String) (names : List String) :
    (w.steps name (names.map .ruleId)).session = w.session.asking name names := by
  induction names generalizing w with
  | nil => exact (Session.asking_nil hw.sound.distinct).symm
  | cons entry rest ih =>
    rw [← List.singleton_append, ← Session.asking_asking]
    exact ih (hw.perform _)

theorem steps_append (w : World) (name : String) (steps more : List TableStep) :
    w.steps name (steps ++ more) = (w.steps name steps).steps name more := List.foldl_append

/-- A table that was asked for names, and a pass after that. -/
theorem Reachable.asked_for (hw : w.Reachable) (ht : w.session.table? name = some t)
    (names : List String) :
    (w.steps name (names.map .ruleId)).session.table? name = some (t.asking names)
      ∧ (w.steps name (names.map .ruleId)).session.snapshot.pass = w.session.snapshot.pass := by
  rw [session_steps_ruleId hw]
  refine ⟨by rw [Session.table?_asking, ht]; rfl, ?_⟩
  funext ids x index steps
  exact ((Session.agreeOn_asking hw.sound.distinct name names).pass_eq trivial ids index steps).1

theorem log_steps_ruleId (w : World) (name : String) (names : List String) :
    (w.steps name (names.map .ruleId)).log = w.log := by
  induction names generalizing w with
  | nil => rfl
  | cons entry rest ih =>
    refine (ih (w.perform (.ruleId name entry))).trans ?_
    exact @TableStep.log_perform w name (.ruleId entry) fun d hd => nomatch hd

theorem compactions_steps_ruleId (w : World) (name : String) (names : List String) :
    (w.steps name (names.map .ruleId)).compactions = w.compactions := by
  induction names generalizing w with
  | nil => rfl
  | cons entry rest ih => exact ih (w.perform (.ruleId name entry))

theorem allocations_le_steps (w : World) (name : String) (steps : List TableStep) (id : TableId) :
    w.allocations id ≤ (w.steps name steps).allocations id := by
  induction steps generalizing w with
  | nil => exact Nat.le_refl _
  | cons done rest ih =>
    exact Nat.le_trans (Nat.le_add_right _ _) (ih (w.perform (done.on name)))

/-- Two passes that ask for the same names and end alike. -/
def PassAlike (pairs : List (Compilation × Compilation))
    (out out' : Except WalkFailure Node × List String) : Prop :=
  out.2 = out'.2 ∧ ((∃ failure, out.1 = .error failure ∧ out'.1 = .error failure)
    ∨ ∃ x x', out.1 = .ok x ∧ out'.1 = .ok x' ∧ Alike pairs x x')

namespace Afresh

/-- A record of the ids that the tables have, for as long as the first one has
not run out of them. -/
theorem exists_accounts (h : Afresh w v a b name name' id id' pairs)
    (hroom : a.allocations id ≤ RuleId.largest) :
    ∃ issued issued', a.Accounts id issued ∧ b.Accounts id' issued' := by
  obtain ⟨issued, hissued⟩ := h.left.sound.accounted id hroom
  obtain ⟨issued', hissued'⟩ := h.right.sound.accounted id' (Nat.le_trans h.room hroom)
  exact ⟨issued, issued', hissued, hissued'⟩

/-- One step of a walk, with the ids that the tables have for its name. -/
theorem next? (h : Afresh w v a b name name' id id' pairs) {x x' : Node} (hx : Alike pairs x x')
    {step : WalkStep} (hid : ∀ i, step ≠ .entryId i) (ht : a.session.table? name = some t)
    (ht' : b.session.table? name' = some t')
    (hroom : (a.steps name (step.name?.toList.map .ruleId)).allocations id ≤ RuleId.largest) :
    Option.Rel (Alike pairs)
      (a.session.snapshot.next? (fun entry => some (t.ruleIds.idFor entry).1) x step)
      (b.session.snapshot.next? (fun entry => some (t'.ruleIds.idFor entry).1) x' step) := by
  have hafter := h.asks step.name?.toList
  obtain ⟨issued, issued', hissued, hissued'⟩ := hafter.exists_accounts hroom
  have hp := hafter.paired hissued hissued'
  rw [log_steps_ruleId, log_steps_ruleId] at hp
  have hmirror := h.mirror hp
  by_cases hentry : ∃ entry, step = .entry entry
  · obtain ⟨entry, rfl⟩ := hentry
    obtain ⟨u, u', hu, hu', hid, hid', -⟩ := h.tables
    obtain rfl := Option.some.inj (ht.symm.trans hu)
    obtain rfl := Option.some.inj (ht'.symm.trans hu')
    have hcurrent := hissued.current _ (Session.mem_of_table?_eq_some
      (TableStep.table?_perform ht (.ruleId entry))).1 hid
    have hcurrent' := hissued'.current _ (Session.mem_of_table?_eq_some
      (TableStep.table?_perform ht' (.ruleId entry))).1 hid'
    rw [compactions_steps_ruleId] at hcurrent hcurrent'
    refine hmirror.next?_entry hp h.not_missed hx hcurrent.recorded hcurrent'.recorded
      ((RuleIds.get?_idFor _ _ _).trans (if_pos rfl))
      ((RuleIds.get?_idFor _ _ _).trans (if_pos rfl)) fun q hq => ?_
    rw [h.compactions, h.epoch q hq]
    omega
  · exact hmirror.next? hp h.not_missed hx hid (fun entry heq => hentry ⟨entry, heq⟩) _ _

/-- The steps of a walk, with the ids that the tables have for its names. The
induction is on the steps; the tables have been asked for the names so far. -/
theorem pass {steps : List WalkStep} (hids : ∀ s ∈ steps, ∀ i, s ≠ .entryId i)
    (h : Afresh w v a b name name' id id' pairs) {x x' : Node} (hx : Alike pairs x x')
    (index : Nat) (ht : a.session.table? name = some t) (ht' : b.session.table? name' = some t')
    (hroom : (a.steps name ((a.session.snapshot.pass (some t.ruleIds) x index steps).2.map
      .ruleId)).allocations id ≤ RuleId.largest) :
    PassAlike pairs (a.session.snapshot.pass (some t.ruleIds) x index steps)
      (b.session.snapshot.pass (some t'.ruleIds) x' index steps) := by
  induction steps generalizing a b x x' index t t' with
  | nil => exact ⟨rfl, .inr ⟨x, x', rfl, rfl, hx⟩⟩
  | cons step rest ih =>
    rw [Snapshot.pass_cons] at hroom ⊢
    rw [Snapshot.pass_cons]
    have hprefix : (a.steps name (step.name?.toList.map .ruleId)).allocations id
        ≤ RuleId.largest := by
      refine Nat.le_trans ?_ hroom
      split
      · exact Nat.le_refl _
      · rw [List.map_append, steps_append]
        exact allocations_le_steps _ _ _ _
    have hnext := h.next? hx (hids step (.head _)) ht ht' hprefix
    rcases cases_of_rel hnext with ⟨hnone, hnone'⟩ | ⟨y, y', hy, hy', halike⟩
    · rw [hnone, hnone']
      exact ⟨rfl, .inl ⟨_, rfl, rfl⟩⟩
    · rw [hy] at hroom
      rw [hy, hy']
      obtain ⟨hasked, hpassed⟩ := h.left.asked_for ht step.name?.toList
      obtain ⟨hasked', hpassed'⟩ := h.right.asked_for ht' step.name?.toList
      have hrest := ih (fun s hs => hids s (.tail _ hs)) (h.asks step.name?.toList) halike
        (index + 1) hasked hasked' (by
          rw [hpassed, ← steps_append, ← List.map_append]
          exact hroom)
      rw [hpassed, hpassed'] at hrest
      exact ⟨congrArg (step.name?.toList ++ ·) hrest.1, hrest.2⟩

/-- A walk from a scope ends alike in both runs, and asks for the same names. -/
theorem walk (h : Afresh w v a b name name' id id' pairs) {scope : String}
    {steps : List WalkStep} (hids : ∀ s ∈ steps, ∀ i, s ≠ .entryId i)
    (hroom : ∀ names, (a.session.walk ⟨name, .scope scope, steps⟩).2 = a.session.asking name names →
      (a.steps name (names.map .ruleId)).allocations id ≤ RuleId.largest) :
    EndsAlike pairs (a.session.walk ⟨name, .scope scope, steps⟩)
        (b.session.walk ⟨name', .scope scope, steps⟩)
      ∧ ∃ names, (a.session.walk ⟨name, .scope scope, steps⟩).2 = a.session.asking name names
        ∧ (b.session.walk ⟨name', .scope scope, steps⟩).2 = b.session.asking name' names := by
  obtain ⟨t, t', ht, ht', -, -, htables⟩ := h.tables
  have hwalk := Session.walkSteps_eq h.left.sound.distinct name
    (.rule (t.lookup scope)) 0 steps
  have hwalk' := Session.walkSteps_eq h.right.sound.distinct name'
    (.rule (t'.lookup scope)) 0 steps
  rw [← Session.walk_scope ht, ht, Option.map_some] at hwalk
  rw [← Session.walk_scope ht', ht', Option.map_some] at hwalk'
  have hlookup := alike_lookup (htables.registry scope)
  have hrooms := hroom _ (congrArg Prod.snd hwalk)
  obtain ⟨hnames, hends⟩ := h.pass hids hlookup 0 ht ht' hrooms
  obtain ⟨issued, issued', hissued, hissued'⟩ :=
    h.exists_accounts (Nat.le_trans (allocations_le_steps _ _ _ _) hrooms)
  have hp := h.paired hissued hissued'
  refine ⟨?_, _, congrArg Prod.snd hwalk, by rw [hwalk', hnames]⟩
  rw [hwalk, hwalk']
  rcases hends with hfailure | ⟨x, x', hx, hx', halike⟩
  · exact .inl hfailure
  · -- names that were asked for change nothing that is looked at
    have hresolve := (h.mirror hp).alike_resolve hp h.not_missed halike
    have hsame := ((Session.agreeOn_asking h.left.sound.distinct name
      (a.session.snapshot.pass (some t.ruleIds) (.rule (t.lookup scope)) 0 steps).2).resolve_eq
        (x := x) trivial).1
    have hsame' := ((Session.agreeOn_asking h.right.sound.distinct name'
      (b.session.snapshot.pass (some t'.ruleIds) (.rule (t'.lookup scope)) 0 steps).2).resolve_eq
        (x := x') trivial).1
    refine .inr ⟨x, x', hx, hx', halike, ?_⟩
    rw [hsame, hsame']
    exact ⟨hresolve, hp.face_eq hresolve⟩

end Afresh

end World

end ScopeRules
