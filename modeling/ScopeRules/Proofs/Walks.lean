/-
Walks at two moments that look the same. A walk may ask its table for ids,
and asks for nothing else; so the sessions go on looking the same while two
callers take the same walk, and the ids that they get mean the same names.

# The walk

`Session.Mirrored` is the invariant: the two sessions look the same to those
who walk in one table. Asking keeps it (`Mirrored.asked`); one step leads
from nodes that are alike to nodes that are alike, or nowhere in both
(`Mirrored.walkStep`), and so does a whole walk (`Mirrored.walkSteps`), by
induction on its steps. Both are given a record of the ids that the tables
have issued in the end, which has the ids that were asked for on the way.
-/
import ScopeRules.Proofs.Mirror
import ScopeRules.Proofs.Sound

namespace ScopeRules

/-- What is recorded of later ids is recorded of the earlier ones. -/
theorem RuleIds.Recorded.of_allocateAll {ids : RuleIds} {names : List String} {session : Nat}
    {issued : List (Nat × String)} (h : Recorded (ids.allocateAll names) session issued) :
    Recorded ids session issued :=
  fun _ _ hid => h _ _ (get?_allocateAll_of_some names hid)

namespace Session

variable {s s' after after' : Session} {name : String}

-- ================================================================ asking

/-- Names that were asked for leave tables where they are, with what is
registered in them. -/
theorem Asked.exists_map (h : s.Asked name after) (hdistinct : (s.tables.map Table.id).Nodup) :
    after.nodeNames = s.nodeNames ∧ ∃ f : Table → Table, after.tables = s.tables.map f
      ∧ ∀ t ∈ s.tables, (f t).id = t.id ∧ (f t).registry = t.registry := by
  rcases h with rfl | ⟨t, names, ht, rfl⟩
  · exact ⟨rfl, fun t => t, (List.map_id _).symm, fun t _ => ⟨rfl, rfl⟩⟩
  · refine ⟨rfl, _, rfl, fun u hu => ?_⟩
    by_cases hid : u.id = t.id
    · have htu := List.inj_on_of_nodup_map hdistinct hu (mem_of_table?_eq_some ht).1 hid
      simp [htu, Table.asking]
    · simp [Table.asking, hid]

theorem Asked.held_eq (h : s.Asked name after) (hdistinct : (s.tables.map Table.id).Nodup) :
    after.snapshot.held = s.snapshot.held := by
  obtain ⟨hnames, f, htables, hf⟩ := h.exists_map hdistinct
  show after.tables.flatMap _ ++ _ = s.tables.flatMap _ ++ _
  rw [htables, hnames, List.flatMap_map]
  refine congrArg (· ++ _) (List.flatMap_congr fun t ht => ?_)
  rw [(hf t ht).2]

theorem Asked.exists_lookup (h : s.Asked name after) (hdistinct : (s.tables.map Table.id).Nodup)
    {id : TableId} {t : Table} (ht : s.snapshot.table? id = some t) :
    ∃ u, after.snapshot.table? id = some u ∧ ∀ scope, u.lookup scope = t.lookup scope := by
  obtain ⟨-, f, htables, hf⟩ := h.exists_map hdistinct
  obtain ⟨hmem, rfl⟩ := Table.mem_of_find?_eq_some ht
  obtain ⟨hid, hregistry⟩ := hf t hmem
  refine ⟨f t, ?_, fun scope => by simp only [Table.lookup, hregistry]⟩
  rw [← hid]
  refine table?_id ?_ (htables ▸ List.mem_map_of_mem hmem)
  rw [h.keeps.ids]
  exact hdistinct

theorem Asked.exists_table (h : s.Asked name after) {t : Table} (ht : s.table? name = some t) :
    ∃ names, after.table? name = some (t.asking names) := by
  rcases h with rfl | ⟨u, names, hu, rfl⟩
  · exact ⟨[], ht⟩
  · obtain rfl : u = t := Option.some.inj (hu.symm.trans ht)
    exact ⟨names, table?_putTable ht rfl⟩

/-- What a walk does after its first step. -/
theorem asked_walkSteps_cons (s : Session) (name : String) (x : Node) (index : Nat)
    (step : WalkStep) (rest : List WalkStep) :
    (s.walkStep name x step).2.Asked name (s.walkSteps name x index (step :: rest)).2 := by
  rw [walkSteps]
  split
  · rename_i y after heq
    rw [heq]
    exact asked_walkSteps after name y (index + 1) rest
  · rename_i after heq
    rw [heq]
    exact .inl rfl

/-- A walk from a scope starts at the rule that is registered for it. -/
theorem walk_scope {t : Table} (ht : s.table? name = some t) (scope : String)
    (steps : List WalkStep) :
    s.walk ⟨name, .scope scope, steps⟩ = s.walkSteps name (.rule (t.lookup scope)) 0 steps := by
  simp only [walk, walkStart, ht]

-- ========================================================= two sessions

/-- Two sessions that look the same to those who walk in the table that
`name` is a handle to. -/
structure Mirrored (id : TableId) (log log' : List Compilation)
    (pairs : List (Compilation × Compilation)) (name : String) (s s' : Session) : Prop where
  mirror : Mirror id id log log' pairs s.snapshot s'.snapshot
  distinct : (s.tables.map Table.id).Nodup
  distinct' : (s'.tables.map Table.id).Nodup
  table : ∃ t, s.table? name = some t
  table' : ∃ t', s'.table? name = some t'

/-- Whether the ids of the table that a name is a handle to stand in a
record as those of a session. -/
def Records (s : Session) (name : String) (session : Nat) (issued : List (Nat × String)) : Prop :=
  ∀ t, s.table? name = some t → RuleIds.Recorded t.ruleIds session issued

variable {id : TableId} {log log' : List Compilation} {pairs : List (Compilation × Compilation)}
  {issued issued' : List (Nat × String)} {epoch epoch' : Nat} {x x' : Node}

/-- A later record has the ids of now. -/
theorem Records.of_asked (h : after.Records name epoch issued) (hasked : s.Asked name after) :
    s.Records name epoch issued := by
  intro t ht
  obtain ⟨names, htable⟩ := hasked.exists_table ht
  exact (h _ htable).of_allocateAll

/-- Sessions look the same whatever names were asked for. -/
theorem Mirrored.asked (h : Mirrored id log log' pairs name s s') (ha : s.Asked name after)
    (ha' : s'.Asked name after') : Mirrored id log log' pairs name after after' := by
  obtain ⟨t, ht⟩ := h.table
  obtain ⟨t', ht'⟩ := h.table'
  obtain ⟨names, hu⟩ := ha.exists_table ht
  obtain ⟨names', hu'⟩ := ha'.exists_table ht'
  obtain ⟨v, v', hv, hv', hlookup⟩ := h.mirror.lookup
  obtain ⟨z, hz, hsame⟩ := ha.exists_lookup h.distinct hv
  obtain ⟨z', hz', hsame'⟩ := ha'.exists_lookup h.distinct' hv'
  refine ⟨⟨ha.from h.mirror.from, ha'.from h.mirror.from', ?_, z, z', hz, hz', ?_⟩,
    ha.keeps.ids ▸ h.distinct, ha'.keeps.ids ▸ h.distinct', ⟨_, hu⟩, ⟨_, hu'⟩⟩
  · rw [ha.held_eq h.distinct, ha'.held_eq h.distinct']
    exact h.mirror.held
  · intro scope
    rw [hsame, hsame']
    exact hlookup scope

/-- One step of a walk at both moments. -/
theorem Mirrored.walkStep (h : Mirrored id log log' pairs name s s')
    (hp : Paired id id log log' issued issued' pairs) (hmissed : ¬ Mirror.Missed pairs)
    (hepoch : ∀ q ∈ pairs, epoch = q.1.epoch ↔ epoch' = q.2.epoch) (hx : Alike pairs x x')
    {step : WalkStep} (hid : ∀ i, step ≠ .entryId i)
    (hrecords : (s.walkStep name x step).2.Records name epoch issued)
    (hrecords' : (s'.walkStep name x' step).2.Records name epoch' issued') :
    Option.Rel (Alike pairs) (s.walkStep name x step).1 (s'.walkStep name x' step).1 := by
  obtain ⟨t, ht⟩ := h.table
  obtain ⟨t', ht'⟩ := h.table'
  by_cases hentry : ∃ entry, step = .entry entry
  · obtain ⟨entry, rfl⟩ := hentry
    simp only [Session.walkStep, ht, ht'] at hrecords hrecords' ⊢
    refine h.mirror.next?_entry hp hmissed hx (hrecords _ (table?_putTable ht rfl))
      (hrecords' _ (table?_putTable ht' rfl)) ?_ ?_ hepoch
    · exact (RuleIds.get?_idFor _ _ _).trans (if_pos rfl)
    · exact (RuleIds.get?_idFor _ _ _).trans (if_pos rfl)
  · have hother : ∀ entry, step ≠ .entry entry := fun entry heq => hentry ⟨entry, heq⟩
    have hstep : ∀ (s : Session) (x : Node),
        s.walkStep name x step = (s.snapshot.next? (fun _ => none) x step, s) := by
      intro s x
      unfold Session.walkStep
      split
      · exact absurd rfl (hother _)
      · rfl
    rw [hstep, hstep]
    exact h.mirror.next? hp hmissed hx hid hother _ _

/-- A walk at both moments reaches nodes that are alike, or fails at the
same step. -/
theorem Mirrored.walkSteps (hp : Paired id id log log' issued issued' pairs)
    (hmissed : ¬ Mirror.Missed pairs)
    (hepoch : ∀ q ∈ pairs, epoch = q.1.epoch ↔ epoch' = q.2.epoch) {steps : List WalkStep}
    (hids : ∀ step ∈ steps, ∀ i, step ≠ .entryId i) (h : Mirrored id log log' pairs name s s')
    (hx : Alike pairs x x') {index : Nat}
    (hrecords : (s.walkSteps name x index steps).2.Records name epoch issued)
    (hrecords' : (s'.walkSteps name x' index steps).2.Records name epoch' issued') :
    (∃ failure, (s.walkSteps name x index steps).1 = .error failure
      ∧ (s'.walkSteps name x' index steps).1 = .error failure)
    ∨ ∃ y y', (s.walkSteps name x index steps).1 = .ok y
      ∧ (s'.walkSteps name x' index steps).1 = .ok y' ∧ Alike pairs y y' := by
  induction steps generalizing s s' x x' index with
  | nil => exact .inr ⟨x, x', rfl, rfl, hx⟩
  | cons step rest ih =>
    have hnext := h.walkStep hp hmissed hepoch hx (hids step (.head _))
      (hrecords.of_asked (s.asked_walkSteps_cons name x index step rest))
      (hrecords'.of_asked (s'.asked_walkSteps_cons name x' index step rest))
    have hafter := h.asked (s.asked_walkStep name x step) (s'.asked_walkStep name x' step)
    rw [Session.walkSteps] at hrecords hrecords' ⊢
    rw [Session.walkSteps]
    generalize s.walkStep name x step = out at *
    generalize s'.walkStep name x' step = out' at *
    obtain ⟨y, after⟩ := out
    obtain ⟨y', after'⟩ := out'
    cases hnext with
    | none => exact .inl ⟨_, rfl, rfl⟩
    | some hy => exact ih (fun step hstep => hids step (.tail _ hstep)) hafter hy hrecords hrecords'

end Session

end ScopeRules
