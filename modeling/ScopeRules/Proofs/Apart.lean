/-
What a walk depends on. A walk looks rules up by the ids that parents and
anchors are, and tables by the ids that foreign references hold. So two
moments in which these look-ups have the same results are the same for it,
and it is enough that they have them for the nodes that the walk can come
to: `Snapshot.AgreeOn` says this for a class of nodes that nothing leads out
of, and `AgreeOn.next?_eq` that every step from a node of the class leads to
the same node, of the class again.

# Names that are asked for on the way

Asking for an id changes the ids of one table and nothing that a step looks
at. So a walk can be told in one go, from the moment at which it starts and
the ids of the table that it asks (`Snapshot.pass`): where it leads, and
which names it has asked for (`walkSteps_eq`).
-/
import ScopeRules.Proofs.ForeignEntry
import ScopeRules.Proofs.Stamps
import ScopeRules.Proofs.Walks

namespace ScopeRules

namespace Snapshot

-- ========================================================= two moments

/-- Two moments agree on a class of nodes: what a node of the class leads to
is the same at both, and is of the class. -/
structure AgreeOn (P : Node → Prop) (s s' : Snapshot) : Prop where
  empty : P (.rule .empty)
  nodes : ∀ r, P (.rule r) → ∀ x ∈ r.nodes, P x
  parent : ∀ r, P (.rule r) → s.parent? r = s'.parent? r ∧ ∀ p, s.parent? r = some p → P (.rule p)
  anchor : ∀ p, P (.reference p) →
    s.anchor? p = s'.anchor? p ∧ ∀ a, s.anchor? p = some a → P (.rule a)
  lookup : ∀ table scope id anchor, P (.reference (.foreign table scope id anchor)) →
    (s.table? table).map (fun t => t.lookup scope.text)
        = (s'.table? table).map (fun t => t.lookup scope.text)
      ∧ ∀ t, s.table? table = some t → P (.rule (t.lookup scope.text))

variable {s s' : Snapshot} {P : Node → Prop}

namespace AgreeOn

theorem climb_eq (h : AgreeOn P s s') {r : Rule} (hr : P (.rule r)) (fuel : Nat) :
    s.climb fuel r = s'.climb fuel r ∧ ∀ t ∈ s.climb fuel r, P (.rule t) := by
  induction fuel generalizing r with
  | zero => exact ⟨rfl, fun t ht => List.mem_singleton.1 ht ▸ hr⟩
  | succ fuel ih =>
    obtain ⟨hparent, hclass⟩ := h.parent r hr
    rw [climb, climb, ← hparent]
    cases hp : s.parent? r with
    | none => exact ⟨rfl, fun t ht => List.mem_singleton.1 ht ▸ hr⟩
    | some p =>
      obtain ⟨hclimb, hmem⟩ := ih (hclass p hp)
      exact ⟨congrArg (List.cons r) hclimb, List.forall_mem_cons.2 ⟨hr, hmem⟩⟩

theorem root_eq (h : AgreeOn P s s') {r : Rule} (hr : P (.rule r)) :
    s.root r = s'.root r ∧ P (.rule (s.root r)) := by
  obtain ⟨hclimb, hmem⟩ := h.climb_eq hr r.id.serial
  rw [root, root, lineage, lineage, ← hclimb]
  refine ⟨rfl, ?_⟩
  cases hlast : (s.climb r.id.serial r).getLast? with
  | none => exact hr
  | some t => exact hmem t (List.mem_of_getLast? hlast)

theorem entryAt? (h : AgreeOn P s s') {r : Rule} (hr : P (.rule r)) {id : RuleId} {x : Node}
    (hx : r.entryAt? id = some x) : P x := by
  refine h.nodes r hr x (Rule.mem_nodes_iff.2 (.inr (.inl ⟨id, ?_⟩)))
  exact Assoc.mem_of_get?_eq_some hx

theorem getD (h : AgreeOn P s s') {x : Option Node} (hx : ∀ y, x = some y → P y) :
    P (x.getD (.rule .empty)) := by
  cases x with
  | none => exact h.empty
  | some y => exact hx y rfl

/-- A hop from a reference of the class. -/
theorem target_eq (h : AgreeOn P s s') {p : Reference} (hp : P (.reference p)) :
    s.target p = s'.target p ∧ P (s.target p) := by
  cases p with
  | entry id anchor =>
    obtain ⟨hanchor, hclass⟩ := h.anchor _ hp
    rw [target, target, ← hanchor]
    cases ha : s.anchor? (.entry id anchor) with
    | none => exact ⟨rfl, h.empty⟩
    | some a =>
      obtain ⟨hclimb, hmem⟩ := h.climb_eq (hclass a ha) a.id.serial
      simp only [lineage, ← hclimb]
      refine ⟨trivial, h.getD fun x hx => ?_⟩
      obtain ⟨r, hr, hentry⟩ := List.exists_of_findSome?_eq_some hx
      exact h.entryAt? (hmem r hr) hentry
  | root anchor =>
    obtain ⟨hanchor, hclass⟩ := h.anchor _ hp
    rw [target, target, ← hanchor]
    cases ha : s.anchor? (.root anchor) with
    | none => exact ⟨rfl, h.empty⟩
    | some a =>
      obtain ⟨hroot, hmem⟩ := h.root_eq (hclass a ha)
      exact ⟨congrArg Node.rule hroot, hmem⟩
  | foreign table scope id anchor =>
    obtain ⟨hlookup, hclass⟩ := h.lookup _ _ _ _ hp
    rw [target_foreign, target_foreign]
    cases ht : s.table? table with
    | none =>
      rw [ht, Option.map_none] at hlookup
      rw [Option.map_eq_none_iff.1 hlookup.symm]
      exact ⟨rfl, h.empty⟩
    | some t =>
      rw [ht, Option.map_some] at hlookup
      obtain ⟨t', ht', hsame⟩ := Option.map_eq_some_iff.1 hlookup.symm
      rw [ht']
      have hrule := hclass t ht
      cases id with
      | none => exact ⟨by simp [hsame], hrule⟩
      | some id =>
        simp only [Option.map_some, Option.getD_some, hsame]
        exact ⟨trivial, h.getD fun x hx => h.entryAt? hrule hx⟩

theorem follow_eq (h : AgreeOn P s s') {x : Node} (hx : P x) (n : Nat) :
    s.follow n x = s'.follow n x ∧ P (s.follow n x) := by
  induction n generalizing x with
  | zero => exact ⟨rfl, hx⟩
  | succ n ih =>
    cases x with
    | rule r => exact ⟨rfl, hx⟩
    | reference p =>
      obtain ⟨htarget, hclass⟩ := h.target_eq hx
      rw [follow, follow, ← htarget]
      exact ih hclass

theorem resolve_eq (h : AgreeOn P s s') {x : Node} (hx : P x) :
    s.resolve x = s'.resolve x ∧ P (.rule (s.resolve x)) := by
  obtain ⟨hfollow, hclass⟩ := h.follow_eq hx maxHops
  rw [resolve, resolve, ← hfollow]
  refine ⟨rfl, ?_⟩
  cases hend : s.follow maxHops x with
  | rule r => exact hend ▸ hclass
  | reference p => exact h.empty

/-- A step from a node of the class. -/
theorem next?_eq (h : AgreeOn P s s') (idOf : String → Option RuleId) {x : Node} (hx : P x)
    (step : WalkStep) :
    s.next? idOf x step = s'.next? idOf x step ∧ ∀ y, s.next? idOf x step = some y → P y := by
  obtain ⟨hresolve, hrule⟩ := h.resolve_eq hx
  have hnodes : ∀ y ∈ (s.resolve x).nodes, P y := h.nodes _ hrule
  cases step with
  | child i =>
    refine ⟨by rw [next?, next?, hresolve], fun y hy => hnodes y ?_⟩
    exact Rule.mem_nodes_iff.2 (.inl (List.mem_of_getElem? hy))
  | injection i =>
    refine ⟨by rw [next?, next?, hresolve], fun y hy => hnodes y ?_⟩
    obtain ⟨⟨selector, r⟩, hat, rfl⟩ := Option.map_eq_some_iff.1 hy
    exact Rule.mem_nodes_iff.2 (.inr (.inr (.inr ⟨selector, r, List.mem_of_getElem? hat, rfl⟩)))
  | capture key i =>
    refine ⟨by rw [next?, next?, hresolve], fun y hy => hnodes y ?_⟩
    obtain ⟨key, -, hy⟩ := Option.bind_eq_some_iff.1 hy
    exact Rule.mem_nodes_of_capture? hy
  | entryId id =>
    exact ⟨by rw [next?, next?, hresolve], fun y hy => h.entryAt? hrule hy⟩
  | entry name =>
    refine ⟨by rw [next?, next?, hresolve], fun y hy => ?_⟩
    obtain ⟨id, -, hy⟩ := Option.bind_eq_some_iff.1 hy
    exact h.entryAt? hrule hy
  | parent =>
    cases x with
    | rule r =>
      obtain ⟨hparent, hclass⟩ := h.parent r hx
      refine ⟨by rw [next?, next?, parentOf?, parentOf?, hparent], fun y hy => ?_⟩
      obtain ⟨p, hp, rfl⟩ := Option.map_eq_some_iff.1 hy
      exact hclass p hp
    | reference p =>
      obtain ⟨hanchor, hclass⟩ := h.anchor p hx
      refine ⟨by rw [next?, next?, parentOf?, parentOf?, hanchor], fun y hy => ?_⟩
      obtain ⟨a, ha, rfl⟩ := Option.map_eq_some_iff.1 hy
      exact hclass a ha
  | root =>
    obtain ⟨hroot, hclass⟩ := h.root_eq hrule
    refine ⟨by rw [next?, next?, hroot, hresolve], fun y hy => ?_⟩
    cases hy
    exact hclass
  | resolve =>
    refine ⟨by rw [next?, next?, hresolve], fun y hy => ?_⟩
    cases hy
    exact hrule

end AgreeOn

end Snapshot

-- ========================================================= in one go

/-- The name that a step asks for. -/
def WalkStep.name? : WalkStep → Option String
  | .entry name => some name
  | _ => none

/-- The steps of a walk with the ids in place of the names, as an allocator
gives them. -/
def WalkStep.spelled : Option RuleIds → List WalkStep → List WalkStep
  | _, [] => []
  | some ids, .entry name :: rest =>
    .entryId (ids.idFor name).1 :: spelled (some (ids.idFor name).2) rest
  | ids, step :: rest => step :: spelled ids rest

namespace Snapshot

/-- Where the steps of a walk lead if the table that is asked has these ids,
and which names are asked for. -/
def pass (s : Snapshot) (ids : Option RuleIds) (x : Node) (index : Nat) :
    List WalkStep → Except WalkFailure Node × List String
  | [] => (.ok x, [])
  | step :: rest =>
    match s.next? (fun name => ids.map fun ids => (ids.idFor name).1) x step with
    | none => (.error (.missing index), step.name?.toList)
    | some y =>
      let (result, names) :=
        s.pass (ids.map fun ids => ids.allocateAll step.name?.toList) y (index + 1) rest
      (result, step.name?.toList ++ names)

/-- The first step, if there is a table to ask. -/
theorem pass_cons (s : Snapshot) (ids : RuleIds) (x : Node) (index : Nat) (step : WalkStep)
    (rest : List WalkStep) :
    s.pass (some ids) x index (step :: rest)
      = match s.next? (fun name => some (ids.idFor name).1) x step with
        | none => (.error (.missing index), step.name?.toList)
        | some y =>
          let out := s.pass (some (ids.allocateAll step.name?.toList)) y (index + 1) rest
          (out.1, step.name?.toList ++ out.2) := rfl

variable {s s' : Snapshot} {P : Node → Prop}

theorem AgreeOn.pass_eq (h : AgreeOn P s s') {x : Node} (hx : P x) (ids : Option RuleIds)
    (index : Nat) (steps : List WalkStep) :
    s.pass ids x index steps = s'.pass ids x index steps
      ∧ ∀ y, (s.pass ids x index steps).1 = .ok y → P y := by
  induction steps generalizing ids x index with
  | nil =>
    refine ⟨rfl, fun y hy => ?_⟩
    cases hy
    exact hx
  | cons step rest ih =>
    obtain ⟨hnext, hclass⟩ := h.next?_eq (fun name => ids.map fun ids => (ids.idFor name).1) hx step
    rw [pass, pass, ← hnext]
    cases hy : s.next? (fun name => ids.map fun ids => (ids.idFor name).1) x step with
    | none => exact ⟨rfl, fun y hy => nomatch hy⟩
    | some y =>
      obtain ⟨hpass, hresult⟩ := ih (hclass y hy)
        (ids.map fun ids => ids.allocateAll step.name?.toList) (index + 1)
      exact ⟨by simp only [hpass], hresult⟩

/-- A walk does not look at stamps. -/
theorem pass_unstamped (s : Snapshot) (ids : Option RuleIds) (x : Node) (index : Nat)
    (steps : List WalkStep) :
    s.unstamped.pass ids x.unstamped index steps
      = ((s.pass ids x index steps).1.map Node.unstamped, (s.pass ids x index steps).2) := by
  induction steps generalizing ids x index with
  | nil => rfl
  | cons step rest ih =>
    rw [pass, pass, next?_unstamped]
    cases s.next? (fun name => ids.map fun ids => (ids.idFor name).1) x step with
    | none => rfl
    | some y => simp only [Option.map_some, ih]

/-- What a step that asks for no name leads to does not depend on ids. -/
theorem next?_of_name?_eq_none (s : Snapshot) {step : WalkStep} (h : step.name? = none)
    (idOf idOf' : String → Option RuleId) (x : Node) :
    s.next? idOf x step = s.next? idOf' x step := by
  cases step with
  | entry name => cases h
  | _ => rfl

/-- Asking for names is as good as knowing their ids. -/
theorem pass_spelled (s : Snapshot) (ids : Option RuleIds) (x : Node) (index : Nat)
    (steps : List WalkStep) :
    (s.pass none x index (WalkStep.spelled ids steps)).1 = (s.pass ids x index steps).1 := by
  induction steps generalizing ids x index with
  | nil => cases ids <;> rfl
  | cons step rest ih =>
    -- a step of which the ids are not needed
    have hsame : step.name? = none ∨ ids = none →
        (s.pass none x index (step :: WalkStep.spelled ids rest)).1
          = (s.pass ids x index (step :: rest)).1 := by
      intro h
      have hnext : s.next? (fun _ => none) x step
          = s.next? (fun name => ids.map fun ids => (ids.idFor name).1) x step := by
        rcases h with h | rfl
        · exact s.next?_of_name?_eq_none h _ _ x
        · rfl
      have hids : (ids.map fun ids => ids.allocateAll step.name?.toList) = ids := by
        rcases h with h | rfl
        · rw [h]
          cases ids <;> rfl
        · rfl
      simp only [pass, Option.map_none, ← hnext, hids]
      cases s.next? (fun _ => none) x step with
      | none => rfl
      | some y => exact ih ids y (index + 1)
    cases ids with
    | none =>
      have hspelled : WalkStep.spelled none (step :: rest)
          = step :: WalkStep.spelled none rest := by
        cases step <;> rfl
      rw [hspelled]
      exact hsame (.inr rfl)
    | some ids =>
      cases step with
      | entry name =>
        have hnext : s.next? (fun _ => none) x (.entryId (ids.idFor name).1)
            = s.next? (fun name => some (ids.idFor name).1) x (.entry name) := rfl
        simp only [WalkStep.spelled, pass, Option.map_none, Option.map_some, hnext]
        cases s.next? (fun name => some (ids.idFor name).1) x (.entry name) with
        | none => rfl
        | some y => exact ih (some (ids.idFor name).2) y (index + 1)
      | _ => exact hsame (.inl rfl)

end Snapshot

namespace Session

/-- The session after names were asked for in a table. -/
def asking (s : Session) (table : String) (names : List String) : Session :=
  match s.table? table with
  | some t => s.putTable (t.asking names)
  | none => s

variable {s : Session} {table : String}

theorem asking_asked (s : Session) (table : String) (names : List String) :
    s.Asked table (s.asking table names) := by
  unfold asking
  split
  · rename_i t ht
    exact .inr ⟨t, names, ht, rfl⟩
  · exact .inl rfl

/-- Putting a table where it is changes nothing. -/
theorem putTable_self (hdistinct : (s.tables.map Table.id).Nodup) {t : Table} (ht : t ∈ s.tables) :
    s.putTable t = s := by
  have htables : s.tables.map (fun u => if u.id = t.id then t else u) = s.tables := by
    refine (List.map_congr_left fun u hu => ?_).trans (List.map_id _)
    split
    · rename_i hid
      exact (List.inj_on_of_nodup_map hdistinct hu ht hid).symm
    · rfl
  unfold putTable
  rw [htables]

theorem asking_nil (hdistinct : (s.tables.map Table.id).Nodup) : s.asking table [] = s := by
  unfold asking
  split
  · rename_i t ht
    exact putTable_self hdistinct (mem_of_table?_eq_some ht).1
  · rfl

theorem table?_asking (s : Session) (table : String) (names : List String) :
    (s.asking table names).table? table = (s.table? table).map fun t => t.asking names := by
  cases ht : s.table? table with
  | none =>
    rw [asking, ht]
    exact ht
  | some t =>
    rw [asking, ht]
    exact table?_putTable ht rfl

theorem asking_asking (s : Session) (table : String) (names more : List String) :
    (s.asking table names).asking table more = s.asking table (names ++ more) := by
  rw [asking, table?_asking]
  cases ht : s.table? table with
  | none =>
    rw [asking, asking, ht]
    rfl
  | some t =>
    have hasking : (t.asking names).asking more = t.asking (names ++ more) := by
      rw [Table.asking, Table.asking, Table.asking, RuleIds.allocateAll, RuleIds.allocateAll,
        RuleIds.allocateAll, List.foldl_append]
    rw [asking, asking, ht]
    show (s.putTable (t.asking names)).putTable ((t.asking names).asking more)
      = s.putTable (t.asking (names ++ more))
    rw [← hasking]
    exact putTable_putTable s rfl

/-- Asking for names changes nothing that walks look at. -/
theorem agreeOn_asking (hdistinct : (s.tables.map Table.id).Nodup) (table : String)
    (names : List String) :
    Snapshot.AgreeOn (fun _ => True) (s.asking table names).snapshot s.snapshot := by
  have hasked := s.asking_asked table names
  have hrule : (s.asking table names).snapshot.rule? = s.snapshot.rule? := by
    funext id
    rw [Snapshot.rule?, Snapshot.rule?, hasked.held_eq hdistinct]
  refine ⟨trivial, fun _ _ _ _ => trivial, fun r _ => ⟨?_, fun _ _ => trivial⟩,
    fun p _ => ⟨?_, fun _ _ => trivial⟩, fun id scope _ _ _ => ⟨?_, fun _ _ => trivial⟩⟩
  · rw [Snapshot.parent?, Snapshot.parent?, hrule]
  · rw [Snapshot.anchor?, Snapshot.anchor?, hrule]
  · cases ht : s.snapshot.table? id with
    | some t =>
      obtain ⟨u, hu, hlookup⟩ := hasked.exists_lookup hdistinct ht
      rw [hu, Option.map_some, Option.map_some, hlookup]
    | none =>
      have hids : ∀ t ∈ (s.asking table names).tables, t.id ≠ id := by
        intro t ht' hid
        have hmem : id ∈ s.tables.map Table.id :=
          hasked.keeps.ids ▸ hid ▸ List.mem_map_of_mem ht'
        obtain ⟨u, hu, rfl⟩ := List.mem_map.1 hmem
        rw [table?_id hdistinct hu] at ht
        cases ht
      rw [table?_eq_none hids]

theorem walkStep_eq (hdistinct : (s.tables.map Table.id).Nodup) (x : Node) (step : WalkStep) :
    s.walkStep table x step
      = (s.snapshot.next? (fun name => ((s.table? table).map Table.ruleIds).map
          fun ids => (ids.idFor name).1) x step, s.asking table step.name?.toList) := by
  have hnone : step.name? = none → s.walkStep table x step
      = (s.snapshot.next? (fun _ => none) x step, s.asking table step.name?.toList) := by
    intro hstep
    rw [hstep]
    refine Eq.trans ?_ (congrArg (Prod.mk _) (asking_nil hdistinct).symm)
    cases step with
    | entry name => cases hstep
    | _ => rfl
  cases step with
  | entry name =>
    unfold walkStep asking
    cases s.table? table <;> rfl
  | _ => exact hnone rfl

/-- A walk in one go. -/
theorem walkSteps_eq (hdistinct : (s.tables.map Table.id).Nodup) (table : String) (x : Node)
    (index : Nat) (steps : List WalkStep) :
    s.walkSteps table x index steps
      = ((s.snapshot.pass ((s.table? table).map Table.ruleIds) x index steps).1,
        s.asking table (s.snapshot.pass ((s.table? table).map Table.ruleIds) x index steps).2) := by
  induction steps generalizing s x index with
  | nil => exact congrArg (Prod.mk _) (asking_nil hdistinct).symm
  | cons step rest ih =>
    rw [walkSteps, walkStep_eq hdistinct, Snapshot.pass]
    cases s.snapshot.next? (fun name => ((s.table? table).map Table.ruleIds).map
        fun ids => (ids.idFor name).1) x step with
    | none => rfl
    | some y =>
      have hdistinct' : ((s.asking table step.name?.toList).tables.map Table.id).Nodup := by
        rw [(s.asking_asked table _).keeps.ids]
        exact hdistinct
      have hids : ((s.asking table step.name?.toList).table? table).map Table.ruleIds
          = ((s.table? table).map Table.ruleIds).map
            fun ids => ids.allocateAll step.name?.toList := by
        rw [table?_asking, Option.map_map, Option.map_map]
        rfl
      have hpass := ((agreeOn_asking hdistinct table step.name?.toList).pass_eq
        (x := y) trivial (((s.table? table).map Table.ruleIds).map
          fun ids => ids.allocateAll step.name?.toList) (index + 1) rest).1
      simp only [ih hdistinct', hids, hpass, asking_asking]

end Session

end ScopeRules
