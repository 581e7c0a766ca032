/-
Ownership. A rule owns the nodes it is built of, and with them, at any
depth, the rules nested in it. `owned` lists these, a rule before what is
nested in it; it is one recursion through the six types that make up a rule.
`owned_eq` says the same in one line, through the rules that a rule owns
itself, and `nestedInduction` proves a property of a rule from the same
property of these.
-/
import ScopeRules.Rule.Basic

namespace ScopeRules

namespace Rule

-- ============================================================= ownership

/-- The nodes that a rule owns itself: children, repository entries, the
rules of its captures, injections. -/
def nodes (r : Rule) : List Node :=
  r.children ++ r.repository.map Prod.snd
    ++ r.captures.flatMap (fun (_, table) =>
        table.groups.filterMap fun (_, capture) => capture.rule?.map Node.rule)
    ++ r.injections.map fun (_, rule) => .rule rule

/-- The rules that a rule owns itself. -/
def nested (r : Rule) : List Rule := r.nodes.filterMap fun x => x.rule?

mutual

/-- A rule and all that is nested in it, at any depth. -/
def owned : Rule → List Rule
  | r@⟨_, _, _, _, captures, children, repository, injections⟩ =>
    r :: (ownedByChildren children ++ ownedByEntries repository
      ++ ownedByCaptures captures ++ ownedByInjections injections)

def ownedByChildren : List Node → List Rule
  | [] => []
  | .rule r :: rest => r.owned ++ ownedByChildren rest
  | .reference _ :: rest => ownedByChildren rest

def ownedByEntries : List (RuleId × Node) → List Rule
  | [] => []
  | (_, .rule r) :: rest => r.owned ++ ownedByEntries rest
  | (_, .reference _) :: rest => ownedByEntries rest

def ownedByCaptures : List (CaptureKey × CaptureTable) → List Rule
  | [] => []
  | (_, ⟨_, groups⟩) :: rest => ownedByGroups groups ++ ownedByCaptures rest

def ownedByGroups : List (Nat × Capture) → List Rule
  | [] => []
  | (_, .rule r) :: rest => r.owned ++ ownedByGroups rest
  | (_, .label _) :: rest => ownedByGroups rest

def ownedByInjections : List (Symbol × Rule) → List Rule
  | [] => []
  | (_, r) :: rest => r.owned ++ ownedByInjections rest

end

/-- The rule with this id among `r` and the rules nested in it. -/
def find? (r : Rule) (id : NodeId) : Option Rule := r.owned.find? fun s => s.id = id

-- =============================================== what a rule owns itself

/-- The nodes that a rule owns itself, container by container. -/
theorem mem_nodes_iff {r : Rule} {x : Node} :
    x ∈ r.nodes ↔ x ∈ r.children ∨ (∃ id, (id, x) ∈ r.repository)
      ∨ (∃ key table, (key, table) ∈ r.captures
          ∧ ∃ i s, (i, Capture.rule s) ∈ table.groups ∧ x = .rule s)
      ∨ ∃ selector s, (selector, s) ∈ r.injections ∧ x = .rule s := by
  have slot : ∀ table : CaptureTable,
      x ∈ (table.groups.filterMap fun p => p.2.rule?.map Node.rule)
        ↔ ∃ i s, (i, Capture.rule s) ∈ table.groups ∧ x = .rule s := by
    intro table
    rw [List.mem_filterMap]
    constructor
    · intro hmem
      obtain ⟨⟨i, capture⟩, hmem, hx⟩ := hmem
      cases capture with
      | label text => cases hx
      | rule s => exact ⟨i, s, hmem, (Option.some.inj hx).symm⟩
    · intro hmem
      obtain ⟨i, s, hmem, rfl⟩ := hmem
      exact ⟨(i, .rule s), hmem, rfl⟩
  unfold nodes
  simp only [List.mem_append, List.mem_map, List.mem_flatMap, Prod.exists, exists_eq_right,
    slot, or_assoc, @eq_comm _ x]

/-- The rule in a slot of a capture table is one of the nodes. -/
theorem mem_nodes_of_capture? {r : Rule} {key : CaptureKey} {i : Nat} {x : Node}
    (h : ((r.capture? key).bind fun table =>
      (table.get? i).bind fun c => c.rule?.map Node.rule) = some x) : x ∈ r.nodes := by
  obtain ⟨table, htable, h⟩ := Option.bind_eq_some_iff.1 h
  obtain ⟨c, hc, h⟩ := Option.bind_eq_some_iff.1 h
  obtain ⟨s, hs, rfl⟩ := Option.map_eq_some_iff.1 h
  cases c with
  | label text => cases hs
  | rule t =>
    obtain rfl := Option.some.inj hs
    rw [CaptureTable.get?] at hc
    split at hc
    · exact mem_nodes_iff.2 (.inr (.inr (.inl ⟨key, table, Assoc.mem_of_get?_eq_some htable, i, t,
        Assoc.mem_of_get?_eq_some hc, rfl⟩)))
    · cases hc

/-- A rule that is owned itself is one of the nodes. -/
theorem mem_nested_iff {r s : Rule} : s ∈ r.nested ↔ .rule s ∈ r.nodes := by
  unfold nested
  rw [List.mem_filterMap]
  constructor
  · intro hx
    obtain ⟨x, hx, hs⟩ := hx
    cases x with
    | rule t => exact Option.some.inj hs ▸ hx
    | reference p => cases hs
  · intro h
    exact ⟨.rule s, h, rfl⟩

-- ================================================ what is owned, in one line

theorem ownedByChildren_eq (xs : List Node) :
    ownedByChildren xs = (xs.filterMap fun x => x.rule?).flatMap owned := by
  induction xs with
  | nil => rfl
  | cons x rest ih => cases x <;> simp [ownedByChildren, Node.rule?, ih]

theorem ownedByEntries_eq (xs : List (RuleId × Node)) :
    ownedByEntries xs = (xs.filterMap fun p => p.2.rule?).flatMap owned := by
  induction xs with
  | nil => rfl
  | cons p rest ih =>
    obtain ⟨id, x⟩ := p
    cases x <;> simp [ownedByEntries, Node.rule?, ih]

theorem ownedByGroups_eq (xs : List (Nat × Capture)) :
    ownedByGroups xs = (xs.filterMap fun p => p.2.rule?).flatMap owned := by
  induction xs with
  | nil => rfl
  | cons p rest ih =>
    obtain ⟨i, c⟩ := p
    cases c <;> simp [ownedByGroups, Capture.rule?, ih]

theorem ownedByCaptures_eq (xs : List (CaptureKey × CaptureTable)) :
    ownedByCaptures xs =
      (xs.flatMap fun p => p.2.groups.filterMap fun q => q.2.rule?).flatMap owned := by
  induction xs with
  | nil => rfl
  | cons p rest ih =>
    obtain ⟨key, size, groups⟩ := p
    simp [ownedByCaptures, ownedByGroups_eq, ih]

theorem ownedByInjections_eq (xs : List (Symbol × Rule)) :
    ownedByInjections xs = (xs.map Prod.snd).flatMap owned := by
  induction xs with
  | nil => rfl
  | cons p rest ih =>
    obtain ⟨selector, r⟩ := p
    simp [ownedByInjections, ih]

/-- The rules that a rule owns itself, container by container. -/
theorem nested_eq (r : Rule) :
    r.nested = (r.children.filterMap fun x => x.rule?)
      ++ (r.repository.filterMap fun p => p.2.rule?)
      ++ (r.captures.flatMap fun p => p.2.groups.filterMap fun q => q.2.rule?)
      ++ r.injections.map Prod.snd := by
  have slots : ∀ groups : List (Nat × Capture),
      (groups.filterMap fun q => q.2.rule?.map Node.rule).filterMap (fun x => x.rule?)
        = groups.filterMap fun q => q.2.rule? := fun groups => by
    rw [List.filterMap_filterMap]
    refine congrArg (groups.filterMap ·) (funext fun q => ?_)
    cases q.2.rule? <;> rfl
  have injected : (r.injections.map fun p => Node.rule p.2).filterMap (fun x => x.rule?)
      = r.injections.map Prod.snd := by
    rw [List.filterMap_map]
    exact congrFun List.filterMap_eq_map r.injections
  simp only [nested, nodes, List.filterMap_append, List.filterMap_flatMap, slots, injected]
  rw [List.filterMap_map]
  rfl

/-- A rule owns itself and what the rules that it owns itself own. -/
theorem owned_eq (r : Rule) : r.owned = r :: r.nested.flatMap owned := by
  rw [nested_eq]
  cases r
  simp [owned, ownedByChildren_eq, ownedByEntries_eq, ownedByCaptures_eq, ownedByInjections_eq]

theorem mem_owned_self (r : Rule) : r ∈ r.owned := by
  rw [owned_eq]
  exact List.mem_cons_self ..

/-- What a rule owns is the rule, or owned by a rule that it owns itself. -/
theorem mem_owned_iff {r s : Rule} : s ∈ r.owned ↔ s = r ∨ ∃ t ∈ r.nested, s ∈ t.owned := by
  rw [owned_eq]
  simp

-- ================================================================ induction

mutual

/-- A property that a rule has whenever the rules that it owns itself have
it, every rule has. -/
theorem nestedInduction {motive : Rule → Prop}
    (step : ∀ r, (∀ c ∈ r.nested, motive c) → motive r) : ∀ r, motive r
  | r@⟨_, _, _, _, captures, children, repository, injections⟩ => by
    refine step _ fun c hc => ?_
    rw [nested_eq] at hc
    simp only [List.mem_append] at hc
    rcases hc with ((hc | hc) | hc) | hc
    · exact inductionChildren step children c hc
    · exact inductionEntries step repository c hc
    · exact inductionCaptures step captures c hc
    · exact inductionInjections step injections c hc

theorem inductionChildren {motive : Rule → Prop}
    (step : ∀ r, (∀ c ∈ r.nested, motive c) → motive r) :
    ∀ xs : List Node, ∀ c ∈ xs.filterMap (fun x => x.rule?), motive c
  | [], c, hc => by simp at hc
  | .rule r :: rest, c, hc => by
    simp only [List.filterMap_cons, Node.rule?, List.mem_cons] at hc
    rcases hc with hc | hc
    · exact hc ▸ nestedInduction step r
    · exact inductionChildren step rest c hc
  | .reference _ :: rest, c, hc => by
    simp only [List.filterMap_cons, Node.rule?] at hc
    exact inductionChildren step rest c hc

theorem inductionEntries {motive : Rule → Prop}
    (step : ∀ r, (∀ c ∈ r.nested, motive c) → motive r) :
    ∀ xs : List (RuleId × Node), ∀ c ∈ xs.filterMap (fun p => p.2.rule?), motive c
  | [], c, hc => by simp at hc
  | (_, .rule r) :: rest, c, hc => by
    simp only [List.filterMap_cons, Node.rule?, List.mem_cons] at hc
    rcases hc with hc | hc
    · exact hc ▸ nestedInduction step r
    · exact inductionEntries step rest c hc
  | (_, .reference _) :: rest, c, hc => by
    simp only [List.filterMap_cons, Node.rule?] at hc
    exact inductionEntries step rest c hc

theorem inductionGroups {motive : Rule → Prop}
    (step : ∀ r, (∀ c ∈ r.nested, motive c) → motive r) :
    ∀ xs : List (Nat × Capture), ∀ c ∈ xs.filterMap (fun p => p.2.rule?), motive c
  | [], c, hc => by simp at hc
  | (_, .rule r) :: rest, c, hc => by
    simp only [List.filterMap_cons, Capture.rule?, List.mem_cons] at hc
    rcases hc with hc | hc
    · exact hc ▸ nestedInduction step r
    · exact inductionGroups step rest c hc
  | (_, .label _) :: rest, c, hc => by
    simp only [List.filterMap_cons, Capture.rule?] at hc
    exact inductionGroups step rest c hc

theorem inductionCaptures {motive : Rule → Prop}
    (step : ∀ r, (∀ c ∈ r.nested, motive c) → motive r) :
    ∀ xs : List (CaptureKey × CaptureTable),
      ∀ c ∈ xs.flatMap (fun p => p.2.groups.filterMap fun q => q.2.rule?), motive c
  | [], c, hc => by simp at hc
  | (_, ⟨_, groups⟩) :: rest, c, hc => by
    simp only [List.flatMap_cons, List.mem_append] at hc
    rcases hc with hc | hc
    · exact inductionGroups step groups c hc
    · exact inductionCaptures step rest c hc

theorem inductionInjections {motive : Rule → Prop}
    (step : ∀ r, (∀ c ∈ r.nested, motive c) → motive r) :
    ∀ xs : List (Symbol × Rule), ∀ c ∈ xs.map Prod.snd, motive c
  | [], c, hc => by simp at hc
  | (_, r) :: rest, c, hc => by
    simp only [List.map_cons, List.mem_cons] at hc
    rcases hc with hc | hc
    · exact hc ▸ nestedInduction step r
    · exact inductionInjections step rest c hc

end

-- ============================================================ transitivity

theorem mem_owned_trans {r s t : Rule} (hs : s ∈ r.owned) (ht : t ∈ s.owned) : t ∈ r.owned := by
  induction r using nestedInduction with
  | step r ih =>
    rcases mem_owned_iff.1 hs with rfl | ⟨o, ho, hs⟩
    · exact ht
    · exact mem_owned_iff.2 (.inr ⟨o, ho, ih o ho hs⟩)

theorem mem_owned_of_mem_nested {r s : Rule} (h : s ∈ r.nested) : s ∈ r.owned :=
  mem_owned_iff.2 (.inr ⟨s, h, mem_owned_self s⟩)

/-- What a rule owns, other than itself, is owned directly by something that
it owns. -/
theorem exists_owner {r s : Rule} (hs : s ∈ r.owned) (hne : s ≠ r) :
    ∃ t ∈ r.owned, s ∈ t.nested := by
  induction r using nestedInduction with
  | step r ih =>
    rcases mem_owned_iff.1 hs with rfl | ⟨t, ht, hs⟩
    · exact absurd rfl hne
    · by_cases hst : s = t
      · subst hst
        exact ⟨r, mem_owned_self r, ht⟩
      · obtain ⟨o, ho, hso⟩ := ih t ht hs hst
        exact ⟨o, mem_owned_iff.2 (.inr ⟨t, ht, ho⟩), hso⟩

end Rule

end ScopeRules
