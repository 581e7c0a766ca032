/-
Which of its nested rules a rule keeps. Children and injections are
appended, but a repository has one entry for an id and a capture table one
slot for an index; a later piece that fills the same cell takes the place
of an earlier one. `mem_nested_rule_iff` says exactly which rules stay: those
of a piece whose cell no later piece fills.

# Membership, not look-up

What a rule owns is read off its lists, and a look-up in a list with a key
twice sees only the first. So the lists have to be `Tidy`, with no key
twice, before filling a cell can be said to remove what was there; every
compiled rule is (`tidy_store`).
-/
import Mathlib.Data.Nat.Basic
import ScopeRules.Proofs.Dictionaries
import ScopeRules.Proofs.Pieces

namespace ScopeRules

-- =============================================================== cells

/-- A place in a rule that has room for one thing. -/
inductive Cell where
  | entry (id : RuleId)
  | group (key : CaptureKey) (index : Nat)
  deriving DecidableEq, Repr, Inhabited

/-- The rule that a piece brings. -/
def Piece.rule? : Piece → Option Rule
  | .node _ _ (.rule x) => some x
  | _ => none

/-- The cell that a piece fills, if it is not appended to what is there. -/
def Context.cell? (c : Context) : Piece → Option Cell
  | .label key index _ => some (.group key index)
  | .node (.entry name) _ _ => some (.entry (c.ruleId name))
  | .node (.capture key index) _ (.rule _) => some (.group key index)
  | _ => none

namespace Rule

/-- Whether a rule has `x` in a cell. -/
def Fills (r : Rule) (x : Rule) : Cell → Prop
  | .entry id => (id, Node.rule x) ∈ r.repository
  | .group key index =>
    ∃ table, (key, table) ∈ r.captures ∧ (index, Capture.rule x) ∈ table.groups

/-- Whether a rule has `x` among its children or injections. -/
def Lists (r : Rule) (x : Rule) : Prop :=
  .rule x ∈ r.children ∨ ∃ selector, (selector, x) ∈ r.injections

theorem mem_nested_iff_fills {r x : Rule} :
    x ∈ r.nested ↔ r.Lists x ∨ ∃ cell, r.Fills x cell := by
  rw [mem_nested_iff, mem_nodes_iff]
  constructor
  · intro hx
    rcases hx with hx | ⟨id, hx⟩ | ⟨key, table, htable, index, y, hy, hxy⟩ | ⟨selector, y, hy, hxy⟩
    · exact .inl (.inl hx)
    · exact .inr ⟨.entry id, hx⟩
    · cases hxy
      exact .inr ⟨.group key index, table, htable, hy⟩
    · cases hxy
      exact .inl (.inr ⟨selector, hy⟩)
  · intro hx
    rcases hx with (hx | ⟨selector, hx⟩) | ⟨cell, hx⟩
    · exact .inl hx
    · exact .inr (.inr (.inr ⟨selector, x, hx, rfl⟩))
    · cases cell with
      | entry id => exact .inr (.inl ⟨id, hx⟩)
      | group key index =>
        obtain ⟨table, htable, hx⟩ := hx
        exact .inr (.inr (.inl ⟨key, table, htable, index, x, hx, rfl⟩))

/-- Whether the dictionaries of a rule have no key twice. -/
structure Tidy (r : Rule) : Prop where
  repository : Assoc.Sorted RuleId.before r.repository
  captures : Assoc.Distinct r.captures
  groups : ∀ key table, (key, table) ∈ r.captures →
    Assoc.Sorted (fun a b => a < b) table.groups

theorem tidy_bare (id : NodeId) (scope : Option Symbol) (parent : Option NodeId) :
    (bare id scope parent).Tidy where
  repository := List.Pairwise.nil
  captures := List.nodup_nil
  groups := by
    intro key table htable
    cases htable

theorem Tidy.putEntry {r : Rule} (h : r.Tidy) (id : RuleId) (x : Node) :
    (r.putEntry id x).Tidy :=
  ⟨Assoc.putSorted_sorted RuleId.before_strictOrder h.repository id x, h.captures, h.groups⟩

end Rule

/-- The order of the slots of a capture table. -/
theorem CaptureTable.strictOrder : Assoc.StrictOrder fun a b : Nat => decide (a < b) :=
  Assoc.strictOrder_of_lt fun _ _ => decide_eq_true_iff

namespace Rule

/-- The slots under a key, before any is filled too. -/
theorem Tidy.groups_getD {r : Rule} (h : r.Tidy) (key : CaptureKey) :
    Assoc.Sorted (fun a b => a < b) ((Assoc.get? r.captures key).getD .empty).groups := by
  cases htable : Assoc.get? r.captures key with
  | none => exact List.Pairwise.nil
  | some table => exact h.groups key table (Assoc.mem_of_get?_eq_some htable)

theorem Tidy.setCapture {r : Rule} (h : r.Tidy) (key : CaptureKey) (index : Nat) (x : Capture) :
    (r.setCapture key index x).Tidy where
  repository := h.repository
  captures := Assoc.put_distinct h.captures _ _
  groups := by
    intro key' table htable
    rcases Assoc.mem_of_mem_put htable with heq | htable
    · cases heq
      exact Assoc.putSorted_sorted CaptureTable.strictOrder (h.groups_getD key) index x
    · exact h.groups key' table htable

/-- What a slot holds is found under its key. -/
theorem Tidy.fills_group_iff {r : Rule} (h : r.Tidy) {x : Rule} {key : CaptureKey}
    {index : Nat} :
    r.Fills x (.group key index)
      ↔ (index, Capture.rule x) ∈ ((Assoc.get? r.captures key).getD .empty).groups := by
  constructor
  · intro hfills
    obtain ⟨table, htable, hx⟩ := hfills
    rw [Assoc.get?_of_mem h.captures htable]
    exact hx
  · intro hx
    cases htable : Assoc.get? r.captures key with
    | none =>
      rw [htable] at hx
      cases hx
    | some table =>
      rw [htable] at hx
      exact ⟨table, Assoc.mem_of_get?_eq_some htable, hx⟩

/-- Storing an entry fills its cell, and no other. -/
theorem Tidy.fills_putEntry {r : Rule} (h : r.Tidy) {id : RuleId} {y : Node} {x : Rule}
    {cell : Cell} :
    (r.putEntry id y).Fills x cell
      ↔ if cell = .entry id then y = .rule x else r.Fills x cell := by
  cases cell with
  | group key index =>
    rw [if_neg (by intro heq; cases heq)]
    exact Iff.rfl
  | entry j =>
    show (j, Node.rule x) ∈ Assoc.putSorted RuleId.before r.repository id y ↔ _
    rw [Assoc.mem_putSorted_iff RuleId.before_strictOrder h.repository]
    simp only [Cell.entry.injEq]
    exact Iff.rfl

/-- Filling a slot fills its cell, and no other. -/
theorem Tidy.fills_setCapture {r : Rule} (h : r.Tidy) {key : CaptureKey} {index : Nat}
    {y : Capture} {x : Rule} {cell : Cell} :
    (r.setCapture key index y).Fills x cell
      ↔ if cell = .group key index then y = .rule x else r.Fills x cell := by
  cases cell with
  | entry id =>
    rw [if_neg (by intro heq; cases heq)]
    exact Iff.rfl
  | group key' index' =>
    rw [(h.setCapture key index y).fills_group_iff, h.fills_group_iff]
    show (index', Capture.rule x)
      ∈ ((Assoc.get? (Assoc.put r.captures key _) key').getD .empty).groups ↔ _
    rw [Assoc.get?_put]
    by_cases hkey : key = key'
    · subst hkey
      rw [if_pos rfl]
      show (index', Capture.rule x) ∈ Assoc.putSorted _ _ index y ↔ _
      rw [Assoc.mem_putSorted_iff CaptureTable.strictOrder (h.groups_getD key)]
      simp only [Cell.group.injEq, true_and]
    · rw [if_neg hkey, if_neg (by intro heq; exact hkey (Cell.group.inj heq).1.symm)]

end Rule

-- ===================================================== piece after piece

namespace Context

variable (c : Context)

theorem tidy_store {r : Rule} (h : r.Tidy) (q : Piece) : (c.store r q).Tidy := by
  have hsame : ∀ t : Rule, t.repository = r.repository → t.captures = r.captures → t.Tidy := by
    intro t hrepository hcaptures
    refine ⟨?_, ?_, ?_⟩
    · rw [hrepository]
      exact h.repository
    · rw [hcaptures]
      exact h.captures
    · rw [hcaptures]
      exact h.groups
  cases q with
  | «attribute» key text => exact hsame _ rfl rfl
  | label key index text => exact h.setCapture key index _
  | node place source x =>
    cases x with
    | reference p =>
      cases place with
      | entry name => exact h.putEntry _ _
      | _ => exact hsame _ rfl rfl
    | rule y =>
      cases place with
      | entry name => exact h.putEntry _ _
      | capture key index => exact h.setCapture key index _
      | _ => exact hsame _ rfl rfl

/-- Every compiled rule is tidy. -/
theorem tidy_rule (serial : Nat) (parent : Option NodeId) (d : Document) :
    (c.rule serial parent d).Tidy := by
  have hfold : ∀ (pieces : List Piece) (r : Rule), r.Tidy → (pieces.foldl c.store r).Tidy := by
    intro pieces
    induction pieces with
    | nil => exact fun _ h => h
    | cons q more ih => exact fun r h => ih _ (c.tidy_store h q)
  rw [rule_eq_foldl]
  exact hfold _ _ (Rule.tidy_bare _ _ _)

/-- A piece replaces what is in its cell, and leaves the other cells. -/
theorem fills_store {r : Rule} (h : r.Tidy) {q : Piece} {x : Rule} {cell : Cell} :
    (c.store r q).Fills x cell
      ↔ if c.cell? q = some cell then q.rule? = some x else r.Fills x cell := by
  have hsame : ∀ t : Rule, t.repository = r.repository → t.captures = r.captures →
      c.cell? q = none →
        (t.Fills x cell ↔ if c.cell? q = some cell then q.rule? = some x else r.Fills x cell) := by
    intro t hrepository hcaptures hcell
    rw [hcell, if_neg (by intro heq; cases heq)]
    cases cell with
    | entry id =>
      show (id, Node.rule x) ∈ t.repository ↔ _
      rw [hrepository]
      exact Iff.rfl
    | group key index =>
      show (∃ table, (key, table) ∈ t.captures ∧ _) ↔ _
      rw [hcaptures]
      exact Iff.rfl
  have hcell : ∀ (filled : Cell) (P Q : Prop), (P ↔ Q) →
      ((if cell = filled then P else r.Fills x cell)
        ↔ if some filled = some cell then Q else r.Fills x cell) := by
    intro filled P Q hPQ
    by_cases heq : cell = filled
    · rw [if_pos heq, if_pos (congrArg some heq.symm)]
      exact hPQ
    · rw [if_neg heq, if_neg (fun hsome => heq (Option.some.inj hsome).symm)]
  have hrule : ∀ y : Rule, some y = some x ↔ y = x := by
    intro y
    exact Option.some_inj
  cases q with
  | «attribute» key text => exact hsame _ rfl rfl rfl
  | label key index text =>
    refine h.fills_setCapture.trans (hcell _ _ _ ⟨?_, ?_⟩)
    · intro heq
      cases heq
    · intro heq
      cases heq
  | node place source y =>
    cases y with
    | reference p =>
      cases place with
      | entry name =>
        refine h.fills_putEntry.trans (hcell _ _ _ ⟨?_, ?_⟩)
        · intro heq
          cases heq
        · intro heq
          cases heq
      | _ => exact hsame _ rfl rfl rfl
    | rule y =>
      cases place with
      | entry name =>
        exact h.fills_putEntry.trans (hcell _ _ _ (Node.rule.injEq y x ▸ (hrule y).symm))
      | capture key index =>
        exact h.fills_setCapture.trans (hcell _ _ _ (Capture.rule.injEq y x ▸ (hrule y).symm))
      | _ => exact hsame _ rfl rfl rfl

/-- What is appended stays. -/
theorem lists_store {r : Rule} {q : Piece} {x : Rule} :
    (c.store r q).Lists x ↔ r.Lists x ∨ (c.cell? q = none ∧ q.rule? = some x) := by
  have hsame : ∀ t : Rule, t.children = r.children → t.injections = r.injections →
      ¬ (c.cell? q = none ∧ q.rule? = some x) →
        (t.Lists x ↔ r.Lists x ∨ (c.cell? q = none ∧ q.rule? = some x)) := by
    intro t hchildren hinjections hnot
    unfold Rule.Lists
    rw [hchildren, hinjections, or_iff_left hnot]
  have hchild : ∀ y : Node, (r.addChild y).Lists x ↔ r.Lists x ∨ y = .rule x := by
    intro y
    unfold Rule.Lists Rule.addChild
    rw [List.mem_append, List.mem_singleton, or_right_comm, @eq_comm _ y]
  have hinjection : ∀ selector y, (r.addInjection selector y).Lists x ↔ r.Lists x ∨ y = x := by
    intro selector y
    unfold Rule.Lists Rule.addInjection
    rw [or_assoc]
    refine or_congr_right ?_
    constructor
    · intro hmem
      obtain ⟨selector', hmem⟩ := hmem
      rcases List.mem_append.1 hmem with hmem | hmem
      · exact .inl ⟨selector', hmem⟩
      · exact .inr (Prod.mk.inj (List.mem_singleton.1 hmem)).2.symm
    · intro hlisted
      rcases hlisted with ⟨selector', hmem⟩ | rfl
      · exact ⟨selector', List.mem_append_left _ hmem⟩
      · exact ⟨selector, List.mem_append_right _ (List.mem_cons_self ..)⟩
  cases q with
  | «attribute» key text => exact hsame _ rfl rfl (by intro hx; cases hx.2)
  | label key index text => exact hsame _ rfl rfl (by intro hx; cases hx.1)
  | node place source y =>
    cases y with
    | reference p =>
      have hnot : ¬ (c.cell? (.node place source (.reference p)) = none
          ∧ (Piece.node place source (.reference p)).rule? = some x) := by
        intro hx
        cases hx.2
      cases place with
      | child =>
        rw [or_iff_left hnot]
        refine (hchild (.reference p)).trans (or_iff_left ?_)
        intro heq
        cases heq
      | _ => exact hsame _ rfl rfl hnot
    | rule y =>
      have hrule : y = x ↔ c.cell? (.node .child source (.rule y)) = none
          ∧ (Piece.node .child source (.rule y)).rule? = some x := by
        constructor
        · intro heq
          subst heq
          exact ⟨rfl, rfl⟩
        · intro hbrings
          exact Option.some.inj hbrings.2
      cases place with
      | child => exact (hchild (.rule y)).trans (or_congr_right (Node.rule.injEq y x ▸ hrule))
      | injection selector => exact (hinjection _ y).trans (or_congr_right hrule)
      | entry name => exact hsame _ rfl rfl (by intro hx; cases hx.1)
      | capture key index => exact hsame _ rfl rfl (by intro hx; cases hx.1)

/-- Storing pieces leaves in a cell what the last piece for it brought. -/
theorem fills_foldl_store {r : Rule} (h : r.Tidy) {pieces : List Piece} {x : Rule} {cell : Cell} :
    (pieces.foldl c.store r).Fills x cell
      ↔ (∃ before q after, pieces = before ++ q :: after ∧ c.cell? q = some cell
          ∧ q.rule? = some x ∧ ∀ p ∈ after, c.cell? p ≠ some cell)
        ∨ ((∀ q ∈ pieces, c.cell? q ≠ some cell) ∧ r.Fills x cell) := by
  induction pieces generalizing r with
  | nil =>
    constructor
    · intro hx
      exact .inr ⟨fun q hq => absurd hq List.not_mem_nil, hx⟩
    · intro hfills
      rcases hfills with ⟨before, q, after, heq, -⟩ | ⟨-, hx⟩
      · cases before <;> cases heq
      · exact hx
  | cons q more ih =>
    rw [List.foldl_cons, ih (c.tidy_store h q), c.fills_store h]
    constructor
    · intro hfills
      rcases hfills with ⟨before, p, after, rfl, hp⟩ | ⟨hmore, hx⟩
      · exact .inl ⟨q :: before, p, after, rfl, hp⟩
      · by_cases hq : c.cell? q = some cell
        · rw [if_pos hq] at hx
          exact .inl ⟨[], q, more, rfl, hq, hx, hmore⟩
        · rw [if_neg hq] at hx
          exact .inr ⟨List.forall_mem_cons.2 ⟨hq, hmore⟩, hx⟩
    · intro hlast
      rcases hlast with ⟨before, p, after, heq, hp, hx, hafter⟩ | ⟨hall, hx⟩
      · cases before with
        | nil =>
          cases heq
          exact .inr ⟨hafter, (if_pos hp).symm ▸ hx⟩
        | cons b before =>
          cases heq
          exact .inl ⟨before, p, after, rfl, hp, hx, hafter⟩
      · obtain ⟨hq, hmore⟩ := List.forall_mem_cons.1 hall
        exact .inr ⟨hmore, (if_neg hq).symm ▸ hx⟩

theorem lists_foldl_store {r : Rule} {pieces : List Piece} {x : Rule} :
    (pieces.foldl c.store r).Lists x
      ↔ r.Lists x ∨ ∃ q ∈ pieces, c.cell? q = none ∧ q.rule? = some x := by
  induction pieces generalizing r with
  | nil =>
    rw [or_iff_left]
    · exact Iff.rfl
    · intro hbrought
      obtain ⟨q, hq, -⟩ := hbrought
      cases hq
  | cons q more ih =>
    rw [List.foldl_cons, ih, c.lists_store, or_assoc]
    simp only [List.mem_cons, or_and_right, exists_or, exists_eq_left]

/-- A compiled rule keeps exactly those of its nested rules whose cell no
later piece fills. -/
theorem mem_nested_rule_iff {serial : Nat} {parent : Option NodeId} {d : Document} {x : Rule} :
    x ∈ (c.rule serial parent d).nested
      ↔ ∃ before q after, c.contents serial d = before ++ q :: after ∧ q.rule? = some x
        ∧ ∀ p ∈ after, ∀ cell, c.cell? q = some cell → c.cell? p ≠ some cell := by
  have hbare := Rule.tidy_bare ⟨c.table, serial⟩ ((Outline.scopeOf d).map c.symbol) parent
  rw [rule_eq_foldl, Rule.mem_nested_iff_fills, c.lists_foldl_store]
  constructor
  · intro hx
    rcases hx with (hx | ⟨q, hq, hcell, hx⟩) | ⟨cell, hx⟩
    · rcases hx with hx | ⟨selector, hx⟩ <;> cases hx
    · obtain ⟨before, after, heq⟩ := List.append_of_mem hq
      refine ⟨before, q, after, heq, hx, ?_⟩
      intro p _ cell hsome
      rw [hcell] at hsome
      cases hsome
    · rcases (c.fills_foldl_store hbare).1 hx with ⟨before, q, after, heq, hq, hx, hafter⟩ | ⟨-, hx⟩
      · refine ⟨before, q, after, heq, hx, ?_⟩
        intro p hp cell' hsome
        rw [hq] at hsome
        cases hsome
        exact hafter p hp
      · cases cell with
        | entry id => cases hx
        | group key index =>
          obtain ⟨table, htable, -⟩ := hx
          cases htable
  · intro hlast
    obtain ⟨before, q, after, heq, hx, hafter⟩ := hlast
    cases hcell : c.cell? q with
    | none =>
      refine .inl (.inr ⟨q, ?_, hcell, hx⟩)
      rw [heq]
      exact List.mem_append_right _ (List.mem_cons_self ..)
    | some cell =>
      refine .inr ⟨cell, (c.fills_foldl_store hbare).2 (.inl ?_)⟩
      exact ⟨before, q, after, heq, hcell, hx, fun p hp => hafter p hp cell hcell⟩

end Context

end ScopeRules
