/-
Where a compiled rule stands in its document. A `Compilation` records one
document added to a table: the table and interner as they were, the
document, and how often the table's ids had been compacted before. A trail
of it is a way into the document: a rule with the dictionary it was compiled
from, then the rule and dictionary around it, and so on outwards to the
root. A trail is lexical: it speaks of dictionaries inside dictionaries, and
says nothing of what is owned or alive later.

# What this file closes

- `Trail.mem_rules`, `exists_trail_of_mem_rules`: the rules of a document
  are exactly those that a trail leads to.
- `eq_of_id_eq`: among the rules of one document the id tells the rule.
- `Trail.parent_eq`: the parent of a rule is the next one on its trail.
- `Trail.mem_owned_of_mem_owned`: what owns a rule owns, by the same edges,
  the rules around it up to itself; so a rule that the root owns has all its
  enclosing rules owned by the root.
-/
import Mathlib.Data.List.Nodup
import ScopeRules.Proofs.Pieces
import ScopeRules.Table

namespace ScopeRules

/-- One document that was added to a table: the table and the interner
before, the document, and the number of times that the table's ids had been
compacted. -/
structure Compilation where
  table : Table
  interner : Interner
  document : Document
  epoch : Nat

namespace Compilation

variable (k : Compilation)

/-- What the rules were built with. -/
def context : Context := k.table.contextFor k.interner k.document

/-- The number of the root. -/
def first : Nat := k.table.compiled + 1

/-- What the document was compiled to. -/
def grammar : Grammar := k.table.compile k.interner k.document

/-- The root of the document. -/
def root : Rule := k.grammar.root

/-- The rules of the document, the root first. -/
def rules : List Rule := k.grammar.rules

/-- The number of the last rule. -/
def last : Nat := k.table.compiled + k.rules.length

/-- What stands in the dictionary `d` of the rule `r`, with what it was
compiled to. -/
def contents (r : Rule) (d : Document) : List Piece := k.context.contents r.id.serial d

/-- A rule with its dictionary, and the rules with their dictionaries that
enclose it in the document, innermost first. -/
inductive Trail : List (Rule × Document) → Prop where
  | root : Trail [(k.root, k.document)]
  | nested {r : Rule} {d : Document} {outer : List (Rule × Document)} {place : Place}
      {source : Document} {x : Rule} (enclosing : Trail ((r, d) :: outer))
      (mem : .node place source (.rule x) ∈ k.contents r d) :
      Trail ((x, source) :: (r, d) :: outer)

-- ============================================================ the rules

theorem rules_eq :
    k.rules = k.root :: (Outline.ofDocument k.document).rules k.context (k.first + 1) k.root.id :=
  rfl

theorem root_mem_rules : k.root ∈ k.rules := List.mem_cons_self ..

theorem root_id : k.root.id = ⟨k.table.id, k.first⟩ := k.context.rule_id _ _ _

theorem root_parent : k.root.parent = none := k.context.rule_parent _ _ _

/-- The rules of a document have consecutive numbers, in document order. -/
theorem map_id_rules_eq :
    k.rules.map Rule.id = (List.range' k.first k.rules.length).map (NodeId.mk k.table.id) := by
  rw [rules_eq, List.map_cons, map_id_rules, List.length_cons, length_rules, List.range'_succ,
    List.map_cons, root_id]
  rfl

theorem nodup_map_id_rules : (k.rules.map Rule.id).Nodup := by
  rw [map_id_rules_eq]
  refine List.Nodup.map ?_ List.nodup_range'
  intro m n hmn
  exact (NodeId.mk.inj hmn).2

/-- Among the rules of a document the id tells the rule. -/
theorem eq_of_id_eq {r s : Rule} (hr : r ∈ k.rules) (hs : s ∈ k.rules) (h : r.id = s.id) :
    r = s :=
  List.inj_on_of_nodup_map k.nodup_map_id_rules hr hs h

/-- The id of a rule names its table, and its number is one of the
document's. -/
theorem id_of_mem_rules {r : Rule} (h : r ∈ k.rules) :
    r.id.table = k.table.id ∧ k.first ≤ r.id.serial ∧ r.id.serial ≤ k.last := by
  have hid : r.id ∈ k.rules.map Rule.id := List.mem_map_of_mem h
  rw [map_id_rules_eq] at hid
  obtain ⟨serial, hserial, hid⟩ := List.mem_map.1 hid
  rw [List.mem_range'_1] at hserial
  rw [← hid]
  refine ⟨rfl, hserial.1, ?_⟩
  have hlt := hserial.2
  unfold last
  unfold first at hlt
  show serial ≤ _
  omega

-- =============================================================== trails

variable {k}

/-- The rule at the head of a trail was compiled from the dictionary beside
it, inside the rule that comes next. -/
theorem Trail.eq_rule {r : Rule} {d : Document} {outer : List (Rule × Document)}
    (h : k.Trail ((r, d) :: outer)) :
    r = k.context.rule r.id.serial (outer.head?.map fun f => f.1.id) d := by
  cases h with
  | root =>
    rw [root_id]
    rfl
  | @nested e f outer place _ _ enclosing mem =>
    obtain ⟨serial, hr, -⟩ := k.context.exists_of_rule_mem_pieces mem
    have hid : e.id = ⟨k.context.table, e.id.serial⟩ := by
      have henclosing := congrArg Rule.id enclosing.eq_rule
      rw [k.context.rule_id] at henclosing
      exact henclosing
    have hserial : r.id.serial = serial := by
      rw [hr, k.context.rule_id]
    rw [List.head?_cons, Option.map_some, hserial, hid]
    exact hr

/-- The parent of a rule is the rule that comes next on its trail. -/
theorem Trail.parent_eq {r : Rule} {d : Document} {outer : List (Rule × Document)}
    (h : k.Trail ((r, d) :: outer)) : r.parent = outer.head?.map fun f => f.1.id := by
  have hr := congrArg Rule.parent h.eq_rule
  rw [k.context.rule_parent] at hr
  exact hr

theorem Trail.id_eq {r : Rule} {d : Document} {outer : List (Rule × Document)}
    (h : k.Trail ((r, d) :: outer)) : r.id = ⟨k.table.id, r.id.serial⟩ := by
  have hr := congrArg Rule.id h.eq_rule
  rw [k.context.rule_id] at hr
  exact hr

/-- The way outwards from a rule is a trail too. -/
theorem Trail.tail {f g : Rule × Document} {outer : List (Rule × Document)}
    (h : k.Trail (f :: g :: outer)) : k.Trail (g :: outer) := by
  cases h with
  | nested enclosing mem => exact enclosing

/-- Every rule of a trail has a trail of its own. -/
theorem Trail.of_mem {trail : List (Rule × Document)} (h : k.Trail trail)
    {f : Rule × Document} (hf : f ∈ trail) : ∃ outer, k.Trail (f :: outer) := by
  induction trail with
  | nil => cases hf
  | cons g rest ih =>
    rcases List.mem_cons.1 hf with rfl | hf
    · exact ⟨rest, h⟩
    · cases rest with
      | nil => cases hf
      | cons g' rest => exact ih h.tail hf

/-- A trail leads to rules of the document, and so do all its extensions. -/
theorem Trail.mem_rules_and_below {r : Rule} {d : Document} {outer : List (Rule × Document)}
    (h : k.Trail ((r, d) :: outer)) :
    r ∈ k.rules
      ∧ ∀ s ∈ (Outline.ofDocument d).rules k.context (r.id.serial + 1) r.id, s ∈ k.rules := by
  cases h with
  | root =>
    refine ⟨k.root_mem_rules, fun s hs => ?_⟩
    rw [root_id] at hs
    rw [rules_eq, root_id]
    exact List.mem_cons_of_mem _ hs
  | @nested e f outer place _ _ enclosing mem =>
    have hbelow := enclosing.mem_rules_and_below.2
    rw [enclosing.id_eq] at hbelow
    have hpiece : ∀ s ∈ Piece.rules k.context (.node place d (.rule r)), s ∈ k.rules := by
      intro s hs
      refine hbelow s ?_
      have hcontents := rules_ofDocument k.context e.id.serial f
      exact hcontents ▸ List.mem_flatMap_of_mem mem hs
    exact ⟨hpiece r (List.mem_cons_self ..), fun s hs => hpiece s (List.mem_cons_of_mem _ hs)⟩

theorem Trail.mem_rules {r : Rule} {d : Document} {outer : List (Rule × Document)}
    (h : k.Trail ((r, d) :: outer)) : r ∈ k.rules := h.mem_rules_and_below.1

/-- Every rule below one on a trail is reached by going further inwards.
The dictionaries on the way in make fewer and fewer rules, which is what
the induction is on. -/
theorem Trail.exists_of_mem_below {r : Rule} {d : Document} {outer : List (Rule × Document)}
    (h : k.Trail ((r, d) :: outer)) {s : Rule}
    (hs : s ∈ (Outline.ofDocument d).rules k.context (r.id.serial + 1) r.id) :
    ∃ e inner, k.Trail ((s, e) :: inner) := by
  generalize hcount : (Outline.ofDocument d).count = count
  induction count using Nat.strongRecOn generalizing r d outer with
  | ind count ih =>
    rw [h.id_eq] at hs
    have hcontents := rules_ofDocument k.context r.id.serial d
    have hs' : s ∈ (k.contents r d).flatMap (Piece.rules k.context) := hcontents ▸ hs
    obtain ⟨q, hq, hs'⟩ := List.mem_flatMap.1 hs'
    cases q with
    | «attribute» key text => cases hs'
    | label key index text => cases hs'
    | node place source x =>
      cases x with
      | reference p => cases hs'
      | rule x =>
        have hx := Trail.nested h hq
        rcases List.mem_cons.1 hs' with rfl | hs'
        · exact ⟨source, _, hx⟩
        · obtain ⟨serial, -, hle, hroom, -⟩ := k.context.exists_of_rule_mem_pieces hq
          have hd := count_ofDocument d
          exact ih _ (by omega) hx hs' rfl

/-- Every rule of a document is at the head of a trail. -/
theorem exists_trail_of_mem_rules {r : Rule} (h : r ∈ k.rules) :
    ∃ d outer, k.Trail ((r, d) :: outer) := by
  rw [rules_eq] at h
  rcases List.mem_cons.1 h with rfl | h
  · exact ⟨k.document, [], .root⟩
  · rw [root_id] at h
    refine Trail.root.exists_of_mem_below ?_
    rw [root_id]
    exact h

/-- Numbers grow inwards: there are more numbers from the root's to that of
a rule than rules around it. -/
theorem Trail.length_outer {r : Rule} {d : Document} {outer : List (Rule × Document)}
    (h : k.Trail ((r, d) :: outer)) : k.first + outer.length ≤ r.id.serial := by
  cases h with
  | root =>
    rw [root_id]
    exact Nat.le_refl _
  | nested enclosing mem =>
    have henclosing := enclosing.length_outer
    obtain ⟨serial, hr, hle, -⟩ := k.context.exists_of_rule_mem_pieces mem
    have hserial : r.id.serial = serial := by
      rw [hr, k.context.rule_id]
    rw [List.length_cons]
    omega

-- ================================================== what trails run over

/-- What a rule on a trail owns was compiled from a dictionary in its own. -/
theorem Trail.mem_nodes {r : Rule} {d : Document} {outer : List (Rule × Document)}
    (h : k.Trail ((r, d) :: outer)) {x : Node} (hx : x ∈ r.nodes) :
    ∃ place source, .node place source x ∈ k.contents r d := by
  rw [h.eq_rule] at hx
  exact k.context.mem_nodes_rule hx

/-- A trail goes on to every rule that its innermost rule owns. -/
theorem Trail.of_mem_nested {r : Rule} {d : Document} {outer : List (Rule × Document)}
    (h : k.Trail ((r, d) :: outer)) {s : Rule} (hs : s ∈ r.nested) :
    ∃ source, k.Trail ((s, source) :: (r, d) :: outer) := by
  obtain ⟨place, source, hmem⟩ := h.mem_nodes (Rule.mem_nested_iff.1 hs)
  exact ⟨source, .nested h hmem⟩

/-- All that a rule of the document owns is of the document. -/
theorem mem_rules_of_mem_owned {r s : Rule} (hr : r ∈ k.rules) (hs : s ∈ r.owned) :
    s ∈ k.rules := by
  induction r using Rule.nestedInduction with
  | step r ih =>
    rcases Rule.mem_owned_iff.1 hs with rfl | ⟨t, ht, hs⟩
    · exact hr
    · obtain ⟨d, outer, htrail⟩ := exists_trail_of_mem_rules hr
      obtain ⟨source, hinner⟩ := htrail.of_mem_nested ht
      exact ih t ht hinner.mem_rules hs

/-- What owns a rule, other than the rule itself, owns the rule around it,
which in turn owns it directly. -/
theorem Trail.mem_owned_enclosing {o r e : Rule} {d f : Document}
    {outer : List (Rule × Document)} (h : k.Trail ((r, d) :: (e, f) :: outer))
    (ho : o ∈ k.rules) (hr : r ∈ o.owned) (hne : r ≠ o) : e ∈ o.owned ∧ r ∈ e.nested := by
  obtain ⟨t, ht, hrt⟩ := Rule.exists_owner hr hne
  obtain ⟨g, rest, ht'⟩ := exists_trail_of_mem_rules (mem_rules_of_mem_owned ho ht)
  obtain ⟨source, hinner⟩ := ht'.of_mem_nested hrt
  have hparent := h.parent_eq
  rw [hinner.parent_eq, List.head?_cons, List.head?_cons, Option.map_some, Option.map_some]
    at hparent
  have hte : t = e := k.eq_of_id_eq ht'.mem_rules h.tail.mem_rules (Option.some.inj hparent)
  exact hte ▸ ⟨ht, hrt⟩

/-- The root owns, with a rule, all the rules around it. -/
theorem Trail.mem_owned_root {r : Rule} {d : Document} {outer : List (Rule × Document)}
    (h : k.Trail ((r, d) :: outer)) (hr : r ∈ k.root.owned) :
    ∀ f ∈ outer, f.1 ∈ k.root.owned := by
  cases h with
  | root =>
    intro f hf
    cases hf
  | @nested e g outer place _ _ enclosing mem =>
    have htrail := Trail.nested enclosing mem
    have hne : r ≠ k.root := by
      intro hroot
      have hparent := htrail.parent_eq
      rw [hroot, root_parent] at hparent
      cases hparent
    have he := (htrail.mem_owned_enclosing k.root_mem_rules hr hne).1
    intro f hf
    rcases List.mem_cons.1 hf with rfl | hf
    · exact he
    · exact enclosing.mem_owned_root he f hf

end Compilation

end ScopeRules
