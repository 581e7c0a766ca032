/-
Nodes stay within their table. Whatever a rule owns or names was compiled
for one table: its parents, the anchors of its references, and the tables
that these references ask. `Node.Within` says this of a node, all the way
down; nothing that a walk does leads out of it (`World.agreeOn_within`).

So what is alive of other tables is of no concern to a walk. Two moments at
which the rules of one table are the same, but for stamps, and the table
itself is registered the same, agree on the nodes within that table
(`agreeOn_unstamped`), whatever else is alive at the one and at the other.
-/
import ScopeRules.Proofs.Apart

namespace ScopeRules

-- ============================================================ the class

/-- Whether a reference names nothing outside a table. -/
def Reference.Within (id : TableId) : Reference → Prop
  | .entry _ anchor => ∃ a, anchor = some a ∧ a.table = id
  | .root anchor => ∃ a, anchor = some a ∧ a.table = id
  | .foreign table _ _ anchor => table = id ∧ ∃ a, anchor = some a ∧ a.table = id

/-- Whether a rule and all that it owns name nothing outside a table. -/
def Rule.Within (id : TableId) (r : Rule) : Prop :=
  ∀ s ∈ r.owned, s.id.table = id ∧ (∀ p, s.parent = some p → p.table = id)
    ∧ ∀ p, Node.reference p ∈ s.nodes → p.Within id

/-- Whether a node names nothing outside a table. The empty rule names
nothing at all. -/
def Node.Within (id : TableId) : Node → Prop
  | .rule r => r = .empty ∨ r.Within id
  | .reference p => p.Within id

/-- The table that a node was compiled for. -/
def Node.home? : Node → Option TableId
  | .rule r => some r.id.table
  | .reference p => p.anchor.map NodeId.table

variable {id : TableId}

theorem Reference.Within.anchor {p : Reference} (h : p.Within id) :
    ∃ a, p.anchor = some a ∧ a.table = id := by
  cases p with
  | entry name anchor => exact h
  | root anchor => exact h
  | foreign table scope name anchor => exact h.2

theorem Node.Within.home {x : Node} (h : x.Within id) : x.home? = some id ∨ x = .rule .empty := by
  cases x with
  | rule r =>
    rcases h with rfl | h
    · exact .inr rfl
    · exact .inl (congrArg some (h r (Rule.mem_owned_self r)).1)
  | reference p =>
    obtain ⟨a, ha, hid⟩ := h.anchor
    rw [home?, ha]
    exact .inl (congrArg some hid)

/-- What a rule owns is within the table that the rule is within. -/
theorem within_of_mem_nodes {r : Rule} (h : (Node.rule r).Within id) {x : Node}
    (hx : x ∈ r.nodes) : x.Within id := by
  rcases h with rfl | h
  · cases hx
  · cases x with
    | rule s =>
      have hs : s ∈ r.owned := Rule.mem_owned_of_mem_nested (Rule.mem_nested_iff.2 hx)
      exact .inr fun t ht => h t (Rule.mem_owned_trans hs ht)
    | reference p => exact (h r (Rule.mem_owned_self r)).2.2 p hx

-- =============================================================== stamps

theorem Node.home?_unstamped (x : Node) : x.unstamped.home? = x.home? := by
  cases x with
  | rule r => simp [home?]
  | reference p => simp [home?, p.anchor_unstamped]

theorem Rule.nodes_unstamped (r : Rule) : r.unstamped.nodes = r.nodes.map Node.unstamped := by
  have hcapture : ∀ c : Capture,
      c.unstamped.rule?.map Node.rule = (c.rule?.map Node.rule).map Node.unstamped := by
    intro c
    cases c <;> simp [Capture.rule?]
  simp only [nodes, children_unstamped, repository_unstamped, captures_unstamped,
    injections_unstamped, CaptureTable.groups_unstamped, List.map_append, List.filterMap_map,
    List.flatMap_map, List.map_flatMap, List.map_filterMap, List.map_map, Function.comp_def,
    hcapture, Node.unstamped_rule]

theorem Reference.Within.unstamped {p : Reference} (h : p.Within id) : p.unstamped.Within id := by
  cases p <;> exact h

theorem Node.Within.unstamped {x : Node} (h : x.Within id) : x.unstamped.Within id := by
  cases x with
  | reference p =>
    rw [Node.unstamped_reference]
    exact Reference.Within.unstamped h
  | rule r =>
    rw [Node.unstamped_rule]
    rcases h with rfl | h
    · exact .inl Rule.unstamped_empty
    · refine .inr fun s hs => ?_
      rw [Rule.owned_unstamped] at hs
      obtain ⟨t, ht, rfl⟩ := List.mem_map.1 hs
      obtain ⟨htable, hparent, hrefs⟩ := h t ht
      refine ⟨by rw [t.id_unstamped, htable], fun p hp => hparent p (t.parent_unstamped ▸ hp), ?_⟩
      intro p hp
      rw [Rule.nodes_unstamped] at hp
      obtain ⟨y, hy, heq⟩ := List.mem_map.1 hp
      cases y with
      | rule u => simp at heq
      | reference q =>
        rw [Node.unstamped_reference] at heq
        obtain rfl := Node.reference.inj heq
        exact (hrefs q hy).unstamped

-- ============================================================= the log

namespace Compilation

variable {k : Compilation}

theorem within_reference (target : Include) {owner : NodeId} (howner : owner.table = k.table.id) :
    (k.context.reference owner target).Within k.table.id := by
  cases target with
  | entry name => exact ⟨owner, rfl, howner⟩
  | root => exact ⟨owner, rfl, howner⟩
  | foreign scope name => exact ⟨rfl, owner, rfl, howner⟩

/-- A reference of a document is within its table. -/
theorem Refers.within {p : Reference} (h : k.Refers p) : p.Within k.table.id := by
  obtain ⟨r, d, outer, place, source, htrail, hmem⟩ := h
  obtain ⟨rfl, -⟩ := k.context.eq_of_reference_mem_pieces hmem
  exact within_reference _ rfl

/-- A rule of a document is within its table. -/
theorem within_of_mem_rules {r : Rule} (h : r ∈ k.rules) : r.Within k.table.id := by
  intro s hs
  have hrules := mem_rules_of_mem_owned h hs
  obtain ⟨d, outer, htrail⟩ := exists_trail_of_mem_rules hrules
  refine ⟨(k.id_of_mem_rules hrules).1, fun p hp => ?_, fun p hp => ?_⟩
  · rw [htrail.parent_eq] at hp
    obtain ⟨f, hf, rfl⟩ := Option.map_eq_some_iff.1 hp
    cases outer with
    | nil => cases hf
    | cons g outer =>
      obtain rfl := Option.some.inj hf
      exact (k.id_of_mem_rules htrail.tail.mem_rules).1
  · obtain ⟨place, source, hmem⟩ := htrail.mem_nodes hp
    exact Refers.within ⟨s, d, outer, place, source, htrail, hmem⟩

end Compilation

/-- A node of the log is within the table that it was compiled for. -/
theorem Known.within {log : List Compilation} {x : Node} (h : Known log x)
    (hhome : x.home? = some id) : x.Within id := by
  cases x with
  | rule r =>
    rcases h with rfl | ⟨k, -, hr⟩
    · exact .inl rfl
    · have hwithin := Compilation.within_of_mem_rules hr
      have hid : k.table.id = id := (k.id_of_mem_rules hr).1.symm.trans (Option.some.inj hhome)
      exact .inr (hid ▸ hwithin)
  | reference p =>
    obtain ⟨k, -, hp⟩ := h
    have hwithin := hp.within
    obtain ⟨a, ha, hid⟩ := hwithin.anchor
    rw [Node.home?, ha] at hhome
    rw [← Option.some.inj hhome, hid]
    exact hwithin

/-- A node of the log is within some table. -/
theorem Known.exists_within {log : List Compilation} {x : Node} (h : Known log x) :
    ∃ id, x.Within id := by
  cases hhome : x.home? with
  | some id => exact ⟨id, h.within hhome⟩
  | none =>
    cases x with
    | rule r => cases hhome
    | reference p =>
      obtain ⟨k, -, hp⟩ := h
      exact ⟨k.table.id, hp.within⟩

-- ============================================================= moments

namespace World

variable {w : World}

/-- The rule that a scope is registered for is within its table. -/
theorem Sound.within_lookup (h : w.Sound) {t : Table} (ht : t ∈ w.session.tables)
    (scope : String) : (Node.rule (t.lookup scope)).Within t.id := by
  unfold Table.lookup
  cases hentry : t.registry.get? scope with
  | none => exact .inl rfl
  | some entry =>
    obtain ⟨k, -, hid, -, hnode⟩ := h.registered t ht _ (Assoc.mem_of_get?_eq_some hentry)
    exact .inr (hid ▸ Compilation.within_of_mem_rules (mem_rules_of_mem_declarations hnode))

theorem Sound.within_of_rule?_eq_some (h : w.Sound) {link : NodeId} {r : Rule}
    (hr : w.session.snapshot.rule? link = some r) : (Node.rule r).Within link.table := by
  obtain ⟨halive, hid⟩ := Snapshot.alive_of_rule?_eq_some hr
  exact (h.from.known_of_alive halive).within (congrArg (fun id => some (NodeId.table id)) hid)

end World

namespace Snapshot

/-- Two moments agree on the nodes within a table, if they agree on its
rules and on the table, and all of these are within the table. -/
theorem agreeOn_within {s s' : Snapshot}
    (hrule : ∀ link : NodeId, link.table = id → s.rule? link = s'.rule? link)
    (hwithin : ∀ (link : NodeId) r, link.table = id → s.rule? link = some r →
      (Node.rule r).Within id)
    (htable : (s.table? id).map Table.registry = (s'.table? id).map Table.registry)
    (hlookup : ∀ t, s.table? id = some t → ∀ scope, (Node.rule (t.lookup scope)).Within id) :
    AgreeOn (Node.Within id) s s' where
  empty := .inl rfl
  nodes r hr x hx := within_of_mem_nodes hr hx
  parent r hr := by
    rw [parent?, parent?]
    cases hp : r.parent with
    | none => exact ⟨rfl, fun p hp => by cases hp⟩
    | some link =>
      have hlink : link.table = id := by
        rcases hr with rfl | hr
        · cases hp
        · exact (hr r (Rule.mem_owned_self r)).2.1 link hp
      exact ⟨hrule link hlink, fun p hp => hwithin link p hlink hp⟩
  anchor p hp := by
    obtain ⟨link, ha, hlink⟩ := Reference.Within.anchor hp
    rw [anchor?, anchor?, ha]
    exact ⟨hrule link hlink, fun a ha => hwithin link a hlink ha⟩
  lookup table scope name anchor hp := by
    obtain ⟨rfl, -⟩ := hp
    refine ⟨?_, fun t ht => hlookup t ht scope.text⟩
    have hregistry := congrArg (Option.map fun registry : Registry =>
      Table.lookup ⟨table, registry, .empty, 0⟩ scope.text) htable
    rw [Option.map_map, Option.map_map] at hregistry
    exact hregistry

end Snapshot

/-- A walk does not leave the table that it starts in. -/
theorem World.Sound.agreeOn_within {w : World} (h : w.Sound) (id : TableId) :
    Snapshot.AgreeOn (Node.Within id) w.session.snapshot w.session.snapshot := by
  refine Snapshot.agreeOn_within (fun _ _ => rfl) ?_ rfl ?_
  · rintro link r rfl hr
    exact h.within_of_rule?_eq_some hr
  · intro t ht scope
    obtain ⟨hmem, rfl⟩ := Table.mem_of_find?_eq_some ht
    exact h.within_lookup hmem scope

end ScopeRules
