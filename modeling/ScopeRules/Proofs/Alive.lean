/-
What is alive, and where climbing leads. A rule is alive at a moment when
something held owns it. The look-up by id, which weak links go through,
finds the live rules and no others; that rests on two facts about the log of
compiled documents, which the run of a session keeps:

- `Coherent`: documents of one table have numbers apart from each other, so
  an id means one rule of one document (`eq_of_known`);
- `Snapshot.From`: everything held was compiled by a document of the log
  (or is the empty rule), so nothing else can answer to an id.

# What this file closes

- `rule?_eq_some_iff`: the look-up by id answers the live rule with that id.
- `lineage_eq`: climbing from a rule visits the rules of its trail, up to
  the first one that is not alive. Fuel never runs out, since numbers grow
  inwards (`Trail.length_outer`).
- `From.target`, `From.resolve`, `From.next?`: whatever a caller gets at,
  from what is held and what is registered, is of the log again.
-/
import Mathlib.Data.List.TakeWhile
import ScopeRules.Proofs.Trail
import ScopeRules.Walk

namespace ScopeRules

-- ========================================================== provenance

/-- Whether a reference was compiled from a dictionary of the document. -/
def Compilation.Refers (k : Compilation) (p : Reference) : Prop :=
  ∃ r d outer place source, k.Trail ((r, d) :: outer)
    ∧ .node place source (.reference p) ∈ k.contents r d

/-- Whether a node is the empty rule, or comes from a document of the log. -/
def Known (log : List Compilation) : Node → Prop
  | .rule r => r = .empty ∨ ∃ k ∈ log, r ∈ k.rules
  | .reference p => ∃ k ∈ log, k.Refers p

/-- Documents of one table follow each other in their numbers. -/
def Coherent (log : List Compilation) : Prop :=
  log.Pairwise fun j k => j.table.id = k.table.id → j.last < k.first

/-- What a rule of the log owns is of the log. -/
theorem known_of_mem_nodes {log : List Compilation} {r : Rule} {x : Node}
    (h : Known log (.rule r)) (hx : x ∈ r.nodes) : Known log x := by
  rcases h with rfl | ⟨k, hk, hr⟩
  · cases hx
  · obtain ⟨d, outer, htrail⟩ := Compilation.exists_trail_of_mem_rules hr
    obtain ⟨place, source, hmem⟩ := htrail.mem_nodes hx
    cases x with
    | rule s => exact .inr ⟨k, hk, (Compilation.Trail.nested htrail hmem).mem_rules⟩
    | reference p => exact ⟨k, hk, r, d, outer, place, source, htrail, hmem⟩

theorem known_of_mem_owned {log : List Compilation} {r s : Rule} (h : Known log (.rule r))
    (hs : s ∈ r.owned) : Known log (.rule s) := by
  rcases h with rfl | ⟨k, hk, hr⟩
  · rcases Rule.mem_owned_iff.1 hs with rfl | ⟨t, ht, -⟩
    · exact .inl rfl
    · cases ht
  · exact .inr ⟨k, hk, Compilation.mem_rules_of_mem_owned hr hs⟩

/-- A longer log knows what the shorter one knew. -/
theorem Known.append {log : List Compilation} {x : Node} (h : Known log x)
    (new : List Compilation) : Known (log ++ new) x := by
  cases x with
  | rule r =>
    rcases h with rfl | ⟨k, hk, hr⟩
    · exact .inl rfl
    · exact .inr ⟨k, List.mem_append_left _ hk, hr⟩
  | reference p =>
    obtain ⟨k, hk, hp⟩ := h
    exact ⟨k, List.mem_append_left _ hk, hp⟩

/-- A rule of a document is not the empty rule: its number is not zero. -/
theorem Compilation.id_ne_empty {k : Compilation} {r : Rule} (h : r ∈ k.rules) :
    r.id ≠ .empty := by
  intro hid
  have hserial := (k.id_of_mem_rules h).2.1
  rw [hid] at hserial
  exact absurd hserial (Nat.not_succ_le_zero _)

/-- Documents of a coherent log share no id. -/
theorem Coherent.eq_of_mem_rules {log : List Compilation} (h : Coherent log)
    {j k : Compilation} (hj : j ∈ log) (hk : k ∈ log) {r s : Rule} (hr : r ∈ j.rules)
    (hs : s ∈ k.rules) (hid : r.id = s.id) : j = k := by
  obtain ⟨hrtable, hrfirst, hrlast⟩ := j.id_of_mem_rules hr
  obtain ⟨hstable, hsfirst, hslast⟩ := k.id_of_mem_rules hs
  have htable : j.table.id = k.table.id := by rw [← hrtable, hid, hstable]
  have hserial : r.id.serial = s.id.serial := by rw [hid]
  induction log with
  | nil => cases hj
  | cons i rest ih =>
    obtain ⟨hhead, hrest⟩ := List.pairwise_cons.1 h
    rcases List.mem_cons.1 hj with hji | hjrest
    · rcases List.mem_cons.1 hk with hki | hkrest
      · rw [hji, hki]
      · have hapart := hhead k hkrest (hji ▸ htable)
        rw [← hji] at hapart
        omega
    · rcases List.mem_cons.1 hk with hki | hkrest
      · have hapart := hhead j hjrest (hki ▸ htable.symm)
        rw [← hki] at hapart
        omega
      · exact ih hrest hjrest hkrest

/-- In a coherent log the id tells the rule. -/
theorem eq_of_known {log : List Compilation} (h : Coherent log) {r s : Rule}
    (hr : Known log (.rule r)) (hs : Known log (.rule s)) (hid : r.id = s.id) : r = s := by
  rcases hr with rfl | ⟨j, hj, hr⟩
  · rcases hs with rfl | ⟨k, hk, hs⟩
    · rfl
    · exact absurd hid.symm (Compilation.id_ne_empty hs)
  · rcases hs with rfl | ⟨k, hk, hs⟩
    · exact absurd hid (Compilation.id_ne_empty hr)
    · have hjk := h.eq_of_mem_rules hj hk hr hs hid
      subst hjk
      exact j.eq_of_id_eq hr hs hid

-- ============================================================== look-up

namespace Snapshot

/-- Whether something held owns the rule. -/
def Alive (s : Snapshot) (r : Rule) : Prop := ∃ h ∈ s.held, r ∈ h.owned

/-- Whether the look-up by id still finds the rule. -/
def isAlive (s : Snapshot) (r : Rule) : Bool := (s.rule? r.id).isSome

/-- Whether everything that is held or registered is of the log. -/
structure From (s : Snapshot) (log : List Compilation) : Prop where
  held : ∀ r ∈ s.held, Known log (.rule r)
  registered : ∀ t ∈ s.tables, ∀ p ∈ t.registry, Known log (.rule p.2.node)

variable {s : Snapshot} {log : List Compilation}

theorem alive_of_mem_held {r : Rule} (h : r ∈ s.held) : s.Alive r :=
  ⟨r, h, Rule.mem_owned_self r⟩

/-- What a live rule owns is alive. -/
theorem Alive.of_mem_owned {r t : Rule} (h : s.Alive r) (ht : t ∈ r.owned) : s.Alive t := by
  obtain ⟨o, ho, hr⟩ := h
  exact ⟨o, ho, Rule.mem_owned_trans hr ht⟩

theorem From.known_of_alive (hs : s.From log) {r : Rule} (h : s.Alive r) :
    Known log (.rule r) := by
  obtain ⟨o, ho, hr⟩ := h
  exact known_of_mem_owned (hs.held o ho) hr

theorem alive_of_rule?_eq_some {id : NodeId} {r : Rule} (h : s.rule? id = some r) :
    s.Alive r ∧ r.id = id := by
  obtain ⟨o, ho, hr⟩ := List.exists_of_findSome?_eq_some h
  have hid := List.find?_some hr
  exact ⟨⟨o, ho, List.mem_of_find?_eq_some hr⟩, of_decide_eq_true hid⟩

/-- The look-up by id answers the live rule with that id. -/
theorem From.rule?_eq_some_iff (hs : s.From log) (hlog : Coherent log) {id : NodeId} {r : Rule} :
    s.rule? id = some r ↔ s.Alive r ∧ r.id = id := by
  constructor
  · exact alive_of_rule?_eq_some
  · intro hfound
    obtain ⟨hr, rfl⟩ := hfound
    cases hfound : s.rule? r.id with
    | some t =>
      obtain ⟨ht, hid⟩ := alive_of_rule?_eq_some hfound
      rw [eq_of_known hlog (hs.known_of_alive ht) (hs.known_of_alive hr) hid]
    | none =>
      obtain ⟨o, ho, hr⟩ := hr
      have hnone := List.findSome?_eq_none_iff.1 hfound o ho
      exact absurd (decide_eq_true rfl) (List.find?_eq_none.1 hnone r hr)

theorem From.isAlive_iff (hs : s.From log) (hlog : Coherent log) {r : Rule}
    (hr : Known log (.rule r)) : s.isAlive r = true ↔ s.Alive r := by
  unfold isAlive
  constructor
  · intro h
    obtain ⟨t, ht⟩ := Option.isSome_iff_exists.1 h
    obtain ⟨halive, hid⟩ := alive_of_rule?_eq_some ht
    rw [← eq_of_known hlog (hs.known_of_alive halive) hr hid]
    exact halive
  · intro h
    rw [(hs.rule?_eq_some_iff hlog).2 ⟨h, rfl⟩]
    rfl

/-- A weak link to a rule of the log leads to it, if it is alive. -/
theorem From.rule?_id (hs : s.From log) (hlog : Coherent log) {r : Rule}
    (hr : Known log (.rule r)) : s.rule? r.id = if s.isAlive r then some r else none := by
  cases halive : s.isAlive r with
  | true => exact (hs.rule?_eq_some_iff hlog).2 ⟨(hs.isAlive_iff hlog hr).1 halive, rfl⟩
  | false => simpa [isAlive] using halive

-- ============================================================= climbing

/-- Climbing follows the trail as long as it is alive. -/
theorem From.climb_eq (hs : s.From log) (hlog : Coherent log) {k : Compilation} (hk : k ∈ log)
    {r : Rule} {d : Document} {outer : List (Rule × Document)} (h : k.Trail ((r, d) :: outer))
    {fuel : Nat} (hfuel : outer.length ≤ fuel) :
    s.climb fuel r = r :: (outer.map Prod.fst).takeWhile s.isAlive := by
  induction fuel generalizing r d outer with
  | zero =>
    cases outer with
    | nil => rfl
    | cons f outer => exact absurd hfuel (Nat.not_succ_le_zero _)
  | succ fuel ih =>
    have hparent : s.parent? r = (outer.head?.map fun f => f.1.id).bind s.rule? := by
      rw [parent?, h.parent_eq]
    rw [climb]
    cases outer with
    | nil =>
      rw [hparent]
      rfl
    | cons f outer =>
      have hknown : Known log (.rule f.1) := .inr ⟨k, hk, h.tail.mem_rules⟩
      have hclimb := ih h.tail (Nat.le_of_succ_le_succ hfuel)
      rw [hparent, List.head?_cons, Option.map_some, Option.bind_some, hs.rule?_id hlog hknown,
        List.map_cons, List.takeWhile_cons]
      cases s.isAlive f.1 with
      | true => exact congrArg (List.cons r) hclimb
      | false => rfl

/-- The rules that climbing visits are those of the trail, up to the first
one that is not alive. -/
theorem From.lineage_eq (hs : s.From log) (hlog : Coherent log) {k : Compilation} (hk : k ∈ log)
    {r : Rule} {d : Document} {outer : List (Rule × Document)}
    (h : k.Trail ((r, d) :: outer)) :
    s.lineage r = r :: (outer.map Prod.fst).takeWhile s.isAlive := by
  have hlength := h.length_outer
  exact hs.climb_eq hlog hk h (by omega)

/-- While everything around a rule is alive, climbing visits all of it. -/
theorem From.lineage_eq_of_alive (hs : s.From log) (hlog : Coherent log) {k : Compilation}
    (hk : k ∈ log) {r : Rule} {d : Document} {outer : List (Rule × Document)}
    (h : k.Trail ((r, d) :: outer)) (halive : ∀ f ∈ outer, s.Alive f.1) :
    s.lineage r = ((r, d) :: outer).map Prod.fst := by
  rw [hs.lineage_eq hlog hk h, List.map_cons, List.takeWhile_eq_self_iff.2]
  intro a ha
  obtain ⟨f, hf, rfl⟩ := List.mem_map.1 ha
  exact (hs.isAlive_iff hlog (hs.known_of_alive (halive f hf))).2 (halive f hf)

-- ================================================================= hops

/-- An entry is looked for from the anchor outwards. -/
theorem target_entry (id : RuleId) (anchor : Option NodeId) :
    s.target (.entry id anchor)
      = ((anchor.bind s.rule?).bind fun a =>
          (s.lineage a).findSome? fun r => r.entryAt? id).getD (.rule .empty) := by
  rw [target, anchor?, Reference.anchor]
  cases anchor.bind s.rule? <;> rfl

/-- The root is looked for around the anchor. -/
theorem target_root (anchor : Option NodeId) :
    s.target (.root anchor)
      = ((anchor.bind s.rule?).map fun a => Node.rule (s.root a)).getD (.rule .empty) := by
  rw [target, anchor?, Reference.anchor]
  cases anchor.bind s.rule? <;> rfl

/-- Another grammar is looked for in its table. -/
theorem target_foreign (table : TableId) (scope : Symbol) (id : Option RuleId)
    (anchor : Option NodeId) :
    s.target (.foreign table scope id anchor)
      = ((s.table? table).map fun t =>
          match id with
          | none => Node.rule (t.lookup scope.text)
          | some id => ((t.lookup scope.text).entryAt? id).getD (.rule .empty)).getD
            (.rule .empty) := by
  rw [target]
  cases s.table? table with
  | none => rfl
  | some t => cases id <;> rfl

-- ============================================================== closure

theorem From.known_lookup (hs : s.From log) {t : Table} (ht : t ∈ s.tables) (scope : String) :
    Known log (.rule (t.lookup scope)) := by
  unfold Table.lookup
  cases hentry : Assoc.get? t.registry scope with
  | none => exact .inl rfl
  | some entry => exact hs.registered t ht _ (Assoc.mem_of_get?_eq_some hentry)

/-- The entries of a rule of the log are of the log. -/
theorem known_of_entryAt?_eq_some {r : Rule} (h : Known log (.rule r)) {id : RuleId} {x : Node}
    (hx : r.entryAt? id = some x) : Known log x := by
  refine known_of_mem_nodes h ?_
  rw [Rule.mem_nodes_iff]
  exact .inr (.inl ⟨id, Assoc.mem_of_get?_eq_some hx⟩)

/-- A weak link leads to the log. -/
theorem From.known_of_link (hs : s.From log) {link : Option NodeId} {r : Rule}
    (h : link.bind s.rule? = some r) : Known log (.rule r) := by
  obtain ⟨id, -, hid⟩ := Option.bind_eq_some_iff.1 h
  exact hs.known_of_alive (alive_of_rule?_eq_some hid).1

theorem From.known_of_mem_climb (hs : s.From log) {r : Rule} (hr : Known log (.rule r))
    {fuel : Nat} : ∀ t ∈ s.climb fuel r, Known log (.rule t) := by
  induction fuel generalizing r with
  | zero =>
    intro t ht
    rw [List.mem_singleton.1 ht]
    exact hr
  | succ fuel ih =>
    intro t ht
    rw [climb] at ht
    cases hparent : s.parent? r with
    | none =>
      rw [hparent] at ht
      rw [List.mem_singleton.1 ht]
      exact hr
    | some p =>
      rw [hparent] at ht
      rcases List.mem_cons.1 ht with rfl | ht
      · exact hr
      · exact ih (hs.known_of_link hparent) t ht

theorem From.known_root (hs : s.From log) {r : Rule} (hr : Known log (.rule r)) :
    Known log (.rule (s.root r)) := by
  unfold root
  cases hlast : (s.lineage r).getLast? with
  | none => exact hr
  | some t => exact hs.known_of_mem_climb hr t (List.mem_of_getLast? hlast)

/-- A hop leads to the log. -/
theorem From.known_target (hs : s.From log) (p : Reference) : Known log (s.target p) := by
  cases p with
  | entry id anchor =>
    rw [target_entry]
    cases hfound : (anchor.bind s.rule?).bind fun a =>
        (s.lineage a).findSome? fun r => r.entryAt? id with
    | none => exact .inl rfl
    | some x =>
      obtain ⟨a, hanchor, hentry⟩ := Option.bind_eq_some_iff.1 hfound
      obtain ⟨r, hr, hx⟩ := List.exists_of_findSome?_eq_some hentry
      have hknown := hs.known_of_mem_climb (hs.known_of_link hanchor) r hr
      exact known_of_entryAt?_eq_some hknown hx
  | root anchor =>
    rw [target_root]
    cases hanchor : anchor.bind s.rule? with
    | none => exact .inl rfl
    | some a => exact hs.known_root (hs.known_of_link hanchor)
  | foreign table scope id anchor =>
    rw [target_foreign]
    cases htable : s.table? table with
    | none => exact .inl rfl
    | some t =>
      have hlookup := hs.known_lookup (List.mem_of_find?_eq_some htable) scope.text
      cases id with
      | none => exact hlookup
      | some id =>
        show Known log (((t.lookup scope.text).entryAt? id).getD (.rule .empty))
        cases hentry : (t.lookup scope.text).entryAt? id with
        | none => exact .inl rfl
        | some x => exact known_of_entryAt?_eq_some hlookup hentry

theorem From.known_follow (hs : s.From log) {x : Node} (hx : Known log x) (n : Nat) :
    Known log (s.follow n x) := by
  induction n generalizing x with
  | zero => exact hx
  | succ n ih =>
    cases x with
    | rule r => exact hx
    | reference p => exact ih (hs.known_target p)

theorem From.known_resolve (hs : s.From log) {x : Node} (hx : Known log x) :
    Known log (.rule (s.resolve x)) := by
  have hfollow := hs.known_follow hx maxHops
  unfold resolve
  cases hend : s.follow maxHops x with
  | rule r =>
    rw [hend] at hfollow
    exact hfollow
  | reference p => exact .inl rfl

/-- Every step of a walk stays in the log. -/
theorem From.known_next? (hs : s.From log) {idOf : String → Option RuleId} {x y : Node}
    {step : WalkStep} (hx : Known log x) (h : s.next? idOf x step = some y) : Known log y := by
  have hrule := hs.known_resolve hx
  cases step with
  | child i =>
    refine known_of_mem_nodes hrule ?_
    rw [Rule.mem_nodes_iff]
    exact .inl (List.mem_of_getElem? h)
  | injection i =>
    obtain ⟨⟨selector, r⟩, hat, rfl⟩ := Option.map_eq_some_iff.1 h
    refine known_of_mem_nodes hrule ?_
    rw [Rule.mem_nodes_iff]
    exact .inr (.inr (.inr ⟨selector, r, List.mem_of_getElem? hat, rfl⟩))
  | capture key i =>
    obtain ⟨key, -, h⟩ := Option.bind_eq_some_iff.1 h
    exact known_of_mem_nodes hrule (Rule.mem_nodes_of_capture? h)
  | entryId id => exact known_of_entryAt?_eq_some hrule h
  | entry name =>
    obtain ⟨id, -, h⟩ := Option.bind_eq_some_iff.1 h
    exact known_of_entryAt?_eq_some hrule h
  | parent =>
    obtain ⟨r, hparent, rfl⟩ := Option.map_eq_some_iff.1 h
    cases x with
    | rule t => exact hs.known_of_link hparent
    | reference p => exact hs.known_of_link hparent
  | root =>
    cases h
    exact hs.known_root hrule
  | resolve =>
    cases h
    exact hrule

end Snapshot

end ScopeRules
