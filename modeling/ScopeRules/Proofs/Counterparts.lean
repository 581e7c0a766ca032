/-
Counterparts. Two compilations of documents that differ in the order of keys
give out numbers and ids in different orders, and what comes first in one
may come last in the other. What stays is where a node stands: two nodes are
counterparts if one address leads to both, from the roots down, by the index
of a child, the name of an entry, the key and index of a match group, or the
selector of an injection (`Spot`).

# What counterparts share

- `Counterparts.exists_trails`: the ways outwards from counterparts run in
  step, through counterparts that were compiled from reordered dictionaries.
- `Counterparts.rel_at?`: at each spot of counterparts stand counterparts, or
  nothing in both; so they match (`Counterparts.matches_rule`).
- `exists_counterpart`: every rule of a plain document has an address, and
  so a counterpart.
-/
import Mathlib.Data.List.Pairwise
import ScopeRules.Proofs.Ancestors
import ScopeRules.Proofs.NearestEntry
import ScopeRules.Proofs.SlotBySlot

namespace ScopeRules

-- =============================================================== spots

/-- Where in a rule a caller looks. -/
inductive Spot where
  | child (index : Nat)
  | entry (name : String)
  | capture (key : CaptureKey) (index : Nat)
  | injection (selector : String)
  deriving DecidableEq, Repr, Inhabited

/-- The place of a dictionary that is compiled to what stands at a spot. -/
def Spot.place : Spot → Place
  | .child _ => .child
  | .entry name => .entry name
  | .capture key index => .capture key index
  | .injection selector => .injection selector

namespace Rule

variable {ids : RuleIds} {r : Rule}

/-- What stands at a spot of a rule, if the names of entries have these
ids. -/
def at? (ids : RuleIds) (r : Rule) : Spot → Option Node
  | .child i => r.children[i]?
  | .entry name => (ids.get? name).bind r.entryAt?
  | .capture key i =>
    (r.capture? key).bind fun table => (table.get? i).bind fun c => c.rule?.map Node.rule
  | .injection selector => (r.injectionsFor selector).head?

theorem at?_empty (ids : RuleIds) (spot : Spot) : Rule.empty.at? ids spot = none := by
  cases spot with
  | entry name => exact Option.bind_eq_none_iff.2 fun _ _ => rfl
  | _ => rfl

theorem at?_capture (ids : RuleIds) (r : Rule) (key : CaptureKey) (i : Nat) :
    r.at? ids (.capture key i)
      = ((r.capture? key).bind fun table => table.get? i).bind fun c => c.rule?.map Node.rule :=
  (Option.bind_assoc _ _ _).symm

/-- What stands at a spot is owned. -/
theorem mem_nodes_of_at? {spot : Spot} {x : Node} (h : r.at? ids spot = some x) : x ∈ r.nodes := by
  cases spot with
  | child i => exact mem_nodes_iff.2 (.inl (List.mem_of_getElem? h))
  | entry name =>
    obtain ⟨id, -, hx⟩ := Option.bind_eq_some_iff.1 h
    exact mem_nodes_iff.2 (.inr (.inl ⟨id, Assoc.mem_of_get?_eq_some hx⟩))
  | capture key i => exact mem_nodes_of_capture? h
  | injection selector =>
    obtain ⟨⟨symbol, s⟩, hmem, hs⟩ := List.mem_filterMap.1 (List.mem_of_mem_head? h)
    split at hs
    · obtain rfl := Option.some.inj hs
      exact mem_nodes_iff.2 (.inr (.inr (.inr ⟨symbol, s, hmem, rfl⟩)))
    · cases hs

/-- Rules that match have related nodes at the spots that are no entries. -/
theorem Matches.rel_at? {R : Node → Node → Prop} {r' : Rule} (h : r.Matches R r')
    {ids' : RuleIds} {spot : Spot} (hspot : ∀ name, spot ≠ .entry name) :
    Option.Rel R (r.at? ids spot) (r'.at? ids' spot) := by
  cases spot with
  | child i => exact getElem?_of_forall₂ h.children i
  | entry name => exact absurd rfl (hspot name)
  | capture key i =>
    refine bind_of_rel (h.captures key) fun table table' htable => ?_
    refine bind_of_rel (htable.slots i) fun c c' hc => ?_
    cases hc with
    | label same => exact .none
    | rule related => exact .some related
  | injection selector => exact head?_of_forall₂ (h.injections selector)

end Rule

namespace Compilation

variable {k k' : Compilation} {r r' x x' : Rule} {d d' source : Document} {place : Place}
  {outer outer' : List (Rule × Document)} {issued issued' : List (Nat × String)} {name : String}

/-- The entry at a name is the one that the dictionary has under it. -/
theorem Trail.at?_entry (h : k.Trail ((r, d) :: outer)) (hdistinct : issued.Nodup)
    (hids : RuleIds.Recorded k.context.ruleIds k.epoch issued) (name : String) :
    r.at? k.context.ruleIds (.entry name) = k.entryNamed? r d name := by
  rw [Rule.at?]
  cases hid : k.context.ruleIds.get? name with
  | some id => rw [Option.bind_some, h.entryAt?_of_get? hdistinct hids hids hid, if_pos rfl]
  | none =>
    have hnone : k.entries r d name = [] := by
      refine List.filterMap_eq_nil_iff.2 fun q hq => ?_
      refine Piece.entryNamed?_eq_none fun hslot => ?_
      cases q with
      | node place source x =>
        obtain rfl : place = .entry name := Slot.place.inj (Option.some.inj hslot)
        have hmentioned := get?_ruleIds (h.mem_names (mem_names_of_entry_mem_contents hq))
        rw [hid] at hmentioned
        cases hmentioned
      | _ => cases hslot
    rw [Option.bind_none, Compilation.entryNamed?, hnone]
    rfl

theorem Trail.children_eq (h : k.Trail ((r, d) :: outer)) :
    r.children = (k.contents r d).filterMap Piece.child? :=
  (congrArg Rule.children h.eq_rule).trans Context.children_rule

theorem Trail.injectionsFor_eq (h : k.Trail ((r, d) :: outer)) (selector : String) :
    r.injectionsFor selector = (k.contents r d).filterMap (Piece.injection? selector) :=
  (congrArg (fun s : Rule => s.injectionsFor selector) h.eq_rule).trans
    (Context.injectionsFor_rule selector)

theorem Trail.captured_eq (h : k.Trail ((r, d) :: outer)) (key : CaptureKey) (i : Nat) :
    ((r.capture? key).bind fun table => table.get? i)
      = ((k.contents r d).filterMap (Piece.capture? key i)).getLast? :=
  (congrArg (fun s : Rule => (s.capture? key).bind fun table => table.get? i) h.eq_rule).trans
    (Context.captured_rule key i)

/-- In a plain document a rule stands at a spot of the rule around it: no
other takes its place. -/
theorem Trail.exists_at? (h : k.Trail ((r, d) :: outer)) (hwf : d.WellFormed)
    (hd : d.Unambiguous) (hdistinct : issued.Nodup)
    (hids : RuleIds.Recorded k.context.ruleIds k.epoch issued)
    (hx : .node place source (.rule x) ∈ k.contents r d) :
    ∃ spot, r.at? k.context.ruleIds spot = some (.rule x) := by
  have hone : ∀ {β : Type} {f : Piece → Option β} {b : β}, place ≠ .child →
      (∀ q : Piece, q.clause.slot? ≠ some (.place place) → f q = none) →
      f (.node place source (.rule x)) = some b → (k.contents r d).filterMap f = [b] := by
    intro β f b hplace hf hb
    exact eq_singleton_of_mem (Context.length_filterMap_contents_le_one hwf hd
      (fun heq => hplace (Slot.place.inj heq)) hf) (List.mem_filterMap.2 ⟨_, hx, hb⟩)
  cases place with
  | child =>
    have hmem : .rule x ∈ r.children := by
      rw [h.children_eq]
      exact List.mem_filterMap.2 ⟨_, hx, rfl⟩
    obtain ⟨i, hi⟩ := List.getElem?_of_mem hmem
    exact ⟨.child i, hi⟩
  | entry name =>
    have hentries := hone (f := Piece.entryNamed? name) (by simp)
      (fun _ => Piece.entryNamed?_eq_none) (if_pos rfl)
    refine ⟨.entry name, ?_⟩
    rw [h.at?_entry hdistinct hids, Compilation.entryNamed?, Compilation.entries, hentries]
    rfl
  | capture key i =>
    have hslots := hone (f := Piece.capture? key i) (by simp)
      (fun _ => Piece.capture?_eq_none) (if_pos ⟨rfl, rfl⟩)
    refine ⟨.capture key i, ?_⟩
    rw [Rule.at?_capture, h.captured_eq, hslots]
    rfl
  | injection selector =>
    have hinjections := hone (f := Piece.injection? selector) (by simp)
      (fun _ => Piece.injection?_eq_none) (if_pos rfl)
    refine ⟨.injection selector, ?_⟩
    rw [Rule.at?, h.injectionsFor_eq, hinjections]
    rfl

-- ======================================================== counterparts

/-- Nodes to which one address leads. -/
inductive Counterparts (k k' : Compilation) : Node → Node → Prop where
  | root : Counterparts k k' (.rule k.root) (.rule k'.root)
  | inside {r r' : Rule} {x x' : Node} (above : Counterparts k k' (.rule r) (.rule r'))
      (spot : Spot) (left : r.at? k.context.ruleIds spot = some x)
      (right : r'.at? k'.context.ruleIds spot = some x') : Counterparts k k' x x'

theorem Counterparts.symm {x x' : Node} (h : k.Counterparts k' x x') : k'.Counterparts k x' x := by
  induction h with
  | root => exact .root
  | inside _ spot left right ih => exact .inside ih spot right left

/-- What has a counterpart is owned by the root. -/
theorem Counterparts.mem_owned (h : k.Counterparts k' (.rule r) (.rule r')) :
    r ∈ k.root.owned := by
  generalize hx : Node.rule r = x at h
  generalize hx' : Node.rule r' = x' at h
  induction h generalizing r r' with
  | root =>
    obtain rfl := Node.rule.inj hx
    exact Rule.mem_owned_self _
  | inside above spot left right ih =>
    subst hx
    exact Rule.mem_owned_trans (ih rfl rfl) (Rule.mem_owned_of_mem_nested
      (Rule.mem_nested_iff.2 (Rule.mem_nodes_of_at? left)))

/-- Rules with their dictionaries, at the same place of two trails. -/
structure InStep (k k' : Compilation) (f f' : Rule × Document) : Prop where
  counterparts : k.Counterparts k' (.rule f.1) (.rule f'.1)
  reordered : f.2.Reordered f'.2
  plain : f.2.Plain

/-- Two compilations of a plain document and of one that differs in the order
of keys, with records of the ids that were issued for them. -/
structure Reordering (k k' : Compilation) (issued issued' : List (Nat × String)) : Prop where
  document : k.document.Reordered k'.document
  plain : k.document.Plain
  distinct : issued.Nodup
  distinct' : issued'.Nodup
  recorded : RuleIds.Recorded k.context.ruleIds k.epoch issued
  recorded' : RuleIds.Recorded k'.context.ruleIds k'.epoch issued'

/-- Rules that were compiled from reordered dictionaries match. -/
theorem Trail.matches_rule (h : k.Trail ((r, d) :: outer)) (h' : k'.Trail ((r', d') :: outer'))
    (hreordered : d.Reordered d') (hd : d.Unambiguous) :
    r.Matches (Piece.Given (k.contents r d) (k'.contents r' d')) r' := by
  have hmatches : (k.context.rule r.id.serial (outer.head?.map fun f => f.1.id) d).Matches
      (Piece.Given (k.contents r d) (k'.contents r' d'))
      (k'.context.rule r'.id.serial (outer'.head?.map fun f => f.1.id) d') :=
    Context.matches_rule hreordered hd _ _
  rwa [← h.eq_rule, ← h'.eq_rule] at hmatches

/-- Under a name, such rules have entries that were given alike. -/
theorem rel_entryNamed? (hreordered : d.Reordered d') (hd : d.Unambiguous) (name : String) :
    Option.Rel (Piece.Given (k.contents r d) (k'.contents r' d')) (k.entryNamed? r d name)
      (k'.entryNamed? r' d' name) :=
  map_of_rel (getLast?_of_forall₂ (Context.forall₂_entries hreordered hd name))
    fun _ _ hentry => hentry

namespace Reordering

variable (hk : Reordering k k' issued issued')

include hk

theorem symm : Reordering k' k issued' issued where
  document := hk.document.symm
  plain := hk.document.plain hk.plain
  distinct := hk.distinct'
  distinct' := hk.distinct
  recorded := hk.recorded'
  recorded' := hk.recorded

/-- At a spot of such rules stands what was given alike. -/
theorem rel_at? (h : k.Trail ((r, d) :: outer)) (h' : k'.Trail ((r', d') :: outer'))
    (hreordered : d.Reordered d') (hd : d.Unambiguous) (spot : Spot) :
    Option.Rel (Piece.Given (k.contents r d) (k'.contents r' d'))
      (r.at? k.context.ruleIds spot) (r'.at? k'.context.ruleIds spot) := by
  have hmatches := h.matches_rule h' hreordered hd
  cases spot with
  | entry name =>
    rw [h.at?_entry hk.distinct hk.recorded, h'.at?_entry hk.distinct' hk.recorded']
    exact rel_entryNamed? hreordered hd name
  | _ => exact hmatches.rel_at? (by simp)

/-- Nodes at one spot of such rules were given alike. -/
theorem given (h : k.Trail ((r, d) :: outer)) (h' : k'.Trail ((r', d') :: outer'))
    (hstep : List.Forall₂ (k.InStep k') ((r, d) :: outer) ((r', d') :: outer')) {spot : Spot}
    {x x' : Node} (left : r.at? k.context.ruleIds spot = some x)
    (right : r'.at? k'.context.ruleIds spot = some x') :
    Piece.Given (k.contents r d) (k'.contents r' d') x x' := by
  obtain ⟨hhead, -⟩ := List.forall₂_cons.1 hstep
  have hrel := hk.rel_at? h h' hhead.reordered hhead.plain.unambiguous spot
  rw [left, right] at hrel
  cases hrel with
  | some hgiven => exact hgiven

end Reordering

/-- What was given alike is a rule twice, or a reference twice. -/
theorem kinds_of_given {x x' : Node} (h : Piece.Given (k.contents r d) (k'.contents r' d') x x') :
    (∃ s s', x = .rule s ∧ x' = .rule s') ∨ ∃ p p', x = .reference p ∧ x' = .reference p' := by
  obtain ⟨place, source, source', hx, hx', hsource⟩ := h
  have hkind := hsource.refers_eq place
  rw [← k.context.isSome_reference?_of_mem_pieces hx,
    ← k'.context.isSome_reference?_of_mem_pieces hx'] at hkind
  cases x with
  | rule s =>
    cases x' with
    | rule s' => exact .inl ⟨s, s', rfl, rfl⟩
    | reference p' => cases hkind
  | reference p =>
    cases x' with
    | rule s' => cases hkind
    | reference p' => exact .inr ⟨p, p', rfl, rfl⟩

namespace Counterparts

/-- The ways outwards from counterparts run in step. -/
theorem exists_trails (hk : Reordering k k' issued issued')
    (h : k.Counterparts k' (.rule r) (.rule r')) :
    ∃ d outer d' outer', k.Trail ((r, d) :: outer) ∧ k'.Trail ((r', d') :: outer')
      ∧ List.Forall₂ (k.InStep k') ((r, d) :: outer) ((r', d') :: outer') := by
  have hwhole := h
  generalize hx : Node.rule r = x at h
  generalize hx' : Node.rule r' = x' at h
  induction h generalizing r r' with
  | root =>
    obtain rfl := Node.rule.inj hx
    obtain rfl := Node.rule.inj hx'
    exact ⟨_, _, _, _, .root, .root, .cons ⟨.root, hk.document, hk.plain⟩ .nil⟩
  | inside above spot left right ih =>
    subst hx hx'
    obtain ⟨d, outer, d', outer', htrail, htrail', hstep⟩ := ih above rfl rfl
    obtain ⟨place, source, source', hmem, hmem', hsource⟩ :=
      hk.given htrail htrail' hstep left right
    obtain ⟨-, -, -, -, hclause, hrefers⟩ := k.context.exists_of_rule_mem_pieces hmem
    have hplain := (List.forall₂_cons.1 hstep).1.plain.nested hclause hrefers
    exact ⟨source, _, source', _, .nested htrail hmem, .nested htrail' hmem',
      .cons ⟨hwhole, hsource, hplain⟩ hstep⟩

/-- At each spot of counterparts stand counterparts, or nothing in both. -/
theorem rel_at? (hk : Reordering k k' issued issued') (h : k.Counterparts k' (.rule r) (.rule r'))
    (spot : Spot) :
    Option.Rel (k.Counterparts k') (r.at? k.context.ruleIds spot)
      (r'.at? k'.context.ruleIds spot) := by
  obtain ⟨d, outer, d', outer', htrail, htrail', hstep⟩ := h.exists_trails hk
  obtain ⟨hhead, -⟩ := List.forall₂_cons.1 hstep
  rcases cases_of_rel (hk.rel_at? htrail htrail' hhead.reordered hhead.plain.unambiguous spot)
    with ⟨hnone, hnone'⟩ | ⟨x, x', hx, hx', -⟩
  · rw [hnone, hnone']
    exact .none
  · rw [hx, hx']
    exact .some (.inside h spot hx hx')

/-- Under the ids that later sessions of the allocators have for a name,
counterparts have entries that are counterparts, or none in both. -/
theorem rel_entryAt? (hk : Reordering k k' issued issued')
    (h : k.Counterparts k' (.rule r) (.rule r')) {ids ids' : RuleIds} {i i' : RuleId}
    (hids : RuleIds.Recorded ids k.epoch issued) (hids' : RuleIds.Recorded ids' k'.epoch issued')
    (hi : ids.get? name = some i) (hi' : ids'.get? name = some i') :
    Option.Rel (k.Counterparts k') (r.entryAt? i) (r'.entryAt? i') := by
  obtain ⟨d, outer, d', outer', htrail, htrail', -⟩ := h.exists_trails hk
  rw [htrail.entryAt?_of_get? hk.distinct hids hk.recorded hi, if_pos rfl,
    htrail'.entryAt?_of_get? hk.distinct' hids' hk.recorded' hi', if_pos rfl,
    ← htrail.at?_entry hk.distinct hk.recorded, ← htrail'.at?_entry hk.distinct' hk.recorded']
  exact h.rel_at? hk (.entry name)

/-- Counterparts are rules both, or references both. -/
theorem kinds {x x' : Node} (hk : Reordering k k' issued issued') (h : k.Counterparts k' x x') :
    (∃ s s', x = .rule s ∧ x' = .rule s') ∨ ∃ p p', x = .reference p ∧ x' = .reference p' := by
  cases h with
  | root => exact .inl ⟨_, _, rfl, rfl⟩
  | inside above spot left right =>
    obtain ⟨d, outer, d', outer', htrail, htrail', hstep⟩ := above.exists_trails hk
    exact kinds_of_given (hk.given htrail htrail' hstep left right)

/-- References that are counterparts stand for one include, in rules that are
counterparts, and both documents mention the name that it asks for. -/
theorem exists_reference_eq {p p' : Reference} (hk : Reordering k k' issued issued')
    (h : k.Counterparts k' (.reference p) (.reference p')) :
    ∃ r r' target, k.Counterparts k' (.rule r) (.rule r') ∧ p = k.context.reference r.id target
      ∧ p' = k'.context.reference r'.id target
      ∧ ∀ name, target.name? = some name → name ∈ (Outline.ofDocument k.document).names
        ∧ name ∈ (Outline.ofDocument k'.document).names := by
  cases h with
  | @inside r r' _ _ above spot left right =>
    obtain ⟨d, outer, d', outer', htrail, htrail', hstep⟩ := above.exists_trails hk
    obtain ⟨place, source, source', hmem, hmem', hsource⟩ :=
      hk.given htrail htrail' hstep left right
    refine ⟨r, r', Outline.targetOf source, above, htrail.reference_eq hmem, ?_,
      fun name hname => ⟨?_, ?_⟩⟩
    · rw [hsource.targetOf_eq]
      exact htrail'.reference_eq hmem'
    · exact htrail.mem_names (mem_names_of_reference_mem_contents hmem hname)
    · rw [hsource.targetOf_eq] at hname
      exact htrail'.mem_names (mem_names_of_reference_mem_contents hmem' hname)

/-- Counterparts match, with counterparts at the same places. -/
theorem matches_rule (hk : Reordering k k' issued issued')
    (h : k.Counterparts k' (.rule r) (.rule r')) :
    r.Matches (k.Counterparts k') r' := by
  obtain ⟨d, outer, d', outer', htrail, htrail', hstep⟩ := h.exists_trails hk
  obtain ⟨hhead, -⟩ := List.forall₂_cons.1 hstep
  have hmatches := htrail.matches_rule htrail' hhead.reordered hhead.plain.unambiguous
  refine ⟨hmatches.scope, hmatches.attributes, fun key => ?_, ?_, fun selector => ?_⟩
  · rcases cases_of_rel (hmatches.captures key) with ⟨hnone, hnone'⟩ | ⟨t, t', ht, ht', htable⟩
    · rw [hnone, hnone']
      exact .none
    · rw [ht, ht']
      refine .some ⟨htable.size, fun i => ?_⟩
      rcases cases_of_rel (htable.slots i) with ⟨hnone, hnone'⟩ | ⟨c, c', hc, hc', hlike⟩
      · rw [hnone, hnone']
        exact .none
      · rw [hc, hc']
        cases hlike with
        | label same => exact .some (.label same)
        | rule _ =>
          refine .some (.rule (.inside h (.capture key i) ?_ ?_))
          · simp [Rule.at?, ht, hc, Capture.rule?]
          · simp [Rule.at?, ht', hc', Capture.rule?]
  · refine List.forall₂_iff_get.2 ⟨hmatches.children.length_eq, fun i hi hi' => ?_⟩
    exact .inside h (.child i) (List.getElem?_eq_getElem hi) (List.getElem?_eq_getElem hi')
  · -- one rule at most is injected for a selector
    have hone : (r.injectionsFor selector).length ≤ 1 := by
      rw [htrail.injectionsFor_eq]
      exact Context.length_filterMap_contents_le_one hhead.reordered.left
        hhead.plain.unambiguous (by simp) fun _ => Piece.injection?_eq_none
    have hinside : ∀ x x', (r.injectionsFor selector).head? = some x →
        (r'.injectionsFor selector).head? = some x' → k.Counterparts k' x x' :=
      fun x x' hx hx' => .inside h (.injection selector) hx hx'
    have hgiven := hmatches.injections selector
    generalize r.injectionsFor selector = rules at *
    generalize r'.injectionsFor selector = rules' at *
    cases hgiven with
    | nil => exact .nil
    | cons _ hrest =>
      obtain rfl := List.length_eq_zero_iff.1 (Nat.le_zero.1 (Nat.le_of_succ_le_succ hone))
      cases hrest
      exact .cons (hinside _ _ rfl rfl) .nil

end Counterparts

-- ================================================ every rule has one

/-- The dictionary of a rule is plain, and is reordered in the other
document. -/
theorem Trail.plain (hk : Reordering k k' issued issued') {r : Rule} {d : Document}
    {outer : List (Rule × Document)} (h : k.Trail ((r, d) :: outer)) :
    d.Plain ∧ ∃ d' : Document, d.Reordered d' := by
  cases h with
  | root => exact ⟨hk.plain, _, hk.document⟩
  | nested enclosing mem =>
    obtain ⟨hplain, e', hreordered⟩ := enclosing.plain hk
    obtain ⟨-, -, -, -, hclause, hrefers⟩ := k.context.exists_of_rule_mem_pieces mem
    obtain ⟨source', -, hsource⟩ := hreordered.exists_nested hplain.unambiguous hclause
    exact ⟨hplain.nested hclause hrefers, source', hsource⟩

theorem Trail.exists_counterpart (hk : Reordering k k' issued issued') {r : Rule} {d : Document}
    {outer : List (Rule × Document)} (h : k.Trail ((r, d) :: outer)) :
    ∃ r', k.Counterparts k' (.rule r) (.rule r') := by
  cases h with
  | root => exact ⟨_, .root⟩
  | nested enclosing mem =>
    obtain ⟨hplain, e', hreordered⟩ := enclosing.plain hk
    obtain ⟨s', hs⟩ := enclosing.exists_counterpart hk
    obtain ⟨spot, hspot⟩ := enclosing.exists_at? hreordered.left hplain.unambiguous hk.distinct
      hk.recorded mem
    have hrel := hs.rel_at? hk spot
    rw [hspot] at hrel
    cases hx' : s'.at? k'.context.ruleIds spot with
    | none =>
      rw [hx'] at hrel
      cases hrel
    | some x' =>
      have hx := Counterparts.inside hs spot hspot hx'
      rcases hx.kinds hk with ⟨_, r', hr, rfl⟩ | ⟨p, -, hp, -⟩
      · exact ⟨r', hx⟩
      · cases hp

/-- Every rule of a plain document has a counterpart. -/
theorem Reordering.exists_counterpart (hk : Reordering k k' issued issued') (hr : r ∈ k.rules) :
    ∃ r', k.Counterparts k' (.rule r) (.rule r') := by
  obtain ⟨d, outer, htrail⟩ := exists_trail_of_mem_rules hr
  exact htrail.exists_counterpart hk

-- ========================================================= one to one

/-- Whether two pieces bring different rules, if they bring rules at all. -/
def ApartIn (q q' : Piece) : Prop := ∀ x, q.rule? = some x → q'.rule? ≠ some x

theorem eq_node_of_rule? {q : Piece} (h : q.rule? = some x) :
    ∃ place source, q = .node place source (.rule x) := by
  unfold Piece.rule? at h
  split at h
  · cases h
    exact ⟨_, _, rfl⟩
  · cases h

theorem rule?_of_child? {q : Piece} {x : Node} (h : q.child? = some x) : q.rule? = x.rule? := by
  obtain ⟨source, rfl⟩ := Piece.eq_node_of_child? h
  cases x <;> rfl

/-- Rules that are given their numbers one after the other are different. -/
theorem pairwise_pieces (c : Context) (owner : NodeId) (next : Nat) (clauses : List Clause) :
    (c.pieces owner next clauses).Pairwise ApartIn := by
  induction clauses generalizing next with
  | nil => exact .nil
  | cons clause more ih =>
    cases clause with
    | «attribute» key text => exact .cons (fun _ _ _ h => by cases h) (ih next)
    | unusable key => exact ih next
    | label key index text => exact .cons (fun _ _ _ h => by cases h) (ih next)
    | nested place source =>
      rw [Context.pieces]
      split
      · exact .cons (fun _ _ _ h => by cases h) (ih next)
      · refine .cons (fun q hq x hx hqx => ?_) (ih _)
        obtain rfl := Option.some.inj hx
        obtain ⟨place', source', rfl⟩ := eq_node_of_rule? hqx
        obtain ⟨serial, hrule, hle, -⟩ := c.exists_of_rule_mem_pieces hq
        have hid := congrArg Rule.id hrule
        rw [c.rule_id, c.rule_id, NodeId.mk.injEq] at hid
        omega

/-- At a spot stands what a clause for its place was compiled to. -/
theorem Trail.exists_of_at? (h : k.Trail ((r, d) :: outer)) (hdistinct : issued.Nodup)
    (hids : RuleIds.Recorded k.context.ruleIds k.epoch issued) {spot : Spot}
    (hx : r.at? k.context.ruleIds spot = some (.rule x)) :
    ∃ source, .node spot.place source (.rule x) ∈ k.contents r d := by
  cases spot with
  | child i =>
    have hmem : .rule x ∈ r.children := List.mem_of_getElem? hx
    rw [h.children_eq] at hmem
    obtain ⟨q, hq, hqx⟩ := List.mem_filterMap.1 hmem
    obtain ⟨source, rfl⟩ := Piece.eq_node_of_child? hqx
    exact ⟨source, hq⟩
  | entry name =>
    rw [h.at?_entry hdistinct hids] at hx
    obtain ⟨⟨source, y⟩, hlast, rfl⟩ := Option.map_eq_some_iff.1 hx
    obtain ⟨q, hq, hqx⟩ := List.mem_filterMap.1 (List.mem_of_getLast? hlast)
    obtain rfl := Piece.eq_node_of_entryNamed? hqx
    exact ⟨source, hq⟩
  | capture key i =>
    rw [Rule.at?_capture, h.captured_eq] at hx
    obtain ⟨c, hlast, hx⟩ := Option.bind_eq_some_iff.1 hx
    obtain ⟨q, hq, hqc⟩ := List.mem_filterMap.1 (List.mem_of_getLast? hlast)
    cases c with
    | label text => cases hx
    | rule y =>
      obtain rfl := Node.rule.inj (Option.some.inj hx)
      obtain ⟨source, rfl⟩ := Piece.eq_node_of_capture? hqc
      exact ⟨source, hq⟩
  | injection selector =>
    have hmem : .rule x ∈ r.injectionsFor selector := List.mem_of_mem_head? hx
    rw [h.injectionsFor_eq] at hmem
    obtain ⟨q, hq, hqx⟩ := List.mem_filterMap.1 hmem
    obtain ⟨source, rfl⟩ := Piece.eq_node_of_injection? hqx
    exact ⟨source, hq⟩

/-- A rule has one place: it stands at one spot of the rule around it. -/
theorem Trail.spot_eq (h : k.Trail ((r, d) :: outer)) (hdistinct : issued.Nodup)
    (hids : RuleIds.Recorded k.context.ruleIds k.epoch issued) {spot spot' : Spot}
    (hx : r.at? k.context.ruleIds spot = some (.rule x))
    (hx' : r.at? k.context.ruleIds spot' = some (.rule x)) : spot = spot' := by
  obtain ⟨source, hmem⟩ := h.exists_of_at? hdistinct hids hx
  obtain ⟨source', hmem'⟩ := h.exists_of_at? hdistinct hids hx'
  have hapart : (k.contents r d).Pairwise ApartIn := pairwise_pieces _ _ _ _
  have hsymm : Std.Symm ApartIn := ⟨fun _ _ h y hy hy' => h y hy' hy⟩
  have hplace : spot.place = spot'.place := by
    by_contra hne
    have hpieces : Piece.node spot.place source (.rule x) ≠ .node spot'.place source' (.rule x) :=
      fun heq => hne (Piece.node.inj heq).1
    exact hapart.forall hmem hmem' hpieces x rfl rfl
  cases spot with
  | child i =>
    cases spot' with
    | child j =>
      -- the children are apart, as the pieces are
      have hchildren : r.children.Pairwise fun a b => ∀ y, a.rule? = some y → b.rule? ≠ some y := by
        rw [h.children_eq]
        refine List.Pairwise.filterMap _ (fun q q' hqq' a ha b hb => ?_) hapart
        rw [← rule?_of_child? ha, ← rule?_of_child? hb]
        exact hqq'
      have hne : ∀ {i j : Nat}, i < j → r.children[i]? = some (.rule x) →
          r.children[j]? ≠ some (.rule x) := by
        intro i j hij hi hj
        obtain ⟨hi', hi⟩ := List.getElem?_eq_some_iff.1 hi
        obtain ⟨hj', hj⟩ := List.getElem?_eq_some_iff.1 hj
        have hrules := List.pairwise_iff_getElem.1 hchildren i j hi' hj' hij
        rw [hi, hj] at hrules
        exact hrules x rfl rfl
      rcases Nat.lt_trichotomy i j with hlt | rfl | hlt
      · exact absurd hx' (hne hlt hx)
      · rfl
      · exact absurd hx (hne hlt hx')
    | _ => cases hplace
  | _ => cases spot' <;> simp_all [Spot.place]

namespace Counterparts

theorem mem_rules (h : k.Counterparts k' (.rule r) (.rule r')) : r ∈ k.rules :=
  mem_rules_of_mem_owned k.root_mem_rules h.mem_owned

/-- A rule has one counterpart. The induction is on the address. -/
theorem eq_right (hk : Reordering k k' issued issued') (h : k.Counterparts k' (.rule r) (.rule r'))
    {s' : Rule} (hs : k.Counterparts k' (.rule r) (.rule s')) : r' = s' := by
  have hbelow : ∀ {o o' : Rule} {spot : Spot} {x : Rule}, k.Counterparts k' (.rule o) (.rule o') →
      o.at? k.context.ruleIds spot = some (.rule x) →
      ∃ source d outer, k.Trail ((x, source) :: (o, d) :: outer) := by
    intro o o' spot x ho hx
    obtain ⟨d, outer, -, -, htrail, -⟩ := ho.exists_trails hk
    obtain ⟨source, hmem⟩ := htrail.exists_of_at? hk.distinct hk.recorded hx
    exact ⟨source, d, outer, .nested htrail hmem⟩
  generalize hx : Node.rule r = x at h
  generalize hx' : Node.rule r' = x' at h
  induction h generalizing r r' s' with
  | root =>
    obtain rfl := Node.rule.inj hx
    obtain rfl := Node.rule.inj hx'
    generalize hy : Node.rule k.root = y at hs
    generalize hy' : Node.rule s' = y' at hs
    cases hs with
    | root => exact (Node.rule.inj hy').symm
    | inside above spot left right =>
      subst hy
      obtain ⟨source, d, outer, htrail⟩ := hbelow above left
      exact absurd rfl htrail.ne_root
  | @inside o o' _ _ above spot left right ih =>
    subst hx hx'
    obtain ⟨source, d, outer, htrail⟩ := hbelow above left
    generalize hy : Node.rule r = y at hs
    generalize hy' : Node.rule s' = y' at hs
    cases hs with
    | root => exact absurd (Node.rule.inj hy) htrail.ne_root
    | @inside p p' _ _ above' spot' left' right' =>
      subst hy hy'
      -- the rules around are one, since the rule tells its parent
      obtain ⟨source', e, rest, htrail'⟩ := hbelow above' left'
      have hparent := htrail.parent_eq.symm.trans htrail'.parent_eq
      obtain rfl : o = p := k.eq_of_id_eq htrail.tail.mem_rules htrail'.tail.mem_rules
        (Option.some.inj hparent)
      obtain rfl := ih above' rfl rfl
      obtain rfl := htrail.tail.spot_eq hk.distinct hk.recorded left left'
      exact Node.rule.inj (Option.some.inj (right.symm.trans right'))

/-- Counterparts tell each other apart. -/
theorem eq_iff (hk : Reordering k k' issued issued') {s s' : Rule}
    (hr : k.Counterparts k' (.rule r) (.rule r')) (hs : k.Counterparts k' (.rule s) (.rule s')) :
    r = s ↔ r' = s' := by
  constructor
  · rintro rfl
    exact hr.eq_right hk hs
  · rintro rfl
    exact hr.symm.eq_right hk.symm hs.symm

end Counterparts

end Compilation

end ScopeRules
