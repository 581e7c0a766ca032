/-
How far climbing gets from a registered rule. A registered rule is kept
together with the root of its document, and a root keeps all that it owns.
That is enough for the rules around a registered rule, with one exception:
a rule whose place in the rule around it was taken by a later entry of the
same dictionary is compiled, and may be registered, but nothing owns it.
`Compilation.Displaced` names such rules.

# The exact condition

`World.lineage_eq_iff`: climbing from a registered rule visits all rules
that enclosed it in its document if and only if those of them that were
displaced are held themselves. The two halves:

- a displaced rule is alive only while it is held (`alive_iff_mem_held`):
  whatever else owned it would own it through the rule around it;
- a rule that was not displaced is alive with the rule around it
  (`alive_trail_iff`, by induction from the root inwards).
-/
import ScopeRules.Proofs.Cells
import ScopeRules.Proofs.ForeignEntry

namespace ScopeRules

namespace Compilation

/-- Whether a rule lost its place in the rule around it: whatever piece of
that dictionary brought it, a later one fills the same cell. -/
def Displaced (k : Compilation) (x : Rule) : Prop :=
  ∃ d e f outer, k.Trail ((x, d) :: (e, f) :: outer)
    ∧ ∀ before q after, k.contents e f = before ++ q :: after → q.rule? = some x →
      ∃ p ∈ after, ∃ cell, k.context.cell? q = some cell ∧ k.context.cell? p = some cell

variable {k : Compilation}

/-- A displaced rule is one that the rule around it does not own. -/
theorem displaced_iff {x : Rule} :
    k.Displaced x ↔ ∃ d e f outer, k.Trail ((x, d) :: (e, f) :: outer) ∧ x ∉ e.nested := by
  have hnested : ∀ d e f outer, k.Trail ((x, d) :: (e, f) :: outer) →
      (x ∉ e.nested ↔ ∀ before q after, k.contents e f = before ++ q :: after →
        q.rule? = some x →
          ∃ p ∈ after, ∃ cell, k.context.cell? q = some cell ∧ k.context.cell? p = some cell) := by
    intro d e f outer htrail
    have hkeeps : x ∈ (k.context.rule e.id.serial (outer.head?.map fun g => g.1.id) f).nested ↔ _ :=
      k.context.mem_nested_rule_iff
    rw [← htrail.tail.eq_rule] at hkeeps
    rw [hkeeps]
    show ¬ _ ↔ _
    push Not
    rfl
  constructor
  · intro hdisplaced
    obtain ⟨d, e, f, outer, htrail, hx⟩ := hdisplaced
    exact ⟨d, e, f, outer, htrail, (hnested d e f outer htrail).2 hx⟩
  · intro howned
    obtain ⟨d, e, f, outer, htrail, hx⟩ := howned
    exact ⟨d, e, f, outer, htrail, (hnested d e f outer htrail).1 hx⟩

/-- A trail ends at the root. -/
theorem Trail.getLast?_eq {trail : List (Rule × Document)} (h : k.Trail trail) :
    (trail.map Prod.fst).getLast? = some k.root := by
  induction h with
  | root => rfl
  | nested enclosing mem ih =>
    rw [List.map_cons, List.map_cons, List.getLast?_cons_cons]
    exact ih

/-- Only the root has no rule around it. -/
theorem Trail.ne_root {r : Rule} {d : Document} {f : Rule × Document}
    {outer : List (Rule × Document)} (h : k.Trail ((r, d) :: f :: outer)) : r ≠ k.root := by
  intro heq
  have hparent := h.parent_eq
  rw [heq, root_parent] at hparent
  cases hparent

end Compilation

namespace Snapshot

variable {s : Snapshot} {log : List Compilation} {k : Compilation}

/-- What owns a live rule of a document, other than the rule itself, owns
the rule around it. -/
theorem From.mem_held_or_nested (hs : s.From log) (hlog : Coherent log) (hk : k ∈ log)
    {x e : Rule} {d f : Document} {outer : List (Rule × Document)}
    (h : k.Trail ((x, d) :: (e, f) :: outer)) (hx : s.Alive x) :
    x ∈ s.held ∨ (x ∈ e.nested ∧ s.Alive e) := by
  obtain ⟨o, ho, hxo⟩ := hx
  by_cases hne : x = o
  · exact .inl (hne ▸ ho)
  · rcases hs.held o ho with rfl | ⟨j, hj, hoj⟩
    · rcases Rule.mem_owned_iff.1 hxo with rfl | ⟨t, ht, -⟩
      · exact absurd rfl hne
      · cases ht
    · have hjk := hlog.eq_of_mem_rules hj hk (Compilation.mem_rules_of_mem_owned hoj hxo)
        h.mem_rules rfl
      subst hjk
      obtain ⟨he, hnested⟩ := h.mem_owned_enclosing hoj hxo hne
      exact .inr ⟨hnested, o, ho, he⟩

/-- A displaced rule is alive only while it is held itself. -/
theorem From.alive_iff_mem_held (hs : s.From log) (hlog : Coherent log) (hk : k ∈ log)
    {x : Rule} (h : k.Displaced x) : s.Alive x ↔ x ∈ s.held := by
  obtain ⟨d, e, f, outer, htrail, hnested⟩ := Compilation.displaced_iff.1 h
  constructor
  · intro hx
    rcases hs.mem_held_or_nested hlog hk htrail hx with hheld | ⟨hmem, -⟩
    · exact hheld
    · exact absurd hmem hnested
  · exact alive_of_mem_held

/-- While the root is alive, a trail is alive if those of its rules that
were displaced are held. -/
theorem From.alive_trail_iff (hs : s.From log) (hlog : Coherent log) (hk : k ∈ log)
    (hroot : s.Alive k.root) {trail : List (Rule × Document)} (h : k.Trail trail) :
    (∀ f ∈ trail, s.Alive f.1) ↔ ∀ f ∈ trail, k.Displaced f.1 → f.1 ∈ s.held := by
  constructor
  · intro halive f hf hdisplaced
    exact (hs.alive_iff_mem_held hlog hk hdisplaced).1 (halive f hf)
  · intro hheld
    induction h with
    | root =>
      intro f hf
      rw [List.mem_singleton.1 hf]
      exact hroot
    | @nested e f outer place source x enclosing mem ih =>
      have hout := ih fun g hg => hheld g (List.mem_cons_of_mem _ hg)
      intro g hg
      rcases List.mem_cons.1 hg with rfl | hg
      · by_cases hnested : x ∈ e.nested
        · exact (hout _ (List.mem_cons_self ..)).of_mem_owned
            (Rule.mem_owned_of_mem_nested hnested)
        · refine alive_of_mem_held (hheld _ (List.mem_cons_self ..) ?_)
          exact Compilation.displaced_iff.2 ⟨source, e, f, outer, .nested enclosing mem, hnested⟩
      · exact hout g hg

/-- Climbing visits a whole trail if and only if everything around its
first rule is alive. -/
theorem From.lineage_eq_trail_iff (hs : s.From log) (hlog : Coherent log) (hk : k ∈ log)
    {r : Rule} {d : Document} {outer : List (Rule × Document)}
    (h : k.Trail ((r, d) :: outer)) :
    s.lineage r = ((r, d) :: outer).map Prod.fst ↔ ∀ f ∈ outer, s.Alive f.1 := by
  constructor
  · intro hlineage f hf
    rw [hs.lineage_eq hlog hk h, List.map_cons] at hlineage
    have hwhole := List.takeWhile_eq_self_iff.1 (List.cons.inj hlineage).2
    obtain ⟨rest, hrest⟩ := h.of_mem (List.mem_cons_of_mem _ hf)
    exact (hs.isAlive_iff hlog (.inr ⟨k, hk, hrest.mem_rules⟩)).1
      (hwhole f.1 (List.mem_map_of_mem hf))
  · exact hs.lineage_eq_of_alive hlog hk h

end Snapshot

namespace World

variable {w : World}

/-- What a scope is registered with is held. -/
theorem alive_of_registered {t : Table} {scope : String} {entry : Entry}
    (ht : t ∈ w.session.tables) (hentry : t.registry.get? scope = some entry) :
    w.session.snapshot.Alive entry.node ∧ w.session.snapshot.Alive entry.root := by
  have hheld : ∀ r ∈ [entry.node, entry.root], r ∈ w.session.snapshot.held := by
    intro r hr
    refine List.mem_append_left _ (List.mem_flatMap_of_mem ht ?_)
    exact List.mem_flatMap_of_mem (Assoc.mem_of_get?_eq_some hentry) hr
  exact ⟨Snapshot.alive_of_mem_held (hheld _ (.head _)),
    Snapshot.alive_of_mem_held (hheld _ (.tail _ (.head _)))⟩

/-- Climbing from a registered rule visits the rules that enclosed it in its
document, innermost first and up to the root, if and only if those of them
whose place was taken within the document are held themselves. Otherwise it
stops before the first one that is not. -/
theorem lineage_eq_iff (hw : w.Reachable) {handle : String} {t : Table}
    (ht : w.session.table? handle = some t) {scope : String} {entry : Entry}
    (hentry : t.registry.get? scope = some entry) :
    ∃ k ∈ w.log, k.table.id = t.id ∧ entry.root = k.root
      ∧ ∃ d outer, k.Trail ((entry.node, d) :: outer)
        ∧ w.session.snapshot.lineage entry.node
          = entry.node :: (outer.map Prod.fst).takeWhile w.session.snapshot.isAlive
        ∧ (w.session.snapshot.lineage entry.node = ((entry.node, d) :: outer).map Prod.fst
          ↔ ∀ f ∈ outer, k.Displaced f.1 → f.1 ∈ w.session.snapshot.held) := by
  have hmem := (Session.mem_of_table?_eq_some ht).1
  obtain ⟨hnode, hroot⟩ := alive_of_registered hmem hentry
  obtain ⟨k, hk, hid, hkroot, d, outer, htrail⟩ :=
    hw.sound.exists_trail_of_registered hmem hentry
  rw [hkroot] at hroot
  have hfrom := hw.sound.from
  have hlog := hw.sound.coherent
  refine ⟨k, hk, hid, hkroot, d, outer, htrail, hfrom.lineage_eq hlog hk htrail, ?_⟩
  rw [hfrom.lineage_eq_trail_iff hlog hk htrail]
  have htrailIff := hfrom.alive_trail_iff hlog hk hroot htrail
  constructor
  · intro halive f hf hdisplaced
    exact (hfrom.alive_iff_mem_held hlog hk hdisplaced).1 (halive f hf)
  · intro hheld f hf
    refine htrailIff.2 ?_ f (List.mem_cons_of_mem _ hf)
    intro g hg hdisplaced
    rcases List.mem_cons.1 hg with rfl | hg
    · exact (hfrom.alive_iff_mem_held hlog hk hdisplaced).1 hnode
    · exact hheld g hg hdisplaced

-- ------------------------------------------------------------- a document

/-- A scope inside an entry whose place is taken under a second spelling of
the repository key. -/
def respelled : Document :=
  [("repository", .dict [("a", .dict [("patterns", .array [.dict [("scopeName", .string "s")]])])]),
    ("Repository", .dict [("a", .dict [])])]

def respelledCompilation : Compilation := ⟨.new ⟨1⟩, .empty, respelled, 0⟩

def respelledWorld : World := run "" [.newTable "t", .add "t" respelled]

/-- Climbing from a registered rule need not visit the rules around it. -/
theorem lineage_ne_trail_respelled :
    ∃ k ∈ respelledWorld.log, ∃ t entry d outer, respelledWorld.session.table? "t" = some t
      ∧ t.registry.get? "s" = some entry ∧ k.Trail ((entry.node, d) :: outer)
      ∧ respelledWorld.session.snapshot.lineage entry.node
        ≠ ((entry.node, d) :: outer).map Prod.fst := by
  refine ⟨respelledCompilation, .head _, _, _, _, _, rfl, rfl,
    .nested (.nested .root (.head _)) (.head _), ?_⟩
  intro hlineage
  exact absurd (congrArg List.length hlineage) (by decide)

/-- What is missing on the way was displaced and is not held. -/
theorem lineage_eq_iff_respelled :
    ∃ k ∈ respelledWorld.log, ∃ x, k.Displaced x
      ∧ x ∉ respelledWorld.session.snapshot.held := by
  obtain ⟨t, entry, ht, hentry, hparent, hlength⟩ : ∃ t entry,
      respelledWorld.session.table? "t" = some t ∧ t.registry.get? "s" = some entry
        ∧ entry.node.parent = some ⟨⟨1⟩, 2⟩
        ∧ (respelledWorld.session.snapshot.lineage entry.node).length = 1 :=
    ⟨_, _, rfl, rfl, by decide, by decide⟩
  obtain ⟨k, hk, -, -, d, outer, htrail, -, hwhole⟩ :=
    lineage_eq_iff (w := respelledWorld) ⟨"", _, rfl⟩ ht hentry
  by_contra hnone
  have hlineage := hwhole.2 fun f hf hdisplaced => by_contra fun hheld =>
    hnone ⟨k, hk, f.1, hdisplaced, hheld⟩
  rw [hlineage] at hlength
  cases outer with
  | nil =>
    rw [htrail.parent_eq] at hparent
    cases hparent
  | cons f outer => cases hlength

end World

end ScopeRules
