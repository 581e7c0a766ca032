/-
What an include of an entry name means. A reference keeps an id and the id
of the rule that contained it; following it climbs weak links and compares
ids. `World.target_eq_nearest` says what comes out, in terms of the
document: the entry of that name in the nearest enclosing rule that has
one. It holds at every moment of every run at which the root of the
document is alive, whatever was loaded, cleared or compacted meanwhile.

# The three steps

- What the root owns has its whole trail owned by the root, so climbing
  visits the trail (`Compilation.Trail.mem_owned_root`, `lineage_eq`).
- Every rule of the trail was compiled with the ids of the reference, so it
  answers the id with its entry of that name (`Compilation.Trail.entryAt?_eq`).
- The first answer on the way is the nearest (`target_entry_eq_nearest`).
-/
import ScopeRules.Proofs.Sound

namespace ScopeRules

/-- A reference is anchored at the rule that contains it. -/
theorem Context.anchor_reference (c : Context) (anchor : NodeId) (target : Include) :
    (c.reference anchor target).anchor = some anchor := by
  cases target <;> rfl

namespace Compilation

variable {k : Compilation}

/-- What a reference in a rule was compiled to, by its include text. -/
theorem Trail.reference_eq {r : Rule} {d source : Document} {outer : List (Rule × Document)}
    {place : Place} {p : Reference} (h : k.Trail ((r, d) :: outer))
    (hp : .node place source (.reference p) ∈ k.contents r d) :
    p = k.context.reference r.id (Outline.targetOf source) := by
  have hcompiled := (k.context.eq_of_reference_mem_pieces hp).1
  rw [h.id_eq]
  exact hcompiled

theorem Trail.anchor_eq {r : Rule} {d source : Document} {outer : List (Rule × Document)}
    {place : Place} {p : Reference} (h : k.Trail ((r, d) :: outer))
    (hp : .node place source (.reference p) ∈ k.contents r d) : p.anchor = some r.id := by
  rw [h.reference_eq hp, Context.anchor_reference]

end Compilation

namespace Snapshot

variable {s : Snapshot} {log : List Compilation}

/-- While all of a trail is alive, a name that the document mentions is
looked up from rule to rule outwards. -/
theorem From.target_entry_eq_nearest (hs : s.From log) (hlog : Coherent log)
    {k : Compilation} (hk : k ∈ log) {r : Rule} {d : Document} {outer : List (Rule × Document)}
    (h : k.Trail ((r, d) :: outer)) (halive : ∀ f ∈ (r, d) :: outer, s.Alive f.1)
    {issued : List (Nat × String)} (hdistinct : issued.Nodup)
    (hids : RuleIds.Recorded k.context.ruleIds k.epoch issued) {name : String}
    (hname : name ∈ (Outline.ofDocument k.document).names) :
    s.target (.entry (k.context.ruleId name) (some r.id))
      = (k.nearest name ((r, d) :: outer)).getD (.rule .empty) := by
  have hanchor : s.rule? r.id = some r :=
    (hs.rule?_eq_some_iff hlog).2 ⟨halive _ (List.mem_cons_self ..), rfl⟩
  have hlineage := hs.lineage_eq_of_alive hlog hk h
    fun f hf => halive f (List.mem_cons_of_mem _ hf)
  have hentry : ∀ f ∈ (r, d) :: outer,
      f.1.entryAt? (k.context.ruleId name) = k.entryNamed? f.1 f.2 name := by
    intro f hf
    obtain ⟨rest, hrest⟩ := h.of_mem hf
    have hanswer := hrest.entryAt?_eq hdistinct hids hids hname
    rw [if_pos rfl] at hanswer
    exact hanswer
  have hfound : (((r, d) :: outer).map Prod.fst).findSome?
      (fun t => t.entryAt? (k.context.ruleId name)) = k.nearest name ((r, d) :: outer) := by
    unfold Compilation.nearest
    rw [← List.head?_filterMap, ← List.head?_filterMap, List.filterMap_map]
    exact congrArg List.head? (List.filterMap_congr hentry)
  rw [target_entry, Option.bind_some, hanchor, Option.bind_some, hlineage, hfound]

end Snapshot

namespace World

variable {w : World}

/-- What a reference in a rule that the root owns means, if its include asks
for an entry name. -/
theorem target_eq_nearest_of_trail (hw : w.Reachable) {k : Compilation} (hk : k ∈ w.log)
    (hroom : w.allocations k.table.id ≤ RuleId.largest)
    (hroot : w.session.snapshot.Alive k.root) {r : Rule} (hr : r ∈ k.root.owned)
    {d : Document} {outer : List (Rule × Document)} (htrail : k.Trail ((r, d) :: outer))
    {place : Place} {source : Document} {p : Reference}
    (hp : .node place source (.reference p) ∈ k.contents r d) {name : String}
    (hname : source.getString? Vocabulary.includeKey = some ("#" ++ name)) :
    w.session.snapshot.target p = (k.nearest name ((r, d) :: outer)).getD (.rule .empty) := by
  obtain ⟨issued, haccounts⟩ := hw.sound.accounted k.table.id hroom
  have htarget : Outline.targetOf source = .entry name := by
    rw [Outline.targetOf, hname]
    exact Include.ofText_hash name
  have hmentioned : name ∈ (Outline.ofDocument k.document).names := by
    refine htrail.mem_names (Compilation.mem_names_of_reference_mem_contents hp ?_)
    rw [htarget]
    rfl
  have halive : ∀ f ∈ (r, d) :: outer, w.session.snapshot.Alive f.1 := by
    intro f hf
    rcases List.mem_cons.1 hf with rfl | hf
    · exact hroot.of_mem_owned hr
    · exact hroot.of_mem_owned (htrail.mem_owned_root hr f hf)
  have hreference : p = .entry (k.context.ruleId name) (some r.id) := by
    rw [htrail.reference_eq hp, htarget]
    rfl
  rw [hreference]
  exact hw.sound.from.target_entry_eq_nearest hw.sound.coherent hk htrail halive
    haccounts.distinct (haccounts.compiled k hk rfl) hmentioned

/-- Every reference that the root of a document owns, at any depth, was
compiled from an include in the dictionary of its rule. If that include is
`#name`, the reference means the entry written under exactly that name in
the nearest rule around it that has one, and the empty rule if there is
none, at every moment at which the root is alive. The entries of a rule are
those of its repositories, and the last one counts. -/
theorem target_eq_nearest (hw : w.Reachable) {k : Compilation} (hk : k ∈ w.log)
    (hroom : w.allocations k.table.id ≤ RuleId.largest)
    (hroot : w.session.snapshot.Alive k.root) {r : Rule} (hr : r ∈ k.root.owned)
    {p : Reference} (hp : .reference p ∈ r.nodes) :
    (∃ d outer place source, k.Trail ((r, d) :: outer)
      ∧ .node place source (.reference p) ∈ k.contents r d)
    ∧ ∀ d outer place source name, k.Trail ((r, d) :: outer) →
      .node place source (.reference p) ∈ k.contents r d →
      source.getString? Vocabulary.includeKey = some ("#" ++ name) →
        w.session.snapshot.target p = (k.nearest name ((r, d) :: outer)).getD (.rule .empty)
        ∧ ∀ f ∈ (r, d) :: outer,
          (k.entries f.1 f.2 name).map Prod.fst = f.2.entriesNamed name := by
  refine ⟨?_, ?_⟩
  · have hmem := Compilation.mem_rules_of_mem_owned k.root_mem_rules hr
    obtain ⟨d, outer, htrail⟩ := Compilation.exists_trail_of_mem_rules hmem
    obtain ⟨place, source, hsource⟩ := htrail.mem_nodes hp
    exact ⟨d, outer, place, source, htrail, hsource⟩
  · intro d outer place source name htrail hsource hname
    refine ⟨target_eq_nearest_of_trail hw hk hroom hroot hr htrail hsource hname, ?_⟩
    intro f _
    exact k.map_fst_entries f.1 f.2 name

-- ------------------------------------------------------------- a document

/-- A rule with an entry `x` of its own, which includes `#x`. -/
def shadowingChild : Document :=
  [("repository", .dict [("x", .dict [("name", .string "inner")])]),
    ("patterns", .array [.dict [("include", .string "#x")]])]

/-- A grammar with an entry `x`, around a rule with another one. -/
def shadowing : Document :=
  [("scopeName", .string "s"), ("repository", .dict [("x", .dict [("name", .string "outer")])]),
    ("patterns", .array [.dict shadowingChild])]

def shadowingCompilation : Compilation := ⟨.new ⟨1⟩, .empty, shadowing, 0⟩

/-- The grammar is loaded and its root kept, and then it is forgotten, with
the ids; after that its names get new ones. -/
def shadowingWorld : World :=
  run "" [.newTable "t", .add "t" shadowing, .hold "root" ⟨"t", .scope "s", []⟩, .clear "t",
    .compact "t", .ruleId "t" "x"]

/-- The include still means the inner entry. -/
theorem target_eq_nearest_shadowing :
    shadowingWorld.session.snapshot.target (.entry ⟨1⟩ (some ⟨⟨1⟩, 3⟩))
      = .rule ((Rule.bare ⟨⟨1⟩, 4⟩ none (some ⟨⟨1⟩, 3⟩)).setAttribute .name ⟨"inner", 2⟩) := by
  have htrail : shadowingCompilation.Trail
      [(shadowingCompilation.context.rule 3 (some ⟨⟨1⟩, 1⟩) shadowingChild, shadowingChild),
        (shadowingCompilation.root, shadowing)] :=
    .nested .root (.tail _ (.tail _ (.head _)))
  have hp : Piece.node .child [("include", .string "#x")]
      (.reference (.entry ⟨1⟩ (some ⟨⟨1⟩, 3⟩))) ∈ shadowingCompilation.contents
        (shadowingCompilation.context.rule 3 (some ⟨⟨1⟩, 1⟩) shadowingChild) shadowingChild :=
    .tail _ (.head _)
  have hname : Document.getString? [("include", .string "#x")] Vocabulary.includeKey
      = some ("#" ++ "x") := rfl
  have hroot : shadowingWorld.session.snapshot.Alive shadowingCompilation.root :=
    ⟨shadowingCompilation.root, .head _, Rule.mem_owned_self _⟩
  have hmeaning := target_eq_nearest (w := shadowingWorld) ⟨"", _, rfl⟩
    (k := shadowingCompilation) (.head _) (by decide) hroot (.tail _ (.head _)) (.head _)
  exact (hmeaning.2 _ _ _ _ _ htrail hp hname).1

end World

end ScopeRules
