/-
Ownership and weak links. A rule owns what is nested in it, by four kinds of
edges; what encloses it, it only names. Both are built in one pass, and here
they are shown to agree: going down from the root of a document by ownership
and climbing back by weak links visits the same rules.

# The way down

`Rule.Descent` is a way down by ownership, innermost rule first. It is
shown to run along a trail of the document (`Compilation.Trail.of_descent`),
and of a trail it is known where its weak links lead (Alive.lean). That
needs the root to be alive and nothing else: what a registry holds at the
moment plays no part (`World.climb_eq_descent`).
-/
import ScopeRules.Proofs.SelfReferences

namespace ScopeRules

namespace Rule

/-- A way down by ownership: a rule, the one that owns it, the one that owns
that, and so on to the root. -/
inductive Descent (root : Rule) : List Rule → Prop where
  | root : Descent root [root]
  | nested {r o : Rule} {outer : List Rule} (above : Descent root (o :: outer))
      (mem : r ∈ o.nested) : Descent root (r :: o :: outer)

variable {root r : Rule} {outer : List Rule}

/-- All of a way down is owned by the root. -/
theorem Descent.mem_owned {path : List Rule} (h : Descent root path) :
    ∀ s ∈ path, s ∈ root.owned := by
  induction h with
  | root => simp [mem_owned_self]
  | nested above mem ih =>
    refine List.forall_mem_cons.2 ⟨?_, ih⟩
    exact mem_owned_trans (ih _ (.head _)) (mem_owned_of_mem_nested mem)

/-- Every rule that the root owns, at any depth, is at the end of a way
down. -/
theorem exists_descent_of_mem_owned {o : Rule} (ho : Descent root (o :: outer))
    (hr : r ∈ o.owned) : ∃ outer, Descent root (r :: outer) := by
  induction o using nestedInduction generalizing outer with
  | step o ih =>
    rcases mem_owned_iff.1 hr with rfl | ⟨t, ht, hr⟩
    · exact ⟨outer, ho⟩
    · exact ih t ht (.nested ho ht) hr

end Rule

namespace Compilation

variable {k : Compilation}

/-- A way down from the root of a document runs along a trail of it. -/
theorem Trail.of_descent {path : List Rule} (h : k.root.Descent path) :
    ∃ trail, k.Trail trail ∧ trail.map Prod.fst = path := by
  induction h with
  | root => exact ⟨_, .root, rfl⟩
  | nested above mem ih =>
    obtain ⟨trail, htrail, hpath⟩ := ih
    cases trail with
    | nil => cases hpath
    | cons f rest =>
      obtain ⟨rfl, -⟩ := List.cons.inj hpath
      obtain ⟨source, hinner⟩ := htrail.of_mem_nested mem
      exact ⟨_, hinner, congrArg (List.cons _) hpath⟩

end Compilation

namespace Snapshot

variable {s : Snapshot} {log : List Compilation} {k : Compilation}

/-- While the root is alive, climbing from the end of a way down takes the
same way back, whatever number of steps it is given beyond the length. -/
theorem From.climb_descent (hs : s.From log) (hlog : Coherent log) (hk : k ∈ log)
    (hroot : s.Alive k.root) {r : Rule} {outer : List Rule} (h : k.root.Descent (r :: outer))
    {fuel : Nat} (hfuel : outer.length ≤ fuel) : s.climb fuel r = r :: outer := by
  obtain ⟨trail, htrail, hpath⟩ := Compilation.Trail.of_descent h
  cases trail with
  | nil => cases hpath
  | cons f rest =>
    obtain ⟨rfl, rfl⟩ := List.cons.inj hpath
    rw [List.length_map] at hfuel
    rw [hs.climb_eq hlog hk htrail hfuel]
    refine congrArg (List.cons _) (List.takeWhile_eq_self_iff.2 fun a ha => ?_)
    have halive := hroot.of_mem_owned (h.mem_owned a (List.mem_cons_of_mem _ ha))
    exact (hs.isAlive_iff hlog (hs.known_of_alive halive)).2 halive

/-- The weak link of a rule leads to its owner. -/
theorem From.parent?_eq_owner (hs : s.From log) (hlog : Coherent log)
    (hroot : s.Alive k.root) {r : Rule} {outer : List Rule} (h : k.root.Descent (r :: outer)) :
    s.parent? r = outer.head? := by
  obtain ⟨trail, htrail, hpath⟩ := Compilation.Trail.of_descent h
  cases trail with
  | nil => cases hpath
  | cons f rest =>
    obtain ⟨rfl, rfl⟩ := List.cons.inj hpath
    rw [parent?, htrail.parent_eq]
    cases rest with
    | nil => rfl
    | cons g rest =>
      have halive : s.Alive g.1 := hroot.of_mem_owned (h.mem_owned _ (.tail _ (.head _)))
      exact (hs.rule?_eq_some_iff hlog).2 ⟨halive, rfl⟩

end Snapshot

namespace World

variable {w : World}

/-- As long as the root of a document is alive, everything that it owns, at
any depth, is at the end of a way down from it, and for every such way: the
parent of the rule is the rule that owns it; climbing ends after as many
steps as the way is long, and takes it back; and it ends at the root, which
has no parent. The parent of a reference that the rule owns is the rule,
which contained the include, and a reference to the enclosing grammar
resolves to the root. -/
theorem climb_eq_descent (hw : w.Reachable) {k : Compilation} (hk : k ∈ w.log)
    (hroot : w.session.snapshot.Alive k.root) :
    w.session.snapshot.parentOf? (.rule k.root) = none
    ∧ (∀ r ∈ k.root.owned, ∃ outer, k.root.Descent (r :: outer))
    ∧ ∀ r outer, k.root.Descent (r :: outer) →
      w.session.snapshot.parentOf? (.rule r) = outer.head?
      ∧ (∀ fuel, outer.length ≤ fuel → w.session.snapshot.climb fuel r = r :: outer)
      ∧ w.session.snapshot.lineage r = r :: outer
      ∧ w.session.snapshot.root r = k.root
      ∧ ∀ p, .reference p ∈ r.nodes →
        (∃ d rest place source, k.Trail ((r, d) :: rest) ∧ rest.map Prod.fst = outer
          ∧ .node place source (.reference p) ∈ k.contents r d)
        ∧ w.session.snapshot.parentOf? (.reference p) = some r
        ∧ ∀ anchor, p = .root anchor → w.session.snapshot.resolve (.reference p) = k.root := by
  have hfrom := hw.sound.from
  have hlog := hw.sound.coherent
  refine ⟨hfrom.parent?_eq_owner hlog hroot .root, ?_, ?_⟩
  · intro r hr
    exact Rule.exists_descent_of_mem_owned .root hr
  · intro r outer h
    have hclimb : ∀ fuel, outer.length ≤ fuel → w.session.snapshot.climb fuel r = r :: outer :=
      fun _ hfuel => hfrom.climb_descent hlog hk hroot h hfuel
    obtain ⟨trail, htrail, hpath⟩ := Compilation.Trail.of_descent h
    cases trail with
    | nil => cases hpath
    | cons f rest =>
      obtain ⟨hr, hrest⟩ := List.cons.inj hpath
      obtain ⟨r', d⟩ := f
      obtain rfl : r' = r := hr
      have halive : w.session.snapshot.Alive r' := hroot.of_mem_owned (h.mem_owned _ (.head _))
      have hlineage : w.session.snapshot.lineage r' = r' :: outer := by
        have hlength := htrail.length_outer
        have hdepth := congrArg List.length hrest
        rw [List.length_map] at hdepth
        exact hclimb _ (by omega)
      have hlast : w.session.snapshot.root r' = k.root := by
        rw [Snapshot.root, hlineage, ← hrest]
        exact congrArg (fun x : Option Rule => x.getD r') htrail.getLast?_eq
      refine ⟨hfrom.parent?_eq_owner hlog hroot h, hclimb, hlineage, hlast, ?_⟩
      intro p hp
      obtain ⟨place, source, hmem⟩ := htrail.mem_nodes hp
      have hanchored : p.anchor = some r'.id := htrail.anchor_eq hmem
      have hanchor : w.session.snapshot.anchor? p = some r' := by
        rw [Snapshot.anchor?, hanchored]
        exact (hfrom.rule?_eq_some_iff hlog).2 ⟨halive, rfl⟩
      refine ⟨⟨d, rest, place, source, htrail, hrest, hmem⟩, hanchor, ?_⟩
      intro anchor hself
      subst hself
      apply Snapshot.resolve_of_target_eq
      rw [Snapshot.target_root, show anchor = some r'.id from hanchored, Option.bind_some,
        (hfrom.rule?_eq_some_iff hlog).2 ⟨halive, rfl⟩, Option.map_some, Option.getD_some, hlast]

-- ------------------------------------------------------------- a document

/-- A grammar that is included from a capture inside an injection. -/
def injecting : Document :=
  [("scopeName", .string "r"),
    ("injections", .dict [("L:x", .dict [("captures", .dict [("0",
      .dict [("patterns", .array [.dict [("include", .string "$base")]])])])])])]

def injectingCompilation : Compilation := ⟨.new ⟨1⟩, .empty, injecting, 0⟩

def injectingWorld : World := run "" [.newTable "t", .add "t" injecting]

/-- The way back from the capture visits the injection and the root, and
the include in it is answered with the root. -/
theorem climb_eq_descent_injecting :
    ∃ injected captured, injectingWorld.session.snapshot.lineage captured
        = [captured, injected, injectingCompilation.root]
      ∧ injectingWorld.session.snapshot.resolve (.reference (.root (some captured.id)))
        = injectingCompilation.root := by
  have hroot : injectingWorld.session.snapshot.Alive injectingCompilation.root :=
    ⟨injectingCompilation.root, .head _, Rule.mem_owned_self _⟩
  obtain ⟨injected, captured, hdescent, hself⟩ : ∃ injected captured,
      injectingCompilation.root.Descent [captured, injected, injectingCompilation.root]
        ∧ .reference (.root (some captured.id)) ∈ captured.nodes :=
    ⟨_, _, .nested (.nested .root (.head _)) (.head _), .head _⟩
  obtain ⟨-, -, hdown⟩ := climb_eq_descent (w := injectingWorld) ⟨"", _, rfl⟩
    (k := injectingCompilation) (.head _) hroot
  obtain ⟨-, -, hlineage, -, hreferences⟩ := hdown captured _ hdescent
  exact ⟨injected, captured, hlineage, (hreferences _ hself).2.2 _ rfl⟩

end World

end ScopeRules
