/-
What an include of the enclosing grammar answers. Following it climbs from
the rule that contained it, as far as the rules around are alive, and takes
the last one for the root. A rule whose parent has died looks the same from
there as a root.

# The exact condition

`World.resolve_self_eq_iff`: the answer is the root that the document was
compiled with, or the empty rule once that root is not alive, if and only
if everything from the anchor to the root is alive, or both ends of it are
not. In the other cases it is a rule in between (the anchor is alive, and
the way out is interrupted), or nothing although the root is there (the
anchor was displaced in its document).
-/
import ScopeRules.Proofs.Ancestors

namespace ScopeRules

namespace Compilation

variable {k : Compilation}

/-- Where the way outwards is interrupted, it does not get to the root. -/
theorem Trail.getLast?_takeWhile_ne {trail : List (Rule × Document)} (h : k.Trail trail)
    {live : Rule → Bool} {x : Rule}
    (hlast : ((trail.map Prod.fst).takeWhile live).getLast? = some x)
    (hinterrupted : ¬ ∀ f ∈ trail, live f.1 = true) : x ≠ k.root := by
  induction h with
  | root =>
    rw [List.map_cons, List.takeWhile_cons] at hlast
    cases hlive : live k.root with
    | true =>
      refine absurd ?_ hinterrupted
      intro f hf
      rw [List.mem_singleton.1 hf]
      exact hlive
    | false =>
      rw [hlive] at hlast
      cases hlast
  | @nested e f outer place source r enclosing mem ih =>
    rw [List.map_cons, List.takeWhile_cons] at hlast
    cases hlive : live r with
    | false =>
      rw [hlive] at hlast
      cases hlast
    | true =>
      rw [hlive, if_pos rfl, List.getLast?_cons] at hlast
      cases hrest : ((((e, f) :: outer).map Prod.fst).takeWhile live).getLast? with
      | none =>
        rw [hrest] at hlast
        cases hlast
        exact (Trail.nested enclosing mem).ne_root
      | some y =>
        rw [hrest] at hlast
        cases hlast
        refine ih hrest fun hall => hinterrupted ?_
        exact List.forall_mem_cons.2 ⟨hlive, hall⟩

end Compilation

namespace Snapshot

variable {s : Snapshot} {log : List Compilation} {k : Compilation}

/-- A reference whose target is a rule resolves to it. -/
theorem resolve_of_target_eq {p : Reference} {x : Rule} (h : s.target p = .rule x) :
    s.resolve (.reference p) = x := by
  show ((s.follow 63 (s.target p)).rule?).getD .empty = x
  rw [h]
  rfl

/-- An include of the enclosing grammar answers the last live rule on the
way from its anchor outwards. -/
theorem From.resolve_root_eq (hs : s.From log) (hlog : Coherent log) (hk : k ∈ log)
    {r : Rule} {d : Document} {outer : List (Rule × Document)}
    (h : k.Trail ((r, d) :: outer)) :
    s.resolve (.reference (.root (some r.id)))
      = (((((r, d) :: outer).map Prod.fst).takeWhile s.isAlive).getLast?).getD .empty := by
  apply resolve_of_target_eq
  rw [target_root, Option.bind_some, hs.rule?_id hlog (.inr ⟨k, hk, h.mem_rules⟩), List.map_cons,
    List.takeWhile_cons]
  cases s.isAlive r with
  | false => rfl
  | true =>
    simp only [if_true, Option.map_some, Option.getD_some]
    rw [root, hs.lineage_eq hlog hk h, List.getLast?_cons]
    rfl

/-- The answer is the root, or empty once the root is gone, if and only if
the way from the anchor to the root is alive, or neither end of it. -/
theorem From.resolve_root_eq_iff (hs : s.From log) (hlog : Coherent log) (hk : k ∈ log)
    {r : Rule} {d : Document} {outer : List (Rule × Document)}
    (h : k.Trail ((r, d) :: outer)) :
    s.resolve (.reference (.root (some r.id))) = (if s.isAlive k.root then k.root else .empty)
      ↔ (∀ f ∈ (r, d) :: outer, s.Alive f.1) ∨ (¬ s.Alive r ∧ ¬ s.Alive k.root) := by
  have hrules : ∀ f ∈ (r, d) :: outer, f.1 ∈ k.rules := by
    intro f hf
    obtain ⟨rest, hrest⟩ := h.of_mem hf
    exact hrest.mem_rules
  have halive : ∀ f ∈ (r, d) :: outer, s.isAlive f.1 = true ↔ s.Alive f.1 := by
    intro f hf
    exact hs.isAlive_iff hlog (.inr ⟨k, hk, hrules f hf⟩)
  have hroot := hs.isAlive_iff hlog (.inr ⟨k, hk, k.root_mem_rules⟩)
  have hnonempty : k.root ≠ .empty := by
    intro heq
    exact Compilation.id_ne_empty k.root_mem_rules (congrArg Rule.id heq)
  rw [hs.resolve_root_eq hlog hk h]
  by_cases hall : ∀ f ∈ (r, d) :: outer, s.Alive f.1
  · -- all of the way is alive, and the root is its end
    have hwhole : (((r, d) :: outer).map Prod.fst).takeWhile s.isAlive
        = ((r, d) :: outer).map Prod.fst := by
      refine List.takeWhile_eq_self_iff.2 fun a ha => ?_
      obtain ⟨f, hf, rfl⟩ := List.mem_map.1 ha
      exact (halive f hf).2 (hall f hf)
    obtain ⟨f, hf, hfroot⟩ := List.mem_map.1 (List.mem_of_getLast? h.getLast?_eq)
    have hrootAlive : s.isAlive k.root = true := hfroot ▸ (halive f hf).2 (hall f hf)
    rw [hwhole, h.getLast?_eq, hrootAlive, if_pos rfl]
    exact ⟨fun _ => .inl hall, fun _ => rfl⟩
  · rw [or_iff_right hall]
    cases hr : s.isAlive r with
    | false =>
      -- the anchor is gone, and nothing is answered
      have hdead : ¬ s.Alive r := by
        intro hlive
        rw [(halive _ (List.mem_cons_self ..)).2 hlive] at hr
        cases hr
      rw [List.map_cons, List.takeWhile_cons_of_neg (by rw [hr]; exact Bool.false_ne_true)]
      show Rule.empty = _ ↔ _
      rw [← hroot]
      cases s.isAlive k.root with
      | true =>
        constructor
        · intro heq
          exact absurd heq.symm hnonempty
        · intro hends
          exact absurd rfl hends.2
      | false => exact ⟨fun _ => ⟨hdead, Bool.false_ne_true⟩, fun _ => rfl⟩
    | true =>
      -- the way is interrupted, and a rule before the end is answered
      have hlive : s.Alive r := (halive _ (List.mem_cons_self ..)).1 hr
      have hbetween : ∃ x, ((((r, d) :: outer).map Prod.fst).takeWhile s.isAlive).getLast?
          = some x := by
        rw [List.map_cons, List.takeWhile_cons_of_pos hr, List.getLast?_cons]
        exact ⟨_, rfl⟩
      obtain ⟨x, hx⟩ := hbetween
      have hne : x ≠ k.root := by
        refine h.getLast?_takeWhile_ne hx fun hwhole => hall ?_
        intro f hf
        exact (halive f hf).1 (hwhole f hf)
      have hxnonempty : x ≠ .empty := by
        have hmem := (List.takeWhile_sublist _).subset (List.mem_of_getLast? hx)
        obtain ⟨f, hf, rfl⟩ := List.mem_map.1 hmem
        intro heq
        exact Compilation.id_ne_empty (hrules f hf) (congrArg Rule.id heq)
      rw [hx, Option.getD_some]
      constructor
      · intro heq
        split at heq
        · exact absurd heq hne
        · exact absurd heq hxnonempty
      · intro hends
        exact absurd hlive hends.1

end Snapshot

namespace World

variable {w : World}

/-- What a caller gets at as a reference to the enclosing grammar was
compiled from a word for it, in some rule of some document. -/
theorem exists_anchor_of_walk (hw : w.Reachable) {walk : Walk} {anchor : Option NodeId}
    (hwalk : (w.session.walk walk).1 = .ok (.reference (.root anchor))) :
    ∃ k ∈ w.log, ∃ r d outer place source, k.Trail ((r, d) :: outer)
      ∧ .node place source (.reference (.root anchor)) ∈ k.contents r d
      ∧ Outline.targetOf source = .root ∧ anchor = some r.id := by
  obtain ⟨k, hk, r, d, outer, place, source, htrail, hp⟩ :=
    Session.known_walk hw.sound.from hw.sound.handled hwalk
  have hreference := htrail.reference_eq hp
  cases htarget : Outline.targetOf source with
  | root =>
    rw [htarget] at hreference
    cases hreference
    exact ⟨k, hk, r, d, outer, place, source, htrail, hp, htarget, rfl⟩
  | entry name =>
    rw [htarget] at hreference
    cases hreference
  | foreign scope name =>
    rw [htarget] at hreference
    cases hreference

/-- An include of the enclosing grammar that a caller gets at answers the
root of its document, or the empty rule when that root is not alive, if and
only if all of the way from its anchor to the root is alive, or neither end
of it. In any case it answers the last live rule on that way. -/
theorem resolve_self_eq_iff (hw : w.Reachable) {walk : Walk} {anchor : Option NodeId}
    (hwalk : (w.session.walk walk).1 = .ok (.reference (.root anchor))) :
    ∃ k ∈ w.log, ∃ r d outer, k.Trail ((r, d) :: outer) ∧ anchor = some r.id
      ∧ (∃ place source, .node place source (.reference (.root anchor)) ∈ k.contents r d)
      ∧ w.session.snapshot.resolve (.reference (.root anchor))
        = (((((r, d) :: outer).map Prod.fst).takeWhile
            w.session.snapshot.isAlive).getLast?).getD .empty
      ∧ (w.session.snapshot.resolve (.reference (.root anchor))
          = (if w.session.snapshot.isAlive k.root then k.root else .empty)
        ↔ (∀ f ∈ (r, d) :: outer, w.session.snapshot.Alive f.1)
          ∨ (¬ w.session.snapshot.Alive r ∧ ¬ w.session.snapshot.Alive k.root)) := by
  obtain ⟨k, hk, r, d, outer, place, source, htrail, hp, -, rfl⟩ := exists_anchor_of_walk hw hwalk
  refine ⟨k, hk, r, d, outer, htrail, rfl, ⟨place, source, hp⟩, ?_, ?_⟩
  · exact hw.sound.from.resolve_root_eq hw.sound.coherent hk htrail
  · exact hw.sound.from.resolve_root_eq_iff hw.sound.coherent hk htrail

-- ------------------------------------------------------------- a document

/-- A grammar with a rule inside that includes the grammar. -/
def enclosing : Document :=
  [("scopeName", .string "r"),
    ("patterns", .array [.dict [("name", .string "mid"),
      ("patterns", .array [.dict [("include", .string "$self")]])]])]

def enclosingCompilation : Compilation := ⟨.new ⟨1⟩, .empty, enclosing, 0⟩

/-- The inner rule is kept, and the grammar forgotten. -/
def interruptedWorld : World :=
  run "" [.newTable "t", .add "t" enclosing, .hold "mid" ⟨"t", .scope "r", [.child 0]⟩,
    .clear "t"]

/-- The include then answers the inner rule, which is no root. -/
theorem resolve_self_interrupted :
    ∃ k ∈ interruptedWorld.log, ∃ r d outer, k.Trail ((r, d) :: outer)
      ∧ (interruptedWorld.session.walk ⟨"t", .node "mid", [.child 0]⟩).1
        = .ok (.reference (.root (some r.id)))
      ∧ interruptedWorld.session.snapshot.resolve (.reference (.root (some r.id))) ≠ k.root
      ∧ interruptedWorld.session.snapshot.resolve (.reference (.root (some r.id))) ≠ .empty := by
  refine ⟨enclosingCompilation, .head _, _, _, _, .nested .root (.tail _ (.head _)), rfl, ?_, ?_⟩
  · intro heq
    exact absurd (congrArg (fun x : Rule => x.id.serial) heq) (by decide)
  · intro heq
    exact absurd (congrArg (fun x : Rule => x.id.serial) heq) (by decide)

/-- There the way outwards is alive at its start, and not up to the root. -/
theorem resolve_self_eq_iff_interrupted :
    ∃ k ∈ interruptedWorld.log, ∃ r d outer, k.Trail ((r, d) :: outer)
      ∧ ¬ ((∀ f ∈ (r, d) :: outer, interruptedWorld.session.snapshot.Alive f.1)
        ∨ (¬ interruptedWorld.session.snapshot.Alive r
          ∧ ¬ interruptedWorld.session.snapshot.Alive k.root)) := by
  have hwalk : (interruptedWorld.session.walk ⟨"t", .node "mid", [.child 0]⟩).1
      = .ok (.reference (.root (some ⟨⟨1⟩, 2⟩))) := rfl
  obtain ⟨k, hk, r, d, outer, htrail, -, -, -, hanswer⟩ :=
    resolve_self_eq_iff (w := interruptedWorld) ⟨"", _, rfl⟩ hwalk
  refine ⟨k, hk, r, d, outer, htrail, fun halive => ?_⟩
  have heq := hanswer.2 halive
  obtain rfl : k = enclosingCompilation := List.mem_singleton.1 hk
  exact absurd (congrArg (fun x : Rule => x.id.serial) heq) (by decide)

end World

end ScopeRules
