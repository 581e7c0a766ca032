/-
Two moments after reordered documents were added. While the roots of both
documents are alive, and the tables find corresponding rules under every
scope, whoever looks around at the one moment sees what can be seen at the
other: counterparts, or the empty rule twice (`Corresponding`).

# The simulation

- Climbing from counterparts goes all the way to the roots, since these own
  everything that has a counterpart (`Shows.lineage_eq`).
- So one hop from references that are counterparts leads to nodes that
  correspond (`Facing.target`), by induction so do chains of them
  (`Facing.resolve`).
- A `Look` is a step of a walk that goes by what is written in a document,
  and not by the order in which a rule lists its injections. Looks lead from
  nodes that correspond to nodes that correspond, or nowhere at both moments
  (`Facing.look?`), and so does a list of them (`Facing.looks`), under the ids
  that the tables have got or give on the way.
-/
import ScopeRules.Proofs.Ancestors
import ScopeRules.Proofs.Apart
import ScopeRules.Proofs.Counterparts

namespace ScopeRules

-- ======================================================= correspondence

/-- Counterparts, or the empty rule twice. -/
inductive Corresponding (k k' : Compilation) : Node → Node → Prop where
  | empty : Corresponding k k' (.rule .empty) (.rule .empty)
  | counterparts {x x' : Node} (counterparts : k.Counterparts k' x x') : Corresponding k k' x x'

section Corresponding

variable {k k' : Compilation} {issued issued' : List (Nat × String)} {r r' : Rule}

theorem corresponding_rule_iff :
    Corresponding k k' (.rule r) (.rule r')
      ↔ (r = .empty ∧ r' = .empty) ∨ k.Counterparts k' (.rule r) (.rule r') := by
  constructor
  · intro h
    generalize hx : Node.rule r = x at h
    generalize hx' : Node.rule r' = x' at h
    cases h with
    | empty => exact .inl ⟨Node.rule.inj hx, Node.rule.inj hx'⟩
    | counterparts h =>
      subst hx hx'
      exact .inr h
  · intro h
    rcases h with ⟨rfl, rfl⟩ | h
    · exact .empty
    · exact .counterparts h

theorem corresponding_getD {x x' : Option Node} (h : Option.Rel (k.Counterparts k') x x') :
    Corresponding k k' (x.getD (.rule .empty)) (x'.getD (.rule .empty)) := by
  cases h with
  | none => exact .empty
  | some h => exact .counterparts h

variable (hk : Compilation.Reordering k k' issued issued')

include hk

/-- Rules that correspond match. -/
theorem Corresponding.matches_rule (h : Corresponding k k' (.rule r) (.rule r')) :
    r.Matches (Corresponding k k') r' := by
  rcases corresponding_rule_iff.1 h with ⟨rfl, rfl⟩ | h
  · exact ⟨rfl, fun _ => rfl, fun _ => .none, .nil, fun _ => .nil⟩
  · exact (h.matches_rule hk).mono fun _ _ hx => .counterparts hx

/-- At each spot of rules that correspond stand nodes that do, or nothing in
both. -/
theorem Corresponding.rel_at? (h : Corresponding k k' (.rule r) (.rule r')) (spot : Spot) :
    Option.Rel (Corresponding k k') (r.at? k.context.ruleIds spot)
      (r'.at? k'.context.ruleIds spot) := by
  rcases corresponding_rule_iff.1 h with ⟨rfl, rfl⟩ | h
  · rw [Rule.at?_empty, Rule.at?_empty]
    exact .none
  · exact imp_of_rel (h.rel_at? hk spot) fun _ _ hx => .counterparts hx

/-- Rules that correspond tell each other apart. -/
theorem Corresponding.eq_iff {s s' : Rule} (hr : Corresponding k k' (.rule r) (.rule r'))
    (hs : Corresponding k k' (.rule s) (.rule s')) : r = s ↔ r' = s' := by
  have hne : ∀ {k : Compilation} {r : Rule}, r ∈ k.rules → r ≠ .empty := by
    intro k r hr heq
    exact Compilation.id_ne_empty hr (congrArg Rule.id heq)
  rcases corresponding_rule_iff.1 hr with ⟨rfl, rfl⟩ | hr
  · rcases corresponding_rule_iff.1 hs with ⟨rfl, rfl⟩ | hs
    · simp
    · simp [(hne hs.mem_rules).symm, (hne hs.symm.mem_rules).symm]
  · rcases corresponding_rule_iff.1 hs with ⟨rfl, rfl⟩ | hs
    · simp [hne hr.mem_rules, hne hr.symm.mem_rules]
    · exact hr.eq_iff hk hs

/-- Under the ids that two allocators have for a name, rules that correspond
have entries that do. -/
theorem Corresponding.entryAt? (h : Corresponding k k' (.rule r) (.rule r')) {ids ids' : RuleIds}
    {name : String} {i i' : RuleId} (hids : RuleIds.Recorded ids k.epoch issued)
    (hids' : RuleIds.Recorded ids' k'.epoch issued') (hi : ids.get? name = some i)
    (hi' : ids'.get? name = some i') :
    Option.Rel (k.Counterparts k') (r.entryAt? i) (r'.entryAt? i') := by
  rcases corresponding_rule_iff.1 h with ⟨rfl, rfl⟩ | h
  · exact .none
  · exact h.rel_entryAt? hk hids hids' hi hi'

end Corresponding

-- ============================================================== moments

/-- A moment at which the root of a document is alive. -/
structure Snapshot.Shows (s : Snapshot) (k : Compilation) (log : List Compilation) : Prop where
  «from» : s.From log
  coherent : Coherent log
  mem : k ∈ log
  root : s.Alive k.root

namespace Snapshot.Shows

variable {s : Snapshot} {k k' : Compilation} {log : List Compilation}
  {issued issued' : List (Nat × String)} {r r' : Rule} {d : Document}
  {outer : List (Rule × Document)}

/-- What has a counterpart is alive. -/
theorem alive (h : s.Shows k log) (hr : k.Counterparts k' (.rule r) (.rule r')) : s.Alive r :=
  h.root.of_mem_owned hr.mem_owned

theorem rule?_id (h : s.Shows k log) (hr : k.Counterparts k' (.rule r) (.rule r')) :
    s.rule? r.id = some r :=
  (h.from.rule?_eq_some_iff h.coherent).2 ⟨h.alive hr, rfl⟩

/-- Climbing from it visits all of its trail. -/
theorem lineage_eq (h : s.Shows k log) (htrail : k.Trail ((r, d) :: outer))
    (hcounterparts : ∀ f ∈ outer, ∃ t, k.Counterparts k' (.rule f.1) (.rule t)) :
    s.lineage r = ((r, d) :: outer).map Prod.fst := by
  refine h.from.lineage_eq_of_alive h.coherent h.mem htrail fun f hf => ?_
  obtain ⟨t, ht⟩ := hcounterparts f hf
  exact h.alive ht

theorem root_eq (h : s.Shows k log) (hk : Compilation.Reordering k k' issued issued')
    (hr : k.Counterparts k' (.rule r) (.rule r')) : s.root r = k.root := by
  obtain ⟨d, outer, d', outer', htrail, -, hstep⟩ := hr.exists_trails hk
  obtain ⟨-, houter⟩ := List.forall₂_cons.1 hstep
  have hlineage := h.lineage_eq htrail fun f hf => by
    obtain ⟨f', -, hstep⟩ := exists_of_forall₂_left houter hf
    exact ⟨_, hstep.counterparts⟩
  rw [Snapshot.root, hlineage, htrail.getLast?_eq]
  rfl

end Snapshot.Shows

/-- Two moments at which the roots are alive, and the tables find under each
scope rules that correspond. -/
structure Facing (k k' : Compilation) (log log' : List Compilation) (s s' : Snapshot) : Prop where
  left : s.Shows k log
  right : s'.Shows k' log'
  lookup : ∃ t t', s.table? k.table.id = some t ∧ s'.table? k'.table.id = some t'
    ∧ ∀ scope, Corresponding k k' (.rule (t.lookup scope)) (.rule (t'.lookup scope))

namespace Facing

variable {k k' : Compilation} {log log' : List Compilation} {s s' : Snapshot}
  {issued issued' : List (Nat × String)} {r r' : Rule}

-- ================================================================= hops

/-- One hop to an entry of an enclosing rule. -/
theorem target_entry (h : Facing k k' log log' s s')
    (hk : Compilation.Reordering k k' issued issued')
    (hanchors : k.Counterparts k' (.rule r) (.rule r')) {name : String}
    (hname : name ∈ (Outline.ofDocument k.document).names)
    (hname' : name ∈ (Outline.ofDocument k'.document).names) :
    Corresponding k k' (s.target (.entry (k.context.ruleId name) (some r.id)))
      (s'.target (.entry (k'.context.ruleId name) (some r'.id))) := by
  obtain ⟨d, outer, d', outer', htrail, htrail', hstep⟩ := hanchors.exists_trails hk
  have halive : ∀ f ∈ (r, d) :: outer, s.Alive f.1 := fun f hf => by
    obtain ⟨f', -, hf⟩ := exists_of_forall₂_left hstep hf
    exact h.left.alive hf.counterparts
  have halive' : ∀ f' ∈ (r', d') :: outer', s'.Alive f'.1 := fun f' hf' => by
    obtain ⟨f, -, hf⟩ := exists_of_forall₂_right hstep hf'
    exact h.right.alive hf.counterparts.symm
  rw [h.left.from.target_entry_eq_nearest h.left.coherent h.left.mem htrail halive hk.distinct
      hk.recorded hname,
    h.right.from.target_entry_eq_nearest h.right.coherent h.right.mem htrail' halive' hk.distinct'
      hk.recorded' hname']
  -- rule by rule on the way outwards
  refine corresponding_getD (findSome?_of_forall₂ (forall₂_and_mem hstep) fun f f' hf => ?_)
  obtain ⟨rest, hrest⟩ := htrail.of_mem hf.2.1
  obtain ⟨rest', hrest'⟩ := htrail'.of_mem hf.2.2
  rw [← hrest.at?_entry hk.distinct hk.recorded, ← hrest'.at?_entry hk.distinct' hk.recorded']
  exact hf.1.counterparts.rel_at? hk (.entry name)

/-- One hop to the enclosing grammar. -/
theorem target_root (h : Facing k k' log log' s s')
    (hk : Compilation.Reordering k k' issued issued')
    (hanchors : k.Counterparts k' (.rule r) (.rule r')) :
    Corresponding k k' (s.target (.root (some r.id))) (s'.target (.root (some r'.id))) := by
  simp only [Snapshot.target_root, Option.bind_some, h.left.rule?_id hanchors,
    h.right.rule?_id hanchors.symm, Option.map_some, Option.getD_some,
    h.left.root_eq hk hanchors, h.right.root_eq hk.symm hanchors.symm]
  exact .counterparts .root

/-- One hop from references that are counterparts. -/
theorem target (h : Facing k k' log log' s s') (hk : Compilation.Reordering k k' issued issued')
    {p p' : Reference} (hp : k.Counterparts k' (.reference p) (.reference p')) :
    Corresponding k k' (s.target p) (s'.target p') := by
  obtain ⟨r, r', target, hanchors, rfl, rfl, hnames⟩ := hp.exists_reference_eq hk
  cases target with
  | entry name =>
    obtain ⟨hname, hname'⟩ := hnames name rfl
    exact h.target_entry hk hanchors hname hname'
  | root => exact h.target_root hk hanchors
  | foreign scope name =>
    have htable : k.context.table = k.table.id := rfl
    have htable' : k'.context.table = k'.table.id := rfl
    have htext : (k.context.symbol scope).text = scope := Interner.text_intern _ _
    have htext' : (k'.context.symbol scope).text = scope := Interner.text_intern _ _
    obtain ⟨t, t', ht, ht', hlookup⟩ := h.lookup
    simp only [Context.reference, Snapshot.target_foreign, htable, htable', ht, ht',
      Option.map_some, Option.getD_some, htext, htext']
    cases name with
    | none => exact hlookup scope
    | some name =>
      obtain ⟨hname, hname'⟩ := hnames name rfl
      exact corresponding_getD ((hlookup scope).entryAt? hk hk.recorded hk.recorded'
        (Compilation.get?_ruleIds hname) (Compilation.get?_ruleIds hname'))

-- ========================================================== resolution

/-- Chains of references from nodes that correspond. The induction is on the
hops. -/
theorem follow (h : Facing k k' log log' s s') (hk : Compilation.Reordering k k' issued issued')
    {x x' : Node} (hx : Corresponding k k' x x') (n : Nat) :
    Corresponding k k' (s.follow n x) (s'.follow n x') := by
  induction n generalizing x x' with
  | zero => exact hx
  | succ n ih =>
    cases hx with
    | empty => exact .empty
    | counterparts hx =>
      rcases hx.kinds hk with ⟨r, r', rfl, rfl⟩ | ⟨p, p', rfl, rfl⟩
      · exact .counterparts hx
      · exact ih (h.target hk hx)

theorem resolve (h : Facing k k' log log' s s') (hk : Compilation.Reordering k k' issued issued')
    {x x' : Node} (hx : Corresponding k k' x x') :
    Corresponding k k' (.rule (s.resolve x)) (.rule (s'.resolve x')) := by
  have hend := h.follow hk hx Snapshot.maxHops
  unfold Snapshot.resolve
  revert hend
  generalize s.follow Snapshot.maxHops x = y
  generalize s'.follow Snapshot.maxHops x' = y'
  intro hend
  cases hend with
  | empty => exact .empty
  | counterparts hy =>
    rcases hy.kinds hk with ⟨r, r', rfl, rfl⟩ | ⟨p, p', rfl, rfl⟩
    · exact .counterparts hy
    · exact .empty

/-- Nodes that correspond were compiled under rules that do. -/
theorem parentOf? (h : Facing k k' log log' s s')
    (hk : Compilation.Reordering k k' issued issued') {x x' : Node}
    (hx : Corresponding k k' x x') :
    Option.Rel (fun r r' => Corresponding k k' (.rule r) (.rule r')) (s.parentOf? x)
      (s'.parentOf? x') := by
  cases hx with
  | empty => exact .none
  | counterparts hx =>
    rcases hx.kinds hk with ⟨r, r', rfl, rfl⟩ | ⟨p, p', rfl, rfl⟩
    · obtain ⟨d, outer, d', outer', htrail, htrail', hstep⟩ := hx.exists_trails hk
      obtain ⟨-, houter⟩ := List.forall₂_cons.1 hstep
      simp only [Snapshot.parentOf?, Snapshot.parent?, htrail.parent_eq, htrail'.parent_eq]
      cases houter with
      | nil => exact .none
      | cons hf _ =>
        simp only [List.head?_cons, Option.map_some, Option.bind_some,
          h.left.rule?_id hf.counterparts, h.right.rule?_id hf.counterparts.symm]
        exact .some (.counterparts hf.counterparts)
    · obtain ⟨r, r', target, hanchors, rfl, rfl, -⟩ := hx.exists_reference_eq hk
      simp only [Snapshot.parentOf?, Snapshot.anchor?, Context.anchor_reference, Option.bind_some,
        h.left.rule?_id hanchors, h.right.rule?_id hanchors.symm]
      exact .some (.counterparts hanchors)

/-- Around rules that correspond, the outermost live rules do. -/
theorem root (h : Facing k k' log log' s s') (hk : Compilation.Reordering k k' issued issued')
    (hr : Corresponding k k' (.rule r) (.rule r')) :
    Corresponding k k' (.rule (s.root r)) (.rule (s'.root r')) := by
  rcases corresponding_rule_iff.1 hr with ⟨rfl, rfl⟩ | hr
  · exact .empty
  · rw [h.left.root_eq hk hr, h.right.root_eq hk.symm hr.symm]
    exact .counterparts .root

end Facing

-- =============================================================== looks

/-- A step of a walk, in words that the order of keys has no part in. -/
inductive Look where
  | into (spot : Spot)
  | parent
  | root
  | resolve
  deriving DecidableEq, Repr, Inhabited

namespace Look

/-- The step to take from a node that resolves to the rule `r`. -/
def step (r : Rule) : Look → WalkStep
  | .into (.child i) => .child i
  | .into (.entry name) => .entry name
  | .into (.capture key i) => .capture key.spelling i
  | .into (.injection selector) =>
    .injection (r.injections.findIdx fun p => p.1.text = selector)
  | .parent => .parent
  | .root => .root
  | .resolve => .resolve

/-- The name that a look asks for. -/
def name? : Look → Option String
  | .into (.entry name) => some name
  | _ => none

theorem name?_step (r : Rule) (look : Look) : (look.step r).name? = look.name? := by
  cases look with
  | into spot => cases spot <;> rfl
  | _ => rfl

end Look

/-- The first element that passes a test stands where it was found. -/
theorem getElem?_findIdx_eq_head? {α β : Type} (p : α → Bool) (f : α → β) (as : List α) :
    (as[as.findIdx p]?).map f = (as.filterMap fun a => if p a then some (f a) else none).head? := by
  induction as with
  | nil => rfl
  | cons a more ih =>
    rw [List.findIdx_cons, List.filterMap_cons]
    cases hpa : p a with
    | true => simp
    | false => simpa using ih

namespace Snapshot

/-- Where a look leads if a table gives names these ids. -/
def look? (s : Snapshot) (ids : RuleIds) (x : Node) (look : Look) : Option Node :=
  s.next? (fun name => some (ids.idFor name).1) x (look.step (s.resolve x))

/-- Where looks lead, one after the other, from the look with the given index
on. -/
def looks (s : Snapshot) (ids : RuleIds) (x : Node) (index : Nat) :
    List Look → Except WalkFailure Node
  | [] => .ok x
  | look :: rest =>
    match s.look? ids x look with
    | none => .error (.missing index)
    | some y => s.looks (ids.allocateAll look.name?.toList) y (index + 1) rest

/-- A look into a rule leads to what stands at the spot. -/
theorem look?_into (s : Snapshot) (ids : RuleIds) (x : Node) (spot : Spot) :
    s.look? ids x (.into spot)
      = (s.resolve x).at? (ids.allocateAll (Look.into spot).name?.toList) spot := by
  cases spot with
  | child i => rfl
  | entry name =>
    have hid : (ids.idFor name).2.get? name = some (ids.idFor name).1 :=
      (RuleIds.get?_idFor _ _ _).trans (if_pos rfl)
    show (some (ids.idFor name).1).bind _ = ((ids.idFor name).2.get? name).bind _
    rw [hid]
    rfl
  | capture key i =>
    simp only [look?, Look.step, next?, CaptureKey.ofSpelling?_spelling, Option.bind_some]
    rfl
  | injection selector =>
    refine (getElem?_findIdx_eq_head? _ _ _).trans ?_
    simp [Rule.at?, Rule.injectionsFor]

variable {s s' : Snapshot} {P : Node → Prop}

theorem AgreeOn.looks_eq (h : AgreeOn P s s') {x : Node} (hx : P x) (ids : RuleIds) (index : Nat)
    (looks : List Look) : s.looks ids x index looks = s'.looks ids x index looks := by
  induction looks generalizing ids x index with
  | nil => rfl
  | cons look rest ih =>
    obtain ⟨hnext, hclass⟩ := h.next?_eq (fun name => some (ids.idFor name).1) hx
      (look.step (s.resolve x))
    have hlook : s.look? ids x look = s'.look? ids x look := by
      rw [look?, hnext, (h.resolve_eq hx).1]
      rfl
    rw [Snapshot.looks, Snapshot.looks, ← hlook]
    cases hy : s.look? ids x look with
    | none => rfl
    | some y => exact ih (hclass y hy) _ _

end Snapshot

namespace Session

/-- Looks in a table, one after the other, from the look with the given
index on. -/
def looks (s : Session) (table : String) (x : Node) (index : Nat) :
    List Look → Except WalkFailure Node × Session
  | [] => (.ok x, s)
  | look :: rest =>
    match s.walkStep table x (look.step (s.snapshot.resolve x)) with
    | (some y, s) => s.looks table y (index + 1) rest
    | (none, s) => (.error (.missing index), s)

/-- Looks from the rule that is registered for a scope. -/
def looksFrom (s : Session) (table scope : String) (looks : List Look) :
    Except WalkFailure Node × Session :=
  match s.table? table with
  | some t => s.looks table (.rule (t.lookup scope)) 0 looks
  | none => (.error .noTable, s)

/-- Looks in one go. Only names are asked for. -/
theorem looks_eq {s : Session} (hdistinct : (s.tables.map Table.id).Nodup) {table : String}
    {t : Table} (ht : s.table? table = some t) (x : Node) (index : Nat) (looks : List Look) :
    (s.looks table x index looks).1 = s.snapshot.looks t.ruleIds x index looks
      ∧ ∃ names, (s.looks table x index looks).2 = s.asking table names := by
  induction looks generalizing s t x index with
  | nil => exact ⟨rfl, [], (asking_nil hdistinct).symm⟩
  | cons look rest ih =>
    have hstep : s.walkStep table x (look.step (s.snapshot.resolve x))
        = (s.snapshot.look? t.ruleIds x look, s.asking table look.name?.toList) := by
      rw [walkStep_eq hdistinct, Look.name?_step, ht]
      rfl
    rw [Session.looks, hstep, Snapshot.looks]
    cases s.snapshot.look? t.ruleIds x look with
    | none => exact ⟨rfl, _, rfl⟩
    | some y =>
      have hdistinct' : ((s.asking table look.name?.toList).tables.map Table.id).Nodup := by
        rw [(s.asking_asked table _).keeps.ids]
        exact hdistinct
      have ht' : (s.asking table look.name?.toList).table? table
          = some (t.asking look.name?.toList) := by
        rw [table?_asking, ht]
        rfl
      obtain ⟨hlooks, names, hnames⟩ := ih hdistinct' ht' y (index + 1)
      refine ⟨hlooks.trans ((agreeOn_asking hdistinct table _).looks_eq trivial _ _ _), _,
        hnames.trans (asking_asking s table _ names)⟩

end Session

-- ============================================================ both ways

namespace Facing

variable {k k' : Compilation} {log log' : List Compilation} {s s' : Snapshot}
  {issued issued' : List (Nat × String)} {x x' : Node} {ids ids' : RuleIds}

/-- A look leads from nodes that correspond to nodes that correspond, or
nowhere at both moments. -/
theorem look? (h : Facing k k' log log' s s') (hk : Compilation.Reordering k k' issued issued')
    (hx : Corresponding k k' x x') {look : Look}
    (hids : RuleIds.Recorded (ids.allocateAll look.name?.toList) k.epoch issued)
    (hids' : RuleIds.Recorded (ids'.allocateAll look.name?.toList) k'.epoch issued') :
    Option.Rel (Corresponding k k') (s.look? ids x look) (s'.look? ids' x' look) := by
  have hrules := h.resolve hk hx
  cases look with
  | into spot =>
    rw [Snapshot.look?_into, Snapshot.look?_into]
    cases spot with
    | entry name =>
      have hid : ∀ ids : RuleIds, (ids.allocateAll [name]).get? name = some (ids.idFor name).1 :=
        fun ids => (RuleIds.get?_idFor _ _ _).trans (if_pos rfl)
      show Option.Rel _ (((ids.allocateAll [name]).get? name).bind _)
        (((ids'.allocateAll [name]).get? name).bind _)
      rw [hid, hid]
      exact imp_of_rel (hrules.entryAt? hk hids hids' (hid ids) (hid ids'))
        fun _ _ hx => .counterparts hx
    | _ => exact (hrules.matches_rule hk).rel_at? (by simp)
  | parent => exact map_of_rel (h.parentOf? hk hx) fun _ _ hr => hr
  | root => exact .some (h.root hk hrules)
  | resolve => exact .some hrules

/-- So do looks, one after the other, or they fail at the same one. The ids of
the names that they ask for have to be recorded. -/
theorem looks (h : Facing k k' log log' s s') (hk : Compilation.Reordering k k' issued issued')
    (hx : Corresponding k k' x x') (index : Nat) {looks : List Look}
    (hids : RuleIds.Recorded (ids.allocateAll (looks.filterMap Look.name?)) k.epoch issued)
    (hids' : RuleIds.Recorded (ids'.allocateAll (looks.filterMap Look.name?)) k'.epoch issued') :
    (∃ failure, s.looks ids x index looks = .error failure
      ∧ s'.looks ids' x' index looks = .error failure)
    ∨ ∃ y y', s.looks ids x index looks = .ok y ∧ s'.looks ids' x' index looks = .ok y'
      ∧ Corresponding k k' y y' := by
  induction looks generalizing x x' ids ids' index with
  | nil => exact .inr ⟨x, x', rfl, rfl, hx⟩
  | cons look rest ih =>
    have hnames : (look :: rest).filterMap Look.name?
        = look.name?.toList ++ rest.filterMap Look.name? := by
      rw [List.filterMap_cons]
      cases look.name? <;> rfl
    rw [hnames, RuleIds.allocateAll_append] at hids hids'
    rw [Snapshot.looks, Snapshot.looks]
    rcases cases_of_rel (h.look? hk hx hids.of_allocateAll hids'.of_allocateAll)
      with ⟨hnone, hnone'⟩ | ⟨y, y', hy, hy', hcorresponding⟩
    · rw [hnone, hnone']
      exact .inl ⟨_, rfl, rfl⟩
    · rw [hy, hy']
      exact ih hcorresponding (index + 1) hids hids'

end Facing

/-- Looks that end at nodes that correspond, as do the rules that these
resolve to, or that fail at the same one. -/
def EndsCorresponding (k k' : Compilation) (out out' : Except WalkFailure Node × Session) : Prop :=
  (∃ failure, out.1 = .error failure ∧ out'.1 = .error failure)
  ∨ ∃ x x', out.1 = .ok x ∧ out'.1 = .ok x' ∧ Corresponding k k' x x'
    ∧ Corresponding k k' (.rule (out.2.snapshot.resolve x)) (.rule (out'.2.snapshot.resolve x'))
    ∧ (out.2.snapshot.resolve x).Matches (Corresponding k k') (out'.2.snapshot.resolve x')

/-- Looks from the empty rule find nothing, at every moment alike. -/
theorem Snapshot.looks_empty (s s' : Snapshot) (ids ids' : RuleIds) (index : Nat)
    (looks : List Look) :
    (∃ failure, s.looks ids (.rule .empty) index looks = .error failure
      ∧ s'.looks ids' (.rule .empty) index looks = .error failure)
    ∨ s.looks ids (.rule .empty) index looks = .ok (.rule .empty)
      ∧ s'.looks ids' (.rule .empty) index looks = .ok (.rule .empty) := by
  induction looks generalizing ids ids' index with
  | nil => exact .inr ⟨rfl, rfl⟩
  | cons look rest ih =>
    rw [Snapshot.looks, Snapshot.looks]
    cases look with
    | into spot =>
      have hnone : ∀ (s : Snapshot) (ids : RuleIds),
          s.look? ids (.rule .empty) (.into spot) = none := fun s ids =>
        (s.look?_into ids _ spot).trans (Rule.at?_empty _ spot)
      rw [hnone, hnone]
      exact .inl ⟨_, rfl, rfl⟩
    | parent => exact .inl ⟨_, rfl, rfl⟩
    | root => exact ih ids ids' (index + 1)
    | resolve => exact ih ids ids' (index + 1)

end ScopeRules
