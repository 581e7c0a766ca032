/-
Two moments that look the same. A caller at one moment of one run, and a
caller at one moment of another, have compiled the same documents in a
table, and hold the same rules of them, up to a pairing of the compilations.
`Mirror` says so, and this file follows references and takes steps at both
moments at once.

# What is paired

`Paired` is about the two logs: it pairs documents of a table of the one with
documents of a table of the other, each with a compilation of the same
document, and says of the sessions of ids in which they were compiled that
the second run separates what the first one separates. `Alike` are twins under
one of the pairs, or the empty rule twice.

# What follows

- `Mirror.alive_iff`: twins are alive together, so climbing takes the same
  way (`Mirror.lineage`).
- `Mirror.target`: twin references have targets that are alike, with one
  exception: an entry of another grammar is missed at the second moment if
  the ids were compacted between the two documents there and only there.
- `Mirror.resolve` is the same for chains of references, by induction on
  the hops; `Mirror.next?` for a step of a walk.
-/
import ScopeRules.Proofs.Likeness
import ScopeRules.Proofs.NearestEntry

namespace ScopeRules

-- =============================================================== alike

/-- Nodes that are twins under one of the pairs, or the empty rule twice. -/
inductive Alike (pairs : List (Compilation × Compilation)) : Node → Node → Prop where
  | empty : Alike pairs (.rule .empty) (.rule .empty)
  | twins {q : Compilation × Compilation} {x x' : Node} (mem : q ∈ pairs)
      (twins : q.1.Twins q.2 x x') : Alike pairs x x'

theorem alike_rule_iff {pairs : List (Compilation × Compilation)} {r r' : Rule} :
    Alike pairs (.rule r) (.rule r')
      ↔ (r = .empty ∧ r' = .empty) ∨ ∃ q ∈ pairs, q.1.Twins q.2 (.rule r) (.rule r') := by
  constructor
  · intro h
    generalize hx : Node.rule r = x at h
    generalize hx' : Node.rule r' = x' at h
    cases h with
    | empty => exact .inl ⟨Node.rule.inj hx, Node.rule.inj hx'⟩
    | twins mem twins =>
      subst hx hx'
      exact .inr ⟨_, mem, twins⟩
  · intro h
    rcases h with ⟨rfl, rfl⟩ | ⟨q, hq, twins⟩
    · exact .empty
    · exact .twins hq twins

/-- Entries that are twins, or the empty rule where there is none. -/
theorem alike_getD {pairs : List (Compilation × Compilation)} {q : Compilation × Compilation}
    (hq : q ∈ pairs) {x x' : Option Node} (h : Option.Rel (q.1.Twins q.2) x x') :
    Alike pairs (x.getD (.rule .empty)) (x'.getD (.rule .empty)) := by
  cases h with
  | none => exact .empty
  | some twins => exact .twins hq twins

/-- Documents of the tables `id` and `id'` in two logs, paired one by one, each
with one that was compiled from the same text; and records of the ids that
the tables issued, by which documents of one session in the second log are of
one session in the first. -/
structure Paired (id id' : TableId) (log log' : List Compilation)
    (issued issued' : List (Nat × String)) (pairs : List (Compilation × Compilation)) : Prop where
  coherent : Coherent log
  coherent' : Coherent log'
  left : (pairs.map Prod.fst).Nodup
  right : (pairs.map Prod.snd).Nodup
  mem_left : ∀ {q : Compilation × Compilation}, q ∈ pairs → q.1 ∈ log ∧ q.1.table.id = id
  mem_right : ∀ {q : Compilation × Compilation}, q ∈ pairs → q.2 ∈ log' ∧ q.2.table.id = id'
  document : ∀ q ∈ pairs, q.1.document = q.2.document
  distinct : issued.Nodup
  distinct' : issued'.Nodup
  recorded : ∀ q ∈ pairs, RuleIds.Recorded q.1.context.ruleIds q.1.epoch issued
  recorded' : ∀ q ∈ pairs, RuleIds.Recorded q.2.context.ruleIds q.2.epoch issued'
  epochs : ∀ p ∈ pairs, ∀ q ∈ pairs, p.2.epoch = q.2.epoch → p.1.epoch = q.1.epoch

/-- What is paired is of the log and of the table. -/
theorem mem_log_of_perm {id : TableId} {log : List Compilation}
    {pairs : List (Compilation × Compilation)} {f : Compilation × Compilation → Compilation}
    (h : (pairs.map f).Perm (log.filter fun k => k.table.id = id)) {q : Compilation × Compilation}
    (hq : q ∈ pairs) : f q ∈ log ∧ (f q).table.id = id := by
  have hmem := h.subset (List.mem_map_of_mem hq)
  simpa using hmem

/-- No document is twice in a coherent log. -/
theorem Coherent.nodup {log : List Compilation} (h : Coherent log) : log.Nodup := by
  refine h.imp fun {j k} hjk heq => ?_
  subst heq
  have hroot := j.id_of_mem_rules j.root_mem_rules
  have hlast := hjk rfl
  omega

namespace Paired

variable {id id' : TableId} {log log' : List Compilation} {issued issued' : List (Nat × String)}
  {pairs : List (Compilation × Compilation)} {q : Compilation × Compilation}

/-- Rules that are alike come from the two logs. -/
theorem known_left (h : Paired id id' log log' issued issued' pairs) {r r' : Rule}
    (hr : Alike pairs (.rule r) (.rule r')) : Known log (.rule r) := by
  rcases alike_rule_iff.1 hr with ⟨hempty, -⟩ | ⟨q, hq, htwins⟩
  · exact .inl hempty
  · exact .inr ⟨q.1, (h.mem_left hq).1, htwins.mem_left⟩

theorem known_right (h : Paired id id' log log' issued issued' pairs) {r r' : Rule}
    (hr : Alike pairs (.rule r) (.rule r')) : Known log' (.rule r') := by
  rcases alike_rule_iff.1 hr with ⟨-, hempty⟩ | ⟨q, hq, htwins⟩
  · exact .inl hempty
  · exact .inr ⟨q.2, (h.mem_right hq).1, htwins.mem_right⟩

/-- A document is in one pair only. -/
theorem eq_iff (h : Paired id id' log log' issued issued' pairs) {p : Compilation × Compilation}
    (hp : p ∈ pairs) (hq : q ∈ pairs) : p.1 = q.1 ↔ p.2 = q.2 := by
  constructor
  · intro heq
    rw [List.inj_on_of_nodup_map h.left hp hq heq]
  · intro heq
    rw [List.inj_on_of_nodup_map h.right hp hq heq]

/-- Alike rules tell each other apart: on one side they are equal if and
only if they are on the other. -/
theorem alike_eq_iff (h : Paired id id' log log' issued issued' pairs) {r r' s s' : Rule}
    (hr : Alike pairs (.rule r) (.rule r')) (hs : Alike pairs (.rule s) (.rule s')) :
    r = s ↔ r' = s' := by
  have hne : ∀ {k : Compilation} {r : Rule}, r ∈ k.rules → r ≠ .empty := by
    intro k r hr heq
    exact Compilation.id_ne_empty hr (congrArg Rule.id heq)
  cases hr with
  | empty =>
    cases hs with
    | empty => simp
    | twins mem twins =>
      simp [(hne twins.mem_left).symm, (hne twins.mem_right).symm]
  | @twins p _ _ hp hr =>
    cases hs with
    | empty => simp [hne hr.mem_left, hne hr.mem_right]
    | @twins q _ _ hq hs =>
      -- equal rules are of one document, and so are their twins
      constructor
      · intro heq
        subst heq
        have hpq := h.coherent.eq_of_mem_rules (h.mem_left hp).1 (h.mem_left hq).1 hr.mem_left
          hs.mem_left rfl
        obtain rfl : p = q := Prod.ext hpq ((h.eq_iff hp hq).1 hpq)
        exact (hr.eq_iff hs).1 rfl
      · intro heq
        subst heq
        have hpq := h.coherent'.eq_of_mem_rules (h.mem_right hp).1 (h.mem_right hq).1
          hr.mem_right hs.mem_right rfl
        obtain rfl : p = q := Prod.ext ((h.eq_iff hp hq).2 hpq) hpq
        exact (hr.eq_iff hs).2 rfl

/-- Under ids that a name got in two sessions, twins have twin entries. The
one exception is a second session that is not that of the document, while
the first one is. -/
theorem entryAt? (h : Paired id id' log log' issued issued' pairs) (hq : q ∈ pairs) {r r' : Rule}
    (htwins : q.1.Twins q.2 (.rule r) (.rule r')) {ids ids' : RuleIds} {epoch epoch' : Nat}
    {name : String} {i i' : RuleId} (hids : RuleIds.Recorded ids epoch issued)
    (hids' : RuleIds.Recorded ids' epoch' issued') (hi : ids.get? name = some i)
    (hi' : ids'.get? name = some i') (hepoch : epoch' = q.2.epoch → epoch = q.1.epoch) :
    Option.Rel (q.1.Twins q.2) (r.entryAt? i) (r'.entryAt? i')
      ∨ (r'.entryAt? i' = none ∧ epoch = q.1.epoch ∧ epoch' ≠ q.2.epoch) := by
  obtain ⟨d, outer, outer', htrail, htrail', -⟩ := htwins.exists_trails (h.document q hq)
  rw [htrail.entryAt?_of_get? h.distinct hids (h.recorded q hq) hi,
    htrail'.entryAt?_of_get? h.distinct' hids' (h.recorded' q hq) hi']
  by_cases hsecond : epoch' = q.2.epoch
  · rw [if_pos hsecond, if_pos (hepoch hsecond)]
    exact .inl (Compilation.Twins.entryNamed? htrail htrail' htwins name)
  · rw [if_neg hsecond]
    by_cases hfirst : epoch = q.1.epoch
    · exact .inr ⟨rfl, hfirst, hsecond⟩
    · rw [if_neg hfirst]
      exact .inl .none

/-- Alike rules show the same, and have nodes that are alike at the same
places. -/
theorem like (h : Paired id id' log log' issued issued' pairs) {r r' : Rule}
    (hr : Alike pairs (.rule r) (.rule r')) : r.Like (Alike pairs) r' := by
  rcases alike_rule_iff.1 hr with ⟨rfl, rfl⟩ | ⟨q, hq, htwins⟩
  · exact ⟨rfl, .nil, .nil, .nil, .nil⟩
  · exact (htwins.like (h.document q hq)).mono fun x x' hx => .twins hq hx

/-- Alike rules cannot be told apart by looking at them. -/
theorem face_eq (h : Paired id id' log log' issued issued' pairs) {r r' : Rule}
    (hr : Alike pairs (.rule r) (.rule r')) : r.face = r'.face := by
  apply (h.like hr).face_eq
  rcases alike_rule_iff.1 hr with ⟨rfl, rfl⟩ | ⟨q, hq, htwins⟩
  · rfl
  · exact htwins.length_repository (h.document q hq)
      (Compilation.idsApart_of_recorded (h.recorded q hq))
      (Compilation.idsApart_of_recorded (h.recorded' q hq))

end Paired

-- ============================================================== mirrors

/-- Two moments that look the same: what is held and what the table has
registered, is so at both. -/
structure Mirror (id id' : TableId) (log log' : List Compilation)
    (pairs : List (Compilation × Compilation)) (s s' : Snapshot) : Prop where
  «from» : s.From log
  from' : s'.From log'
  held : ∀ q ∈ pairs, ∀ r r', q.1.Twins q.2 (.rule r) (.rule r') → (r ∈ s.held ↔ r' ∈ s'.held)
  lookup : ∃ t t', s.table? id = some t ∧ s'.table? id' = some t'
    ∧ ∀ scope, Alike pairs (.rule (t.lookup scope)) (.rule (t'.lookup scope))

/-- A reference to an entry of another grammar. -/
def Reference.isForeignEntry : Reference → Bool
  | .foreign _ _ (some _) _ => true
  | _ => false

/-- While held rules have held twins, live rules have live twins. -/
theorem Snapshot.From.alive_of_twins {s s' : Snapshot} {log : List Compilation} (hs : s.From log)
    (hlog : Coherent log) {k k' : Compilation} (hk : k ∈ log)
    (hdocument : k.document = k'.document) (hids : k'.IdsApart)
    (hheld : ∀ o o', k.Twins k' (.rule o) (.rule o') → o ∈ s.held → o' ∈ s'.held) {r r' : Rule}
    (h : k.Twins k' (.rule r) (.rule r')) (hr : s.Alive r) : s'.Alive r' := by
  obtain ⟨o, ho, hr⟩ := hr
  rcases hs.held o ho with rfl | ⟨j, hj, hoj⟩
  · rcases Rule.mem_owned_iff.1 hr with rfl | ⟨t, ht, -⟩
    · exact absurd rfl (Compilation.id_ne_empty h.mem_left)
    · cases ht
  · obtain rfl := hlog.eq_of_mem_rules hj hk (Compilation.mem_rules_of_mem_owned hoj hr)
      h.mem_left rfl
    obtain ⟨o', htwins⟩ := Compilation.exists_twins hdocument hoj
    exact ⟨o', hheld o o' htwins ho, htwins.mem_owned hdocument hids h hr⟩

/-- The moment at which these rules are held as well. -/
def Snapshot.keeping (s : Snapshot) (kept : List Rule) : Snapshot :=
  { s with held := s.held ++ kept }

@[simp] theorem Snapshot.keeping_nil (s : Snapshot) : s.keeping [] = s := by simp [keeping]

theorem Snapshot.From.keeping {s : Snapshot} {log : List Compilation} (hs : s.From log)
    {kept : List Rule} (hkept : ∀ r ∈ kept, Known log (.rule r)) : (s.keeping kept).From log := by
  refine ⟨fun r hr => ?_, hs.registered⟩
  rcases List.mem_append.1 hr with hr | hr
  · exact hs.held r hr
  · exact hkept r hr

namespace Mirror

variable {id id' : TableId} {log log' : List Compilation} {issued issued' : List (Nat × String)}
  {pairs : List (Compilation × Compilation)} {q : Compilation × Compilation} {s s' : Snapshot}
  {r r' : Rule}

/-- Two moments go on looking the same if rules that are alike are held as
well. -/
theorem keeping (h : Mirror id id' log log' pairs s s') (hp : Paired id id' log log' issued issued' pairs)
    {kept kept' : List Rule}
    (hkept : List.Forall₂ (fun r r' => Alike pairs (.rule r) (.rule r')) kept kept') :
    Mirror id id' log log' pairs (s.keeping kept) (s'.keeping kept') where
  «from» := by
    apply h.from.keeping
    intro r hr
    obtain ⟨r', -, halike⟩ := exists_of_forall₂_left hkept hr
    exact hp.known_left halike
  from' := by
    apply h.from'.keeping
    intro r' hr'
    obtain ⟨r, -, halike⟩ := exists_of_forall₂_right hkept hr'
    exact hp.known_right halike
  held := by
    intro q hq r r' htwins
    have hrule := Alike.twins hq htwins
    have hmem : r ∈ kept ↔ r' ∈ kept' := by
      constructor
      · intro hr
        obtain ⟨t, ht, halike⟩ := exists_of_forall₂_left hkept hr
        rwa [(hp.alike_eq_iff hrule halike).1 rfl]
      · intro hr
        obtain ⟨t, ht, halike⟩ := exists_of_forall₂_right hkept hr
        rwa [(hp.alike_eq_iff hrule halike).2 rfl]
    simp only [Snapshot.keeping, List.mem_append, hmem, h.held q hq r r' htwins]
  lookup := h.lookup

/-- Twins are alive together. -/
theorem alive_iff (h : Mirror id id' log log' pairs s s')
    (hp : Paired id id' log log' issued issued' pairs) (hq : q ∈ pairs)
    (htwins : q.1.Twins q.2 (.rule r) (.rule r')) : s.Alive r ↔ s'.Alive r' := by
  constructor
  · apply h.from.alive_of_twins hp.coherent (hp.mem_left hq).1 (hp.document q hq)
      (Compilation.idsApart_of_recorded (hp.recorded' q hq))
    · exact fun o o' ho => (h.held q hq o o' ho).1
    · exact htwins
  · apply h.from'.alive_of_twins hp.coherent' (hp.mem_right hq).1 (hp.document q hq).symm
      (Compilation.idsApart_of_recorded (hp.recorded q hq))
    · exact fun o o' ho => (h.held q hq o' o ho.symm).2
    · exact htwins.symm

theorem isAlive_eq (h : Mirror id id' log log' pairs s s')
    (hp : Paired id id' log log' issued issued' pairs) (hq : q ∈ pairs)
    (htwins : q.1.Twins q.2 (.rule r) (.rule r')) : s.isAlive r = s'.isAlive r' := by
  rw [Bool.eq_iff_iff, h.from.isAlive_iff hp.coherent (hp.known_left (.twins hq htwins)),
    h.from'.isAlive_iff hp.coherent' (hp.known_right (.twins hq htwins))]
  exact h.alive_iff hp hq htwins

/-- Weak links to twins lead to them, or nowhere. -/
theorem rule? (h : Mirror id id' log log' pairs s s')
    (hp : Paired id id' log log' issued issued' pairs) (hq : q ∈ pairs)
    (htwins : q.1.Twins q.2 (.rule r) (.rule r')) :
    (s.rule? r.id = some r ∧ s'.rule? r'.id = some r')
      ∨ (s.rule? r.id = none ∧ s'.rule? r'.id = none) := by
  rw [h.from.rule?_id hp.coherent (hp.known_left (.twins hq htwins)),
    h.from'.rule?_id hp.coherent' (hp.known_right (.twins hq htwins)), h.isAlive_eq hp hq htwins]
  cases s'.isAlive r' with
  | true => exact .inl ⟨rfl, rfl⟩
  | false => exact .inr ⟨rfl, rfl⟩

/-- Climbing from twins visits twins. -/
theorem lineage (h : Mirror id id' log log' pairs s s')
    (hp : Paired id id' log log' issued issued' pairs) (hq : q ∈ pairs)
    (htwins : q.1.Twins q.2 (.rule r) (.rule r')) :
    ∃ trail trail' : List (Rule × Document), s.lineage r = trail.map Prod.fst
      ∧ s'.lineage r' = trail'.map Prod.fst ∧ List.Forall₂ (q.1.Beside q.2) trail trail' := by
  obtain ⟨d, outer, outer', htrail, htrail', hbeside⟩ := htwins.exists_trails (hp.document q hq)
  cases hbeside with
  | cons hf houter =>
    refine ⟨(r, d) :: outer.takeWhile (s.isAlive ∘ Prod.fst),
      (r', d) :: outer'.takeWhile (s'.isAlive ∘ Prod.fst), ?_, ?_, .cons hf ?_⟩
    · rw [h.from.lineage_eq hp.coherent (hp.mem_left hq).1 htrail, List.takeWhile_map]
      rfl
    · rw [h.from'.lineage_eq hp.coherent' (hp.mem_right hq).1 htrail', List.takeWhile_map]
      rfl
    · exact takeWhile_of_forall₂ houter fun f f' hf => h.isAlive_eq hp hq hf.twins

theorem root (h : Mirror id id' log log' pairs s s')
    (hp : Paired id id' log log' issued issued' pairs) (hq : q ∈ pairs)
    (htwins : q.1.Twins q.2 (.rule r) (.rule r')) :
    q.1.Twins q.2 (.rule (s.root r)) (.rule (s'.root r')) := by
  obtain ⟨trail, trail', hlineage, hlineage', hbeside⟩ := h.lineage hp hq htwins
  have hrules : List.Forall₂ (fun x x' => q.1.Twins q.2 (.rule x) (.rule x'))
      (s.lineage r) (s'.lineage r') := by
    rw [hlineage, hlineage']
    exact List.rel_map (fun f f' hf => hf.twins) hbeside
  exact getD_of_rel (R := fun x x' => q.1.Twins q.2 (.rule x) (.rule x'))
    (getLast?_of_forall₂ hrules) htwins

-- ================================================================= hops

/-- What is missed at the second moment only. -/
def Missed (pairs : List (Compilation × Compilation)) : Prop :=
  ∃ p ∈ pairs, ∃ q ∈ pairs, p.1.epoch = q.1.epoch ∧ p.2.epoch ≠ q.2.epoch

/-- If what is paired is of one session of ids, nothing is missed. -/
theorem not_missed (h : ∀ q ∈ pairs, q.1.epoch = q.2.epoch) : ¬ Missed pairs := by
  rintro ⟨p, hp, q, hq, hleft, hright⟩
  rw [← h p hp, ← h q hq] at hright
  exact hright hleft

/-- One hop from references to an entry of an enclosing rule. -/
theorem target_entry (h : Mirror id id' log log' pairs s s')
    (hp : Paired id id' log log' issued issued' pairs) (hq : q ∈ pairs)
    (hanchors : q.1.Twins q.2 (.rule r) (.rule r')) {name : String} {i i' : RuleId}
    (hi : q.1.context.ruleIds.get? name = some i) (hi' : q.2.context.ruleIds.get? name = some i') :
    Alike pairs (s.target (.entry i (some r.id))) (s'.target (.entry i' (some r'.id))) := by
  simp only [Snapshot.target_entry, Option.bind_some]
  rcases h.rule? hp hq hanchors with ⟨hfound, hfound'⟩ | ⟨hnone, hnone'⟩
  · obtain ⟨trail, trail', hlineage, hlineage', hbeside⟩ := h.lineage hp hq hanchors
    rw [hfound, hfound', Option.bind_some, Option.bind_some, hlineage, hlineage',
      List.findSome?_map, List.findSome?_map]
    refine alike_getD hq (findSome?_of_forall₂ hbeside fun f f' hf => ?_)
    -- every rule on the way was compiled with the ids of the reference
    rcases hp.entryAt? hq hf.twins (hp.recorded q hq) (hp.recorded' q hq) hi hi' fun _ => rfl
      with hentry | ⟨-, -, hne⟩
    · exact hentry
    · exact absurd rfl hne
  · rw [hnone, hnone']
    exact .empty

/-- One hop from references to the enclosing grammar. -/
theorem target_root (h : Mirror id id' log log' pairs s s')
    (hp : Paired id id' log log' issued issued' pairs) (hq : q ∈ pairs)
    (hanchors : q.1.Twins q.2 (.rule r) (.rule r')) :
    Alike pairs (s.target (.root (some r.id))) (s'.target (.root (some r'.id))) := by
  simp only [Snapshot.target_root, Option.bind_some]
  rcases h.rule? hp hq hanchors with ⟨hfound, hfound'⟩ | ⟨hnone, hnone'⟩
  · rw [hfound, hfound']
    exact .twins hq (h.root hp hq hanchors)
  · rw [hnone, hnone']
    exact .empty

/-- Under the ids that the two documents of a pair have for a name, rules
that are alike have entries that are alike, unless the ids were compacted
between rule and document on the second side only. -/
theorem alike_entryAt? (hp : Paired id id' log log' issued issued' pairs) (hq : q ∈ pairs)
    (hr : Alike pairs (.rule r) (.rule r')) {name : String} {i i' : RuleId}
    (hi : q.1.context.ruleIds.get? name = some i) (hi' : q.2.context.ruleIds.get? name = some i') :
    Alike pairs ((r.entryAt? i).getD (.rule .empty)) ((r'.entryAt? i').getD (.rule .empty))
      ∨ ((r'.entryAt? i').getD (.rule .empty) = .rule .empty ∧ Missed pairs) := by
  rcases alike_rule_iff.1 hr with ⟨rfl, rfl⟩ | ⟨j, hj, htwins⟩
  · exact .inl .empty
  · have hepoch := hp.epochs q hq j hj
    rcases hp.entryAt? hj htwins (hp.recorded q hq) (hp.recorded' q hq) hi hi' hepoch
      with hentry | ⟨hnone, hfirst, hsecond⟩
    · exact .inl (alike_getD hj hentry)
    · rw [hnone]
      exact .inr ⟨rfl, q, hq, j, hj, hfirst, hsecond⟩

/-- One hop from twin references leads to nodes that are alike, unless it
asks for an entry of another grammar and misses it. -/
theorem target (h : Mirror id id' log log' pairs s s')
    (hp : Paired id id' log log' issued issued' pairs) (hq : q ∈ pairs) {p p' : Reference}
    (htwins : q.1.Twins q.2 (.reference p) (.reference p')) :
    Alike pairs (s.target p) (s'.target p')
      ∨ (p.isForeignEntry = true ∧ s'.target p' = .rule .empty ∧ Missed pairs) := by
  obtain ⟨r, r', target, hanchors, hp₁, hp₂, hnames⟩ := htwins.exists_reference_eq
  subst hp₁ hp₂
  have hget : ∀ name, target.name? = some name →
      q.1.context.ruleIds.get? name = some (q.1.context.ruleId name)
        ∧ q.2.context.ruleIds.get? name = some (q.2.context.ruleId name) := by
    intro name hname
    refine ⟨Compilation.get?_ruleIds (hnames name hname), Compilation.get?_ruleIds ?_⟩
    rw [← hp.document q hq]
    exact hnames name hname
  cases target with
  | entry name =>
    obtain ⟨hi, hi'⟩ := hget name rfl
    exact .inl (h.target_entry hp hq hanchors hi hi')
  | root => exact .inl (h.target_root hp hq hanchors)
  | foreign scope name =>
    have htable : q.1.context.table = id := (hp.mem_left hq).2
    have htable' : q.2.context.table = id' := (hp.mem_right hq).2
    have htext : (q.1.context.symbol scope).text = scope := Interner.text_intern _ _
    have htext' : (q.2.context.symbol scope).text = scope := Interner.text_intern _ _
    obtain ⟨t, t', ht, ht', hlookup⟩ := h.lookup
    simp only [Context.reference, Snapshot.target_foreign, htable, htable', ht, ht',
      Option.map_some, Option.getD_some, htext, htext']
    cases name with
    | none => exact .inl (hlookup scope)
    | some name =>
      obtain ⟨hi, hi'⟩ := hget name rfl
      rcases alike_entryAt? hp hq (hlookup scope) hi hi' with halike | hmiss
      · exact .inl halike
      · exact .inr ⟨rfl, hmiss⟩

-- ========================================================== resolution

/-- Chains of references from nodes that are alike lead to nodes that are
alike, or the second one misses an entry of another grammar that the first
one finds. The induction is on the hops. -/
theorem follow (h : Mirror id id' log log' pairs s s')
    (hp : Paired id id' log log' issued issued' pairs) {x x' : Node} (hx : Alike pairs x x') (n : Nat) :
    Alike pairs (s.follow n x) (s'.follow n x')
      ∨ (s'.follow n x' = .rule .empty ∧ Missed pairs
        ∧ ∃ m < n, ∃ p, s.follow m x = .reference p ∧ p.isForeignEntry = true) := by
  induction n generalizing x x' with
  | zero => exact .inl hx
  | succ n ih =>
    cases hx with
    | empty => exact .inl .empty
    | twins hq htwins =>
      cases htwins with
      | rule left right => exact .inl (.twins hq (.rule left right))
      | reference anchors left memLeft right memRight =>
        rcases h.target hp hq (.reference anchors left memLeft right memRight)
          with htarget | ⟨hforeign, hempty, hmissed⟩
        · rcases ih htarget with hrest | ⟨hend, hmissed, m, hm, hthere⟩
          · exact .inl hrest
          · exact .inr ⟨hend, hmissed, m + 1, by omega, hthere⟩
        · refine .inr ⟨?_, hmissed, 0, by omega, _, rfl, hforeign⟩
          rw [Snapshot.follow, hempty]
          cases n <;> rfl

/-- What nodes that are alike resolve to, is alike, or the second one
resolves to nothing. -/
theorem resolve (h : Mirror id id' log log' pairs s s')
    (hp : Paired id id' log log' issued issued' pairs) {x x' : Node} (hx : Alike pairs x x') :
    Alike pairs (.rule (s.resolve x)) (.rule (s'.resolve x'))
      ∨ (s'.resolve x' = .empty ∧ Missed pairs
        ∧ ∃ m < Snapshot.maxHops, ∃ p, s.follow m x = .reference p ∧ p.isForeignEntry = true) := by
  unfold Snapshot.resolve
  rcases h.follow hp hx Snapshot.maxHops with hend | ⟨hempty, hmissed⟩
  · refine .inl ?_
    revert hend
    generalize s.follow Snapshot.maxHops x = y
    generalize s'.follow Snapshot.maxHops x' = y'
    intro hend
    cases hend with
    | empty => exact .empty
    | twins hq htwins =>
      cases htwins with
      | rule left right => exact .twins hq (.rule left right)
      | reference => exact .empty
  · rw [hempty]
    exact .inr ⟨rfl, hmissed⟩

/-- While nothing is missed, nodes that are alike resolve alike. -/
theorem alike_resolve (h : Mirror id id' log log' pairs s s')
    (hp : Paired id id' log log' issued issued' pairs) (hmissed : ¬ Missed pairs) {x x' : Node}
    (hx : Alike pairs x x') : Alike pairs (.rule (s.resolve x)) (.rule (s'.resolve x')) := by
  rcases h.resolve hp hx with halike | ⟨-, hmiss, -⟩
  · exact halike
  · exact absurd hmiss hmissed

-- =============================================================== steps

/-- Nodes that are alike were compiled under rules that are. -/
theorem parentOf? (h : Mirror id id' log log' pairs s s')
    (hp : Paired id id' log log' issued issued' pairs) {x x' : Node} (hx : Alike pairs x x') :
    Option.Rel (fun r r' => Alike pairs (.rule r) (.rule r')) (s.parentOf? x)
      (s'.parentOf? x') := by
  cases hx with
  | empty => exact .none
  | @twins q _ _ hq htwins =>
    cases htwins with
    | rule left right =>
      have htwins := Compilation.Twins.rule left right
      obtain ⟨d, outer, outer', htrail, htrail', hbeside⟩ :=
        htwins.exists_trails (hp.document q hq)
      simp only [Snapshot.parentOf?, Snapshot.parent?, htrail.parent_eq, htrail'.parent_eq]
      cases hbeside with
      | cons _ houter =>
        cases houter with
        | nil => exact .none
        | cons hf _ =>
          simp only [List.head?_cons, Option.map_some, Option.bind_some]
          rcases h.rule? hp hq hf.twins with ⟨hfound, hfound'⟩ | ⟨hnone, hnone'⟩
          · rw [hfound, hfound']
            exact .some (.twins hq hf.twins)
          · rw [hnone, hnone']
            exact .none
    | reference anchors left memLeft right memRight =>
      simp only [Snapshot.parentOf?, Snapshot.anchor?, left.anchor_eq memLeft,
        right.anchor_eq memRight, Option.bind_some]
      rcases h.rule? hp hq anchors with ⟨hfound, hfound'⟩ | ⟨hnone, hnone'⟩
      · rw [hfound, hfound']
        exact .some (.twins hq anchors)
      · rw [hnone, hnone']
        exact .none

/-- Around rules that are alike, the outermost live rules are alike. -/
theorem alike_root (h : Mirror id id' log log' pairs s s')
    (hp : Paired id id' log log' issued issued' pairs)
    (hr : Alike pairs (.rule r) (.rule r')) :
    Alike pairs (.rule (s.root r)) (.rule (s'.root r')) := by
  rcases alike_rule_iff.1 hr with ⟨rfl, rfl⟩ | ⟨q, hq, htwins⟩
  · exact .empty
  · exact .twins hq (h.root hp hq htwins)

/-- While nothing is missed, a step that asks for no id leads from nodes
that are alike to nodes that are alike, or nowhere at both moments. -/
theorem next? (h : Mirror id id' log log' pairs s s')
    (hp : Paired id id' log log' issued issued' pairs) (hmissed : ¬ Missed pairs) {x x' : Node}
    (hx : Alike pairs x x') {step : WalkStep} (hid : ∀ i, step ≠ .entryId i)
    (hname : ∀ name, step ≠ .entry name) (idOf idOf' : String → Option RuleId) :
    Option.Rel (Alike pairs) (s.next? idOf x step) (s'.next? idOf' x' step) := by
  have hrules := h.alike_resolve hp hmissed hx
  have hlike := hp.like hrules
  cases step with
  | child i => exact getElem?_of_forall₂ hlike.children i
  | injection i => exact map_of_rel (getElem?_of_forall₂ hlike.injections i) fun _ _ hi => hi.2
  | capture key i =>
    cases hkey : CaptureKey.ofSpelling? key with
    | none => simp [Snapshot.next?, hkey]
    | some key =>
      simp only [Snapshot.next?, hkey, Option.bind_some]
      refine bind_of_rel (hlike.captures.get? key) fun t t' ht => ?_
      refine bind_of_rel (ht.get? i) fun c c' hc => ?_
      cases hc with
      | label same => exact .none
      | rule related => exact .some related
  | entryId i => exact absurd rfl (hid i)
  | entry name => exact absurd rfl (hname name)
  | parent => exact map_of_rel (h.parentOf? hp hx) fun _ _ hr => hr
  | root => exact .some (h.alike_root hp hrules)
  | resolve => exact .some hrules

/-- While nothing is missed, an entry by name is found under the ids that
two sessions gave it, if these are sessions of the same documents. -/
theorem next?_entry (h : Mirror id id' log log' pairs s s')
    (hp : Paired id id' log log' issued issued' pairs) (hmissed : ¬ Missed pairs) {x x' : Node}
    (hx : Alike pairs x x') {ids ids' : RuleIds} {epoch epoch' : Nat} {name : String}
    {i i' : RuleId} (hids : RuleIds.Recorded ids epoch issued)
    (hids' : RuleIds.Recorded ids' epoch' issued') (hi : ids.get? name = some i)
    (hi' : ids'.get? name = some i')
    (hepoch : ∀ q ∈ pairs, epoch = q.1.epoch ↔ epoch' = q.2.epoch) :
    Option.Rel (Alike pairs) (s.next? (fun _ => some i) x (.entry name))
      (s'.next? (fun _ => some i') x' (.entry name)) := by
  have hrules := h.alike_resolve hp hmissed hx
  simp only [Snapshot.next?, Option.bind_some]
  rcases alike_rule_iff.1 hrules with ⟨hempty, hempty'⟩ | ⟨q, hq, htwins⟩
  · rw [hempty, hempty']
    exact .none
  · rcases hp.entryAt? hq htwins hids hids' hi hi' (hepoch q hq).2
      with hentry | ⟨-, hfirst, hsecond⟩
    · exact imp_of_rel hentry fun _ _ hx => .twins hq hx
    · exact absurd ((hepoch q hq).1 hfirst) hsecond

end Mirror

end ScopeRules
