/-
What a compaction can do to what was loaded before and after it. A run of a
table is compared with one that makes the same steps and compacts some more
times: the second one registers the same, and its references lead to the
same, or miss.

# The invariant

`World.Parallel` relates the two worlds while they run: they are abreast,
the documents paired in the order in which they were loaded, and a document
of the session of ids that is running in the second world is of the running
one in the first. `Parallel.step` and `Parallel.compact` keep it, and the
run lemma `Parallel.steps` is by induction on how compactions were inserted.
So documents of one session in the second run are of one session in the
first, and an id of the second run is never taken for a name that it does
not have in the first (`Mirror.resolve`).
-/
import ScopeRules.Proofs.Abreast

namespace ScopeRules

-- ================================================= further compactions

/-- Whether some steps are others with further compactions among them. -/
inductive Inserted : List TableStep → List TableStep → Prop where
  | nil : Inserted [] []
  | step (s : TableStep) {steps more : List TableStep} (rest : Inserted steps more) :
      Inserted (s :: steps) (s :: more)
  | compact {steps more : List TableStep} (rest : Inserted steps more) :
      Inserted steps (.compact :: more)

/-- What registers nothing leaves registries as far apart as they were. -/
theorem TableStep.rel_registry {R : Entry → Entry → Prop} {t t' : Table}
    (h : ∀ scope, Option.Rel R (t.registry.get? scope) (t'.registry.get? scope))
    {step : TableStep} (hstep : ∀ d, step ≠ .add d) (i i' : Interner) (scope : String) :
    Option.Rel R ((step.of t i).registry.get? scope) ((step.of t' i').registry.get? scope) := by
  cases step with
  | add d => exact absurd rfl (hstep d)
  | clear => exact .none
  | compact => exact h scope
  | ruleId entry => exact h scope

namespace World

variable {w a b : World} {name : String} {id : TableId}

/-- The documents of a table in two runs, in the order in which they were
loaded. -/
def together (a b : World) (id : TableId) : List (Compilation × Compilation) :=
  (a.log.zip b.log).filter fun q => q.1.table.id = id

theorem together_self (w : World) (id : TableId) : w.together w id = w.itself id := by
  unfold together itself List.zip
  rw [List.zipWith_self, List.filter_map]
  rfl

theorem together_eq {a' b' : World} (hlog : a'.log = a.log) (hlog' : b'.log = b.log)
    (id : TableId) : a'.together b' id = a.together b id := by
  unfold together
  rw [hlog, hlog']

theorem together_append {a' b' : World} {k k' : Compilation} (hlog : a'.log = a.log ++ [k])
    (hlog' : b'.log = b.log ++ [k']) (hlength : a.log.length = b.log.length)
    (hid : k.table.id = id) : a'.together b' id = a.together b id ++ [(k, k')] := by
  unfold together
  rw [hlog, hlog', List.zip_append hlength, List.filter_append]
  simp [hid]

-- ============================================================ two runs

/-- Two runs go on from `w` in the table `id`, the second one with further
compactions. -/
structure Parallel (w a b : World) (name : String) (id : TableId) : Prop where
  left : a.Reachable
  right : b.Reachable
  length : a.log.length = b.log.length
  abreast : Abreast w a b name id (a.together b id)
  current : ∀ q ∈ a.together b id, q.2.epoch = b.compactions id → q.1.epoch = a.compactions id

theorem parallel_self (hw : w.Reachable) {t : Table} (ht : w.session.table? name = some t) :
    Parallel w w w name t.id where
  left := hw
  right := hw
  length := rfl
  abreast := by
    rw [together_self]
    exact abreast_self hw ht
  current := by
    intro q hq
    rw [together_self] at hq
    obtain ⟨k, -, rfl⟩ := List.mem_map.1 hq
    exact fun h => h

/-- No document of the second run is of a later session than the running
one. -/
theorem Parallel.epoch_le (h : Parallel w a b name id) :
    ∀ q ∈ a.together b id, q.2.epoch ≤ b.compactions id := by
  intro q hq
  obtain ⟨hmem, hid⟩ := mem_log_of_perm h.abreast.right hq
  rw [← hid]
  exact h.right.epoch_le q.2 hmem

/-- A document that is added in both runs. -/
theorem Parallel.add (h : Parallel w a b name id) (d : Document) :
    Parallel w (a.perform (.add name d)) (b.perform (.add name d)) name id := by
  obtain ⟨k, k', hlog, hlog', hid, hepoch, habreast⟩ :=
    h.abreast.add h.left h.right d h.current
  have htogether := together_append hlog hlog' h.length hid
  refine ⟨h.left.perform _, h.right.perform _, by simp [hlog, hlog', h.length],
    htogether ▸ habreast, ?_⟩
  intro q hq
  rw [htogether] at hq
  rcases List.mem_append.1 hq with hq | hq
  · exact h.current q hq
  · rw [List.mem_singleton.1 hq]
    exact fun _ => hepoch

/-- A step that compiles nothing. -/
theorem Parallel.keep (h : Parallel w a b name id) {step : TableStep}
    (hstep : ∀ d, step ≠ .add d) :
    Parallel w (a.perform (step.on name)) (b.perform (step.on name)) name id := by
  obtain ⟨t, t', ht, ht', hid, hid', hregistry⟩ := h.abreast.registry
  have hlog := TableStep.log_perform a name hstep
  have hlog' := TableStep.log_perform b name hstep
  have htogether := together_eq hlog hlog' id
  refine ⟨h.left.perform _, h.right.perform _, by rw [hlog, hlog', h.length], ?_, ?_⟩
  · rw [htogether]
    apply h.abreast.keep hlog hlog' (step.nodeNames_perform a name) (step.nodeNames_perform b name)
    exact ⟨_, _, step.table?_perform ht, step.table?_perform ht', (step.of_id _).trans hid,
      (step.of_id _).trans hid', fun scope => TableStep.rel_registry hregistry hstep _ _ scope⟩
  · intro q hq
    rw [htogether] at hq
    have hepoch := h.epoch_le q hq
    have hcurrent := h.current q hq
    have hcompactions := step.compactions_perform ht
    have hcompactions' := step.compactions_perform ht'
    rw [hid] at hcompactions
    rw [hid'] at hcompactions'
    rw [hcompactions, hcompactions']
    -- a session that was just closed has no document of the second run
    split <;> omega

/-- A step that both runs make. -/
theorem Parallel.step (h : Parallel w a b name id) (step : TableStep) :
    Parallel w (a.perform (step.on name)) (b.perform (step.on name)) name id := by
  by_cases hadd : ∃ d, step = .add d
  · obtain ⟨d, rfl⟩ := hadd
    exact h.add d
  · apply h.keep
    intro d hd
    exact hadd ⟨d, hd⟩

/-- A compaction that only the second run makes. -/
theorem Parallel.compact (h : Parallel w a b name id) :
    Parallel w a (b.perform (.compact name)) name id := by
  obtain ⟨t, t', ht, ht', hid, hid', hregistry⟩ := h.abreast.registry
  have hlog : (b.perform (.compact name)).log = b.log := List.append_nil _
  have htogether := together_eq (a := a) rfl hlog id
  refine ⟨h.left, h.right.perform _, by rw [hlog, h.length], ?_, ?_⟩
  · rw [htogether]
    apply h.abreast.keep rfl hlog rfl (TableStep.nodeNames_perform b name .compact)
    exact ⟨_, _, ht, TableStep.table?_perform ht' .compact, hid, hid', hregistry⟩
  · intro q hq heq
    rw [htogether] at hq
    have hepoch := h.epoch_le q hq
    have hcompactions := TableStep.compactions_perform ht' .compact
    rw [hid'] at hcompactions
    have hnext : (b.perform (.compact name)).compactions id = b.compactions id + 1 := hcompactions
    omega

/-- Two runs, of which the second one compacts further times. The induction
is on how the compactions were inserted. -/
theorem Parallel.steps {steps more : List TableStep} (hmore : Inserted steps more) :
    ∀ {a b : World}, Parallel w a b name id →
      Parallel w (a.steps name steps) (b.steps name more) name id := by
  induction hmore with
  | nil => exact fun h => h
  | step s rest ih => exact fun h => ih (h.step s)
  | compact rest ih => exact fun h => ih h.compact

-- ============================================================== the law

/-- Further compactions turn hits into misses and do nothing else. A run of
a table and one with further compactions register the same scopes, with
rules that are alike. Every reference of the second run has one of the first
that it corresponds to; whatever rules are kept in both runs besides, it
resolves to a rule that is alike or to the empty rule, and to one that is
alike if the chain of the first run passes no reference to an entry of
another grammar. -/
theorem resolve_alike_or_empty (hw : w.Reachable) {t : Table}
    (ht : w.session.table? name = some t) {steps more : List TableStep}
    (hmore : Inserted steps more)
    (hroom : (w.steps name steps).allocations t.id ≤ RuleId.largest)
    (hroom' : (w.steps name more).allocations t.id ≤ RuleId.largest) :
    let a := w.steps name steps
    let b := w.steps name more
    let pairs := a.together b t.id
    (∃ u u', a.session.table? name = some u ∧ b.session.table? name = some u'
      ∧ u.scopes = u'.scopes
      ∧ ∀ scope, Alike pairs (.rule (u.lookup scope)) (.rule (u'.lookup scope)))
    ∧ (∀ k' ∈ b.log, k'.table.id = t.id → ∀ p', k'.Refers p' →
      ∃ k, (k, k') ∈ pairs ∧ k.document = k'.document
        ∧ ∃ p, k.Twins k' (.reference p) (.reference p'))
    ∧ ∀ kept kept', List.Forall₂ (fun r r' => Alike pairs (.rule r) (.rule r')) kept kept' →
      ∀ p p', Alike pairs (.reference p) (.reference p') →
      let s := a.session.snapshot.keeping kept
      let s' := b.session.snapshot.keeping kept'
      (Alike pairs (.rule (s.resolve (.reference p))) (.rule (s'.resolve (.reference p')))
        ∨ s'.resolve (.reference p') = .empty)
      ∧ ((∀ m < Snapshot.maxHops, ∀ passed, s.follow m (.reference p) = .reference passed →
          passed.isForeignEntry = false) →
        Alike pairs (.rule (s.resolve (.reference p))) (.rule (s'.resolve (.reference p')))) := by
  intro a b pairs
  have hparallel := Parallel.steps hmore (parallel_self hw ht)
  obtain ⟨issued, hissued⟩ := hparallel.left.sound.accounted t.id hroom
  obtain ⟨issued', hissued'⟩ := hparallel.right.sound.accounted t.id hroom'
  have hpaired := hparallel.abreast.paired hparallel.left hparallel.right hissued.distinct
    hissued'.distinct hissued.compiled hissued'.compiled
  have hmirror := hparallel.abreast.mirror hw hparallel.left hparallel.right hpaired
  refine ⟨hparallel.abreast.exists_tables hparallel.left hparallel.right, ?_, ?_⟩
  · intro k' hk' hid p' hp'
    have hmem := hparallel.abreast.right.mem_iff.2
      (List.mem_filter.2 ⟨hk', decide_eq_true hid⟩)
    obtain ⟨q, hq, rfl⟩ := List.mem_map.1 hmem
    have hdocument := hpaired.document q hq
    obtain ⟨p, htwins⟩ := Compilation.exists_twins_of_refers hdocument.symm hp'
    exact ⟨q.1, hq, hdocument, p, htwins.symm⟩
  · intro kept kept' hkept p p' hp s s'
    rcases (hmirror.keeping hpaired hkept).resolve hpaired hp
      with halike | ⟨hempty, -, m, hm, passed, hpassed, hforeign⟩
    · exact ⟨.inl halike, fun _ => halike⟩
    · refine ⟨.inr hempty, fun hnone => ?_⟩
      rw [hnone m hm passed hpassed] at hforeign
      cases hforeign

-- --------------------------------------------------------------- two runs

/-- A grammar and the one that it includes, loaded in one session of ids. -/
def sessionWorld : World := (run "" [.newTable "t"]).steps "t" [.add including, .add included]

/-- The same with a compaction in between. -/
def compactedWorld : World :=
  (run "" [.newTable "t"]).steps "t" [.add including, .compact, .add included]

/-- The include of the entry is a hit without the compaction, and with it a
hit or a miss, as any include of the two runs. -/
theorem resolve_alike_or_empty_including :
    let pairs := sessionWorld.together compactedWorld ⟨1⟩
    ∃ p, Alike pairs (.reference p) (.reference p)
      ∧ sessionWorld.session.snapshot.resolve (.reference p) ≠ .empty
      ∧ (Alike pairs (.rule (sessionWorld.session.snapshot.resolve (.reference p)))
          (.rule (compactedWorld.session.snapshot.resolve (.reference p)))
        ∨ compactedWorld.session.snapshot.resolve (.reference p) = .empty) := by
  have hinserted : Inserted [.add including, .add included]
      [.add including, .compact, .add included] := .step _ (.compact (.step _ .nil))
  have hp : Piece.node .child [("include", .string "guest#x")]
      (.reference (.foreign ⟨1⟩ ⟨"guest", 1⟩ (some ⟨1⟩) (some ⟨⟨1⟩, 1⟩)))
        ∈ includingCompilation.contents includingCompilation.root including :=
    .tail _ (.head _)
  have hpair : (includingCompilation, includingCompilation)
      ∈ sessionWorld.together compactedWorld ⟨1⟩ := .head _
  have halike := Alike.twins hpair
    (.reference (Compilation.twins_root _ _) .root hp .root hp)
  have ht : (run "" [.newTable "t"]).session.table? "t" = some (.new ⟨1⟩) := rfl
  obtain ⟨-, -, hresolve⟩ :=
    resolve_alike_or_empty ⟨"", _, rfl⟩ ht hinserted (by decide) (by decide)
  refine ⟨_, halike, ?_, ?_⟩
  · intro hempty
    have hserial := congrArg (fun r => r.id.serial) hempty
    revert hserial
    decide
  · have hkept := (hresolve [] [] .nil _ _ halike).1
    rw [Snapshot.keeping_nil, Snapshot.keeping_nil] at hkept
    exact hkept

end World

end ScopeRules
