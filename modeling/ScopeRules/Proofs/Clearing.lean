/-
Clearing forgets everything but ids. `World.cleared_alike_new` compares what
is seen of a table since it was cleared with what is seen of a new table: the
same, up to the ids of names, and nothing that was there before.

What a caller does with a table is a list of uses: steps in the table, and
walks from its scopes after which nothing is kept. A walk leaves the table
asked for names (`Reachable.use_walk`), and the names are the same in both
runs; so uses keep the two runs related (`Afresh.uses`), one after the other.
-/
import ScopeRules.Proofs.Afresh

namespace ScopeRules

-- =========================================================== using tables

/-- What a caller does with a table: a step in it, or a walk from one of its
scopes, with some name for what it reaches, which is let go of again. -/
inductive TableUse where
  | step (step : TableStep)
  | walk (handle scope : String) (steps : List WalkStep)

namespace TableUse

/-- The operations that a use is made of, in the table that a name is a
handle to. -/
def operations (name : String) : TableUse → List Operation
  | .step done => [done.on name]
  | .walk handle scope steps => [.hold handle ⟨name, .scope scope, steps⟩, .release handle]

/-- Whether a use goes by names and not by ids. -/
def ByName : TableUse → Prop
  | .step _ => True
  | .walk _ _ steps => ∀ s ∈ steps, ∀ i, s ≠ .entryId i

end TableUse

/-- Adding a document answers the symbol of the scope that its root declares. -/
theorem Table.scope_add_eq_map (t : Table) (i : Interner) (d : Document) :
    (t.add i d).scope = (Outline.scopeOf d).map (t.contextFor i d).symbol :=
  fill_scope _ _ _ _

/-- Adding a document answers the scope that its root declares. -/
theorem Table.scope_add (t : Table) (i : Interner) (d : Document) :
    (t.add i d).scope.map Symbol.text = Outline.scopeOf d := by
  rw [scope_add_eq_map]
  cases Outline.scopeOf d with
  | none => rfl
  | some scope => exact congrArg some (Interner.text_intern _ _)

theorem Session.table?_congr {s s' : Session} {name : String} (htables : s'.tables = s.tables)
    (hnames : s'.tableNames = s.tableNames) : s'.table? name = s.table? name := by
  rw [table?, table?, htables, hnames]

namespace World

/-- The world after a use of the table that a name is a handle to. -/
def use (w : World) (name : String) (u : TableUse) : World :=
  (u.operations name).foldl World.perform w

/-- The world after uses of the table, one after the other. -/
def uses (w : World) (name : String) (us : List TableUse) : World :=
  us.foldl (fun w u => w.use name u) w

variable {w v a b : World} {name name' : String} {id id' : TableId}
  {pairs : List (Compilation × Compilation)} {t t' : Table}

theorem Reachable.performAll (h : w.Reachable) (ops : List Operation) :
    (ops.foldl World.perform w).Reachable := by
  induction ops generalizing w with
  | nil => exact h
  | cons op rest ih => exact ih (h.perform op)

theorem allocations_le_performAll (w : World) (ops : List Operation) (id : TableId) :
    w.allocations id ≤ (ops.foldl World.perform w).allocations id := by
  induction ops generalizing w with
  | nil => exact Nat.le_refl _
  | cons op rest ih => exact Nat.le_trans (Nat.le_add_right _ _) (ih (w.perform op))

theorem allocations_le_uses (w : World) (name : String) (us : List TableUse) (id : TableId) :
    w.allocations id ≤ (w.uses name us).allocations id := by
  induction us generalizing w with
  | nil => exact Nat.le_refl _
  | cons u rest ih =>
    exact Nat.le_trans (allocations_le_performAll w _ id) (ih (w.use name u))

-- ================================================================ walks

theorem allocations_steps_ruleId (hw : w.Reachable) (ht : w.session.table? name = some t)
    (names : List String) :
    (w.steps name (names.map .ruleId)).allocations t.id
      = w.allocations t.id + ((t.ruleIds.allocateAll names).size - t.ruleIds.size) := by
  induction names generalizing w t with
  | nil => exact (congrArg (w.allocations t.id + ·) (Nat.sub_self _)).symm
  | cons entry rest ih =>
    have hafter := TableStep.table?_perform ht (.ruleId entry)
    have hstep := allocations_perform hw ht hafter rfl
    have hrest := ih (hw.perform _) hafter
    have hsize := RuleIds.size_le_size_allocateAll t.ruleIds [entry]
    have hsize' := RuleIds.size_le_size_allocateAll (t.ruleIds.allocateAll [entry]) rest
    rw [RuleIds.allocateAll_cons]
    refine hrest.trans ?_
    show (w.perform (.ruleId name entry)).allocations t.id
        + (((t.ruleIds.allocateAll [entry]).allocateAll rest).size
          - (t.ruleIds.allocateAll [entry]).size)
      = w.allocations t.id + (((t.ruleIds.allocateAll [entry]).allocateAll rest).size
          - t.ruleIds.size)
    have hone : (w.perform (.ruleId name entry)).allocations t.id
        = w.allocations t.id + ((t.ruleIds.allocateAll [entry]).size - t.ruleIds.size) := hstep
    omega

/-- A walk after which nothing is kept leaves the table asked for names. -/
theorem Reachable.use_walk (hw : w.Reachable) (ht : w.session.table? name = some t)
    (handle : String) {scope : String} {steps : List WalkStep} {names : List String}
    (hnames : (w.session.walk ⟨name, .scope scope, steps⟩).2 = w.session.asking name names) :
    (w.use name (.walk handle scope steps)).log = w.log
      ∧ (w.use name (.walk handle scope steps)).compactions = w.compactions
      ∧ (w.use name (.walk handle scope steps)).session.nodeNames ⊆ w.session.nodeNames
      ∧ (w.use name (.walk handle scope steps)).session.table? name = some (t.asking names)
      ∧ (w.use name (.walk handle scope steps)).allocations t.id
        = w.allocations t.id + ((t.ruleIds.allocateAll names).size - t.ruleIds.size) := by
  have hkeeps := (w.session.asking_asked name names).keeps
  -- what is kept before it is let go of
  have hheld : (w.session.perform (.hold handle ⟨name, .scope scope, steps⟩)).tables
        = (w.session.asking name names).tables
      ∧ (w.session.perform (.hold handle ⟨name, .scope scope, steps⟩)).tableNames
        = w.session.tableNames
      ∧ ∀ other, handle ≠ other →
        (w.session.perform (.hold handle ⟨name, .scope scope, steps⟩)).nodeNames.get? other
          = w.session.nodeNames.get? other := by
    rw [← hnames, ← hkeeps.tableNames, ← hkeeps.nodeNames, ← hnames]
    cases hwalk : w.session.walk ⟨name, .scope scope, steps⟩ with
    | mk result after =>
      cases result with
      | error failure =>
        rw [Session.perform, hwalk]
        exact ⟨rfl, rfl, fun _ _ => rfl⟩
      | ok x =>
        rw [Session.perform, hwalk]
        refine ⟨rfl, rfl, fun other hother => ?_⟩
        exact (Assoc.get?_put _ _ _ _).trans (if_neg hother)
  obtain ⟨htables, htableNames, hnodes⟩ := hheld
  have hafter : (w.perform (.hold handle ⟨name, .scope scope, steps⟩)).session.table? name
      = some (t.asking names) := by
    have hasked : (w.session.asking name names).table? name = some (t.asking names) := by
      rw [Session.table?_asking, ht]
      rfl
    rw [← hasked]
    exact Session.table?_congr htables (htableNames.trans hkeeps.tableNames.symm)
  refine ⟨?_, rfl, ?_, hafter, ?_⟩
  · show (w.log ++ []) ++ [] = w.log
    rw [List.append_nil, List.append_nil]
  · intro p hp
    have hfound := Assoc.get?_of_mem
      ((hw.performAll (TableUse.operations name (.walk handle scope steps))).nodeNames_distinct) hp
    have hget := Assoc.get?_erase
      (w.session.perform (.hold handle ⟨name, .scope scope, steps⟩)).nodeNames handle p.1
    have hsome : (Assoc.erase (w.session.perform
        (.hold handle ⟨name, .scope scope, steps⟩)).nodeNames handle).get? p.1 = some p.2 := hfound
    rw [hget] at hsome
    split at hsome
    · cases hsome
    · rename_i hother
      rw [hnodes p.1 hother] at hsome
      exact Assoc.mem_of_get?_eq_some hsome
  · have hhold := allocations_perform hw ht hafter rfl
    refine Eq.trans ?_ hhold
    show (w.perform (.hold handle ⟨name, .scope scope, steps⟩)).allocations t.id
      + (Session.names _ t.id - Session.names _ t.id) = _
    have hsub : ∀ n : Nat, n - n = 0 := Nat.sub_self
    exact congrArg ((w.perform (.hold handle ⟨name, .scope scope, steps⟩)).allocations t.id + ·)
      (hsub _)

-- ================================================================ uses

namespace Afresh

/-- A walk after which nothing is kept ends alike, and keeps the relation. -/
theorem use_walk (h : Afresh w v a b name name' id id' pairs) (handle : String) {scope : String}
    {steps : List WalkStep} (hids : ∀ s ∈ steps, ∀ i, s ≠ .entryId i)
    (hroom : (a.use name (.walk handle scope steps)).allocations id ≤ RuleId.largest) :
    EndsAlike pairs (a.session.walk ⟨name, .scope scope, steps⟩)
        (b.session.walk ⟨name', .scope scope, steps⟩)
      ∧ Afresh w v (a.use name (.walk handle scope steps)) (b.use name' (.walk handle scope steps))
        name name' id id' pairs := by
  obtain ⟨t, t', ht, ht', rfl, rfl, htables⟩ := h.tables
  have hrooms : ∀ names,
      (a.session.walk ⟨name, .scope scope, steps⟩).2 = a.session.asking name names →
      (a.steps name (names.map .ruleId)).allocations t.id ≤ RuleId.largest := by
    intro names hnames
    obtain ⟨-, -, -, -, hallocations⟩ := h.left.use_walk ht handle hnames
    rw [allocations_steps_ruleId h.left ht, ← hallocations]
    exact hroom
  obtain ⟨hends, names, hnames, hnames'⟩ := h.walk hids hrooms
  obtain ⟨hlog, hcompactions, hnodes, hafter, hallocations⟩ :=
    h.left.use_walk ht handle hnames
  obtain ⟨hlog', hcompactions', hnodes', hafter', hallocations'⟩ :=
    h.right.use_walk ht' handle hnames'
  refine ⟨hends, h.keep (h.left.performAll _) (h.right.performAll _) hlog hlog' ?_ hnodes hnodes'
    ⟨_, _, hafter, hafter', rfl, rfl, htables.registry,
      RuleIds.isSome_allocateAll_of_isSome htables.names names,
      htables.allocations_allocateAll names hallocations hallocations'⟩⟩
  rw [hcompactions, hcompactions']
  exact h.compactions

/-- Uses keep the relation. -/
theorem uses (h : Afresh w v a b name name' id id' pairs) {us : List TableUse}
    (hnames : ∀ u ∈ us, u.ByName) (hroom : (a.uses name us).allocations id ≤ RuleId.largest) :
    ∃ more, Afresh w v (a.uses name us) (b.uses name' us) name name' id id' (pairs ++ more) := by
  induction us generalizing a b pairs with
  | nil =>
    refine ⟨[], ?_⟩
    rw [List.append_nil]
    exact h
  | cons u rest ih =>
    have hrest : ∀ u ∈ rest, u.ByName := fun u hu => hnames u (.tail _ hu)
    cases u with
    | step done =>
      obtain ⟨more, hmore⟩ := h.step done
      obtain ⟨later, hlater⟩ := ih hmore hrest hroom
      exact ⟨more ++ later, List.append_assoc pairs more later ▸ hlater⟩
    | walk handle scope steps =>
      have hids := hnames _ (.head _)
      have hwalk := h.use_walk handle hids
        (Nat.le_trans (allocations_le_uses _ name rest id) hroom)
      exact ih hwalk.2 hrest hroom

end Afresh

-- ======================================================= a cleared table

/-- A new table is found under its name. -/
theorem table?_newTable (hv : v.Reachable) (name : String) :
    (v.perform (.newTable name)).session.table? name
      = some (.new ⟨v.session.tablesMade + 1⟩) := by
  have hname : (v.perform (.newTable name)).session.isNameOf ⟨v.session.tablesMade + 1⟩ name
      = true := Session.isNameOf_iff.2 ((Assoc.get?_put _ _ _ _).trans (if_pos rfl))
  have hdistinct := (hv.perform (.newTable name)).named.distinct
  have hnone : v.session.tables.find? (fun t => t.id = ⟨v.session.tablesMade + 1⟩) = none := by
    refine Session.table?_eq_none fun t ht hid => ?_
    have hmade := hv.sound.made t ht
    rw [hid] at hmade
    exact absurd hmade (Nat.not_succ_le_self _)
  rw [Session.table?_of_isNameOf hname]
  refine (Session.snapshot_table?_sweep _ _).trans
    ((if_pos ((Session.isNamed_iff hdistinct).2 ⟨name, hname⟩)).trans ?_)
  show (v.session.tables ++ [Table.new ⟨v.session.tablesMade + 1⟩]).find?
    (fun t => t.id = ⟨v.session.tablesMade + 1⟩) = _
  rw [List.find?_append, hnone]
  simp [Table.new]

/-- A table that was just cleared beside a new one. -/
theorem afresh_start (hw : w.Reachable) (ht : w.session.table? name = some t) (hv : v.Reachable)
    (name' : String) :
    Afresh w v (w.perform (.clear name)) (v.perform (.newTable name')) name name' t.id
      ⟨v.session.tablesMade + 1⟩ [] := by
  have hafter := TableStep.table?_perform ht .clear
  have hafter' := table?_newTable hv name'
  have hserial : v.session.tablesMade < (⟨v.session.tablesMade + 1⟩ : TableId).serial :=
    Nat.lt_succ_self _
  obtain ⟨hcompactions', hallocations', -⟩ := hv.sound.unmade_next (.newTable name') hserial
  have hpaired : ∀ {P : Compilation × Compilation → Prop}, ∀ q ∈ [], P q := fun _ hq => nomatch hq
  refine ⟨hw.perform _, hv.perform _, rfl, rfl, hpaired, hpaired, hpaired, ?_, fun p hp => ?_,
    hv.sound.handled, _, _, hafter, hafter', rfl, rfl, ?_, ?_, ?_⟩
  · rw [hcompactions', Nat.zero_add]
    exact TableStep.compactions_perform ht .clear
  · exact hw.sound.handled p (TableStep.nodeNames_perform w name .clear ▸ hp)
  · exact fun _ => .none
  · intro _ hentry
    cases hentry
  · have hnames := (hw.perform (.clear name)).names_le t.id
    have hcleared := Session.names_id (hw.perform (.clear name)).sound.distinct
      (Session.mem_of_table?_eq_some hafter).1
    have hnew := Session.names_id (hv.perform (.newTable name')).sound.distinct
      (Session.mem_of_table?_eq_some hafter').1
    have hzero : (v.perform (.newTable name')).allocations ⟨v.session.tablesMade + 1⟩ = 0 := by
      show v.allocations _ + (Session.names (v.perform (.newTable name')).session _ - _) = 0
      rw [hallocations', Nat.zero_add]
      exact (congrArg (· - _) hnew).trans (Nat.zero_sub _)
    show (v.perform (.newTable name')).allocations ⟨v.session.tablesMade + 1⟩ + t.ruleIds.size
      ≤ (w.perform (.clear name)).allocations t.id + 0
    rw [hzero, Nat.zero_add, Nat.add_zero]
    exact hcleared ▸ hnames

/-- What was compiled between two worlds of a run. -/
def compiledUntil (w a : World) : List Compilation := a.log.drop w.log.length

/-- A table that was cleared is as good as a new one. Whatever was done with
it before, and whatever is done since, by names and not by ids: the same
scopes are registered as when this is done with a new table, in this or in
another session, and further documents answer the same scopes; walks from
scopes end alike; the documents compiled since correspond one by one, with
their references, and whatever rules are kept of them, nodes that correspond
resolve alike. None of these nodes was there before. -/
theorem cleared_alike_new (hw : w.Reachable) (ht : w.session.table? name = some t)
    (hv : v.Reachable) (name' : String) {us : List TableUse} (hnames : ∀ u ∈ us, u.ByName)
    (hroom : ((w.perform (.clear name)).uses name us).allocations t.id ≤ RuleId.largest) :
    let a := (w.perform (.clear name)).uses name us
    let b := (v.perform (.newTable name')).uses name' us
    let pairs := (w.compiledUntil a).zip (v.compiledUntil b)
    (∃ u u', a.session.table? name = some u ∧ b.session.table? name' = some u'
      ∧ u.scopes = u'.scopes ∧ u.size = u'.size
      ∧ (∀ scope, u.contains scope = u'.contains scope)
      ∧ (∀ scope, Alike pairs (.rule (u.lookup scope)) (.rule (u'.lookup scope)))
      ∧ ∀ i i' d, (u.add i d).scope.map Symbol.text = (u'.add i' d).scope.map Symbol.text)
    ∧ (∀ handle scope steps, (∀ s ∈ steps, ∀ i, s ≠ .entryId i) →
      (a.use name (.walk handle scope steps)).allocations t.id ≤ RuleId.largest →
      EndsAlike pairs (a.session.walk ⟨name, .scope scope, steps⟩)
        (b.session.walk ⟨name', .scope scope, steps⟩))
    ∧ List.Forall₂ (fun k k' => (k, k') ∈ pairs ∧ k.document = k'.document
        ∧ (∀ p, k.Refers p → ∃ p', k.Twins k' (.reference p) (.reference p'))
        ∧ ∀ p', k'.Refers p' → ∃ p, k.Twins k' (.reference p) (.reference p'))
      (w.compiledUntil a) (v.compiledUntil b)
    ∧ (∀ kept kept', List.Forall₂ (fun r r' => Alike pairs (.rule r) (.rule r')) kept kept' →
      ∀ x x', Alike pairs x x' →
        Alike pairs (.rule ((a.session.snapshot.keeping kept).resolve x))
          (.rule ((b.session.snapshot.keeping kept').resolve x')))
    ∧ ∀ x x', Alike pairs x x' → x = .rule .empty ∨ ¬ Known w.log x := by
  intro a b pairs
  obtain ⟨more, h⟩ := (afresh_start hw ht hv name').uses hnames hroom
  rw [List.nil_append] at h
  have hleft : w.compiledUntil a = more.map Prod.fst := by
    rw [compiledUntil, h.log]
    exact List.drop_left
  have hright : v.compiledUntil b = more.map Prod.snd := by
    rw [compiledUntil, h.log']
    exact List.drop_left
  have hpairs : pairs = more := by
    show (w.compiledUntil a).zip (v.compiledUntil b) = more
    rw [hleft, hright, ← List.unzip_fst, ← List.unzip_snd, List.zip_unzip]
  obtain ⟨issued, issued', hissued, hissued'⟩ := h.exists_accounts hroom
  have hp := h.paired hissued hissued'
  rw [hpairs]
  refine ⟨?_, fun handle scope steps hids hwalk => (h.use_walk handle hids hwalk).1, ?_, ?_,
    fun x x' hx => h.not_known_of_alike hx⟩
  · obtain ⟨u, u', hu, hu', -, -, htables⟩ := h.tables
    obtain ⟨hscopes, hsize, hcontains⟩ := Table.scopes_eq htables.registry
      (h.left.order u (Session.mem_of_table?_eq_some hu).1)
      (h.right.order u' (Session.mem_of_table?_eq_some hu').1)
    refine ⟨u, u', hu, hu', hscopes, hsize, hcontains,
      fun scope => alike_lookup (htables.registry scope), fun i i' d => ?_⟩
    rw [Table.scope_add, Table.scope_add]
  · rw [hleft, hright, List.forall₂_map_left_iff, List.forall₂_map_right_iff]
    refine List.forall₂_same.2 fun q hq => ⟨hq, h.document q hq, fun p hrefers => ?_,
      fun p' hrefers => ?_⟩
    · exact Compilation.exists_twins_of_refers (h.document q hq) hrefers
    · obtain ⟨p, htwins⟩ := Compilation.exists_twins_of_refers (h.document q hq).symm hrefers
      exact ⟨p, htwins.symm⟩
  · intro kept kept' hkept x x' hx
    exact ((h.mirror hp).keeping hp hkept).alike_resolve hp h.not_missed hx

-- ------------------------------------------------------- cleared and new

/-- A name that was known before has another id than in a new table; the way
through an include leads to the same entry. -/
theorem cleared_alike_new_including :
    let w := (run "" [.newTable "t"]).steps "t" [.ruleId "y", .add included, .add including]
    let us := [.step (.add including), .walk "" "host" [.child 0], .step (.add included)]
    let a := (w.perform (.clear "t")).uses "t" us
    let b := ((run "" []).perform (.newTable "t")).uses "t" us
    (a.session.walk toIncluded).1.isOk = true
      ∧ EndsAlike ((w.compiledUntil a).zip ((run "" []).compiledUntil b))
          (a.session.walk toIncluded) (b.session.walk toIncluded) := by
  intro w us a b
  obtain ⟨t, ht, htid⟩ : ∃ t, w.session.table? "t" = some t ∧ t.id = ⟨1⟩ := ⟨_, rfl, rfl⟩
  have hw : w.Reachable := ⟨"", [.newTable "t", .ruleId "t" "y", .add "t" included,
    .add "t" including], rfl⟩
  have hnames : ∀ u ∈ us, u.ByName := by
    intro u hu
    simp only [us, List.mem_cons, List.not_mem_nil, or_false] at hu
    rcases hu with rfl | rfl | rfl <;> simp [TableUse.ByName]
  have hroom : (a.use "t" (.walk "" "host" toIncluded.steps)).allocations ⟨1⟩ ≤ RuleId.largest := by
    decide +kernel
  obtain ⟨-, hwalk, -⟩ := cleared_alike_new hw ht ⟨"", [], rfl⟩ "t" hnames
    (htid ▸ Nat.le_trans (allocations_le_performAll a _ _) hroom)
  exact ⟨by decide +kernel, hwalk "" "host" _ (by simp) (htid ▸ hroom)⟩

end World

end ScopeRules
