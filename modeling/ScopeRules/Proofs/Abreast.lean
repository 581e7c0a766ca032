/-
Two runs that go on from one world. From some moment on, two callers do
different things in one table, and leave all else alone. `World.Abreast` says
that they have still come to the same: what is compiled can be paired, a
document with a document of the same text, and a scope is registered with
rules that stand at the same place, or with none.

# What follows

`Abreast.mirror`: the two moments look the same in the sense of Mirror.lean.
What is held is held by a registry or by a handle; registries correspond, and
handles are those of the world that both runs come from.

# Steps

`TableStep` is what can be done in a table. `TableStep.of` says what a step
makes of it, and `Compilation.registers?` what a document registers for a
scope, which is alike for compilations of one document (`rel_registers?`).
Worlds that are abreast stay so when both compile further documents
(`Abreast.append`), or none (`Abreast.keep`).
-/
import ScopeRules.Proofs.Mirror
import ScopeRules.Proofs.Registration
import ScopeRules.Proofs.ForeignEntry

namespace ScopeRules

-- =================================================== documents register

namespace Compilation

variable {k k' : Compilation}

/-- What the document registers for a scope: the last rule that declares it. -/
def registers? (k : Compilation) (scope : String) : Option Entry :=
  ((k.grammar.declarations.filter fun p => p.1 = scope).getLast?).map fun p => ⟨p.2, k.root⟩

/-- A document takes the scopes that it declares and leaves the others. -/
theorem get?_add (k : Compilation) (scope : String) :
    (k.table.add k.interner k.document).table.registry.get? scope
      = (k.registers? scope).or (k.table.registry.get? scope) :=
  Registry.get?_publish _ _ _ _

/-- The rules of two compilations of a document are twins, one by one. -/
theorem forall₂_rules (hdocument : k.document = k'.document) :
    List.Forall₂ (fun r r' => k.Twins k' (.rule r) (.rule r')) k.rules k'.rules := by
  refine List.forall₂_iff_get.2 ⟨?_, ?_⟩
  · rw [rules_eq, rules_eq, List.length_cons, List.length_cons, length_rules, length_rules,
      hdocument]
  · intro n hn hn'
    exact .rule (List.getElem?_eq_getElem hn) (List.getElem?_eq_getElem hn')

/-- Compilations of one document register twins. -/
theorem rel_registers? (hdocument : k.document = k'.document) (scope : String) :
    Option.Rel (fun e e' => k.Twins k' (.rule e.node) (.rule e'.node)
        ∧ k.Twins k' (.rule e.root) (.rule e'.root))
      (k.registers? scope) (k'.registers? scope) := by
  have hdeclared : List.Forall₂ (fun p p' => p.1 = p'.1 ∧ k.Twins k' (.rule p.2) (.rule p'.2))
      k.grammar.declarations k'.grammar.declarations := by
    refine List.rel_filterMap ?_ (forall₂_rules hdocument)
    intro r r' htwins
    have hscope := (htwins.like hdocument).scope
    show Option.Rel _ (r.scope.map fun a => (a.text, r)) (r'.scope.map fun a => (a.text, r'))
    revert hscope
    generalize r.scope = a
    generalize r'.scope = b
    intro hscope
    cases a with
    | none =>
      cases b with
      | none => exact .none
      | some b => cases hscope
    | some a =>
      cases b with
      | none => cases hscope
      | some b => exact .some ⟨Option.some.inj hscope, htwins⟩
  have hfiltered := List.rel_filter (p := fun p : String × Rule => decide (p.1 = scope))
    (q := fun p : String × Rule => decide (p.1 = scope)) (R := fun p p' => p.1 = p'.1
      ∧ k.Twins k' (.rule p.2) (.rule p'.2)) (by intro p p' hp; simp [hp.1]) hdeclared
  exact map_of_rel (getLast?_of_forall₂ hfiltered) fun p p' hp => ⟨hp.2, twins_root k k'⟩

end Compilation

-- ============================================================== worlds

namespace World

variable {w : World}

theorem Reachable.perform (h : w.Reachable) (op : Operation) : (w.perform op).Reachable := by
  obtain ⟨filesPath, ops, rfl⟩ := h
  refine ⟨filesPath, ops ++ [op], ?_⟩
  unfold run
  rw [List.foldl_append]
  rfl

/-- Every registry is kept in order. -/
theorem Reachable.order (h : w.Reachable) :
    ∀ t ∈ w.session.tables, t.registry.Sorted Registry.before := by
  refine h.induction (motive := fun w => ∀ t ∈ w.session.tables, t.registry.Sorted Registry.before)
    ?_ ?_
  · intro filesPath t ht
    cases ht
  · intro v op hv u hu
    rcases exists_changed hu with ⟨rfl, -⟩ | ⟨t, ht, hchanged⟩
    · exact List.Pairwise.nil
    · exact hchanged.order (hv t ht)

/-- No document comes from a later session of ids than the running one. -/
theorem Reachable.epoch_le (h : w.Reachable) :
    ∀ k ∈ w.log, k.epoch ≤ w.compactions k.table.id := by
  refine h.induction (motive := fun w => ∀ k ∈ w.log, k.epoch ≤ w.compactions k.table.id) ?_ ?_
  · intro filesPath k hk
    cases hk
  · intro v op hv k hk
    have hgrows : v.compactions k.table.id ≤ (v.perform op).compactions k.table.id :=
      Nat.le_add_right _ _
    rcases List.mem_append.1 hk with hk | hk
    · exact Nat.le_trans (hv k hk) hgrows
    · obtain ⟨name, d, rfl, ht⟩ := table_of_mem_compiles hk
      rw [compiles, ht] at hk
      have hepoch : k.epoch = v.compactions k.table.id := by
        rw [List.mem_singleton.1 hk]
      exact hepoch ▸ hgrows

/-- A rule of a table is held if the table's registry has it for some scope,
or a handle leads to it. -/
theorem Reachable.mem_held_iff (h : w.Reachable) {name : String} {t : Table}
    (ht : w.session.table? name = some t) {r : Rule} (hr : r.id.table = t.id) :
    r ∈ w.session.snapshot.held
      ↔ (∃ scope entry, t.registry.get? scope = some entry ∧ (r = entry.node ∨ r = entry.root))
        ∨ ∃ p ∈ w.session.nodeNames, p.2 = .rule r := by
  have hmem := (Session.mem_of_table?_eq_some ht).1
  constructor
  · intro hheld
    rcases List.mem_append.1 hheld with hheld | hheld
    · obtain ⟨u, hu, hheld⟩ := List.mem_flatMap.1 hheld
      obtain ⟨p, hp, hheld⟩ := List.mem_flatMap.1 hheld
      -- a registry has rules of its own table only
      obtain ⟨k, hk, hid, hroot, hnode⟩ := h.sound.registered u hu p hp
      have hrule : r = p.2.node ∨ r = p.2.root := by simpa using hheld
      have hrules : r ∈ k.rules := by
        rcases hrule with rfl | rfl
        · exact mem_rules_of_mem_declarations hnode
        · exact hroot ▸ k.root_mem_rules
      have hut : u.id = t.id := by
        rw [← hid, ← (k.id_of_mem_rules hrules).1, hr]
      obtain rfl := List.inj_on_of_nodup_map h.sound.distinct hu hmem hut
      have hdistinct := (h.order u hu).distinct Registry.before_strictOrder
      exact .inl ⟨p.1, p.2, Assoc.get?_of_mem hdistinct hp, hrule⟩
    · obtain ⟨p, hp, hx⟩ := List.mem_filterMap.1 hheld
      obtain ⟨handle, x⟩ := p
      cases x with
      | rule s => exact .inr ⟨_, hp, congrArg Node.rule (Option.some.inj hx)⟩
      | reference p => cases hx
  · intro hheld
    rcases hheld with ⟨scope, entry, hentry, hrule⟩ | ⟨p, hp, hx⟩
    · refine List.mem_append_left _ (List.mem_flatMap_of_mem hmem ?_)
      apply List.mem_flatMap_of_mem (Assoc.mem_of_get?_eq_some hentry)
      simpa using hrule
    · refine List.mem_append_right _ (List.mem_filterMap.2 ⟨p, hp, ?_⟩)
      show p.2.rule? = some r
      rw [hx]
      rfl

-- =============================================================== abreast

/-- Entries of two registries with rules that are alike. -/
def EntriesAlike (pairs : List (Compilation × Compilation)) (e e' : Entry) : Prop :=
  Alike pairs (.rule e.node) (.rule e'.node) ∧ Alike pairs (.rule e.root) (.rule e'.root)

theorem alike_lookup {pairs : List (Compilation × Compilation)} {t t' : Table} {scope : String}
    (h : Option.Rel (EntriesAlike pairs) (t.registry.get? scope) (t'.registry.get? scope)) :
    Alike pairs (.rule (t.lookup scope)) (.rule (t'.lookup scope)) := by
  unfold Table.lookup
  rcases cases_of_rel h with ⟨hnone, hnone'⟩ | ⟨e, e', he, he', hnode, -⟩
  · rw [hnone, hnone']
    exact .empty
  · rw [he, he']
    exact hnode

/-- Two worlds that have gone on from `w` in the table `id` alone, and register
the same: documents are paired, those of `w` with themselves, and a scope is
registered with rules that are alike. There may be other documents, of which
nothing is registered any more. -/
structure Matched (w a b : World) (name : String) (id : TableId)
    (pairs : List (Compilation × Compilation)) : Prop where
  left : (pairs.map Prod.fst).Nodup
  right : (pairs.map Prod.snd).Nodup
  mem_left : ∀ q ∈ pairs, q.1 ∈ a.log ∧ q.1.table.id = id
  mem_right : ∀ q ∈ pairs, q.2 ∈ b.log ∧ q.2.table.id = id
  document : ∀ q ∈ pairs, q.1.document = q.2.document
  epochs : ∀ p ∈ pairs, ∀ q ∈ pairs, p.2.epoch = q.2.epoch → p.1.epoch = q.1.epoch
  history : ∀ k ∈ w.log, k ∈ a.log ∧ k ∈ b.log
  common : ∀ q ∈ pairs, q.1 ∈ w.log ∨ q.2 ∈ w.log → q.1 = q.2
  nodeNames : a.session.nodeNames = w.session.nodeNames
  nodeNames' : b.session.nodeNames = w.session.nodeNames
  registry : ∃ t t', a.session.table? name = some t ∧ b.session.table? name = some t'
    ∧ t.id = id ∧ t'.id = id
    ∧ ∀ scope, Option.Rel (EntriesAlike pairs) (t.registry.get? scope) (t'.registry.get? scope)

/-- Two worlds that have gone on from `w` in the table `id` alone, and have
come to the same: its documents are paired, with those of `w` paired with
themselves, and a scope is registered with rules that are alike. -/
structure Abreast (w a b : World) (name : String) (id : TableId)
    (pairs : List (Compilation × Compilation)) : Prop where
  left : (pairs.map Prod.fst).Perm (a.log.filter fun k => k.table.id = id)
  right : (pairs.map Prod.snd).Perm (b.log.filter fun k => k.table.id = id)
  document : ∀ q ∈ pairs, q.1.document = q.2.document
  epochs : ∀ p ∈ pairs, ∀ q ∈ pairs, p.2.epoch = q.2.epoch → p.1.epoch = q.1.epoch
  history : ∀ k ∈ w.log, k ∈ a.log ∧ k ∈ b.log
  common : ∀ q ∈ pairs, q.1 ∈ w.log ∨ q.2 ∈ w.log → q.1 = q.2
  nodeNames : a.session.nodeNames = w.session.nodeNames
  nodeNames' : b.session.nodeNames = w.session.nodeNames
  registry : ∃ t t', a.session.table? name = some t ∧ b.session.table? name = some t'
    ∧ t.id = id ∧ t'.id = id
    ∧ ∀ scope, Option.Rel (EntriesAlike pairs) (t.registry.get? scope) (t'.registry.get? scope)

section Abreast

variable {a b : World} {name : String} {id : TableId}
  {pairs : List (Compilation × Compilation)} {issued issued' : List (Nat × String)}

/-- Of worlds abreast no document is left out. -/
theorem Abreast.matched (h : Abreast w a b name id pairs) (ha : a.Reachable) (hb : b.Reachable) :
    Matched w a b name id pairs where
  left := h.left.nodup_iff.2 (ha.sound.coherent.nodup.filter _)
  right := h.right.nodup_iff.2 (hb.sound.coherent.nodup.filter _)
  mem_left := fun _ hq => mem_log_of_perm h.left hq
  mem_right := fun _ hq => mem_log_of_perm h.right hq
  document := h.document
  epochs := h.epochs
  history := h.history
  common := h.common
  nodeNames := h.nodeNames
  nodeNames' := h.nodeNames'
  registry := h.registry

/-- A record of the ids that a table has issued at the moment, or later on,
goes with its documents. -/
theorem Matched.paired (h : Matched w a b name id pairs) (ha : a.Reachable) (hb : b.Reachable)
    (hdistinct : issued.Nodup) (hdistinct' : issued'.Nodup)
    (hissued : ∀ k ∈ a.log, k.table.id = id → RuleIds.Recorded k.context.ruleIds k.epoch issued)
    (hissued' : ∀ k ∈ b.log, k.table.id = id → RuleIds.Recorded k.context.ruleIds k.epoch issued') :
    Paired id id a.log b.log issued issued' pairs where
  coherent := ha.sound.coherent
  coherent' := hb.sound.coherent
  left := h.left
  right := h.right
  mem_left := fun hq => h.mem_left _ hq
  mem_right := fun hq => h.mem_right _ hq
  document := h.document
  distinct := hdistinct
  distinct' := hdistinct'
  recorded := by
    intro q hq
    obtain ⟨hmem, hid⟩ := h.mem_left q hq
    exact hissued q.1 hmem hid
  recorded' := by
    intro q hq
    obtain ⟨hmem, hid⟩ := h.mem_right q hq
    exact hissued' q.2 hmem hid
  epochs := h.epochs

/-- A handle of the world that both come from leads to a rule if and only if
it leads to its twin, which is the rule itself. -/
theorem Matched.handle_iff (h : Matched w a b name id pairs) (hw : w.Reachable)
    (hp : Paired id id a.log b.log issued issued' pairs) {q : Compilation × Compilation}
    (hq : q ∈ pairs) {r r' : Rule} (htwins : q.1.Twins q.2 (.rule r) (.rule r')) :
    (∃ p ∈ w.session.nodeNames, p.2 = .rule r) ↔ ∃ p ∈ w.session.nodeNames, p.2 = .rule r' := by
  -- what a handle leads to was compiled before the two went on
  have hself : q.1 ∈ w.log ∨ q.2 ∈ w.log → r = r' := by
    intro hlog
    have hsame := h.common q hq hlog
    rw [← hsame] at htwins
    exact htwins.eq_self
  have hknown : ∀ {r : Rule} {k : Compilation} {log : List Compilation}, Coherent log →
      (∀ j ∈ w.log, j ∈ log) → k ∈ log → r ∈ k.rules →
      (∃ p ∈ w.session.nodeNames, p.2 = .rule r) → k ∈ w.log := by
    intro r k log hlog hincluded hk hr hhandle
    obtain ⟨p, hp, hx⟩ := hhandle
    have hx' := hw.sound.handled p hp
    rw [hx] at hx'
    rcases hx' with heq | ⟨j, hj, hrj⟩
    · exact absurd (congrArg Rule.id heq) (Compilation.id_ne_empty hr)
    · rw [← hlog.eq_of_mem_rules (hincluded j hj) hk hrj hr rfl]
      exact hj
  constructor
  · intro hhandle
    have hlog := hknown hp.coherent (fun j hj => (h.history j hj).1) (hp.mem_left hq).1
      htwins.mem_left hhandle
    rwa [← hself (.inl hlog)]
  · intro hhandle
    have hlog := hknown hp.coherent' (fun j hj => (h.history j hj).2) (hp.mem_right hq).1
      htwins.mem_right hhandle
    rwa [hself (.inr hlog)]

/-- Two worlds that are matched look the same. -/
theorem Matched.mirror (h : Matched w a b name id pairs) (hw : w.Reachable) (ha : a.Reachable)
    (hb : b.Reachable) (hp : Paired id id a.log b.log issued issued' pairs) :
    Mirror id id a.log b.log pairs a.session.snapshot b.session.snapshot := by
  obtain ⟨t, t', ht, ht', hid, hid', hregistry⟩ := h.registry
  refine ⟨ha.sound.from, hb.sound.from, ?_, t, t', ?_, ?_, ?_⟩
  · intro q hq r r' htwins
    have hr : r.id.table = t.id := by
      rw [(q.1.id_of_mem_rules htwins.mem_left).1, (hp.mem_left hq).2, hid]
    have hr' : r'.id.table = t'.id := by
      rw [(q.2.id_of_mem_rules htwins.mem_right).1, (hp.mem_right hq).2, hid']
    rw [ha.mem_held_iff ht hr, hb.mem_held_iff ht' hr', h.nodeNames, h.nodeNames']
    refine or_congr (exists_congr fun scope => ?_) (h.handle_iff hw hp hq htwins)
    have hrule := Alike.twins hq htwins
    rcases cases_of_rel (hregistry scope) with ⟨hnone, hnone'⟩ | ⟨e, e', he, he', hnode, hroot⟩
    · simp [hnone, hnone']
    · simp [he, he', hp.alike_eq_iff hrule hnode, hp.alike_eq_iff hrule hroot]
  · rw [← hid]
    exact Session.table?_id ha.sound.distinct (Session.mem_of_table?_eq_some ht).1
  · rw [← hid']
    exact Session.table?_id hb.sound.distinct (Session.mem_of_table?_eq_some ht').1
  · exact fun scope => alike_lookup (hregistry scope)

/-- Worlds that are matched have the same scopes, with rules that are alike. -/
theorem Matched.exists_tables (h : Matched w a b name id pairs) (ha : a.Reachable)
    (hb : b.Reachable) :
    ∃ t t', a.session.table? name = some t ∧ b.session.table? name = some t'
      ∧ t.scopes = t'.scopes
      ∧ ∀ scope, Alike pairs (.rule (t.lookup scope)) (.rule (t'.lookup scope)) := by
  obtain ⟨t, t', ht, ht', -, -, hregistry⟩ := h.registry
  refine ⟨t, t', ht, ht', ?_, fun scope => alike_lookup (hregistry scope)⟩
  refine Assoc.keys_eq_of_has Registry.before_strictOrder
    (ha.order t (Session.mem_of_table?_eq_some ht).1)
    (hb.order t' (Session.mem_of_table?_eq_some ht').1) fun scope => ?_
  unfold Assoc.has
  rcases cases_of_rel (hregistry scope) with ⟨hnone, hnone'⟩ | ⟨e, e', he, he', -⟩
  · rw [hnone, hnone']
  · rw [he, he']
    rfl

-- What holds of worlds that are matched holds of worlds abreast.

theorem Abreast.paired (h : Abreast w a b name id pairs) (ha : a.Reachable) (hb : b.Reachable)
    (hdistinct : issued.Nodup) (hdistinct' : issued'.Nodup)
    (hissued : ∀ k ∈ a.log, k.table.id = id → RuleIds.Recorded k.context.ruleIds k.epoch issued)
    (hissued' : ∀ k ∈ b.log, k.table.id = id → RuleIds.Recorded k.context.ruleIds k.epoch issued') :
    Paired id id a.log b.log issued issued' pairs :=
  (h.matched ha hb).paired ha hb hdistinct hdistinct' hissued hissued'

theorem Abreast.mirror (h : Abreast w a b name id pairs) (hw : w.Reachable) (ha : a.Reachable)
    (hb : b.Reachable) (hp : Paired id id a.log b.log issued issued' pairs) :
    Mirror id id a.log b.log pairs a.session.snapshot b.session.snapshot :=
  (h.matched ha hb).mirror hw ha hb hp

theorem Abreast.exists_tables (h : Abreast w a b name id pairs) (ha : a.Reachable)
    (hb : b.Reachable) :
    ∃ t t', a.session.table? name = some t ∧ b.session.table? name = some t'
      ∧ t.scopes = t'.scopes
      ∧ ∀ scope, Alike pairs (.rule (t.lookup scope)) (.rule (t'.lookup scope)) :=
  (h.matched ha hb).exists_tables ha hb

-- ======================================================== the beginning

/-- The documents of the table `id`, each paired with itself. -/
def itself (w : World) (id : TableId) : List (Compilation × Compilation) :=
  (w.log.filter fun k => k.table.id = id).map fun k => (k, k)

/-- What is registered in the table is of the documents. -/
theorem alike_itself (hw : w.Reachable) {t : Table} (ht : w.session.table? name = some t)
    {scope : String} {e : Entry} (he : t.registry.get? scope = some e) :
    EntriesAlike (w.itself t.id) e e := by
  obtain ⟨k, hk, hid, hroot, hnode⟩ := hw.sound.registered t (Session.mem_of_table?_eq_some ht).1 _
    (Assoc.mem_of_get?_eq_some he)
  have hpair : (k, k) ∈ w.itself t.id :=
    List.mem_map_of_mem (List.mem_filter.2 ⟨hk, decide_eq_true hid⟩)
  have htwins : ∀ r ∈ k.rules, Alike (w.itself t.id) (.rule r) (.rule r) := fun r hr =>
    .twins hpair (Compilation.twins_rule_iff.2 ⟨hr, hr, rfl⟩)
  refine ⟨htwins _ (mem_rules_of_mem_declarations hnode), ?_⟩
  rw [hroot]
  exact htwins _ k.root_mem_rules

/-- At the beginning a world is abreast with itself. -/
theorem abreast_self (hw : w.Reachable) {t : Table} (ht : w.session.table? name = some t) :
    Abreast w w w name t.id (w.itself t.id) where
  left := by simp [itself, Function.comp_def]
  right := by simp [itself, Function.comp_def]
  document := by
    intro q hq
    obtain ⟨k, -, rfl⟩ := List.mem_map.1 hq
    rfl
  epochs := by
    intro p hp q hq hpq
    obtain ⟨j, -, rfl⟩ := List.mem_map.1 hp
    obtain ⟨k, -, rfl⟩ := List.mem_map.1 hq
    exact hpq
  history := fun k hk => ⟨hk, hk⟩
  common := by
    intro q hq _
    obtain ⟨k, -, rfl⟩ := List.mem_map.1 hq
    rfl
  nodeNames := rfl
  nodeNames' := rfl
  registry := by
    refine ⟨t, t, ht, ht, rfl, rfl, fun scope => ?_⟩
    cases he : t.registry.get? scope with
    | none => exact .none
    | some e => exact .some (alike_itself hw ht he)

end Abreast

end World

-- =============================================================== steps

/-- What can be done in a table. -/
inductive TableStep where
  | add (document : Document)
  | clear
  | compact
  | ruleId (name : String)
  deriving Inhabited

namespace TableStep

/-- The step in the table that a name is a handle to. -/
def «on» (name : String) : TableStep → Operation
  | .add d => .add name d
  | .clear => .clear name
  | .compact => .compact name
  | .ruleId entry => .ruleId name entry

/-- What a step makes of a table. -/
def of (t : Table) (i : Interner) : TableStep → Table
  | .add d => (t.add i d).table
  | .clear => t.clear
  | .compact => t.compact
  | .ruleId entry => (t.ruleId entry).2

/-- Whether a step closes the table's session of ids. -/
def closes : TableStep → Bool
  | .compact => true
  | _ => false

variable {w : World} {name : String} {t : Table}

theorem of_id (i : Interner) (step : TableStep) : (step.of t i).id = t.id := by
  cases step <;> rfl

/-- A step makes of the table what it makes of it. -/
theorem table?_perform (ht : w.session.table? name = some t) (step : TableStep) :
    (w.perform (step.on name)).session.table? name = some (step.of t w.session.interner) := by
  have hput : (w.session.putTable (step.of t w.session.interner)).table? name
      = some (step.of t w.session.interner) := Session.table?_putTable ht (step.of_id _)
  cases step <;> simp only [World.perform, «on», Session.perform, Session.inTable, ht] <;>
    exact hput

theorem nodeNames_perform (w : World) (name : String) (step : TableStep) :
    (w.perform (step.on name)).session.nodeNames = w.session.nodeNames := by
  cases step <;> simp only [World.perform, «on», Session.perform, Session.inTable] <;> split <;> rfl

theorem compactions_perform (ht : w.session.table? name = some t) (step : TableStep) :
    (w.perform (step.on name)).compactions t.id
      = w.compactions t.id + if step.closes then 1 else 0 := by
  cases step <;> simp [World.perform, «on», Session.compacts, closes, ht]

/-- Only a document is compiled. -/
theorem log_perform_add (ht : w.session.table? name = some t) (d : Document) :
    (w.perform (.add name d)).log
      = w.log ++ [⟨t, w.session.interner, d, w.compactions t.id⟩] := by
  simp only [World.perform, World.compiles, ht]

theorem log_perform (w : World) (name : String) {step : TableStep} (h : ∀ d, step ≠ .add d) :
    (w.perform (step.on name)).log = w.log := by
  cases step with
  | add d => exact absurd rfl (h d)
  | _ => exact List.append_nil _

end TableStep

-- ==================================================== two steps abreast

theorem Alike.mono {pairs more : List (Compilation × Compilation)} {x x' : Node}
    (h : Alike pairs x x') (hmore : pairs ⊆ more) : Alike more x x' := by
  cases h with
  | empty => exact .empty
  | twins mem twins => exact .twins (hmore mem) twins

namespace World

variable {w a b : World} {name : String} {id : TableId}
  {pairs : List (Compilation × Compilation)}

theorem EntriesAlike.mono {more : List (Compilation × Compilation)} {e e' : Entry}
    (h : EntriesAlike pairs e e') (hmore : pairs ⊆ more) : EntriesAlike more e e' :=
  ⟨h.1.mono hmore, h.2.mono hmore⟩

/-- Compilations that are paired register entries that are alike. -/
theorem alike_registers? {k k' : Compilation} (hk : (k, k') ∈ pairs)
    (hdocument : k.document = k'.document) (scope : String) :
    Option.Rel (EntriesAlike pairs) (k.registers? scope) (k'.registers? scope) :=
  imp_of_rel (Compilation.rel_registers? hdocument scope) fun _ _ he =>
    ⟨.twins hk he.1, .twins hk he.2⟩

/-- The world after steps in the table that a name is a handle to. -/
def steps (w : World) (name : String) (steps : List TableStep) : World :=
  steps.foldl (fun w step => w.perform (step.on name)) w

/-- What is compiled later on is not there yet. -/
theorem Reachable.not_mem_of_log_eq (h : a.Reachable) {log new : List Compilation}
    (hlog : a.log = log ++ new) : ∀ k ∈ new, k ∉ log := by
  intro k hk hold
  have hnodup := h.sound.coherent.nodup
  rw [hlog, List.nodup_append] at hnodup
  exact hnodup.2.2 k hold k hk rfl

/-- Further documents of the table stand at the end of the log. -/
private theorem perm_filter_append {f : Compilation × Compilation → Compilation}
    {fresh : List (Compilation × Compilation)} {log new : List Compilation}
    (h : (pairs.map f).Perm (log.filter fun k => k.table.id = id)) (hnew : (fresh.map f).Perm new)
    (hid : ∀ q ∈ fresh, (f q).table.id = id) :
    ((pairs ++ fresh).map f).Perm ((log ++ new).filter fun k => k.table.id = id) := by
  have hof : (new.filter fun k => k.table.id = id) = new := by
    refine List.filter_eq_self.2 fun k hk => ?_
    obtain ⟨q, hq, rfl⟩ := List.mem_map.1 (hnew.mem_iff.2 hk)
    simp [hid q hq]
  rw [List.map_append, List.filter_append, hof]
  exact h.append hnew

/-- Two worlds that are abreast stay so when both go on in the table: what
they compile is paired, the sessions of ids separate no less in the second
one, and the registries go on corresponding. -/
theorem Abreast.append (h : Abreast w a b name id pairs) {a' b' : World} (ha : a'.Reachable)
    (hb : b'.Reachable) {fresh : List (Compilation × Compilation)} {new new' : List Compilation}
    (hlog : a'.log = a.log ++ new) (hlog' : b'.log = b.log ++ new')
    (hleft : (fresh.map Prod.fst).Perm new) (hright : (fresh.map Prod.snd).Perm new')
    (hid : ∀ q ∈ fresh, q.1.table.id = id) (hid' : ∀ q ∈ fresh, q.2.table.id = id)
    (hdocument : ∀ q ∈ fresh, q.1.document = q.2.document)
    (hepochs : ∀ p ∈ pairs ++ fresh, ∀ q ∈ pairs ++ fresh,
      p.2.epoch = q.2.epoch → p.1.epoch = q.1.epoch)
    (hnames : a'.session.nodeNames = a.session.nodeNames)
    (hnames' : b'.session.nodeNames = b.session.nodeNames)
    (hregistry : ∃ t t', a'.session.table? name = some t ∧ b'.session.table? name = some t'
      ∧ t.id = id ∧ t'.id = id ∧ ∀ scope, Option.Rel (EntriesAlike (pairs ++ fresh))
        (t.registry.get? scope) (t'.registry.get? scope)) :
    Abreast w a' b' name id (pairs ++ fresh) where
  left := by
    rw [hlog]
    exact perm_filter_append h.left hleft hid
  right := by
    rw [hlog']
    exact perm_filter_append h.right hright hid'
  document := by
    intro q hq
    rcases List.mem_append.1 hq with hq | hq
    · exact h.document q hq
    · exact hdocument q hq
  epochs := hepochs
  history := by
    intro k hk
    rw [hlog, hlog']
    exact ⟨List.mem_append_left _ (h.history k hk).1, List.mem_append_left _ (h.history k hk).2⟩
  common := by
    intro q hq hold
    rcases List.mem_append.1 hq with hq | hq
    · exact h.common q hq hold
    · -- what is new on either side was not in the world that both come from
      rcases hold with hold | hold
      · have hnew := hleft.subset (List.mem_map_of_mem hq)
        exact absurd (h.history _ hold).1 (ha.not_mem_of_log_eq hlog _ hnew)
      · have hnew := hright.subset (List.mem_map_of_mem hq)
        exact absurd (h.history _ hold).2 (hb.not_mem_of_log_eq hlog' _ hnew)
  nodeNames := hnames.trans h.nodeNames
  nodeNames' := hnames'.trans h.nodeNames'
  registry := hregistry

/-- A document that both add. -/
theorem Abreast.add (h : Abreast w a b name id pairs) (ha : a.Reachable) (hb : b.Reachable)
    (d : Document)
    (hcurrent : ∀ q ∈ pairs, q.2.epoch = b.compactions id → q.1.epoch = a.compactions id) :
    ∃ k k', (a.perform (.add name d)).log = a.log ++ [k]
      ∧ (b.perform (.add name d)).log = b.log ++ [k']
      ∧ k.table.id = id ∧ k.epoch = a.compactions id
      ∧ Abreast w (a.perform (.add name d)) (b.perform (.add name d)) name id
        (pairs ++ [(k, k')]) := by
  obtain ⟨t, t', ht, ht', rfl, hid', hregistry⟩ := h.registry
  let k : Compilation := ⟨t, a.session.interner, d, a.compactions t.id⟩
  let k' : Compilation := ⟨t', b.session.interner, d, b.compactions t'.id⟩
  have hlog : (a.perform (.add name d)).log = a.log ++ [k] := TableStep.log_perform_add ht d
  have hlog' : (b.perform (.add name d)).log = b.log ++ [k'] := TableStep.log_perform_add ht' d
  have hepoch' : k'.epoch = b.compactions t.id := congrArg b.compactions hid'
  refine ⟨k, k', hlog, hlog', rfl, rfl, ?_⟩
  apply h.append (ha.perform _) (hb.perform _) hlog hlog' (.refl _) (.refl _) (by simp [k])
    (by simpa [k'] using hid') (by simp [k, k'])
  · intro p hp q hq
    rcases List.mem_append.1 hp with hp | hp
    · rcases List.mem_append.1 hq with hq | hq
      · exact h.epochs p hp q hq
      · rw [List.mem_singleton.1 hq]
        exact fun heq => hcurrent p hp (heq.trans hepoch')
    · rw [List.mem_singleton.1 hp]
      rcases List.mem_append.1 hq with hq | hq
      · exact fun heq => (hcurrent q hq (heq.symm.trans hepoch')).symm
      · rw [List.mem_singleton.1 hq]
        exact fun _ => rfl
  · exact TableStep.nodeNames_perform a name (.add d)
  · exact TableStep.nodeNames_perform b name (.add d)
  · refine ⟨_, _, TableStep.table?_perform ht (.add d), TableStep.table?_perform ht' (.add d), rfl,
      hid', fun scope => ?_⟩
    have hold := imp_of_rel (hregistry scope) fun e e' he =>
      he.mono (List.subset_append_left pairs [(k, k')])
    have hpair : (k, k') ∈ pairs ++ [(k, k')] := List.mem_append_right _ (.head _)
    have hboth := or_of_rel (alike_registers? hpair rfl scope) hold
    rw [← k.get?_add, ← k'.get?_add] at hboth
    exact hboth

/-- What compiles nothing leaves two worlds abreast, as long as the
registries correspond. -/
theorem Abreast.keep (h : Abreast w a b name id pairs) {a' b' : World} (hlog : a'.log = a.log)
    (hlog' : b'.log = b.log) (hnames : a'.session.nodeNames = a.session.nodeNames)
    (hnames' : b'.session.nodeNames = b.session.nodeNames)
    (hregistry : ∃ t t', a'.session.table? name = some t ∧ b'.session.table? name = some t'
      ∧ t.id = id ∧ t'.id = id
      ∧ ∀ scope, Option.Rel (EntriesAlike pairs) (t.registry.get? scope) (t'.registry.get? scope)) :
    Abreast w a' b' name id pairs where
  left := hlog ▸ h.left
  right := hlog' ▸ h.right
  document := h.document
  epochs := h.epochs
  history := hlog ▸ hlog' ▸ h.history
  common := h.common
  nodeNames := hnames.trans h.nodeNames
  nodeNames' := hnames'.trans h.nodeNames'
  registry := hregistry

end World

end ScopeRules
