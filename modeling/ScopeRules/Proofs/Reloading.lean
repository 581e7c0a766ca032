/-
Loading a document again. It is compiled once more, to rules that were not
there before, and its scopes are taken by these; the rules of the first load
are registered no longer. None of this can be seen by who walks in the table:
`World.reloaded_alike`.

# The two moments

The moment after the first load is compared with the one after the second.
What was compiled before is paired with itself, and the first compilation of
the document with the second one, so the first compilation has no partner at
the second moment: the worlds are matched and not abreast (Abreast.lean). The
registries correspond since the document takes its scopes from whatever had
them, itself included.

# What is there already

The texts and names that the second load asks for are those of the first one,
so it finds them all: neither the interner nor the allocator changes
(`Interner.internAll_internAll`, `RuleIds.allocateAll_allocateAll`).
-/
import ScopeRules.Proofs.Clearing
import ScopeRules.Proofs.Interning

namespace ScopeRules

-- ========================================================= tables

namespace Table

variable (t : Table) (i : Interner) (d : Document)

/-- A document that was added is compiled again with what it was compiled
with before: its names have ids, and its texts are known. -/
theorem contextFor_add :
    (t.add i d).table.contextFor (t.add i d).interner d = t.contextFor i d := by
  show Context.mk t.id ((t.ruleIds.allocateAll (Outline.ofDocument d).names).allocateAll
      (Outline.ofDocument d).names)
    ((i.internAll (Grammar.texts d)).internAll (Grammar.texts d)) = _
  rw [RuleIds.allocateAll_allocateAll, Interner.internAll_internAll]
  rfl

theorem ruleIds_add_again :
    ((t.add i d).table.add (t.add i d).interner d).table.ruleIds = (t.add i d).table.ruleIds :=
  congrArg Context.ruleIds (t.contextFor_add i d)

theorem interner_add_again :
    ((t.add i d).table.add (t.add i d).interner d).interner = (t.add i d).interner :=
  congrArg Context.interner (t.contextFor_add i d)

theorem scope_add_again :
    ((t.add i d).table.add (t.add i d).interner d).scope = (t.add i d).scope := by
  rw [scope_add_eq_map, scope_add_eq_map, contextFor_add]

end Table

namespace World

variable {w a b : World} {name : String} {t u v : Table} {k k' : Compilation}

-- ============================================================ the pairs

/-- What holds of old documents beside themselves, and of the new one, holds
of all that is paired. -/
theorem forall_mem_itself_append {id : TableId} {P : Compilation × Compilation → Prop}
    (hold : ∀ j ∈ w.log, j.table.id = id → P (j, j)) (hnew : P (k, k')) :
    ∀ q ∈ w.itself id ++ [(k, k')], P q := by
  intro q hq
  rcases List.mem_append.1 hq with hq | hq
  · obtain ⟨j, hj, rfl⟩ := List.mem_map.1 hq
    obtain ⟨hlog, hid⟩ := List.mem_filter.1 hj
    exact hold j hlog (of_decide_eq_true hid)
  · exact List.mem_singleton.1 hq ▸ hnew

/-- A new document comes to the old ones of a table. -/
theorem Reachable.nodup_filter_append (hw : w.Reachable) (id : TableId) (hk : k ∉ w.log) :
    ((w.log.filter fun j => j.table.id = id) ++ [k]).Nodup :=
  nodup_append_singleton (hw.sound.coherent.nodup.filter _)
    fun hmem => hk (List.mem_filter.1 hmem).1

/-- A scope that the document registers is taken by it, the second time as
the first time, and any other is left to what had it before. -/
theorem Added.rel_registry_again (hw : w.Reachable) (ht : w.session.table? name = some t)
    (ha : Added w a name t [k] u) (hb : Added w b name t [k, k'] v)
    (hdocument : k.document = k'.document) (scope : String) :
    Option.Rel (EntriesAlike (w.itself t.id ++ [(k, k')])) (u.registry.get? scope)
      (v.registry.get? scope) := by
  have hpair : (k, k') ∈ w.itself t.id ++ [(k, k')] := List.mem_append_right _ (.head _)
  rw [ha.registry, hb.registry]
  rcases cases_of_rel (alike_registers? hpair hdocument scope)
    with ⟨hnone, hnone'⟩ | ⟨e, e', he, he', halike⟩
  · simp only [List.filterMap_cons, List.filterMap_nil, hnone, hnone', List.getLast?_nil,
      Option.none_or]
    cases hentry : t.registry.get? scope with
    | none => exact .none
    | some e => exact .some ((alike_itself hw ht hentry).mono (List.subset_append_left _ _))
  · simp only [List.filterMap_cons, List.filterMap_nil, he, he', List.getLast?_cons_cons,
      List.getLast?_singleton, Option.some_or]
    exact .some halike

/-- The moment after a document was added once matches the one after it was
added twice. -/
theorem Added.matched_again (hw : w.Reachable) (ht : w.session.table? name = some t)
    (ha : Added w a name t [k] u) (hb : Added w b name t [k, k'] v)
    (hdocument : k.document = k'.document) (hepoch : ∀ q ∈ w.itself t.id ++ [(k, k')],
      q.1.epoch = q.2.epoch) :
    Matched w a b name t.id (w.itself t.id ++ [(k, k')]) := by
  have hnew := ha.reachable.not_mem_of_log_eq ha.log k (.head _)
  have hnew' := hb.reachable.not_mem_of_log_eq hb.log k' (.tail _ (.head _))
  have hhistory : ∀ j ∈ w.log, j ∈ a.log ∧ j ∈ b.log := by
    intro j hj
    rw [ha.log, hb.log]
    exact ⟨List.mem_append_left _ hj, List.mem_append_left _ hj⟩
  have hmem : k ∈ a.log := ha.log ▸ List.mem_append_right _ (.head _)
  have hmem' : k' ∈ b.log := hb.log ▸ List.mem_append_right _ (.tail _ (.head _))
  refine ⟨?_, ?_, ?_, ?_, ?_, ?_, hhistory, ?_, ha.nodeNames, hb.nodeNames, u, v, ha.table,
    hb.table, ha.id, hb.id, ha.rel_registry_again hw ht hb hdocument⟩
  · simpa [itself, Function.comp_def] using hw.nodup_filter_append t.id hnew
  · simpa [itself, Function.comp_def] using hw.nodup_filter_append t.id hnew'
  · exact forall_mem_itself_append (fun j hj hid => ⟨(hhistory j hj).1, hid⟩)
      ⟨hmem, (ha.ofTable k (.head _)).1⟩
  · exact forall_mem_itself_append (fun j hj hid => ⟨(hhistory j hj).2, hid⟩)
      ⟨hmem', (hb.ofTable k' (.tail _ (.head _))).1⟩
  · exact forall_mem_itself_append (fun _ _ _ => rfl) hdocument
  · intro p hp q hq hpq
    rw [hepoch p hp, hepoch q hq, hpq]
  · refine forall_mem_itself_append (fun _ _ _ _ => rfl) fun hcommon => ?_
    rcases hcommon with hold | hold
    · exact absurd hold hnew
    · exact absurd hold hnew'

-- ============================================================== the law

/-- What adding a document makes of the table and of the interner. -/
theorem perform_add (ht : w.session.table? name = some t) (d : Document) :
    (w.perform (.add name d)).session.table? name = some (t.add w.session.interner d).table
      ∧ (w.perform (.add name d)).session.interner = (t.add w.session.interner d).interner := by
  refine ⟨TableStep.table?_perform ht (.add d), ?_⟩
  simp only [World.perform, Session.perform, Session.inTable, ht]
  rfl

/-- A document that is added again answers the same scope, and asks for
nothing that is not there. -/
theorem perform_add_again (hw : w.Reachable) (ht : w.session.table? name = some t) (d : Document) :
    let a := w.perform (.add name d)
    let b := a.perform (.add name d)
    ∃ u v, a.session.table? name = some u ∧ b.session.table? name = some v
      ∧ (a.session.add u d).1 = (w.session.add t d).1
      ∧ v.ruleIds = u.ruleIds ∧ b.allocations t.id = a.allocations t.id
      ∧ b.session.interner = a.session.interner := by
  intro a b
  let u := (t.add w.session.interner d).table
  obtain ⟨hu, hinterner⟩ : a.session.table? name = some u
      ∧ a.session.interner = (t.add w.session.interner d).interner := perform_add ht d
  obtain ⟨hv, hinterner'⟩ : b.session.table? name = some (u.add a.session.interner d).table
      ∧ b.session.interner = (u.add a.session.interner d).interner := perform_add hu d
  have hids : (u.add a.session.interner d).table.ruleIds = u.ruleIds := by
    rw [hinterner]
    exact t.ruleIds_add_again w.session.interner d
  refine ⟨u, _, hu, hv, ?_, hids, ?_, ?_⟩
  · show (u.add a.session.interner d).scope = (t.add w.session.interner d).scope
    rw [hinterner]
    exact t.scope_add_again w.session.interner d
  · have hallocations := allocations_perform (hw.perform (.add name d)) hu hv
      (TableStep.of_id a.session.interner (.add d))
    rw [hids, Nat.sub_self, Nat.add_zero] at hallocations
    exact hallocations
  · rw [hinterner', hinterner]
    exact t.interner_add_again w.session.interner d

/-- A document that is added twice in a row has the effect of one that is
added once. The second time answers the same scope, allocates no id, interns
no text, and leaves the same scopes registered; and from every scope the same
walk ends alike as after the first time, whatever it steps on but ids. What
was compiled before is beside itself, and the first compilation of the
document beside the second one. -/
theorem reloaded_alike (hw : w.Reachable) (ht : w.session.table? name = some t) (d : Document) :
    let a := w.perform (.add name d)
    let b := a.perform (.add name d)
    let pairs := w.itself t.id ++ (w.compiledUntil a).zip (a.compiledUntil b)
    (∃ u v, a.session.table? name = some u ∧ b.session.table? name = some v
      ∧ (a.session.add u d).1 = (w.session.add t d).1
      ∧ v.ruleIds = u.ruleIds ∧ b.allocations t.id = a.allocations t.id
      ∧ b.session.interner = a.session.interner
      ∧ v.size = u.size ∧ v.scopes = u.scopes ∧ ∀ scope, v.contains scope = u.contains scope)
    ∧ (pairs.map Prod.fst).Perm (a.log.filter fun k => k.table.id = t.id)
    ∧ (∀ q ∈ pairs, q.1.document = q.2.document)
    ∧ ∀ handle scope steps, (∀ step ∈ steps, ∀ i, step ≠ .entryId i) →
      (a.perform (.hold handle ⟨name, .scope scope, steps⟩)).allocations t.id ≤ RuleId.largest →
      (b.perform (.hold handle ⟨name, .scope scope, steps⟩)).allocations t.id ≤ RuleId.largest →
      EndsAlike pairs (a.session.walk ⟨name, .scope scope, steps⟩)
        (b.session.walk ⟨name, .scope scope, steps⟩) := by
  intro a b pairs
  obtain ⟨k, u, hk, ha⟩ := (added_self hw ht).add d
  obtain ⟨k', v, hk', hb⟩ := ha.add d
  have hdocument : k.document = k'.document := hk.trans hk'.symm
  -- both compilations are of the session of ids that is running
  have hepoch : ∀ q ∈ w.itself t.id ++ [(k, k')], q.1.epoch = q.2.epoch :=
    forall_mem_itself_append (fun _ _ _ => rfl)
      ((ha.ofTable k (.head _)).2.trans (hb.ofTable k' (.tail _ (.head _))).2.symm)
  have hlog : a.log = w.log ++ [k] := ha.log
  have hlog' : b.log = a.log ++ [k'] := by
    rw [hlog, List.append_assoc]
    exact hb.log
  have hpairs : pairs = w.itself t.id ++ [(k, k')] := by
    show w.itself t.id ++ (a.log.drop w.log.length).zip (b.log.drop a.log.length) = _
    rw [hlog', List.drop_left, hlog, List.drop_left, List.zip_cons_cons, List.zip_nil_left]
  have hmatched := ha.matched_again hw ht hb hdocument hepoch
  rw [hpairs]
  refine ⟨?_, ?_, hmatched.document, fun handle scope steps hids hroom hroom' => ?_⟩
  · obtain ⟨u', v', hu, hv, hscope, hids, hallocations, hinterner⟩ := perform_add_again hw ht d
    obtain rfl : u = u' := Option.some.inj (ha.table.symm.trans hu)
    obtain rfl : v = v' := Option.some.inj (hb.table.symm.trans hv)
    obtain ⟨hscopes, hsize, hcontains⟩ := Table.scopes_eq
      (ha.rel_registry_again hw ht hb hdocument)
      (ha.reachable.order _ (Session.mem_of_table?_eq_some hu).1)
      (hb.reachable.order _ (Session.mem_of_table?_eq_some hv).1)
    exact ⟨u, v, hu, hv, hscope, hids, hallocations, hinterner, hsize.symm, hscopes.symm,
      fun scope => (hcontains scope).symm⟩
  · have hid : k.table.id = t.id := (ha.ofTable k (.head _)).1
    rw [hlog, List.filter_append, List.map_append]
    simp [itself, Function.comp_def, hid]
  · exact hmatched.endsAlike hw ha.reachable hb.reachable hepoch
      (ha.compactions.trans hb.compactions.symm) hids hroom hroom'

-- ------------------------------------------------------- loaded twice

/-- A grammar that another one includes is loaded twice. The include leads to
an entry after each load, and to another rule after the second one. -/
theorem reloaded_alike_included :
    let w := run "" [.newTable "t", .add "t" including]
    let a := w.perform (.add "t" included)
    let b := a.perform (.add "t" included)
    let reached (s : Session) := ((s.walk toIncluded).1.toOption.bind Node.rule?).map Rule.id
    reached a.session = some ⟨⟨1⟩, 3⟩ ∧ reached b.session = some ⟨⟨1⟩, 5⟩
      ∧ b.session.interner.size = a.session.interner.size
      ∧ EndsAlike (w.itself ⟨1⟩ ++ (w.compiledUntil a).zip (a.compiledUntil b))
          (a.session.walk toIncluded) (b.session.walk toIncluded) := by
  intro w a b reached
  have hw : w.Reachable := ⟨"", [.newTable "t", .add "t" including], rfl⟩
  obtain ⟨t, ht, hid⟩ := Option.map_eq_some_iff.1
    (show (w.session.table? "t").map Table.id = some ⟨1⟩ by decide +kernel)
  obtain ⟨⟨u, v, -, -, -, -, -, hinterner, -⟩, -, -, hwalk⟩ := reloaded_alike hw ht included
  have hroom : (a.perform (.hold "" toIncluded)).allocations ⟨1⟩ ≤ RuleId.largest := by
    decide +kernel
  have hroom' : (b.perform (.hold "" toIncluded)).allocations ⟨1⟩ ≤ RuleId.largest := by
    decide +kernel
  exact ⟨by decide +kernel, by decide +kernel, congrArg Interner.size hinterner,
    hid ▸ hwalk "" "host" _ (by simp) (hid ▸ hroom) (hid ▸ hroom')⟩

end World

end ScopeRules
