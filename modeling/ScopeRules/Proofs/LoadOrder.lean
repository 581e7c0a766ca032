/-
Grammars that are independent of each other can be loaded in any order.
Documents are independent if they register no scope in common; what they
include of each other does not matter, since an include asks the table when
it is followed and not when it is compiled.

# Two orders

`World.Added` says what documents that are added one after the other make of
a world: the log and the ids go on, and a scope is taken by the last of them
that registers it. For independent documents this is the only one that does,
whatever the order. So two orders lead to worlds that are abreast, each new
document of the one paired with its compilation in the other
(`World.exists_abreast_of_perm`).

No document is compacted away from another on the one side only, so no
reference is missed on one side only, and a walk takes the same way in both
(Walks.lean).
-/
import Mathlib.Data.List.Induction
import Mathlib.Data.List.Perm.Basic
import ScopeRules.Proofs.Abreast
import ScopeRules.Proofs.Walks

namespace ScopeRules

-- ============================================= scopes of a document

/-- The scopes that a document registers: in a new table, or in any. -/
def Document.scopes (d : Document) : List String := ((Table.new ⟨0⟩).add .empty d).table.scopes

/-- A document registers the same scopes wherever it is compiled. -/
theorem Compilation.mem_scopes_iff (k : Compilation) {scope : String} :
    scope ∈ k.document.scopes ↔ (k.registers? scope).isSome = true := by
  let j : Compilation := ⟨.new ⟨0⟩, .empty, k.document, 0⟩
  have hdocument : j.document = k.document := rfl
  show scope ∈ (j.table.add j.interner j.document).table.registry.keys ↔ _
  rw [Assoc.mem_keys_iff_has, Assoc.has, j.get?_add,
    show j.table.registry.get? scope = none from rfl, Option.or_none]
  rcases cases_of_rel (rel_registers? hdocument scope) with ⟨hnone, hnone'⟩ | ⟨e, e', he, he', -⟩
  · rw [hnone, hnone']
  · rw [he, he']
    simp

/-- Documents of which no two register a scope in common. -/
def Independent (ds : List Document) : Prop :=
  ds.Pairwise fun d e => ∀ scope ∈ d.scopes, scope ∉ e.scopes

instance (ds : List Document) : Decidable (Independent ds) :=
  inferInstanceAs (Decidable (ds.Pairwise fun d e => ∀ scope ∈ d.scopes, scope ∉ e.scopes))

/-- Of independent documents one at most registers a scope. -/
theorem length_registers?_le {ks : List Compilation}
    (hapart : Independent (ks.map Compilation.document)) (scope : String) :
    (ks.filterMap fun k => k.registers? scope).length ≤ 1 := by
  induction ks with
  | nil => exact Nat.zero_le 1
  | cons k rest ih =>
    obtain ⟨hk, hrest⟩ := List.pairwise_cons.1 hapart
    rw [List.filterMap_cons]
    split
    · exact ih hrest
    · rename_i entry hentry
      have hscope : scope ∈ k.document.scopes := k.mem_scopes_iff.2 (by rw [hentry]; rfl)
      have hnone : rest.filterMap (fun k => k.registers? scope) = [] := by
        refine List.filterMap_eq_nil_iff.2 fun j hj => ?_
        have hj' := hk j.document (List.mem_map_of_mem hj) scope hscope
        rw [j.mem_scopes_iff, Option.not_isSome_iff_eq_none] at hj'
        exact hj'
      rw [hnone]
      exact Nat.le_refl 1

namespace World

variable {w a b : World} {name : String} {t : Table}

/-- The world `a` after documents were added to the table `t` of `w`, one
after the other: what was compiled, and what the table has become. -/
structure Added (w a : World) (name : String) (t : Table) (new : List Compilation) (u : Table) :
    Prop where
  reachable : a.Reachable
  table : a.session.table? name = some u
  id : u.id = t.id
  log : a.log = w.log ++ new
  ofTable : ∀ k ∈ new, k.table.id = t.id ∧ k.epoch = w.compactions t.id
  compactions : a.compactions t.id = w.compactions t.id
  nodeNames : a.session.nodeNames = w.session.nodeNames
  ids : u.ruleIds
    = t.ruleIds.allocateAll (new.flatMap fun k => (Outline.ofDocument k.document).names)
  registry : ∀ scope, u.registry.get? scope
    = ((new.filterMap fun k => k.registers? scope).getLast?).or (t.registry.get? scope)

/-- No document yet. -/
theorem added_self (hw : w.Reachable) (ht : w.session.table? name = some t) :
    Added w w name t [] t := by
  refine ⟨hw, ht, rfl, (List.append_nil _).symm, ?_, rfl, rfl, rfl, fun _ => rfl⟩
  intro k hk
  cases hk

/-- One more document. -/
theorem Added.add {new : List Compilation} {u : Table} (h : Added w a name t new u)
    (d : Document) :
    ∃ k v, k.document = d ∧ Added w (a.perform (.add name d)) name t (new ++ [k]) v := by
  have hcompactions := TableStep.compactions_perform h.table (.add d)
  rw [h.id] at hcompactions
  refine ⟨⟨u, a.session.interner, d, a.compactions u.id⟩, _, rfl,
    h.reachable.perform _, TableStep.table?_perform h.table (.add d), h.id, ?_, ?_,
    hcompactions.trans h.compactions,
    (TableStep.nodeNames_perform a name (.add d)).trans h.nodeNames, ?_, fun scope => ?_⟩
  · rw [TableStep.log_perform_add h.table, h.log, List.append_assoc]
  · intro k hk
    rcases List.mem_append.1 hk with hk | hk
    · exact h.ofTable k hk
    · rw [List.mem_singleton.1 hk]
      refine ⟨h.id, ?_⟩
      rw [← h.compactions, ← h.id]
  · rw [List.flatMap_append, RuleIds.allocateAll_append, ← h.ids, List.flatMap_singleton]
    rfl
  · rw [List.filterMap_append, List.getLast?_append, Option.or_assoc, ← h.registry]
    refine (Compilation.get?_add ⟨u, a.session.interner, d, a.compactions u.id⟩ scope).trans ?_
    refine congrArg (Option.or · _) ?_
    cases hk : Compilation.registers? ⟨u, a.session.interner, d, a.compactions u.id⟩ scope <;>
      simp [hk]

/-- Documents that are added one after the other. The induction is from the
end of the list, where the last document takes its scopes. -/
theorem exists_added (hw : w.Reachable) (ht : w.session.table? name = some t)
    (ds : List Document) :
    ∃ new u, new.map Compilation.document = ds
      ∧ Added w (w.steps name (ds.map .add)) name t new u := by
  induction ds using List.reverseRecOn with
  | nil => exact ⟨[], t, rfl, added_self hw ht⟩
  | append_singleton ds d ih =>
    obtain ⟨new, u, hdocuments, hadded⟩ := ih
    obtain ⟨k, v, hk, hmore⟩ := hadded.add d
    refine ⟨new ++ [k], v, by rw [List.map_append, hdocuments, List.map_singleton, hk], ?_⟩
    have hsteps : w.steps name ((ds ++ [d]).map .add)
        = (w.steps name (ds.map .add)).perform (.add name d) := by
      rw [steps, List.map_append, List.foldl_append]
      rfl
    exact hsteps ▸ hmore

-- ======================================================== two orders

/-- What is paired is of one session of ids: that in which the documents were
added. -/
theorem Added.epoch_eq {new new' beside : List Compilation} {u u' : Table}
    (ha : Added w a name t new u) (hb : Added w b name t new' u') (hperm : beside.Perm new') :
    ∀ q ∈ w.itself t.id ++ new.zip beside, q.1.epoch = q.2.epoch := by
  intro q hq
  rcases List.mem_append.1 hq with hq | hq
  · obtain ⟨k, -, rfl⟩ := List.mem_map.1 hq
    rfl
  · obtain ⟨hleft, hright⟩ := List.of_mem_zip hq
    rw [(ha.ofTable _ hleft).2, (hb.ofTable _ (hperm.subset hright)).2]

/-- Of lists with at most one element the order does not matter. -/
theorem getLast?_eq_of_perm {α : Type} {l l' : List α} (h : l.Perm l') (hl : l.length ≤ 1) :
    l.getLast? = l'.getLast? := by
  match l, hl with
  | [], _ => rw [List.nil_perm.1 h]
  | [x], _ => rw [List.singleton_perm.1 h]

/-- Independent documents in two orders: their compilations are paired by
the document. -/
theorem Added.abreast (hw : w.Reachable) (ht : w.session.table? name = some t)
    {new new' beside : List Compilation} {u u' : Table} (ha : Added w a name t new u)
    (hb : Added w b name t new' u')
    (hbeside : List.Forall₂ (fun k k' => k.document = k'.document) new beside)
    (hperm : beside.Perm new') (hapart : Independent (new.map Compilation.document)) :
    Abreast w a b name t.id (w.itself t.id ++ new.zip beside) := by
  have hlength := hbeside.length_eq
  have hnew : ∀ q ∈ new.zip beside, q.1 ∈ new ∧ q.2 ∈ new' := fun q hq =>
    ⟨(List.of_mem_zip hq).1, hperm.subset (List.of_mem_zip hq).2⟩
  have hpaired : List.Forall₂ (fun k k' => (k, k') ∈ w.itself t.id ++ new.zip beside
      ∧ k.document = k'.document) new beside :=
    List.forall₂_iff_zip.2 ⟨hlength, fun hq =>
      ⟨List.mem_append_right _ hq, List.forall₂_zip hbeside hq⟩⟩
  have hepoch := ha.epoch_eq hb hperm
  apply (abreast_self hw ht).append ha.reachable hb.reachable ha.log hb.log
  · rw [List.map_fst_zip (Nat.le_of_eq hlength)]
  · rw [List.map_snd_zip (Nat.le_of_eq hlength.symm)]
    exact hperm
  · exact fun q hq => (ha.ofTable _ (hnew q hq).1).1
  · exact fun q hq => (hb.ofTable _ (hnew q hq).2).1
  · exact fun q hq => List.forall₂_zip hbeside hq
  · intro p hp q hq hpq
    rw [hepoch p hp, hepoch q hq, hpq]
  · exact ha.nodeNames
  · exact hb.nodeNames
  · refine ⟨u, u', ha.table, hb.table, ha.id, hb.id, fun scope => ?_⟩
    rw [ha.registry, hb.registry]
    have hregistered := List.rel_filterMap (fun _ _ hk => alike_registers? hk.1 hk.2 scope) hpaired
    -- one document at most takes the scope, so it is the last one in both orders
    have hone := length_registers?_le hapart scope
    rw [hregistered.length_eq] at hone
    rw [← getLast?_eq_of_perm (hperm.filterMap _) hone]
    refine or_of_rel (getLast?_of_forall₂ hregistered) ?_
    cases he : t.registry.get? scope with
    | none => exact .none
    | some e => exact .some ((alike_itself hw ht he).mono (List.subset_append_left _ _))

/-- Two orders of independent documents lead to worlds that are abreast. -/
theorem exists_abreast_of_perm (hw : w.Reachable) (ht : w.session.table? name = some t)
    {ds ds' : List Document} (hperm : ds.Perm ds') (hapart : Independent ds) :
    ∃ pairs new new' u u', Added w (w.steps name (ds.map .add)) name t new u
      ∧ Added w (w.steps name (ds'.map .add)) name t new' u'
      ∧ new.map Compilation.document = ds ∧ new'.map Compilation.document = ds'
      ∧ Abreast w (w.steps name (ds.map .add)) (w.steps name (ds'.map .add)) name t.id pairs
      ∧ ∀ q ∈ pairs, q.1.epoch = q.2.epoch := by
  obtain ⟨new, u, hdocuments, ha⟩ := exists_added hw ht ds
  obtain ⟨new', u', hdocuments', hb⟩ := exists_added hw ht ds'
  have hcompiled : List.Forall₂ (fun d k => d = k.document) ds' new' := by
    rw [← hdocuments', List.forall₂_map_left_iff]
    exact List.forall₂_same.2 fun _ _ => rfl
  obtain ⟨beside, hbeside, hperm'⟩ := List.perm_comp_forall₂ hperm hcompiled
  rw [← hdocuments, List.forall₂_map_left_iff] at hbeside
  refine ⟨_, new, new', u, u', ha, hb, hdocuments, hdocuments', ?_, ha.epoch_eq hb hperm'⟩
  exact ha.abreast hw ht hb hbeside hperm' (hdocuments ▸ hapart)

-- ============================================================== the law

/-- Two walks that end alike: at the same step without reaching anything, or
at nodes that are alike, as is what they resolve to, which looks the same. -/
def EndsAlike (pairs : List (Compilation × Compilation))
    (out out' : Except WalkFailure Node × Session) : Prop :=
  (∃ failure, out.1 = .error failure ∧ out'.1 = .error failure)
  ∨ ∃ x x', out.1 = .ok x ∧ out'.1 = .ok x' ∧ Alike pairs x x'
    ∧ Alike pairs (.rule (out.2.snapshot.resolve x)) (.rule (out'.2.snapshot.resolve x'))
    ∧ (out.2.snapshot.resolve x).face = (out'.2.snapshot.resolve x').face

/-- The ids that a table has after a walk are in the record of the world
after it. -/
theorem Accounts.records_walk {handle : String} {walk : Walk} {issued : List (Nat × String)}
    (h : (a.perform (.hold handle walk)).Accounts t.id issued)
    (ht : a.session.table? walk.table = some t) :
    (a.session.walk walk).2.Records walk.table (a.compactions t.id) issued := by
  intro u hu
  obtain ⟨names, hasked⟩ := (a.session.asked_walk walk).exists_table ht
  obtain rfl := Option.some.inj (hu.symm.trans hasked)
  have hmem := (Session.mem_of_table?_eq_some hu).1
  rw [← a.session.tables_perform_hold handle walk] at hmem
  have hissued := h.current _ hmem rfl
  rw [compactions_perform rfl] at hissued
  exact hissued.recorded

/-- In worlds that are matched a walk ends alike, if what is paired is of one
session of ids. -/
theorem Matched.endsAlike {pairs : List (Compilation × Compilation)} {id : TableId}
    (h : Matched w a b name id pairs) (hw : w.Reachable) (ha : a.Reachable) (hb : b.Reachable)
    (hepoch : ∀ q ∈ pairs, q.1.epoch = q.2.epoch)
    (hcompactions : a.compactions id = b.compactions id) {handle scope : String}
    {steps : List WalkStep} (hids : ∀ step ∈ steps, ∀ i, step ≠ .entryId i)
    (hroom : (a.perform (.hold handle ⟨name, .scope scope, steps⟩)).allocations id ≤ RuleId.largest)
    (hroom' : (b.perform (.hold handle ⟨name, .scope scope, steps⟩)).allocations id
      ≤ RuleId.largest) :
    EndsAlike pairs (a.session.walk ⟨name, .scope scope, steps⟩)
      (b.session.walk ⟨name, .scope scope, steps⟩) := by
  obtain ⟨t, t', ht, ht', rfl, hid', hregistry⟩ := h.registry
  obtain ⟨issued, hissued⟩ := (ha.perform _).sound.accounted t.id hroom
  obtain ⟨issued', hissued'⟩ := (hb.perform _).sound.accounted t.id hroom'
  have hpaired := h.paired ha hb hissued.distinct hissued'.distinct
    (fun k hk => hissued.compiled k (List.mem_append_left _ hk))
    (fun k hk => hissued'.compiled k (List.mem_append_left _ hk))
  have hmirrored : Session.Mirrored t.id a.log b.log pairs name a.session b.session :=
    ⟨h.mirror hw ha hb hpaired, ha.sound.distinct, hb.sound.distinct, ⟨t, ht⟩, ⟨t', ht'⟩⟩
  have hmissed := Mirror.not_missed hepoch
  have hsession : ∀ q ∈ pairs, a.compactions t.id = q.1.epoch ↔ b.compactions t.id = q.2.epoch := by
    intro q hq
    rw [hcompactions, hepoch q hq]
  have hrecords := hissued.records_walk ht
  have hrecords' := (hid' ▸ hissued').records_walk ht'
  have hafter := hmirrored.asked (a.session.asked_walk ⟨name, .scope scope, steps⟩)
    (b.session.asked_walk ⟨name, .scope scope, steps⟩)
  rw [Session.walk_scope ht] at hrecords hafter ⊢
  rw [Session.walk_scope ht'] at hrecords' hafter ⊢
  rw [hid'] at hrecords'
  rcases hmirrored.walkSteps hpaired hmissed hsession hids (alike_lookup (hregistry scope)) hrecords
    hrecords' with hfailure | ⟨x, x', hx, hx', halike⟩
  · exact .inl hfailure
  · have hresolve := hafter.mirror.alike_resolve hpaired hmissed halike
    exact .inr ⟨x, x', hx, hx', halike, hresolve, hpaired.face_eq hresolve⟩

theorem Abreast.endsAlike {pairs : List (Compilation × Compilation)} {id : TableId}
    (h : Abreast w a b name id pairs) (hw : w.Reachable) (ha : a.Reachable) (hb : b.Reachable)
    (hepoch : ∀ q ∈ pairs, q.1.epoch = q.2.epoch)
    (hcompactions : a.compactions id = b.compactions id) {handle scope : String}
    {steps : List WalkStep} (hids : ∀ step ∈ steps, ∀ i, step ≠ .entryId i)
    (hroom : (a.perform (.hold handle ⟨name, .scope scope, steps⟩)).allocations id ≤ RuleId.largest)
    (hroom' : (b.perform (.hold handle ⟨name, .scope scope, steps⟩)).allocations id
      ≤ RuleId.largest) :
    EndsAlike pairs (a.session.walk ⟨name, .scope scope, steps⟩)
      (b.session.walk ⟨name, .scope scope, steps⟩) :=
  (h.matched ha hb).endsAlike hw ha hb hepoch hcompactions hids hroom hroom'

/-- Independent grammars can be loaded in any order. The same scopes are
registered, the same entry names have ids, and the documents of the one
order can be paired with those of the other so that from every scope the
same walk ends alike, whatever it steps on but ids. -/
theorem walk_endsAlike_of_perm (hw : w.Reachable) (ht : w.session.table? name = some t)
    {ds ds' : List Document} (hperm : ds.Perm ds') (hapart : Independent ds) :
    let a := w.steps name (ds.map .add)
    let b := w.steps name (ds'.map .add)
    (∃ u u', a.session.table? name = some u ∧ b.session.table? name = some u'
      ∧ u.scopes = u'.scopes
      ∧ ∀ entry, (u.ruleIds.get? entry).isSome = (u'.ruleIds.get? entry).isSome)
    ∧ ∃ pairs, (pairs.map Prod.fst).Perm (a.log.filter fun k => k.table.id = t.id)
      ∧ (pairs.map Prod.snd).Perm (b.log.filter fun k => k.table.id = t.id)
      ∧ (∀ q ∈ pairs, q.1.document = q.2.document
        ∧ (q.1 ∈ w.log ∨ q.2 ∈ w.log → q.1 = q.2))
      ∧ ∀ handle scope steps, (∀ step ∈ steps, ∀ i, step ≠ .entryId i) →
        (a.perform (.hold handle ⟨name, .scope scope, steps⟩)).allocations t.id ≤ RuleId.largest →
        (b.perform (.hold handle ⟨name, .scope scope, steps⟩)).allocations t.id ≤ RuleId.largest →
        EndsAlike pairs (a.session.walk ⟨name, .scope scope, steps⟩)
          (b.session.walk ⟨name, .scope scope, steps⟩) := by
  intro a b
  obtain ⟨pairs, new, new', u, u', ha, hb, hdocuments, hdocuments', habreast, hepoch⟩ :=
    exists_abreast_of_perm hw ht hperm hapart
  refine ⟨?_, pairs, habreast.left, habreast.right,
    fun q hq => ⟨habreast.document q hq, habreast.common q hq⟩, ?_⟩
  · obtain ⟨v, v', hv, hv', hscopes, -⟩ := habreast.exists_tables ha.reachable hb.reachable
    refine ⟨v, v', hv, hv', hscopes, fun entry => ?_⟩
    obtain rfl := Option.some.inj (hv.symm.trans ha.table)
    obtain rfl := Option.some.inj (hv'.symm.trans hb.table)
    have hnames : ∀ ks : List Compilation,
        (ks.flatMap fun k => (Outline.ofDocument k.document).names)
          = (ks.map Compilation.document).flatMap fun d => (Outline.ofDocument d).names := by
      intro ks
      rw [List.flatMap_map]
    rw [ha.ids, hb.ids, RuleIds.isSome_get?_allocateAll, RuleIds.isSome_get?_allocateAll, hnames,
      hnames, hdocuments, hdocuments', decide_eq_decide.2 (hperm.flatMap_right _).mem_iff]
  · intro handle scope steps hids hroom hroom'
    exact habreast.endsAlike hw ha.reachable hb.reachable hepoch
      (ha.compactions.trans hb.compactions.symm) hids hroom hroom'

-- -------------------------------------------------------------- two orders

/-- From the grammar that includes to what it includes, and from there to an
entry. -/
def toIncluded : Walk := ⟨"t", .scope "host", [.child 0, .resolve, .parent, .entry "x"]⟩

/-- A grammar that includes another one can be loaded first or last: the way
through the include leads to the same entry. -/
theorem walk_endsAlike_of_perm_including :
    let a := (run "" [.newTable "t"]).steps "t" [.add including, .add included]
    let b := (run "" [.newTable "t"]).steps "t" [.add included, .add including]
    (∃ x, (a.session.walk toIncluded).1 = .ok x)
      ∧ ∃ pairs, EndsAlike pairs (a.session.walk toIncluded) (b.session.walk toIncluded) := by
  have ht : (run "" [.newTable "t"]).session.table? "t" = some (.new ⟨1⟩) := rfl
  obtain ⟨-, pairs, -, -, -, hwalk⟩ := walk_endsAlike_of_perm ⟨"", _, rfl⟩ ht
    (.swap included including []) (by decide)
  exact ⟨⟨_, rfl⟩, pairs, hwalk "" "host" _ (by simp) (by decide) (by decide)⟩

end World

end ScopeRules
