/-
What the order of keys is good for: nothing, in a plain document. Two
documents that are the same but for that order, each added to a new table,
give tables that look the same. `World.rearranged_alike` says so for the
scopes and for every list of looks, whatever ids and numbers were given out
on the way, and whatever else the two sessions have done.

# What is registered

A document registers the last rule that declares a scope, and which one is
last depends on the order. So no two rules may declare one scope
(`Document.declared`). Then the rule that is registered for a scope is the
counterpart of the one that the other document registers, for it is the
only one that declares the scope (`Compilation.rel_registers?`).
-/
import ScopeRules.Proofs.Clearing
import ScopeRules.Proofs.Correspondence

namespace ScopeRules

-- ====================================================== declared scopes

/-- The scopes that the rules of an outline declare, rule by rule. -/
def Outline.scopes : Outline → List String
  | .nothing => []
  | .attribute _ _ rest => rest.scopes
  | .unusable _ rest => rest.scopes
  | .label _ _ _ rest => rest.scopes
  | .reference _ _ rest => rest.scopes
  | .rule _ scope body rest => scope.toList ++ body.scopes ++ rest.scopes

/-- The scopes that the rules of a document declare, rule by rule: a scope
that two rules declare comes twice. -/
def Document.declared (d : Document) : List String :=
  (Outline.scopeOf d).toList ++ (Outline.ofDocument d).scopes

/-- The text of the scope that a rule declares. -/
def Rule.scopeText? (r : Rule) : Option String := r.scope.map Symbol.text

theorem scopeText?_fill (c : Context) (o : Outline) (next serial : Nat) (scope : Option String)
    (parent : Option NodeId) :
    (o.fill c next (c.unfilled serial scope parent)).scopeText? = scope := by
  rw [Rule.scopeText?, fill_scope]
  cases scope <;> simp [Context.unfilled, Rule.bare]

theorem filterMap_scopeText?_rules (c : Context) (o : Outline) (next : Nat) (owner : NodeId) :
    (o.rules c next owner).filterMap Rule.scopeText? = o.scopes := by
  induction o generalizing next owner with
  | nothing => rfl
  | «attribute» key text rest ih => exact ih next owner
  | unusable key rest ih => exact ih next owner
  | label key index text rest ih => exact ih next owner
  | reference place target rest ih => exact ih next owner
  | rule place scope body rest ihbody ihrest =>
    rw [Outline.rules, List.filterMap_cons, scopeText?_fill, List.filterMap_append, ihbody, ihrest,
      Outline.scopes]
    cases scope <;> simp

namespace Compilation

variable {k k' : Compilation} {issued issued' : List (Nat × String)} {scope : String} {r : Rule}

/-- The rules of a document declare the scopes that its dictionaries do. -/
theorem map_fst_declarations (k : Compilation) :
    k.grammar.declarations.map Prod.fst = k.document.declared := by
  have htexts : k.grammar.declarations.map Prod.fst = k.rules.filterMap Rule.scopeText? := by
    show (k.rules.filterMap Rule.declaration?).map Prod.fst = _
    rw [List.map_filterMap]
    refine List.filterMap_congr fun r _ => ?_
    rw [Rule.declaration?, Rule.scopeText?]
    cases r.scope <;> rfl
  have hroot : k.root.scopeText? = Outline.scopeOf k.document := scopeText?_fill _ _ _ _ _ _
  rw [htexts, rules_eq, List.filterMap_cons, hroot, filterMap_scopeText?_rules, Document.declared]
  cases Outline.scopeOf k.document <;> rfl

theorem mem_declarations_iff :
    (scope, r) ∈ k.grammar.declarations ↔ r ∈ k.rules ∧ r.scopeText? = some scope := by
  show (scope, r) ∈ k.rules.filterMap Rule.declaration? ↔ _
  rw [List.mem_filterMap]
  constructor
  · rintro ⟨s, hs, hdeclares⟩
    obtain ⟨symbol, hsymbol, heq⟩ := Option.map_eq_some_iff.1 hdeclares
    obtain ⟨rfl, rfl⟩ := Prod.mk.inj heq
    exact ⟨hs, by rw [Rule.scopeText?, hsymbol]; rfl⟩
  · rintro ⟨hr, hscope⟩
    obtain ⟨symbol, hsymbol, rfl⟩ := Option.map_eq_some_iff.1 hscope
    exact ⟨r, hr, by rw [Rule.declaration?, hsymbol]; rfl⟩

/-- What a document registers for a scope declares it. -/
theorem mem_declarations_of_registers? {e : Entry} (h : k.registers? scope = some e) :
    (scope, e.node) ∈ k.grammar.declarations ∧ e.root = k.root := by
  obtain ⟨⟨name, r⟩, hlast, rfl⟩ := Option.map_eq_some_iff.1 h
  obtain ⟨hmem, hname⟩ := List.mem_filter.1 (List.mem_of_getLast? hlast)
  obtain rfl : name = scope := of_decide_eq_true hname
  exact ⟨hmem, rfl⟩

/-- A scope that one rule only declares is registered for it. -/
theorem registers?_of_mem_declarations (hdeclared : k.document.declared.Nodup)
    (h : (scope, r) ∈ k.grammar.declarations) : k.registers? scope = some ⟨r, k.root⟩ := by
  have hdistinct : Assoc.Distinct k.grammar.declarations := by
    rw [← map_fst_declarations] at hdeclared
    exact hdeclared
  have hone := Assoc.length_filter_le_one (P := fun p => p.1 = scope) hdistinct
    fun p _ q _ hp hq => (of_decide_eq_true hp).trans (of_decide_eq_true hq).symm
  rw [registers?, eq_singleton_of_mem hone (List.mem_filter.2 ⟨h, decide_eq_true rfl⟩)]
  rfl

/-- A scope that some rule declares is registered. -/
theorem isSome_registers?_of_mem_declarations (h : (scope, r) ∈ k.grammar.declarations) :
    (k.registers? scope).isSome = true := by
  have hne : k.grammar.declarations.filter (fun p => p.1 = scope) ≠ [] :=
    List.ne_nil_of_mem (List.mem_filter.2 ⟨h, decide_eq_true rfl⟩)
  rw [registers?, Option.isSome_map, List.getLast?_isSome]
  exact hne

/-- Counterparts declare the same. -/
theorem Counterparts.mem_declarations (hk : Reordering k k' issued issued') {r' : Rule}
    (h : k.Counterparts k' (.rule r) (.rule r')) (hr : (scope, r) ∈ k.grammar.declarations) :
    (scope, r') ∈ k'.grammar.declarations := by
  obtain ⟨-, hscope⟩ := mem_declarations_iff.1 hr
  have hsame : r.scopeText? = r'.scopeText? := (h.matches_rule hk).scope
  exact mem_declarations_iff.2 ⟨h.symm.mem_rules, hsame ▸ hscope⟩

/-- If no scope is declared twice, what the two documents register are
counterparts. -/
theorem Reordering.rel_registers? (hk : Reordering k k' issued issued')
    (hdeclared : k.document.declared.Nodup) (scope : String) :
    Option.Rel (fun e e' => k.Counterparts k' (.rule e.node) (.rule e'.node)
        ∧ k.Counterparts k' (.rule e.root) (.rule e'.root))
      (k.registers? scope) (k'.registers? scope) := by
  cases he' : k'.registers? scope with
  | some e' =>
    obtain ⟨hmem', hroot'⟩ := mem_declarations_of_registers? he'
    obtain ⟨r, hr⟩ := hk.symm.exists_counterpart (mem_declarations_iff.1 hmem').1
    have hmem := hr.mem_declarations hk.symm hmem'
    rw [registers?_of_mem_declarations hdeclared hmem]
    refine .some ⟨hr.symm, ?_⟩
    rw [hroot']
    exact .root
  | none =>
    cases he : k.registers? scope with
    | none => exact .none
    | some e =>
      obtain ⟨hmem, -⟩ := mem_declarations_of_registers? he
      obtain ⟨r', hr'⟩ := hk.exists_counterpart (mem_declarations_iff.1 hmem).1
      have hsome := isSome_registers?_of_mem_declarations (hr'.mem_declarations hk hmem)
      rw [he'] at hsome
      cases hsome

end Compilation

-- =========================================================== new tables

namespace RuleIds

/-- A new allocator has as many names as it was asked for. -/
theorem size_allocateAll_empty (names : List String) :
    (RuleIds.empty.allocateAll names).size = names.dedup.length := by
  have hdistinct : (RuleIds.empty.allocateAll names).session.Distinct :=
    @allocateAll_distinct .empty List.nodup_nil names
  have hkeys : (RuleIds.empty.allocateAll names).session.keys.Perm names.dedup := by
    refine (List.perm_ext_iff_of_nodup hdistinct (List.nodup_dedup names)).2 fun name => ?_
    rw [Assoc.mem_keys_iff_has, List.mem_dedup]
    show ((RuleIds.empty.allocateAll names).get? name).isSome = true ↔ _
    rw [isSome_get?_allocateAll]
    simp [get?, empty]
  rw [← hkeys.length_eq, Assoc.keys, List.length_map]
  rfl

end RuleIds

namespace World

variable {w v : World}

/-- What is compiled when a document is added to a new table. -/
def newCompilation (w : World) (d : Document) : Compilation :=
  ⟨.new ⟨w.session.tablesMade + 1⟩, w.session.interner, d, 0⟩

/-- The world after a table was made and a document added to it. -/
def addNew (w : World) (name : String) (d : Document) : World :=
  (w.perform (.newTable name)).perform (.add name d)

/-- The new table with the document. -/
def newTableWith (w : World) (d : Document) : Table :=
  ((w.newCompilation d).table.add w.session.interner d).table

/-- The new table after a document was added to it, and the log. -/
theorem Reachable.addNew (hw : w.Reachable) (name : String) (d : Document) :
    (w.addNew name d).Reachable ∧ (w.addNew name d).log = w.log ++ [w.newCompilation d]
      ∧ (w.addNew name d).session.table? name = some (w.newTableWith d) := by
  have ht := table?_newTable hw name
  have hserial : w.session.tablesMade < (⟨w.session.tablesMade + 1⟩ : TableId).serial :=
    Nat.lt_succ_self _
  obtain ⟨hcompactions, -, -⟩ := hw.sound.unmade_next (.newTable name) hserial
  refine ⟨(hw.perform _).perform _, ?_, TableStep.table?_perform ht (.add d)⟩
  have hlog := TableStep.log_perform_add ht d
  have hepoch : (w.perform (.newTable name)).compactions
      (Table.new ⟨w.session.tablesMade + 1⟩).id = 0 := hcompactions
  rw [hepoch] at hlog
  refine hlog.trans ?_
  show (w.log ++ []) ++ _ = _
  rw [List.append_nil]
  rfl

/-- The new table registers what the document does. -/
theorem get?_newTableWith (w : World) (d : Document) (scope : String) :
    (w.newTableWith d).registry.get? scope = (w.newCompilation d).registers? scope :=
  ((w.newCompilation d).get?_add scope).trans Option.or_none

/-- A record of the ids in the new table, after it was asked for further
names. -/
theorem exists_recorded (w : World) (d : Document) {names : List String}
    (hroom : ((Outline.ofDocument d).names ++ names).dedup.length ≤ RuleId.largest) :
    ∃ issued : List (Nat × String), issued.Nodup
      ∧ RuleIds.Recorded ((w.newTableWith d).ruleIds.allocateAll names) 0 issued := by
  rw [← RuleIds.size_allocateAll_empty] at hroom
  obtain ⟨issued, -, hissued⟩ := RuleIds.issued_empty.allocateAll
    ((Outline.ofDocument d).names ++ names) (by rw [List.length_nil]; omega)
  refine ⟨issued, hissued.distinct, ?_⟩
  have hrecorded := hissued.recorded
  rw [RuleIds.allocateAll_append] at hrecorded
  exact hrecorded

/-- While something is registered, the new table shows the document. -/
theorem Reachable.shows (hw : w.Reachable) (name : String) {d : Document} {scope : String}
    {e : Entry} (he : (w.newTableWith d).registry.get? scope = some e) :
    (w.addNew name d).session.snapshot.Shows (w.newCompilation d) (w.addNew name d).log := by
  obtain ⟨ha, hlog, ht⟩ := hw.addNew name d
  have hroot : e.root = (w.newCompilation d).root := by
    rw [get?_newTableWith] at he
    exact (Compilation.mem_declarations_of_registers? he).2
  have hheld : (w.newCompilation d).root ∈ (w.addNew name d).session.snapshot.held := by
    refine (ha.mem_held_iff ht ?_).2 (.inl ⟨scope, e, he, .inr hroot.symm⟩)
    rw [Compilation.root_id]
    rfl
  refine ⟨ha.sound.from, ha.sound.coherent, ?_, Snapshot.alive_of_mem_held hheld⟩
  rw [hlog]
  exact List.mem_append_right _ (.head _)

-- ========================================================== side by side

variable {d d' : Document} {issued issued' : List (Nat × String)}

/-- Reordered documents in new tables, with records of the ids that these
have after they were asked for further names. -/
theorem exists_reordering (w v : World) (h : d.Reordered d') (hplain : d.Plain)
    {names : List String}
    (hroom : ((Outline.ofDocument d).names ++ names).dedup.length ≤ RuleId.largest) :
    ∃ issued issued', (w.newCompilation d).Reordering (v.newCompilation d') issued issued'
      ∧ RuleIds.Recorded ((w.newTableWith d).ruleIds.allocateAll names) 0 issued
      ∧ RuleIds.Recorded ((v.newTableWith d').ruleIds.allocateAll names) 0 issued' := by
  have hsubset : ((Outline.ofDocument d').names ++ names).dedup
      ⊆ ((Outline.ofDocument d).names ++ names).dedup := by
    intro name hname
    rw [List.mem_dedup, List.mem_append] at hname ⊢
    exact hname.imp_left fun hname => h.symm.names_subset (h.plain hplain) hname
  have hlength := (List.subperm_of_subset (List.nodup_dedup _) hsubset).length_le
  obtain ⟨issued, hdistinct, hrecorded⟩ := w.exists_recorded d hroom
  obtain ⟨issued', hdistinct', hrecorded'⟩ := v.exists_recorded d' (Nat.le_trans hlength hroom)
  exact ⟨issued, issued', ⟨h, hplain, hdistinct, hdistinct', hrecorded.of_allocateAll,
    hrecorded'.of_allocateAll⟩, hrecorded, hrecorded'⟩

/-- What the new tables have registered. -/
theorem rel_newTableWith (hk : (w.newCompilation d).Reordering (v.newCompilation d') issued issued')
    (hdeclared : d.declared.Nodup) (scope : String) :
    Option.Rel (fun e e' => (w.newCompilation d).Counterparts (v.newCompilation d') (.rule e.node)
        (.rule e'.node))
      ((w.newTableWith d).registry.get? scope) ((v.newTableWith d').registry.get? scope) := by
  rw [get?_newTableWith, get?_newTableWith]
  exact imp_of_rel (hk.rel_registers? hdeclared scope) fun _ _ he => he.1

theorem corresponding_lookup
    (hk : (w.newCompilation d).Reordering (v.newCompilation d') issued issued')
    (hdeclared : d.declared.Nodup) (scope : String) :
    Corresponding (w.newCompilation d) (v.newCompilation d')
      (.rule ((w.newTableWith d).lookup scope)) (.rule ((v.newTableWith d').lookup scope)) := by
  unfold Table.lookup
  rcases cases_of_rel (rel_newTableWith hk hdeclared scope)
    with ⟨hnone, hnone'⟩ | ⟨e, e', he, he', hcounterparts⟩
  · rw [hnone, hnone']
    exact .empty
  · rw [he, he']
    exact .counterparts hcounterparts

/-- While something is registered, the moments after the additions face each
other. -/
theorem Reachable.facing (hw : w.Reachable) (hv : v.Reachable) (name name' : String)
    (hk : (w.newCompilation d).Reordering (v.newCompilation d') issued issued')
    (hdeclared : d.declared.Nodup) {scope : String} {e e' : Entry}
    (he : (w.newTableWith d).registry.get? scope = some e)
    (he' : (v.newTableWith d').registry.get? scope = some e') :
    Facing (w.newCompilation d) (v.newCompilation d') (w.addNew name d).log
      (v.addNew name' d').log (w.addNew name d).session.snapshot
      (v.addNew name' d').session.snapshot where
  left := hw.shows name he
  right := hv.shows name' he'
  lookup := by
    obtain ⟨ha, -, ht⟩ := hw.addNew name d
    obtain ⟨hb, -, ht'⟩ := hv.addNew name' d'
    have htable := Session.table?_id ha.sound.distinct (Session.mem_of_table?_eq_some ht).1
    have htable' := Session.table?_id hb.sound.distinct (Session.mem_of_table?_eq_some ht').1
    exact ⟨_, _, htable, htable', corresponding_lookup hk hdeclared⟩

/-- Looks from one scope of both tables. -/
theorem Reachable.endsCorresponding (hw : w.Reachable) (hv : v.Reachable) (name name' : String)
    (h : d.Reordered d') (hplain : d.Plain) (hdeclared : d.declared.Nodup) (scope : String)
    {looks : List Look}
    (hroom : ((Outline.ofDocument d).names ++ looks.filterMap Look.name?).dedup.length
      ≤ RuleId.largest) :
    EndsCorresponding (w.newCompilation d) (v.newCompilation d')
      ((w.addNew name d).session.looksFrom name scope looks)
      ((v.addNew name' d').session.looksFrom name' scope looks) := by
  obtain ⟨ha, -, ht⟩ := hw.addNew name d
  obtain ⟨hb, -, ht'⟩ := hv.addNew name' d'
  obtain ⟨issued, issued', hk, hrecorded, hrecorded'⟩ := exists_reordering w v h hplain hroom
  obtain ⟨hlooks, names, hnames⟩ := Session.looks_eq ha.sound.distinct ht
    (.rule ((w.newTableWith d).lookup scope)) 0 looks
  obtain ⟨hlooks', names', hnames'⟩ := Session.looks_eq hb.sound.distinct ht'
    (.rule ((v.newTableWith d').lookup scope)) 0 looks
  -- names that were asked for change nothing that is looked at
  have hresolve : ∀ x, ((w.addNew name d).session.asking name names).snapshot.resolve x
      = (w.addNew name d).session.snapshot.resolve x := fun x =>
    ((Session.agreeOn_asking ha.sound.distinct name names).resolve_eq (x := x) trivial).1
  have hresolve' : ∀ x, ((v.addNew name' d').session.asking name' names').snapshot.resolve x
      = (v.addNew name' d').session.snapshot.resolve x := fun x =>
    ((Session.agreeOn_asking hb.sound.distinct name' names').resolve_eq (x := x) trivial).1
  rw [Session.looksFrom, Session.looksFrom, ht, ht']
  unfold EndsCorresponding
  rw [hlooks, hlooks', hnames, hnames']
  simp only [hresolve, hresolve']
  rcases cases_of_rel (rel_newTableWith hk hdeclared scope)
    with ⟨hnone, hnone'⟩ | ⟨e, e', he, he', -⟩
  · have hempty : (w.newTableWith d).lookup scope = .empty := by rw [Table.lookup, hnone]
    have hempty' : (v.newTableWith d').lookup scope = .empty := by rw [Table.lookup, hnone']
    rw [hempty, hempty']
    rcases (w.addNew name d).session.snapshot.looks_empty (v.addNew name' d').session.snapshot
      (w.newTableWith d).ruleIds (v.newTableWith d').ruleIds 0 looks with hfailure | ⟨hx, hx'⟩
    · exact .inl hfailure
    · exact .inr ⟨_, _, hx, hx', .empty, .empty, Corresponding.empty.matches_rule hk⟩
  · have hfacing := hw.facing hv name name' hk hdeclared he he'
    rcases hfacing.looks hk (corresponding_lookup hk hdeclared scope) 0 hrecorded hrecorded'
      with hfailure | ⟨x, x', hx, hx', hcorresponding⟩
    · exact .inl hfailure
    · have hrules := hfacing.resolve hk hcorresponding
      exact .inr ⟨x, x', hx, hx', hcorresponding, hrules, hrules.matches_rule hk⟩

/-- The order of keys plays no part. Two documents that are the same, each
added to a new table, in one session or in two, give tables that look the
same, whatever ids and numbers they have: the same scopes are registered,
for rules that are counterparts, that is, with one address from the roots;
and from every scope, every list of looks fails at the same one, or ends at
counterparts, or at the empty rule in both, and these resolve to rules that
match. No scope may be declared twice, no structural key and no match group
spelled twice in a rule, and no more names mentioned than there are ids, in
the document or by a look. -/
theorem rearranged_alike (hw : w.Reachable) (hv : v.Reachable) (name name' : String)
    (hwf : d.WellFormed) (hwf' : d'.WellFormed) (hsame : d.same d' = true) (hplain : d.Plain)
    (hdeclared : d.declared.Nodup)
    (hroom : (Outline.ofDocument d).names.dedup.length ≤ RuleId.largest) :
    let a := w.addNew name d
    let b := v.addNew name' d'
    let k := w.newCompilation d
    let k' := v.newCompilation d'
    (∃ t t', a.session.table? name = some t ∧ b.session.table? name' = some t'
      ∧ t.scopes = t'.scopes ∧ t.size = t'.size
      ∧ (∀ scope, t.contains scope = t'.contains scope)
      ∧ ∀ scope, Corresponding k k' (.rule (t.lookup scope)) (.rule (t'.lookup scope)))
    ∧ (∀ scope looks,
      ((Outline.ofDocument d).names ++ looks.filterMap Look.name?).dedup.length
        ≤ RuleId.largest →
      EndsCorresponding k k' (a.session.looksFrom name scope looks)
        (b.session.looksFrom name' scope looks))
    ∧ (∀ r r', Corresponding k k' (.rule r) (.rule r') →
      r.Matches (Corresponding k k') r'
      ∧ (∀ spot, Option.Rel (Corresponding k k') (r.at? k.context.ruleIds spot)
        (r'.at? k'.context.ruleIds spot))
      ∧ ∀ s s', Corresponding k k' (.rule s) (.rule s') → (r = s ↔ r' = s'))
    ∧ (∀ r ∈ k.rules, ∃ r', k.Counterparts k' (.rule r) (.rule r'))
    ∧ ∀ r' ∈ k'.rules, ∃ r, k.Counterparts k' (.rule r) (.rule r') := by
  intro a b k k'
  have h : d.Reordered d' := ⟨hwf, hwf', hsame⟩
  rw [← List.append_nil (Outline.ofDocument d).names] at hroom
  obtain ⟨issued, issued', hk, -, -⟩ := exists_reordering w v h hplain hroom
  obtain ⟨ha, -, ht⟩ := hw.addNew name d
  obtain ⟨hb, -, ht'⟩ := hv.addNew name' d'
  refine ⟨?_, fun scope looks hlooks => hw.endsCorresponding hv name name' h hplain hdeclared scope
    hlooks, fun r r' hr => ⟨hr.matches_rule hk, hr.rel_at? hk, fun s s' hs => hr.eq_iff hk hs⟩,
    fun r hr => hk.exists_counterpart hr, fun r' hr' => ?_⟩
  · obtain ⟨hscopes, hsize, hcontains⟩ := Table.scopes_eq (rel_newTableWith hk hdeclared)
      (ha.order _ (Session.mem_of_table?_eq_some ht).1)
      (hb.order _ (Session.mem_of_table?_eq_some ht').1)
    exact ⟨_, _, ht, ht', hscopes, hsize, hcontains, corresponding_lookup hk hdeclared⟩
  · obtain ⟨r, hr⟩ := hk.symm.exists_counterpart hr'
    exact ⟨r, hr.symm⟩

-- ------------------------------------------------------------ a document

/-- A grammar that includes an entry of its own. -/
def arranged : Document :=
  [("scopeName", .string "host"),
    ("patterns", .array [.dict [("include", .string "#x")]]),
    ("repository", .dict
      [("y", .dict [("scopeName", .string "guest")]),
        ("x", .dict
          [("name", .string "found"),
            ("captures", .dict
              [("0", .dict [("name", .string "all")]),
                ("1", .dict [("match", .string "a")])])])])]

/-- The same grammar with its keys in another order. -/
def rearranged : Document :=
  [("repository", .dict
      [("x", .dict
          [("captures", .dict
              [("1", .dict [("match", .string "a")]),
                ("0", .dict [("name", .string "all")])]),
            ("name", .string "found")]),
        ("y", .dict [("scopeName", .string "guest")])]),
    ("patterns", .array [.dict [("include", .string "#x")]]),
    ("scopeName", .string "host")]

theorem arranged_plain : arranged.Plain := by
  have hguest : Document.Plain [("scopeName", .string "guest")] :=
    .of_sources (by decide) (List.forall_mem_nil _)
  have hgroup : Document.Plain [("match", .string "a")] :=
    .of_sources (by decide) (List.forall_mem_nil _)
  have hfound : Document.Plain
      [("name", .string "found"),
        ("captures", .dict
          [("0", .dict [("name", .string "all")]), ("1", .dict [("match", .string "a")])])] :=
    .of_sources (by decide) (List.forall_mem_singleton.2 hgroup)
  exact .of_sources (by decide)
    (List.forall_mem_cons.2 ⟨hguest, List.forall_mem_singleton.2 hfound⟩)

/-- The way through the include leads to the same group of the same entry. -/
theorem rearranged_alike_including :
    let w := run "" []
    let v := run "" [.newTable "t", .add "t" arranged]
    let a := w.addNew "t" arranged
    let b := v.addNew "u" rearranged
    let looks := [Look.into (.child 0), .into (.capture .captures 1), .parent, .parent,
      .into (.entry "y")]
    (a.session.looksFrom "t" "host" looks).1.isOk = true
      ∧ EndsCorresponding (w.newCompilation arranged) (v.newCompilation rearranged)
          (a.session.looksFrom "t" "host" looks) (b.session.looksFrom "u" "host" looks) := by
  intro w v a b looks
  have hw : w.Reachable := ⟨"", [], rfl⟩
  have hv : v.Reachable := ⟨"", _, rfl⟩
  have hwf : arranged.WellFormed := by
    simp [Document.WellFormed, arranged, Value.WellFormed, Value.WellFormedEntries,
      Value.WellFormedItems, Assoc.Distinct, Assoc.keys]
  have hwf' : rearranged.WellFormed := by
    simp [Document.WellFormed, rearranged, Value.WellFormed, Value.WellFormedEntries,
      Value.WellFormedItems, Assoc.Distinct, Assoc.keys]
  obtain ⟨-, hlooks, -⟩ := rearranged_alike hw hv "t" "u" hwf hwf' (by decide +kernel)
    arranged_plain (by decide +kernel) (by decide +kernel)
  exact ⟨by decide +kernel, hlooks "host" looks (by decide +kernel)⟩

end World

end ScopeRules
