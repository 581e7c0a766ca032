/-
What a table reports, and what it has registered. Calls of every kind are put
to one table, and their reports are strung together to a log. The registry can
be read off the log: it has as many scopes as the log has first registrations
since the table was cleared last (`Table.log_accounts`).

# One registration

A scope that is registered was there before or was not. The report says which
(`Registry.registration`), and the registry gets longer by one or stays as
long as it is (`length_register`). Everything else is counting. The one thing
that counting needs is that the registry stands in the order of its scopes,
for a scope stored out of order would not be found again.

# The summary

How many rules an addition publishes is counted before the first of them is
registered. So the number in the summary and the number of reports are two
counts, of what the document declares and of what was done
(`getElem?_publication`).
-/
import ScopeRules.Proofs.Rearranged

namespace ScopeRules

-- =============================================================== events

namespace Event

/-- Whether a scope got its first rule. -/
def isRegistered : Event → Bool
  | .registered _ => true
  | _ => false

/-- Whether a table was cleared. -/
def isCleared : Event → Bool
  | .cleared _ => true
  | _ => false

/-- The events of a log since the table was cleared last. -/
def sinceCleared (log : List Event) : List Event :=
  (log.reverse.takeWhile fun e => !e.isCleared).reverse

/-- How many scopes got their first rule since the table was cleared last. -/
def registrations (log : List Event) : Nat := (sinceCleared log).countP isRegistered

variable {log : List Event}

/-- Events that clear nothing are added to those since the last clearing. -/
theorem sinceCleared_append {events : List Event} (h : ∀ e ∈ events, e.isCleared = false) :
    sinceCleared (log ++ events) = sinceCleared log ++ events := by
  unfold sinceCleared
  rw [List.reverse_append, List.takeWhile_append_of_pos, List.reverse_append, List.reverse_reverse]
  intro e he
  rw [h e (List.mem_reverse.1 he)]
  rfl

theorem registrations_append {events : List Event} (h : ∀ e ∈ events, e.isCleared = false) :
    registrations (log ++ events) = registrations log + events.countP isRegistered := by
  unfold registrations
  rw [sinceCleared_append h, List.countP_append]

/-- After a clearing the count starts again. -/
theorem registrations_cleared (log : List Event) (removed : Nat) :
    registrations (log ++ [.cleared removed]) = 0 := by
  simp [registrations, sinceCleared, isCleared]

end Event

-- ============================================================ registries

/-- A value that is stored in order adds a pair if its key is new. -/
theorem Assoc.length_putSorted {κ α : Type} [DecidableEq κ] {lt : κ → κ → Bool}
    (hlt : StrictOrder lt) {d : Assoc κ α} (h : d.Sorted lt) (k : κ) (v : α) :
    (putSorted lt d k v).length = d.length + if d.has k then 0 else 1 := by
  induction d with
  | nil => rfl
  | cons p rest ih =>
    obtain ⟨j, w⟩ := p
    obtain ⟨hj, hrest⟩ := List.pairwise_cons.1 h
    by_cases hjk : j = k
    · simp [putSorted, has, get?, hjk]
    · by_cases hkj : lt k j = true
      · -- all keys are greater, so the key is not there
        have hnew : ¬ (get? rest k).isSome = true := by
          intro hhas
          have hjk' := hj k (mem_keys_iff_has.2 hhas)
          have hkk := hlt.trans k j k hkj hjk'
          rw [hlt.irrefl] at hkk
          cases hkk
        simp [putSorted, has, get?, hjk, hkj, hnew]
      · have hlength := ih hrest
        rw [putSorted, if_neg hjk, if_neg hkj, List.length_cons, List.length_cons, hlength, has,
          has, get?, if_neg hjk]
        omega

namespace Registry

variable {registry : Registry} {root : Rule}

theorem isCleared_registration (registry : Registry) (scope : String) :
    (registry.registration scope).isCleared = false := by
  unfold registration
  split <;> rfl

/-- A registry gets longer by what is reported to be registered first. -/
theorem length_register (h : registry.Sorted before) (root : Rule) (scope : String)
    (node : Rule) :
    (registry.register root scope node).length
      = registry.length + [registry.registration scope].countP Event.isRegistered := by
  unfold register registration
  rw [Assoc.length_putSorted before_strictOrder h]
  cases Assoc.has registry scope <;> rfl

theorem length_publish (h : registry.Sorted before) (root : Rule)
    (rules : List (String × Rule)) :
    (registry.publish root rules).length
      = registry.length + (registry.publication root rules).countP Event.isRegistered := by
  induction rules generalizing registry with
  | nil => rfl
  | cons rule rest ih =>
    obtain ⟨scope, node⟩ := rule
    have hnext : (registry.register root scope node).Sorted before :=
      Assoc.putSorted_sorted before_strictOrder h _ _
    show ((registry.register root scope node).publish root rest).length = _
    rw [ih hnext, length_register h, publication, List.countP_cons, List.countP_cons,
      List.countP_nil]
    omega

/-- The report of a rule says what its scope had before the rule was
registered, and after those in front of it. -/
theorem getElem?_publication (registry : Registry) (root : Rule) (rules : List (String × Rule))
    (k : Nat) :
    (registry.publication root rules)[k]?
      = rules[k]?.map fun p => (registry.publish root (rules.take k)).registration p.1 := by
  induction rules generalizing registry k with
  | nil => rfl
  | cons rule rest ih =>
    cases k with
    | zero => rfl
    | succ k => exact ih (registry.register root rule.1 rule.2) k

theorem length_publication (registry : Registry) (root : Rule) (rules : List (String × Rule)) :
    (registry.publication root rules).length = rules.length := by
  induction rules generalizing registry with
  | nil => rfl
  | cons rule rest ih => exact congrArg (· + 1) (ih _)

theorem take_publication (registry : Registry) (root : Rule) (rules : List (String × Rule))
    (k : Nat) :
    (registry.publication root rules).take k = registry.publication root (rules.take k) := by
  induction rules generalizing registry k with
  | nil => simp [publication]
  | cons rule rest ih =>
    cases k with
    | zero => rfl
    | succ k => exact congrArg (List.cons _) (ih _ k)

/-- What rules are registered for is what was there, and what they declare. -/
theorem has_publish (registry : Registry) (root : Rule) (rules : List (String × Rule))
    (scope : String) :
    Assoc.has (registry.publish root rules) scope = true
      ↔ scope ∈ Assoc.keys registry ∨ scope ∈ rules.map Prod.fst := by
  induction rules generalizing registry with
  | nil => simp [publish, Assoc.mem_keys_iff_has]
  | cons rule rest ih =>
    obtain ⟨name, node⟩ := rule
    show Assoc.has ((registry.register root name node).publish root rest) scope = true ↔ _
    have hregister : scope ∈ Assoc.keys (registry.register root name node)
        ↔ name = scope ∨ scope ∈ Assoc.keys registry := by
      rw [Assoc.mem_keys_iff_has, Assoc.mem_keys_iff_has, register, Assoc.has,
        Assoc.get?_putSorted, Assoc.has]
      by_cases hname : name = scope <;> simp [hname]
    rw [ih, hregister, List.map_cons, List.mem_cons, eq_comm (a := name)]
    constructor
    · rintro ((hname | hkeys) | hrest)
      · exact .inr (.inl hname)
      · exact .inl hkeys
      · exact .inr (.inr hrest)
    · rintro (hkeys | hname | hrest)
      · exact .inl (.inr hkeys)
      · exact .inl (.inl hname)
      · exact .inr hrest

end Registry

-- ================================================================ calls

namespace Table

/-- What can be asked of a table. Documents are added with any interners. -/
inductive Call where
  | add (interner : Interner) (document : Document)
  | clear
  | compact
  | ruleId (name : String)
  | lookup (scope : String)

/-- What a call reports, and the table after it. -/
def call (t : Table) : Call → List Event × Table
  | .add i d => ((t.add i d).events, (t.add i d).table)
  | .clear => ([t.clearEvent], t.clear)
  | .compact => ([t.ruleIds.compactEvent], t.compact)
  | .ruleId name => ([], (t.ruleId name).2)
  | .lookup scope => (t.lookupEvents scope, t)

/-- The table after some calls. -/
def after (t : Table) (calls : List Call) : Table := calls.foldl (fun t c => (t.call c).2) t

/-- What calls report, in order. -/
def log : Table → List Call → List Event
  | _, [] => []
  | t, c :: rest => (t.call c).1 ++ log (t.call c).2 rest

variable {t : Table}

theorem after_append_singleton (t : Table) (calls : List Call) (c : Call) :
    t.after (calls ++ [c]) = ((t.after calls).call c).2 := List.foldl_append

theorem log_append_singleton (t : Table) (calls : List Call) (c : Call) :
    t.log (calls ++ [c]) = t.log calls ++ ((t.after calls).call c).1 := by
  induction calls generalizing t with
  | nil => exact List.append_nil _
  | cons first rest ih =>
    show (t.call first).1 ++ log (t.call first).2 (rest ++ [c]) = _
    rw [ih, ← List.append_assoc]
    rfl

-- ======================================================= one addition

/-- What adding a document reports before it registers anything. -/
def skipped (d : Document) : List Event :=
  (Outline.ofDocument d).unusableKeys.map .unusableGroup

/-- Whether events are the reports of registering what a document declares:
one for each rule that declares a scope, in document order, which says that
the scope got its first rule, or that it had one, from before or from a rule in
front of this one. -/
structure Reports (t : Table) (d : Document) (events : List Event) : Prop where
  length : events.length = d.declared.length
  report : ∀ (k : Nat) (scope : String), d.declared[k]? = some scope →
    events[k]? = some (if scope ∈ t.scopes ∨ scope ∈ d.declared.take k then .replaced scope
      else .registered scope)

/-- What a document registers is what it declares. -/
theorem map_fst_declarations_compile (t : Table) (i : Interner) (d : Document) :
    (t.compile i d).declarations.map Prod.fst = d.declared :=
  Compilation.map_fst_declarations ⟨t, i, d, 0⟩

theorem reports_publication (t : Table) (i : Interner) (d : Document) :
    t.Reports d
      (t.registry.publication (t.compile i d).root (t.compile i d).declarations) := by
  have hdeclared := t.map_fst_declarations_compile i d
  refine ⟨?_, fun k scope hscope => ?_⟩
  · rw [Registry.length_publication, ← hdeclared, List.length_map]
  · rw [← hdeclared, List.getElem?_map] at hscope
    obtain ⟨p, hp, rfl⟩ := Option.map_eq_some_iff.1 hscope
    have hhas := Registry.has_publish t.registry (t.compile i d).root
      ((t.compile i d).declarations.take k) p.1
    rw [List.map_take, hdeclared] at hhas
    rw [Registry.getElem?_publication, hp, Option.map_some, Registry.registration]
    by_cases hthere : p.1 ∈ t.scopes ∨ p.1 ∈ d.declared.take k
    · rw [if_pos (hhas.2 hthere), if_pos hthere]
    · rw [if_neg fun h => hthere (hhas.1 h), if_neg hthere]

/-- Nothing that adding a document reports is a clearing. -/
theorem isCleared_skipped {d : Document} {e : Event} (h : e ∈ skipped d) :
    e.isCleared = false := by
  obtain ⟨key, -, rfl⟩ := List.mem_map.1 h
  rfl

theorem isCleared_publication {registry : Registry} {root : Rule} {rules : List (String × Rule)}
    {e : Event} (h : e ∈ registry.publication root rules) : e.isCleared = false := by
  obtain ⟨k, hk⟩ := List.mem_iff_getElem?.1 h
  rw [Registry.getElem?_publication] at hk
  obtain ⟨p, -, rfl⟩ := Option.map_eq_some_iff.1 hk
  exact Registry.isCleared_registration _ _

theorem countP_skipped (d : Document) : (skipped d).countP Event.isRegistered = 0 := by
  refine List.countP_eq_zero.2 fun e he => ?_
  obtain ⟨key, -, rfl⟩ := List.mem_map.1 he
  exact Bool.false_ne_true

/-- The summary of an addition is neither a clearing nor a registration. -/
theorem isCleared_summary (root : Rule) (published : Nat) :
    (summary root published).isCleared = false ∧ (summary root published).isRegistered = false := by
  unfold summary
  cases root.scope <;> exact ⟨rfl, rfl⟩

theorem events_add (t : Table) (i : Interner) (d : Document) :
    (t.add i d).events = skipped d
      ++ t.registry.publication (t.compile i d).root (t.compile i d).declarations
      ++ [summary (t.compile i d).root (t.compile i d).declarations.length] := rfl

-- ================================================================ runs

/-- Whether a registry is in order and can be read off a log: it has as many
scopes as were registered first since the table was cleared last. -/
structure Accounted (registry : Registry) (log : List Event) : Prop where
  sorted : registry.Sorted Registry.before
  length : registry.length = Event.registrations log

variable {log : List Event}

/-- Events that say nothing of the registry change no account. -/
theorem Accounted.append {registry : Registry} (h : Accounted registry log) {events : List Event}
    (hcleared : ∀ e ∈ events, e.isCleared = false)
    (hregistered : events.countP Event.isRegistered = 0) : Accounted registry (log ++ events) where
  sorted := h.sorted
  length := by rw [Event.registrations_append hcleared, hregistered, h.length]; rfl

/-- Registering rules keeps the account, at every rule. -/
theorem Accounted.publish {registry : Registry} (h : Accounted registry log) (root : Rule)
    (rules : List (String × Rule)) :
    Accounted (registry.publish root rules) (log ++ registry.publication root rules) where
  sorted := Registry.publish_sorted h.sorted root rules
  length := by
    rw [Registry.length_publish h.sorted, h.length,
      Event.registrations_append fun _ => isCleared_publication]

/-- Every call keeps the account. -/
theorem Accounted.call (h : Accounted t.registry log) (c : Call) :
    Accounted (t.call c).2.registry (log ++ (t.call c).1) := by
  have hclear : ∀ e : Event, e.isCleared = false → ∀ e' ∈ [e], e'.isCleared = false := by
    intro e he e' he'
    rw [List.mem_singleton.1 he']
    exact he
  cases c with
  | add i d =>
    show Accounted _ (log ++ (t.add i d).events)
    rw [events_add, ← List.append_assoc, ← List.append_assoc]
    have hskipped := h.append (fun _ => isCleared_skipped) (countP_skipped d)
    obtain ⟨hcleared, hregistered⟩ :=
      isCleared_summary (t.compile i d).root (t.compile i d).declarations.length
    have hpublished := hskipped.publish (t.compile i d).root (t.compile i d).declarations
    apply hpublished.append (hclear _ hcleared)
    rw [List.countP_singleton, hregistered]
    rfl
  | clear => exact ⟨List.Pairwise.nil, (Event.registrations_cleared log t.size).symm⟩
  | compact => exact h.append (hclear _ rfl) rfl
  | ruleId name => exact h.append (fun _ he => absurd he List.not_mem_nil) rfl
  | lookup scope =>
    show Accounted t.registry (log ++ t.lookupEvents scope)
    unfold lookupEvents
    split
    · exact h.append (fun _ he => absurd he List.not_mem_nil) rfl
    · exact h.append (hclear _ rfl) rfl

/-- So does every run, from a new table on. -/
theorem accounted_after (id : TableId) (calls : List Call) :
    Accounted ((new id).after calls).registry ((new id).log calls) := by
  induction calls using List.reverseRecOn with
  | nil => exact ⟨List.Pairwise.nil, rfl⟩
  | append_singleton calls c ih =>
    rw [after_append_singleton, log_append_singleton]
    exact ih.call c

/-- After any calls on a new table, the table has as many scopes as the log of
the calls has first registrations since it was cleared last. If a document is
added then, with whatever interner, the log goes on with the capture keys that
are skipped; with one report for each rule that declares a scope, in document
order, which says whether the scope was there at that point, after each of
which the count is right again; and with one summary, which states the number
of these reports. If the table is cleared, the log goes on with the number of
scopes that it had. -/
theorem log_accounts (id : TableId) (calls : List Call) :
    let t := (new id).after calls
    let log := (new id).log calls
    t.size = Event.registrations log
      ∧ (∀ i d, ∃ reports,
          (new id).log (calls ++ [.add i d])
              = log ++ (skipped d ++ reports ++ [summary (t.compile i d).root reports.length])
            ∧ t.Reports d reports
            ∧ (∀ k, (t.registry.publish (t.compile i d).root
                ((t.compile i d).declarations.take k)).length
              = Event.registrations (log ++ skipped d ++ reports.take k)))
      ∧ (new id).log (calls ++ [.clear]) = log ++ [.cleared t.size] := by
  intro t log
  have haccounted : Accounted t.registry log := accounted_after id calls
  refine ⟨haccounted.length, fun i d => ?_, log_append_singleton _ calls .clear⟩
  refine ⟨_, ?_, t.reports_publication i d, fun k => ?_⟩
  · rw [log_append_singleton, Registry.length_publication]
    exact congrArg (log ++ ·) (t.events_add i d)
  · have hskipped := haccounted.append (fun _ => isCleared_skipped) (countP_skipped d)
    rw [Registry.take_publication]
    exact (hskipped.publish (t.compile i d).root ((t.compile i d).declarations.take k)).length

/-- A document that declares its scope twice, and then the table is cleared. -/
example :
    (new ⟨1⟩).log [.add .empty [("captures", .dict [("x", .string "")]), ("scopeName", .string "r"),
        ("patterns", .array [.dict [("scopeName", .string "r")],
          .dict [("scopeName", .string "s")]])],
      .clear]
      = [.unusableGroup "x", .registered "r", .replaced "r", .registered "s", .loaded "r" 2 3,
        .cleared 2] := by
  decide

end Table

end ScopeRules
