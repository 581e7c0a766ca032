/-
Resolution, measured against chains of any length. Taking targets leads from
a node past one reference after the other, and comes to an end at a rule or
not at all. `Snapshot.Leads` says so without a limit: which references are
passed, in order, on the way from one node to another. Resolution is the same
way with a limit on the references that are passed.

# One way

There is one way out of every node, so whatever lies on the way to a rule
leads to that rule with what is left of the way (`Leads.rest_of_rule`). Two
things follow for a node that leads to a rule. No way out of it is longer
than the one to the rule, and none passes a reference twice
(`Leads.nodup_of_rule`): what is left after the second time would be as long
as what is left after the first.

# The limit

`leads_follow`: after so many hops the way has come to a rule, or stands at a
reference behind as many references as there were hops. With the two
consequences above this is all of `resolve_exact`. Where no more references
can be reached than are followed, a way that is too long has passed one of
them twice, as they are too few.
-/
import Mathlib.Data.List.Perm.Subperm
import ScopeRules.Snapshot

namespace ScopeRules

namespace Snapshot

variable {s : Snapshot} {x y z : Node} {passed before after : List Reference} {p : Reference}
  {q r : Rule}

-- ================================================================= ways

/-- Taking targets leads from one node to another, past these references. -/
inductive Leads (s : Snapshot) : Node → List Reference → Node → Prop
  | here {x : Node} : Leads s x [] x
  | hop {p : Reference} {passed : List Reference} {y : Node} :
      Leads s (s.target p) passed y → Leads s (.reference p) (p :: passed) y

/-- Whether taking targets leads past a reference for the second time. -/
def Circular (s : Snapshot) (x : Node) : Prop := ∃ passed y, s.Leads x passed y ∧ ¬ passed.Nodup

/-- A reference that is passed is reached before, and leads on to the end. -/
theorem Leads.of_mem (h : s.Leads x passed y) (hp : p ∈ passed) :
    ∃ before after, passed = before ++ p :: after ∧ s.Leads x before (.reference p)
      ∧ s.Leads (.reference p) (p :: after) y := by
  induction h with
  | here => cases hp
  | @hop first rest y hrest ih =>
    rcases List.mem_cons.1 hp with rfl | hp
    · exact ⟨[], rest, rfl, .here, .hop hrest⟩
    · obtain ⟨before, after, rfl, hbefore, hafter⟩ := ih hp
      exact ⟨first :: before, after, rfl, .hop hbefore, hafter⟩

/-- What lies on the way to a rule leads to the rule, with what is left of
the way. -/
theorem Leads.rest_of_rule (h : s.Leads x passed (.rule r)) (hz : s.Leads x before z) :
    ∃ rest, passed = before ++ rest ∧ s.Leads z rest (.rule r) := by
  induction hz generalizing passed with
  | here => exact ⟨passed, rfl, h⟩
  | hop hrest ih =>
    cases h with
    | hop hmore =>
      obtain ⟨rest, rfl, hrule⟩ := ih hmore
      exact ⟨rest, rfl, hrule⟩

/-- A node leads to at most one rule, on one way. -/
theorem Leads.eq_of_rule (h : s.Leads x passed (.rule r)) (h' : s.Leads x before (.rule q)) :
    passed = before ∧ r = q := by
  obtain ⟨rest, rfl, hrest⟩ := h.rest_of_rule h'
  cases hrest
  exact ⟨List.append_nil _, rfl⟩

/-- The way to a rule passes no reference twice. -/
theorem Leads.nodup_of_rule (h : s.Leads x passed (.rule r)) : passed.Nodup := by
  generalize hy : Node.rule r = y at h
  induction h with
  | here => exact List.nodup_nil
  | @hop p passed y hrest ih =>
    subst hy
    refine List.nodup_cons.2 ⟨fun hp => ?_, ih rfl⟩
    -- the way after the second time is the way after the first, and shorter
    obtain ⟨before, after, rfl, -, hagain⟩ := hrest.of_mem hp
    have hlength := congrArg List.length ((Leads.hop hrest).eq_of_rule hagain).1
    simp only [List.length_cons, List.length_append] at hlength
    omega

/-- A node from which taking targets goes around in circles leads to no rule. -/
theorem Circular.not_leads (h : s.Circular x) : ¬ s.Leads x passed (.rule r) := by
  intro hrule
  obtain ⟨around, y, hy, htwice⟩ := h
  obtain ⟨rest, rfl, -⟩ := hrule.rest_of_rule hy
  exact htwice (List.nodup_append.1 hrule.nodup_of_rule).1

/-- A way past more references than can be reached goes around in circles. -/
theorem Leads.circular (h : s.Leads x passed y) {refs : List Reference}
    (hrefs : ∀ before p, s.Leads x before (.reference p) → p ∈ refs)
    (hlong : refs.length < passed.length) : s.Circular x := by
  refine ⟨passed, y, h, fun hnodup => ?_⟩
  have hsubset : passed ⊆ refs := by
    intro p hp
    obtain ⟨before, -, -, hbefore, -⟩ := h.of_mem hp
    exact hrefs before p hbefore
  have hlength := (List.subperm_of_subset hnodup hsubset).length_le
  omega

-- ============================================================ the limit

/-- After some hops the way has come to a rule, or has passed as many
references as there were hops. -/
theorem leads_follow (s : Snapshot) (n : Nat) (x : Node) :
    (∃ passed r, s.Leads x passed (.rule r) ∧ passed.length ≤ n ∧ s.follow n x = .rule r)
    ∨ ∃ passed p, s.Leads x passed (.reference p) ∧ passed.length = n
      ∧ s.follow n x = .reference p := by
  induction n generalizing x with
  | zero =>
    cases x with
    | rule r => exact .inl ⟨[], r, .here, Nat.le_refl _, rfl⟩
    | reference p => exact .inr ⟨[], p, .here, rfl, rfl⟩
  | succ n ih =>
    cases x with
    | rule r => exact .inl ⟨[], r, .here, Nat.zero_le _, rfl⟩
    | reference p =>
      rcases ih (s.target p) with
        ⟨passed, r, hr, hlength, hfollow⟩ | ⟨passed, q, hq, hlength, hfollow⟩
      · exact .inl ⟨p :: passed, r, .hop hr, Nat.succ_le_succ hlength, hfollow⟩
      · exact .inr ⟨p :: passed, q, .hop hq, congrArg (· + 1) hlength, hfollow⟩

/-- Hops that are enough to get to a rule get there. -/
theorem Leads.follow_eq {n : Nat} (h : s.Leads x passed (.rule r)) (hn : passed.length ≤ n) :
    s.follow n x = .rule r := by
  rcases s.leads_follow n x with ⟨passed', q, hq, -, hfollow⟩ | ⟨passed', p, hp, hlength, -⟩
  · rw [hfollow, (hq.eq_of_rule h).2]
  · -- from a reference the way to the rule goes on
    obtain ⟨rest, rfl, hrest⟩ := h.rest_of_rule hp
    cases hrest
    rw [List.length_append, List.length_cons] at hn
    omega

-- ============================================================= warnings

/-- The warnings among what resolving a node is reported as. -/
def warnings (s : Snapshot) (x : Node) : List Event :=
  (s.resolveEvents x).filter fun e => e.level = .warn

theorem level_of_mem_targetEvents {e : Event} (h : e ∈ s.targetEvents p) : e.level = .debug := by
  cases p with
  | foreign table scope id anchor =>
    rw [targetEvents] at h
    cases ht : s.table? table with
    | none =>
      rw [ht] at h
      cases h
    | some t =>
      rw [ht] at h
      simp only [Table.lookupEvents] at h
      split at h
      · cases h
      · rw [List.mem_singleton.1 h]
        rfl
  | entry id anchor => cases h
  | root anchor => cases h

theorem level_of_mem_followEvents {n : Nat} {e : Event} (h : e ∈ s.followEvents n x) :
    e.level = .debug := by
  induction n generalizing x with
  | zero => cases h
  | succ n ih =>
    cases x with
    | rule r => cases h
    | reference p =>
      rcases List.mem_append.1 h with h | h
      · exact level_of_mem_targetEvents h
      · exact ih h

/-- The one thing to warn of is a reference that is left after the last hop. -/
theorem warnings_eq (s : Snapshot) (x : Node) :
    s.warnings x
      = ((s.follow maxHops x).reference?.map fun p => Event.endless p maxHops).toList := by
  have hhops : (s.followEvents maxHops x).filter (fun e => e.level = .warn) = [] := by
    refine List.filter_eq_nil_iff.2 fun e he => ?_
    rw [level_of_mem_followEvents he]
    decide
  rw [warnings, resolveEvents, List.filter_append, hhops, List.nil_append]
  cases (s.follow maxHops x).reference? <;> rfl

-- =========================================================== resolution

theorem resolve_of_follow_rule (h : s.follow maxHops x = .rule r) :
    s.resolve x = r ∧ s.warnings x = [] := by
  rw [resolve, warnings_eq, h]
  exact ⟨rfl, rfl⟩

theorem resolve_of_follow_reference (h : s.follow maxHops x = .reference p) :
    s.resolve x = .empty ∧ s.warnings x = [.endless p maxHops] := by
  rw [resolve, warnings_eq, h]
  exact ⟨rfl, rfl⟩

/-- A node that leads to no rule in time resolves to the empty rule, with one
warning of the reference that is left. -/
theorem resolve_of_not_leads
    (h : ∀ passed r, s.Leads x passed (.rule r) → ¬ passed.length ≤ maxHops) :
    s.resolve x = .empty ∧ ∃ passed p, s.Leads x passed (.reference p)
      ∧ passed.length = maxHops ∧ s.warnings x = [.endless p maxHops] := by
  rcases s.leads_follow maxHops x with
    ⟨passed, r, hr, hlength, -⟩ | ⟨passed, p, hp, hlength, hfollow⟩
  · exact absurd hlength (h passed r hr)
  · obtain ⟨hempty, hwarnings⟩ := resolve_of_follow_reference hfollow
    exact ⟨hempty, passed, p, hp, hlength, hwarnings⟩

/-- What resolution answers, at every moment and for every node.

- A rule that is led to past at most `maxHops` references is the answer, and
  there is no warning.
- If the way is longer, or passes a reference twice, the answer is the empty
  rule, with a warning of the reference behind the first `maxHops` ones and no
  other.
- Each node is of one of these two kinds.
- Past a reference that is passed twice there is no rule at all.
- If at most `maxHops` references can be reached, the node itself included,
  there is a warning for the circular ways only, and for all of these. -/
theorem resolve_exact (s : Snapshot) (x : Node) :
    (∀ passed r, s.Leads x passed (.rule r) → passed.length ≤ maxHops →
      s.resolve x = r ∧ s.warnings x = [])
    ∧ (∀ passed y, s.Leads x passed y → maxHops < passed.length ∨ ¬ passed.Nodup →
      s.resolve x = .empty ∧ ∃ before p, s.Leads x before (.reference p)
        ∧ before.length = maxHops ∧ s.warnings x = [.endless p maxHops])
    ∧ ((∃ passed r, s.Leads x passed (.rule r) ∧ passed.length ≤ maxHops)
      ∨ ∃ passed y, s.Leads x passed y ∧ maxHops < passed.length)
    ∧ (s.Circular x → ∀ passed r, ¬ s.Leads x passed (.rule r))
    ∧ (∀ refs : List Reference, refs.length ≤ maxHops →
      (∀ passed p, s.Leads x passed (.reference p) → p ∈ refs) →
      ((∃ e, s.warnings x = [e]) ↔ s.Circular x) ∧ (s.warnings x = [] ↔ ¬ s.Circular x)) := by
  have hintime : ∀ passed r, s.Leads x passed (.rule r) → passed.length ≤ maxHops →
      s.resolve x = r ∧ s.warnings x = [] :=
    fun passed r hr hlength => resolve_of_follow_rule (hr.follow_eq hlength)
  have hlate : ∀ passed y, s.Leads x passed y → maxHops < passed.length ∨ ¬ passed.Nodup →
      s.resolve x = .empty ∧ ∃ before p, s.Leads x before (.reference p)
        ∧ before.length = maxHops ∧ s.warnings x = [.endless p maxHops] := by
    intro passed y hy hbeyond
    refine resolve_of_not_leads fun passed' r hr hlength => ?_
    rcases hbeyond with hlong | htwice
    · obtain ⟨rest, rfl, -⟩ := hr.rest_of_rule hy
      rw [List.length_append] at hlength
      omega
    · exact Circular.not_leads ⟨passed, y, hy, htwice⟩ hr
  have hkinds : (∃ passed r, s.Leads x passed (.rule r) ∧ passed.length ≤ maxHops)
      ∨ ∃ passed y, s.Leads x passed y ∧ maxHops < passed.length := by
    rcases s.leads_follow (maxHops + 1) x with
      ⟨passed, r, hr, hlength, -⟩ | ⟨passed, p, hp, hlength, -⟩
    · rcases Nat.lt_or_ge maxHops passed.length with hlong | hshort
      · exact .inr ⟨passed, _, hr, hlong⟩
      · exact .inl ⟨passed, r, hr, hshort⟩
    · exact .inr ⟨passed, _, hp, by omega⟩
  refine ⟨hintime, hlate, hkinds, fun h passed r => h.not_leads, ?_⟩
  intro refs hfew hrefs
  rcases hkinds with ⟨passed, r, hr, hshort⟩ | ⟨passed, y, hy, hlong⟩
  · have hstraight : ¬ s.Circular x := fun h => h.not_leads hr
    rw [(hintime passed r hr hshort).2]
    simp [hstraight]
  · have hcircular : s.Circular x := hy.circular hrefs (by omega)
    obtain ⟨-, -, p, -, -, hwarnings⟩ := hlate passed y hy (.inl hlong)
    rw [hwarnings]
    simp [hcircular]

-- --- an entry that includes itself

/-- A rule with an entry that includes itself. -/
def turning : Rule :=
  (Rule.bare ⟨⟨1⟩, 1⟩ none none).putEntry ⟨1⟩ (.reference (.entry ⟨1⟩ (some ⟨⟨1⟩, 1⟩)))

/-- Nothing else can be reached from the entry, and it is warned of. -/
theorem resolve_exact_turning :
    let s : Snapshot := ⟨[turning], []⟩
    let p : Reference := .entry ⟨1⟩ (some ⟨⟨1⟩, 1⟩)
    s.Leads (.reference p) [p, p] (.reference p)
    ∧ (∀ passed q, s.Leads (.reference p) passed (.reference q) → q ∈ [p])
    ∧ s.resolve (.reference p) = .empty ∧ ∃ e, s.warnings (.reference p) = [e] := by
  intro s p
  have htarget : s.target p = .reference p := rfl
  have hleads : s.Leads (.reference p) [p, p] (.reference p) :=
    .hop (htarget.symm ▸ .hop (htarget.symm ▸ .here))
  have hrefs : ∀ passed q, s.Leads (.reference p) passed (.reference q) → q ∈ [p] := by
    intro passed q h
    induction passed with
    | nil =>
      cases h
      exact .head _
    | cons first passed ih =>
      cases h with
      | hop h => exact ih h
  obtain ⟨-, hlate, -, -, hfew⟩ := resolve_exact s (.reference p)
  have htwice : ¬ [p, p].Nodup := by simp
  exact ⟨hleads, hrefs, (hlate _ _ hleads (.inr htwice)).1,
    ((hfew [p] (by decide) hrefs).1).2 ⟨_, _, hleads, htwice⟩⟩

-- --- entries that include one another, in line

/-- A rule with so many entries, each of which includes the next one. The
last one is a rule. -/
def inLine (n : Nat) : Rule :=
  { Rule.bare ⟨⟨1⟩, 1⟩ none none with
    repository := (List.range n).map fun k =>
      (⟨k + 1⟩, if k + 1 < n then .reference (.entry ⟨k + 2⟩ (some ⟨⟨1⟩, 1⟩))
        else .rule (.bare ⟨⟨1⟩, 2⟩ none (some ⟨⟨1⟩, 1⟩))) }

-- 64 references are followed to their end, and of 65 the last one is left
example :
    let p : Reference := .entry ⟨1⟩ (some ⟨⟨1⟩, 1⟩)
    (resolve ⟨[inLine 64], []⟩ (.reference p)).id = ⟨⟨1⟩, 2⟩
    ∧ warnings ⟨[inLine 64], []⟩ (.reference p) = []
    ∧ (resolve ⟨[inLine 65], []⟩ (.reference p)).id = .empty
    ∧ warnings ⟨[inLine 65], []⟩ (.reference p)
      = [.endless (.entry ⟨65⟩ (some ⟨⟨1⟩, 1⟩)) maxHops] :=
  ⟨rfl, rfl, rfl, rfl⟩

end Snapshot

end ScopeRules
