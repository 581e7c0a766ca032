/-
Capture tables, exactly. A capture key holds a dictionary of match groups, and
its rule keeps a table of slots for it. Which group an entry describes is in
its key, which has to be a numeral: `Vocabulary.Denotes` says which texts are
numerals and of what, without reading them from the left.

# The slots

The entries that describe a group are the things that the dictionary says of
one slot (`Clause.filter_slot_describing`), in the same order. So what the
pieces of the rule bring to the slot corresponds to them one to one
(`Trail.forall₂_describing`), and the table follows: it is there if some slot
is filled, it ends with the last slot that is filled, and a slot holds what
came last.

An entry with a string name is a label and nothing else, whatever else it
has, and any other is a rule, also if it has an include key
(`Compilation.Captures`).
-/
import ScopeRules.Proofs.Counterparts
import ScopeRules.Proofs.Dictionaries
import ScopeRules.Proofs.Readings

namespace ScopeRules

-- ============================================================== numerals

namespace Vocabulary

/-- Whether a key of a capture dictionary is a numeral of a match group: one
or more decimal digits, perhaps after one plus sign, that spell a number
that is not too large. -/
def Denotes (key : String) (index : Nat) : Prop :=
  ∃ digits : List Char, digits ≠ [] ∧ (∀ c ∈ digits, c.isDigit = true)
    ∧ (key.toList = digits ∨ key.toList = '+' :: digits)
    ∧ Nat.ofDigitChars 10 digits 0 = index ∧ index ≤ maxCaptureIndex

theorem decimal?_eq_some_iff {cs : List Char} {n : Nat} :
    decimal? cs = some n
      ↔ cs ≠ [] ∧ (∀ c ∈ cs, c.isDigit = true) ∧ Nat.ofDigitChars 10 cs 0 = n := by
  have hfold : cs.foldl (fun n c => n * 10 + (c.toNat - '0'.toNat)) 0
      = Nat.ofDigitChars 10 cs 0 := by
    unfold Nat.ofDigitChars
    simp only [Nat.mul_comm]
  rw [decimal?, hfold, Option.ite_none_right_eq_some, List.all_eq_true, Option.some.injEq,
    and_assoc]

/-- A plus sign is no digit, so a numeral is read in one way. -/
theorem captureIndex?_eq_some_iff {key : String} {index : Nat} :
    captureIndex? key = some index ↔ Denotes key index := by
  unfold captureIndex? Denotes
  rw [Option.filter_eq_some_iff, decide_eq_true_iff]
  constructor
  · rintro ⟨hdecimal, hle⟩
    obtain ⟨hne, hdigits, hvalue⟩ := decimal?_eq_some_iff.1 hdecimal
    refine ⟨_, hne, hdigits, ?_, hvalue, hle⟩
    split
    · exact .inr ‹_›
    · exact .inl rfl
  · rintro ⟨digits, hne, hdigits, hkey, hvalue, hle⟩
    refine ⟨?_, hle⟩
    have hdecimal := decimal?_eq_some_iff.2 ⟨hne, hdigits, hvalue⟩
    rcases hkey with hkey | hkey
    · rw [hkey]
      split
      · exact absurd (hdigits '+' (.head _)) (by decide)
      · exact hdecimal
    · rw [hkey]
      exact hdecimal

instance (key : String) (index : Nat) : Decidable (Denotes key index) :=
  decidable_of_iff _ captureIndex?_eq_some_iff

end Vocabulary

/-- The dictionaries that describe a match group under a capture key, in
document order. -/
def Document.describing (d : Document) (key : CaptureKey) (index : Nat) : List Document :=
  ((d.groups key).filter fun e => Vocabulary.Denotes e.1 index).map Prod.snd

-- =============================================================== clauses

namespace Clause

/-- In the dictionary under a capture key, the entries for a group say what
they say as dictionaries. -/
theorem filterMap_ofGroup?_describing (key : CaptureKey) (index : Nat) (entries : Document) :
    (entries.filter fun p => Document.groupOf? p = some index).filterMap (ofGroup? key)
      = (((entries.filterMap fun e => e.2.dict?.map fun source => (e.1, source)).filter
          fun e => Vocabulary.Denotes e.1 index).map Prod.snd).map (ofGroup key index) := by
  rw [← List.filterMap_eq_filter, ← List.filterMap_eq_filter, List.filterMap_filterMap,
    List.filterMap_filterMap, List.map_filterMap, List.map_filterMap]
  refine List.filterMap_congr fun p _ => ?_
  cases hsource : p.2.dict? with
  | none => simp [Document.groupOf?, hsource]
  | some source =>
    by_cases hindex : Vocabulary.Denotes p.1 index
    · have hkey := Vocabulary.captureIndex?_eq_some_iff.2 hindex
      simp [Document.groupOf?, hsource, ofGroup?_of_captureIndex? hkey, hkey, hindex]
    · simp [Document.groupOf?, Option.guard, Vocabulary.captureIndex?_eq_some_iff, hindex]

/-- Of a slot a dictionary says what the entries say that describe the
group. -/
theorem filter_slot_describing {d : Document} (hd : Assoc.Distinct d) (key : CaptureKey)
    (index : Nat) :
    (d.clauses.filter fun clause => clause.slot? = some (.place (.capture key index)))
      = (d.describing key index).map (ofGroup key index) := by
  have hhome : (d.filter fun p => RuleKey.ofSpelling p.1
        = (Slot.place (.capture key index)).home)
      = ((Assoc.get? d key.spelling).map fun v => (key.spelling, v)).toList := by
    rw [← Assoc.filter_key_eq hd]
    refine List.filter_congr fun p _ => ?_
    rw [decide_eq_decide]
    exact RuleKey.ofSpelling_eq_captures_iff
  rw [filter_slot_clauses, hhome, Document.describing, Document.groups]
  cases Assoc.get? d key.spelling with
  | none => rfl
  | some value =>
    rw [Option.map_some, Option.toList_some, List.flatMap_singleton, Option.bind_some,
      ofEntry_captures value (RuleKey.ofSpelling_eq_captures_iff.2 rfl), filter_slot_groups,
      filterMap_ofGroup?_describing]

end Clause

-- ================================================================ tables

namespace Compilation

/-- Whether a slot of the innermost rule of a trail holds what an entry under a
capture key says: with a string name that label, else a rule. -/
def Captures (k : Compilation) (r : Rule) (d : Document) (outer : List (Rule × Document))
    (source : Document) : Capture → Prop
  | .label text => source.getString? Vocabulary.labelKey = some text.text
  | .rule x => source.getString? Vocabulary.labelKey = none
      ∧ k.Trail ((x, source) :: (r, d) :: outer)

variable {k : Compilation} {r : Rule} {d : Document} {outer : List (Rule × Document)}

/-- A piece that says what an entry says brings what the entry asks for. -/
theorem Trail.captures (h : k.Trail ((r, d) :: outer)) {q : Piece} (hq : q ∈ k.contents r d)
    {key : CaptureKey} {index : Nat} {source : Document}
    (hclause : q.clause = .ofGroup key index source) :
    ∃ x, q.capture? key index = some x ∧ k.Captures r d outer source x := by
  unfold Clause.ofGroup at hclause
  split at hclause
  · rename_i text hlabel
    cases q with
    | label other i symbol =>
      obtain ⟨rfl, rfl, rfl⟩ := Clause.label.inj hclause
      exact ⟨_, if_pos ⟨rfl, rfl⟩, hlabel⟩
    | _ => cases hclause
  · rename_i hlabel
    cases q with
    | node place source' x =>
      obtain ⟨rfl, rfl⟩ := Clause.nested.inj hclause
      have hkind := k.context.isSome_reference?_of_mem_pieces hq
      cases x with
      | rule x => exact ⟨_, if_pos ⟨rfl, rfl⟩, hlabel, .nested h hq⟩
      | reference p => cases hkind
    | _ => cases hclause

/-- What the pieces bring to a slot, in order, is what the entries for the
group ask for. -/
theorem Trail.forall₂_describing (h : k.Trail ((r, d) :: outer)) (hd : Assoc.Distinct d)
    (key : CaptureKey) (index : Nat) :
    List.Forall₂ (k.Captures r d outer) (d.describing key index)
      ((k.contents r d).filterMap (Piece.capture? key index)) := by
  have hclauses := k.context.map_clause_filter_contents r.id.serial d (.place (.capture key index))
  rw [Clause.filter_slot_describing hd, ← List.forall₂_eq_eq_eq, List.forall₂_map_left_iff,
    List.forall₂_map_right_iff] at hclauses
  rw [← Piece.filterMap_filter_slot (fun _ => Piece.capture?_eq_none),
    ← List.filterMap_some (l := d.describing key index)]
  refine List.rel_filterMap (fun source q hclause => ?_) (forall₂_and_mem hclauses).flip
  obtain ⟨x, hx, hcaptures⟩ := h.captures (List.mem_of_mem_filter hclause.2.1) hclause.1
  rw [hx]
  exact .some hcaptures

/-- Whether a capture table is exactly what a dictionary asks for: it ends with
the largest group that is described, and a slot holds what the last entry for
its group asks for. -/
structure Tabulates (k : Compilation) (r : Rule) (d : Document) (outer : List (Rule × Document))
    (key : CaptureKey) (table : CaptureTable) : Prop where
  largest : ∃ index, d.describing key index ≠ [] ∧ table.size = index + 1
  size : ∀ index, d.describing key index ≠ [] → index < table.size
  bound : table.size ≤ 65536
  filled : ∀ p ∈ table.groups, p.1 < table.size
  slots : ∀ index, Option.Rel (k.Captures r d outer) (d.describing key index).getLast?
    (table.get? index)

section Tables

variable {key : CaptureKey} {table : CaptureTable}

theorem Trail.describing_ne_nil_iff (h : k.Trail ((r, d) :: outer)) (hd : Assoc.Distinct d)
    (key : CaptureKey) (index : Nat) :
    d.describing key index ≠ []
      ↔ (k.contents r d).filterMap (Piece.capture? key index) ≠ [] := by
  rw [Ne, Ne, ← List.length_eq_zero_iff, ← List.length_eq_zero_iff,
    (h.forall₂_describing hd key index).length_eq]

/-- A table is there if some group is described. -/
theorem Trail.isSome_capture?_iff (h : k.Trail ((r, d) :: outer)) (hd : Assoc.Distinct d)
    (key : CaptureKey) :
    (r.capture? key).isSome = true ↔ ∃ index, d.describing key index ≠ [] := by
  simp only [h.describing_ne_nil_iff hd]
  exact (iff_of_eq (congrArg (fun s : Rule => (s.capture? key).isSome = true) h.eq_rule)).trans
    (Context.isSome_capture?_rule key)

/-- A table reaches as far as the groups that are described. -/
theorem Trail.lt_size_iff (h : k.Trail ((r, d) :: outer)) (hd : Assoc.Distinct d)
    (htable : r.capture? key = some table) (i : Nat) :
    i < table.size ↔ ∃ index, i ≤ index ∧ d.describing key index ≠ [] := by
  have hgroups : r.groupsOf key = table := by
    rw [Rule.groupsOf, htable]
    rfl
  rw [← hgroups]
  simp only [h.describing_ne_nil_iff hd]
  exact (iff_of_eq (congrArg (fun s : Rule => i < (s.groupsOf key).size) h.eq_rule)).trans
    (Context.lt_size_rule key i)

/-- A slot holds what the last entry for its group asks for. -/
theorem Trail.rel_describing (h : k.Trail ((r, d) :: outer)) (hd : Assoc.Distinct d)
    (htable : r.capture? key = some table) (index : Nat) :
    Option.Rel (k.Captures r d outer) (d.describing key index).getLast? (table.get? index) := by
  have hcaptured := h.captured_eq key index
  rw [htable, Option.bind_some] at hcaptured
  rw [hcaptured]
  exact getLast?_of_forall₂ (h.forall₂_describing hd key index)

/-- What is stored in a table stands in one of its slots. -/
theorem Trail.lt_size_of_mem_groups (h : k.Trail ((r, d) :: outer)) (hd : Assoc.Distinct d)
    (htable : r.capture? key = some table) {p : Nat × Capture} (hp : p ∈ table.groups) :
    p.1 < table.size := by
  have hgroups : r.groupsOf key = table := by
    rw [Rule.groupsOf, htable]
    rfl
  have htidy := k.context.tidy_rule r.id.serial (outer.head?.map fun f => f.1.id) d
  rw [← h.eq_rule] at htidy
  have hsorted := htidy.groups key table (Assoc.mem_of_get?_eq_some htable)
  have hget : Assoc.get? (r.groupsOf key).groups p.1
      = ((k.contents r d).filterMap (Piece.capture? key p.1)).getLast? :=
    (congrArg (fun s : Rule => Assoc.get? (s.groupsOf key).groups p.1) h.eq_rule).trans
      (Context.get?_groups_rule key p.1)
  rw [hgroups, Assoc.get?_of_mem (hsorted.distinct CaptureTable.strictOrder) hp] at hget
  refine (h.lt_size_iff hd htable p.1).2 ⟨p.1, Nat.le_refl _, ?_⟩
  rw [h.describing_ne_nil_iff hd, ← List.getLast?_isSome, ← hget]
  rfl

end Tables

theorem index_le_of_describing {key : CaptureKey} {index : Nat}
    (h : d.describing key index ≠ []) : index ≤ Vocabulary.maxCaptureIndex := by
  obtain ⟨source, hsource⟩ := List.exists_mem_of_ne_nil _ h
  obtain ⟨e, he, -⟩ := List.mem_map.1 hsource
  obtain ⟨-, hindex⟩ := List.mem_filter.1 he
  obtain ⟨digits, -, -, -, -, hle⟩ := of_decide_eq_true hindex
  exact hle

/-- A capture key whose dictionary describes no group gives a rule no table,
and any other one exactly the table that it asks for. -/
theorem Trail.tabulates (h : k.Trail ((r, d) :: outer)) (hwf : k.document.WellFormed)
    (key : CaptureKey) :
    ((∀ index, d.describing key index = []) ∧ r.capture? key = none)
      ∨ ∃ table, r.capture? key = some table ∧ k.Tabulates r d outer key table := by
  have hd := (h.wellFormed hwf).1
  have hthere := h.isSome_capture?_iff hd key
  cases htable : r.capture? key with
  | none =>
    refine .inl ⟨fun index => ?_, rfl⟩
    by_contra hne
    have hsome := hthere.2 ⟨index, hne⟩
    rw [htable] at hsome
    cases hsome
  | some table =>
    have hsize := h.lt_size_iff hd htable
    obtain ⟨index, hindex⟩ := hthere.1 (by rw [htable]; rfl)
    -- the last slot is one that some entry describes
    have hpos : 0 < table.size := (hsize 0).2 ⟨index, Nat.zero_le _, hindex⟩
    obtain ⟨largest, hle, hlargest⟩ := (hsize (table.size - 1)).1 (by omega)
    have hlt := (hsize largest).2 ⟨largest, Nat.le_refl _, hlargest⟩
    have hbound : largest ≤ 65535 := index_le_of_describing hlargest
    refine .inr ⟨table, rfl, ?_⟩
    exact {
      largest := ⟨largest, hlargest, by omega⟩
      size := fun index hindex => (hsize index).2 ⟨index, Nat.le_refl _, hindex⟩
      bound := by omega
      filled := fun p hp => h.lt_size_of_mem_groups hd htable hp
      slots := h.rel_describing hd htable }

-- ------------------------------------------------------------- a document

/-- A grammar that spells one group in three ways, and has keys that are no
numerals or too large. -/
def numbered : Document :=
  [("captures", .dict
      [("1", .dict [("name", .string "early")]),
        ("01", .dict [("match", .string "a")]),
        ("2", .string "none"),
        ("+1", .dict [("name", .string "late"), ("match", .string "b")]),
        ("003", .dict [("include", .string "$self")]),
        ("65536", .dict [("name", .string "far")]),
        ("-4", .dict []), ("++4", .dict []), ("", .dict [])]),
    ("endCaptures", .dict [("x", .dict [("name", .string "none")])])]

def numberedCompilation : Compilation := ⟨.new ⟨1⟩, .empty, numbered, 0⟩

/-- Four slots, of which `1` has the later label and `3` a rule; and no table
for a dictionary without a numeral. -/
theorem tabulates_numbered :
    (∃ table, numberedCompilation.root.capture? .captures = some table
      ∧ numberedCompilation.Tabulates numberedCompilation.root numbered [] .captures table
      ∧ table.size = 4
      ∧ (numbered.describing .captures 1).getLast?
          = some [("name", .string "late"), ("match", .string "b")]
      ∧ (numbered.describing .captures 3).getLast? = some [("include", .string "$self")])
    ∧ numberedCompilation.root.capture? .endCaptures = none := by
  have hwf : numbered.WellFormed := by
    simp [Document.WellFormed, numbered, Value.WellFormed, Value.WellFormedEntries,
      Assoc.Distinct, Assoc.keys]
  refine ⟨?_, rfl⟩
  have hsize : (numberedCompilation.root.capture? .captures).map CaptureTable.size = some 4 := rfl
  rcases Trail.tabulates (k := numberedCompilation) .root hwf .captures with
    ⟨-, hnone⟩ | ⟨table, htable, htabulates⟩
  · rw [hnone] at hsize
    cases hsize
  · rw [htable] at hsize
    exact ⟨table, htable, htabulates, Option.some.inj hsize, rfl, rfl⟩

end Compilation

end ScopeRules
