/-
What a rule dictionary says, read off its text. Each reading goes through
the keys of the dictionary in document order and takes what one kind of key
holds: the items of all `patterns` arrays, the named dictionaries of all
repositories or injections, the attributes, the groups under a capture key.
No reading knows of outlines, ids or numbers.

# The two sides of a compiled rule

A rule is its pieces, stored one after the other (Pieces.lean), and the
pieces say what the clauses of the dictionary say. `Clause.filterMap_clauses`
takes from the clauses what one kind of key says, which gives the readings;
`Context.forall₂_clauses_contents` puts beside them, one to one and in order,
what the pieces hold. So what a rule stores under a kind of key corresponds
to a reading as soon as one piece corresponds to its clause.

# Dictionaries in dictionaries

A nested dictionary is one of the parts of a value under a key
(`Clause.mem_parts_of_mem_clauses`). Hence it is smaller, which carries
`Document.nestedInduction`, and well-formed if the document is.
-/
import ScopeRules.Proofs.SlotBySlot

namespace ScopeRules

-- ================================================= dictionaries in values

/-- The items of an array, or the values of a dictionary. -/
def Value.parts : Value → List Value
  | .array items => items
  | .dict entries => entries.map Prod.snd
  | _ => []

theorem Value.WellFormed.parts {v w : Value} (h : v.WellFormed) (hw : w ∈ v.parts) :
    w.WellFormed := by
  cases v with
  | array items => exact wellFormedItems_iff.1 h w hw
  | dict entries =>
    obtain ⟨p, hp, rfl⟩ := List.mem_map.1 hw
    exact wellFormedEntries_iff.1 h.2 p hp
  | _ => cases hw

theorem Value.sizeOf_lt_of_mem_parts {v w : Value} (h : w ∈ v.parts) : sizeOf w < sizeOf v := by
  cases v with
  | array items =>
    have hlt : sizeOf w < sizeOf items := List.sizeOf_lt_of_mem h
    rw [Value.array.sizeOf_spec]
    omega
  | dict entries =>
    obtain ⟨p, hp, rfl⟩ := List.mem_map.1 h
    have hlt := List.sizeOf_lt_of_mem hp
    have hpair : sizeOf p = 1 + sizeOf p.1 + sizeOf p.2 := Prod.mk.sizeOf_spec ..
    rw [Value.dict.sizeOf_spec]
    omega
  | _ => cases h

theorem Value.eq_dict_of_dict?_eq_some {v : Value} {d : Document} (h : v.dict? = some d) :
    v = .dict d := by
  cases v <;> cases h
  rfl

/-- A dictionary that a key nests is a part of the value of the key. -/
theorem Clause.mem_parts_of_mem_ofEntry {p : String × Value} {place : Place} {source : Document}
    (h : .nested place source ∈ ofEntry p) : .dict source ∈ p.2.parts := by
  obtain ⟨key, value⟩ := p
  have hentries : ∀ {place' : String → Place} {entries : Document},
      .nested place source ∈ (entries.filterMap fun p => p.2.dict?.map (nested (place' p.1))) →
        .dict source ∈ (Value.dict entries).parts := by
    intro place' entries hmem
    obtain ⟨p, hp, hsource⟩ := List.mem_filterMap.1 hmem
    obtain ⟨d, hd, heq⟩ := Option.map_eq_some_iff.1 hsource
    cases heq
    exact List.mem_map.2 ⟨p, hp, Value.eq_dict_of_dict?_eq_some hd⟩
  unfold ofEntry at h
  split at h
  · cases List.mem_singleton.1 h
  · rename_i c groups _ hvalue
    obtain rfl : value = .dict groups := hvalue
    obtain ⟨⟨group, entry⟩, hgroup, hclause⟩ := List.mem_filterMap.1 h
    refine List.mem_map.2 ⟨_, hgroup, ?_⟩
    unfold ofGroup? at hclause
    split at hclause
    · cases hclause
    · rename_i i d _ hentry
      obtain rfl : entry = .dict d := hentry
      split at hclause <;> cases hclause
      rfl
    · cases hclause
  · rename_i items _ hvalue
    obtain rfl : value = .array items := hvalue
    obtain ⟨item, hitem, hsource⟩ := List.mem_filterMap.1 h
    obtain ⟨d, hd, heq⟩ := Option.map_eq_some_iff.1 hsource
    cases heq
    exact Value.eq_dict_of_dict?_eq_some hd ▸ hitem
  · rename_i entries _ hvalue
    obtain rfl : value = .dict entries := hvalue
    exact hentries h
  · rename_i entries _ hvalue
    obtain rfl : value = .dict entries := hvalue
    exact hentries h
  · cases h

theorem Clause.mem_parts_of_mem_clauses {d : Document} {place : Place} {source : Document}
    (h : .nested place source ∈ d.clauses) : ∃ p ∈ d, .dict source ∈ p.2.parts := by
  obtain ⟨p, hp, hmem⟩ := List.mem_flatMap.1 h
  exact ⟨p, hp, mem_parts_of_mem_ofEntry hmem⟩

namespace Document

/-- What is nested in a well-formed document is well-formed. -/
theorem WellFormed.nested {d : Document} (h : d.WellFormed) {place : Place} {source : Document}
    (hmem : .nested place source ∈ d.clauses) : source.WellFormed := by
  obtain ⟨p, hp, hpart⟩ := Clause.mem_parts_of_mem_clauses hmem
  exact (Value.wellFormedEntries_iff.1 h.2 p hp).parts hpart

/-- Induction along the dictionaries that a document nests, at any place. -/
theorem nestedInduction {P : Document → Prop}
    (step : ∀ d : Document, (∀ place source, .nested place source ∈ d.clauses → P source) → P d)
    (d : Document) : P d := by
  induction hsize : sizeOf d using Nat.strongRecOn generalizing d with
  | ind n ih =>
    refine step d fun place source hmem => ih _ ?_ source rfl
    obtain ⟨p, hp, hpart⟩ := Clause.mem_parts_of_mem_clauses hmem
    have hpart := Value.sizeOf_lt_of_mem_parts hpart
    have hmember := List.sizeOf_lt_of_mem hp
    have hpair : sizeOf p = 1 + sizeOf p.1 + sizeOf p.2 := Prod.mk.sizeOf_spec ..
    rw [Value.dict.sizeOf_spec] at hpart
    omega

-- ============================================================= readings

variable (d : Document)

/-- The dictionaries among the items of the arrays under `patterns`, in any
case. -/
def items : List Document :=
  d.flatMap fun p =>
    if sameUpToCase StructuralKey.patterns.spelling p.1 then
      (p.2.array?.getD []).filterMap Value.dict?
    else []

/-- The dictionaries in the dictionaries under a structural key, in any case,
with their names. -/
def named (key : StructuralKey) : List (String × Document) :=
  d.flatMap fun p =>
    if sameUpToCase key.spelling p.1 then
      (p.2.dict?.getD []).filterMap fun e => e.2.dict?.map fun source => (e.1, source)
    else []

/-- The attribute keys whose values are strings. -/
def attributes : List (AttributeKey × String) :=
  d.filterMap fun p =>
    (AttributeKey.ofSpelling? p.1).bind fun key => p.2.string?.map fun text => (key, text)

/-- The dictionaries in the dictionary under a capture key, with their
keys. -/
def groups (key : CaptureKey) : List (String × Document) :=
  (((Assoc.get? d key.spelling).bind Value.dict?).getD []).filterMap fun e =>
    e.2.dict?.map fun source => (e.1, source)

end Document

/-- The dictionaries on a trail are well-formed if the document is. -/
theorem Compilation.Trail.wellFormed {k : Compilation} {r : Rule} {d : Document}
    {outer : List (Rule × Document)} (h : k.Trail ((r, d) :: outer)) (hk : k.document.WellFormed) :
    d.WellFormed := by
  cases h with
  | root => exact hk
  | nested enclosing mem =>
    obtain ⟨serial, -, -, -, hclause, -⟩ := k.context.exists_of_rule_mem_pieces mem
    exact (enclosing.wellFormed hk).nested hclause

-- ======================================================= what clauses say

namespace Clause

/-- The dictionary that a clause makes a child. -/
def item? : Clause → Option Document
  | .nested .child source => some source
  | _ => none

/-- The dictionary that a clause makes an entry, with its name. -/
def entry? : Clause → Option (String × Document)
  | .nested (.entry name) source => some (name, source)
  | _ => none

/-- The dictionary that a clause injects, with its selector. -/
def injection? : Clause → Option (String × Document)
  | .nested (.injection selector) source => some (selector, source)
  | _ => none

/-- The attribute that a clause sets, with its text. -/
def attribute? : Clause → Option (AttributeKey × String)
  | .attribute key text => some (key, text)
  | _ => none

theorem filterMap_item?_clauses (d : Document) : d.clauses.filterMap item? = d.items := by
  rw [filterMap_clauses (.structural .patterns)]
  · refine List.flatMap_congr fun p _ => ?_
    rw [← if_congr RuleKey.ofSpelling_eq_structural_iff rfl rfl]
    split
    · rename_i hkey
      rw [ofEntry_patterns p.2 hkey, List.filterMap_filterMap]
      refine List.filterMap_congr fun item _ => ?_
      cases item.dict? <;> rfl
    · rfl
  · intro clause hhome
    unfold item?
    split
    · exact absurd rfl hhome
    · rfl

/-- Of a structural key whose values are dictionaries of places. -/
theorem filterMap_named {f : Clause → Option (String × Document)} {key : StructuralKey}
    {place : String → Place} (hhome : ∀ name, (Slot.place (place name)).home = .structural key)
    (hentry : ∀ p : String × Value, RuleKey.ofSpelling p.1 = .structural key →
      ofEntry p = (p.2.dict?.getD []).filterMap fun e => e.2.dict?.map (nested (place e.1)))
    (hf : ∀ clause, (∀ name source, clause ≠ .nested (place name) source) → f clause = none)
    (hplace : ∀ name source, f (.nested (place name) source) = some (name, source))
    (d : Document) : d.clauses.filterMap f = d.named key := by
  rw [filterMap_clauses (.structural key)]
  · refine List.flatMap_congr fun p _ => ?_
    rw [← if_congr RuleKey.ofSpelling_eq_structural_iff rfl rfl]
    split
    · rename_i hkey
      rw [hentry p hkey, List.filterMap_filterMap]
      refine List.filterMap_congr fun e _ => ?_
      cases e.2.dict? with
      | none => rfl
      | some source => exact hplace e.1 source
    · rfl
  · intro clause hother
    refine hf clause fun name source heq => hother ?_
    rw [heq]
    exact congrArg some (hhome name)

theorem filterMap_entry?_clauses (d : Document) :
    d.clauses.filterMap entry? = d.named .repository := by
  refine filterMap_named (fun _ => rfl) (fun p => ofEntry_repository p.2) ?_ (fun _ _ => rfl) d
  intro clause hclause
  unfold entry?
  split
  · exact absurd rfl (hclause _ _)
  · rfl

theorem filterMap_injection?_clauses (d : Document) :
    d.clauses.filterMap injection? = d.named .injections := by
  refine filterMap_named (fun _ => rfl) (fun p => ofEntry_injections p.2) ?_ (fun _ _ => rfl) d
  intro clause hclause
  unfold injection?
  split
  · exact absurd rfl (hclause _ _)
  · rfl

/-- Only an attribute key sets an attribute, and only to a string. -/
theorem filterMap_attribute?_ofEntry (p : String × Value) :
    (ofEntry p).filterMap attribute?
      = ((AttributeKey.ofSpelling? p.1).bind fun key =>
          p.2.string?.map fun text => (key, text)).toList := by
  cases hkey : AttributeKey.ofSpelling? p.1 with
  | some key =>
    rw [ofEntry_attribute p.2 (RuleKey.ofSpelling_eq_attribute_iff.2 hkey), Option.bind_some]
    cases p.2.string? <;> rfl
  | none =>
    refine List.filterMap_eq_nil_iff.2 fun clause hclause => ?_
    cases clause with
    | «attribute» key text =>
      have hhome := RuleKey.ofSpelling_eq_attribute_iff.1 (home_of_mem_ofEntry hclause rfl)
      rw [hkey] at hhome
      cases hhome
    | _ => rfl

theorem filterMap_attribute?_clauses (d : Document) :
    d.clauses.filterMap attribute? = d.attributes := by
  unfold Document.clauses Document.attributes
  rw [List.filterMap_flatMap, List.filterMap_eq_flatMap_toList]
  exact List.flatMap_congr fun p _ => filterMap_attribute?_ofEntry p

end Clause

/-- What is read off the clauses of a dictionary corresponds, in order, to
what is read off the pieces of its rule, if each piece corresponds to what
it says. -/
theorem Context.forall₂_clauses_contents {β γ : Type} {S : β → γ → Prop} {f : Clause → Option β}
    {g : Piece → Option γ} (c : Context) (n : Nat) (d : Document)
    (hunusable : ∀ key, f (.unusable key) = none)
    (h : ∀ q ∈ c.contents n d, Option.Rel S (f q.clause) (g q)) :
    List.Forall₂ S (d.clauses.filterMap f) ((c.contents n d).filterMap g) := by
  have hpieces : d.clauses.filterMap f = (c.contents n d).filterMap (f ∘ Piece.clause) := by
    rw [← List.filterMap_map]
    refine Eq.trans ?_ (congrArg (List.filterMap f)
      (c.map_clause_pieces ⟨c.table, n⟩ (n + 1) d.clauses).symm)
    rw [List.filterMap_filter]
    refine List.filterMap_congr fun clause _ => ?_
    cases clause with
    | unusable key => exact hunusable key
    | _ => rfl
  rw [hpieces]
  exact forall₂_filterMap_of_rel h

end ScopeRules
