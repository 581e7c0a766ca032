/-
What a rule has room for. A rule dictionary speaks of its rule's slots: an
attribute, a place for one nested thing, or the children, which share a
place. `Clause.slot?` says which slot a clause is about, and `Slot.home` under
which kind of key a slot is spoken of.

# Key by key

A clause stands under the home of its slot (`Clause.home_of_mem_ofEntry`).
So what is asked about one slot, or about all slots with one home, is asked
of the keys of that kind alone: `filter_slot_clauses` and
`filterMap_clauses` leave the other keys of a dictionary out of account.
-/
import Mathlib.Data.List.Basic
import ScopeRules.Proofs.Clauses

namespace ScopeRules

-- ================================================================ slots

/-- What a rule has room for once: an attribute, or a place. The children
share a place. -/
inductive Slot where
  | attribute (key : AttributeKey)
  | place (place : Place)
  deriving DecidableEq, Repr, Inhabited

/-- The slot that a clause is about. -/
def Clause.slot? : Clause → Option Slot
  | .attribute key _ => some (.attribute key)
  | .unusable _ => none
  | .label key index _ => some (.place (.capture key index))
  | .nested place _ => some (.place place)

/-- The key of a rule dictionary under which a slot is spoken of. -/
def Slot.home : Slot → RuleKey
  | .attribute key => .attribute key
  | .place .child => .structural .patterns
  | .place (.capture key _) => .captures key
  | .place (.entry _) => .structural .repository
  | .place (.injection _) => .structural .injections

/-- The match group that an entry of a capture dictionary describes. -/
def Document.groupOf? (entry : String × Value) : Option Nat :=
  if entry.2.dict?.isSome then Vocabulary.captureIndex? entry.1 else none

-- ============================================================== clauses

/-- Filtering what a partial function gives is filtering what it is given. -/
theorem filter_filterMap_eq {α β : Type} {f : α → Option β} {P : α → Bool} {Q : β → Bool}
    {as : List α} (h : ∀ a ∈ as, ∀ b, f a = some b → Q b = P a) :
    (as.filterMap f).filter Q = (as.filter P).filterMap f := by
  induction as with
  | nil => rfl
  | cons a more ih =>
    obtain ⟨ha, hmore⟩ := List.forall_mem_cons.1 h
    rw [List.filterMap_cons, List.filter_cons]
    cases hfa : f a with
    | none =>
      rw [ih hmore]
      split
      · rw [List.filterMap_cons, hfa]
      · rfl
    | some b =>
      rw [List.filter_cons, ha b hfa]
      split
      · rw [List.filterMap_cons, hfa, ih hmore]
      · exact ih hmore

namespace Clause

section OfEntry

variable {key : String} (value : Value)

theorem ofEntry_attribute {home : AttributeKey} (h : RuleKey.ofSpelling key = .attribute home) :
    ofEntry (key, value) = (value.string?.map (.attribute home)).toList := by
  simp only [ofEntry, h]
  cases value <;> rfl

theorem ofEntry_captures {home : CaptureKey} (h : RuleKey.ofSpelling key = .captures home) :
    ofEntry (key, value) = (value.dict?.getD []).filterMap (ofGroup? home) := by
  simp only [ofEntry, h]
  cases value <;> rfl

theorem ofEntry_patterns (h : RuleKey.ofSpelling key = .structural .patterns) :
    ofEntry (key, value)
      = (value.array?.getD []).filterMap fun item => item.dict?.map (nested .child) := by
  simp only [ofEntry, h]
  cases value <;> rfl

theorem ofEntry_repository (h : RuleKey.ofSpelling key = .structural .repository) :
    ofEntry (key, value)
      = (value.dict?.getD []).filterMap fun p => p.2.dict?.map (nested (.entry p.1)) := by
  simp only [ofEntry, h]
  cases value <;> rfl

theorem ofEntry_injections (h : RuleKey.ofSpelling key = .structural .injections) :
    ofEntry (key, value)
      = (value.dict?.getD []).filterMap fun p => p.2.dict?.map (nested (.injection p.1)) := by
  simp only [ofEntry, h]
  cases value <;> rfl

end OfEntry

/-- The slot of a clause tells the key that it stands under. -/
theorem home_of_mem_ofEntry {entry : String × Value} {clause : Clause} {slot : Slot}
    (h : clause ∈ ofEntry entry) (hslot : clause.slot? = some slot) :
    RuleKey.ofSpelling entry.1 = slot.home := by
  obtain ⟨key, value⟩ := entry
  have hnested : ∀ {α : Type} {items : List α} (place : α → Place) {source : α → Option Document}
      {home : RuleKey}, (∀ a, (Slot.place (place a)).home = home) →
      clause ∈ (items.filterMap fun a => (source a).map (nested (place a))) → home = slot.home := by
    intro α items place source home hplace hmem
    obtain ⟨a, -, ha⟩ := List.mem_filterMap.1 hmem
    obtain ⟨d, -, rfl⟩ := Option.map_eq_some_iff.1 ha
    rw [← Option.some.inj hslot, hplace]
  unfold ofEntry at h
  split at h
  · rename_i hkey _
    rw [List.mem_singleton.1 h] at hslot
    rw [hkey, ← Option.some.inj hslot]
    rfl
  · rename_i c groups hkey _
    rw [hkey]
    obtain ⟨⟨group, entry⟩, -, hgroup⟩ := List.mem_filterMap.1 h
    unfold ofGroup? at hgroup
    split at hgroup
    · cases hgroup
      cases hslot
    · split at hgroup <;> cases hgroup <;> cases hslot <;> rfl
    · cases hgroup
  · rename_i hkey _
    rw [hkey]
    exact hnested (fun _ => .child) (fun _ => rfl) h
  · rename_i hkey _
    rw [hkey]
    exact hnested (fun p : String × Value => .entry p.1) (fun _ => rfl) h
  · rename_i hkey _
    rw [hkey]
    exact hnested (fun p : String × Value => .injection p.1) (fun _ => rfl) h
  · cases h

/-- What a dictionary says of a slot, it says under the key for it. -/
theorem filter_slot_clauses (d : Document) (slot : Slot) :
    d.clauses.filter (fun clause => clause.slot? = some slot)
      = (d.filter fun p => RuleKey.ofSpelling p.1 = slot.home).flatMap fun p =>
          (ofEntry p).filter fun clause => clause.slot? = some slot := by
  induction d with
  | nil => rfl
  | cons p more ih =>
    unfold Document.clauses at ih ⊢
    rw [List.flatMap_cons, List.filter_append, ih, List.filter_cons]
    split
    · rfl
    · rename_i hhome
      rw [List.filter_eq_nil_iff.2 fun clause hclause hslot => hhome (decide_eq_true
        (home_of_mem_ofEntry hclause (of_decide_eq_true hslot)))]
      rfl

/-- What is read off the clauses for the slots of one kind of key is read off
these keys. -/
theorem filterMap_clauses {β : Type} {f : Clause → Option β} (home : RuleKey)
    (hf : ∀ clause, clause.slot?.map Slot.home ≠ some home → f clause = none) (d : Document) :
    d.clauses.filterMap f
      = d.flatMap fun p =>
          if RuleKey.ofSpelling p.1 = home then (ofEntry p).filterMap f else [] := by
  unfold Document.clauses
  rw [List.filterMap_flatMap]
  refine List.flatMap_congr fun p _ => ?_
  split
  · rfl
  · rename_i hother
    refine List.filterMap_eq_nil_iff.2 fun clause hclause => hf clause fun hhome => ?_
    obtain ⟨slot, hslot, rfl⟩ := Option.map_eq_some_iff.1 hhome
    exact hother (home_of_mem_ofEntry hclause hslot)

/-- What a dictionary that describes a match group says: with a string name
that label, else a rule. -/
def ofGroup (key : CaptureKey) (index : Nat) (source : Document) : Clause :=
  match source.getString? Vocabulary.labelKey with
  | some text => .label key index text
  | none => .nested (.capture key index) source

theorem ofGroup?_of_captureIndex? {key : CaptureKey} {p : String × Value} {index : Nat}
    (h : Vocabulary.captureIndex? p.1 = some index) :
    ofGroup? key p = p.2.dict?.map (ofGroup key index) := by
  obtain ⟨spelling, value⟩ := p
  rw [ofGroup?, h]
  cases value with
  | dict source =>
    show (match Document.getString? source Vocabulary.labelKey with
      | some text => some (.label key index text)
      | none => some (.nested (.capture key index) source)) = some (ofGroup key index source)
    unfold ofGroup
    cases Document.getString? source Vocabulary.labelKey <;> rfl
  | _ => rfl

end Clause

/-- In a dictionary whose keys are the places of its values, one key speaks
of a place. -/
theorem Clause.filter_slot_named {place : String → Place} (hplace : place.Injective)
    (d : Document) (name : String) :
    (d.filterMap fun p => p.2.dict?.map (Clause.nested (place p.1))).filter
        (fun clause => clause.slot? = some (.place (place name)))
      = (d.filter fun p => p.1 = name).filterMap
          fun p => p.2.dict?.map (Clause.nested (place p.1)) := by
  refine filter_filterMap_eq fun p _ clause hclause => ?_
  obtain ⟨source, -, rfl⟩ := Option.map_eq_some_iff.1 hclause
  simp [Clause.slot?, hplace.eq_iff]

/-- In a capture dictionary the entries for a group speak of its slot. -/
theorem Clause.filter_slot_groups (key : CaptureKey) (d : Document) (index : Nat) :
    (d.filterMap (Clause.ofGroup? key)).filter
        (fun clause => clause.slot? = some (.place (.capture key index)))
      = (d.filter fun p => Document.groupOf? p = some index).filterMap
          (Clause.ofGroup? key) := by
  refine filter_filterMap_eq fun p _ clause hclause => ?_
  obtain ⟨group, value⟩ := p
  unfold Clause.ofGroup? at hclause
  unfold Document.groupOf?
  split at hclause
  · rename_i hindex
    cases hclause
    simp [Clause.slot?, hindex]
  · rename_i i source hindex hvalue
    simp only at hindex hvalue
    subst hvalue
    split at hclause <;> cases hclause <;> simp [Clause.slot?, hindex, Value.dict?]
  · cases hclause

end ScopeRules
