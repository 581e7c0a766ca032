/-
Documents that differ in the order of their keys only, and what they have in
common. `Document.Reordered` is sameness of documents in which no key comes
twice. It is a statement about every depth, and is used in one step at a
time: the same keys have values that are reordered again
(`Reordered.get?`), so that the same includes, scopes and labels are read
from both documents.

# Where order has a meaning

The clauses of reordered dictionaries come in another order, and what has a
place for itself must not be asked for twice: two repositories, or two
entries for one match group, are told apart by their order alone.
`Document.Plain` excludes this. In a plain document everything that claims one slot of
a rule stands under one key (`Slot.home`, Slots.lean), so slot by slot the clauses of
reordered documents come in the same order (`Reordered.forall₂_clauses`).
The items of a `patterns` array share a slot, and the order of the array
is theirs.
-/
import Mathlib.Data.List.Nodup
import Mathlib.Data.List.Perm.Subperm
import ScopeRules.Proofs.SideBySide
import ScopeRules.Proofs.Slots

namespace ScopeRules

-- =============================================================== values

namespace Value

/-- Whether two values are the same, and no dictionary in them has a key
twice. -/
structure Reordered (v w : Value) : Prop where
  left : v.WellFormed
  right : w.WellFormed
  same : v.same w = true

theorem sameItems_iff {vs ws : List Value} :
    sameItems vs ws = true ↔ List.Forall₂ (fun v w => v.same w = true) vs ws := by
  induction vs generalizing ws with
  | nil => cases ws <;> simp [sameItems]
  | cons v vs ih => cases ws <;> simp [sameItems, ih]

theorem sameEntries_iff {es fs : List (String × Value)} :
    sameEntries es fs = true ↔ ∀ e ∈ es, ∃ w, Assoc.get? fs e.1 = some w ∧ e.2.same w = true := by
  induction es with
  | nil => simp [sameEntries]
  | cons e es ih =>
    obtain ⟨key, v⟩ := e
    rw [sameEntries, Bool.and_eq_true, ih, List.forall_mem_cons]
    refine and_congr_left fun _ => ?_
    cases Assoc.get? fs key <;> simp

theorem wellFormedItems_iff {vs : List Value} :
    WellFormedItems vs ↔ ∀ v ∈ vs, v.WellFormed := by
  induction vs with
  | nil => simp [WellFormedItems]
  | cons v vs ih => rw [WellFormedItems, ih, List.forall_mem_cons]

theorem wellFormedEntries_iff {es : List (String × Value)} :
    WellFormedEntries es ↔ ∀ e ∈ es, e.2.WellFormed := by
  induction es with
  | nil => simp [WellFormedEntries]
  | cons e es ih => rw [WellFormedEntries, ih, List.forall_mem_cons]

end Value

/-- Documents that are the same, whatever the order of their keys. -/
def Document.Reordered (d e : Document) : Prop := Value.Reordered (.dict d) (.dict e)

namespace Value.Reordered

variable {v w : Value}

theorem string?_eq (h : v.Reordered w) : v.string? = w.string? := by
  have hsame := h.same
  cases v <;> cases w <;> simp_all [Value.same, Value.string?]

theorem array? (h : v.Reordered w) :
    Option.Rel (List.Forall₂ Value.Reordered) v.array? w.array? := by
  obtain ⟨hv, hw, hsame⟩ := h
  cases v with
  | array vs =>
    cases w with
    | array ws =>
      rw [WellFormed, wellFormedItems_iff] at hv hw
      rw [Value.same, sameItems_iff] at hsame
      refine .some ?_
      induction hsame with
      | nil => exact .nil
      | cons hvw _ ih =>
        obtain ⟨hv, hvs⟩ := List.forall_mem_cons.1 hv
        obtain ⟨hw, hws⟩ := List.forall_mem_cons.1 hw
        exact .cons ⟨hv, hw, hvw⟩ (ih hvs hws)
    | _ => simp [Value.same] at hsame
  | _ => cases w <;> simp_all [Value.same, Value.array?]

theorem dict? (h : v.Reordered w) : Option.Rel Document.Reordered v.dict? w.dict? := by
  have hsame := h.same
  cases v with
  | dict d =>
    cases w with
    | dict e => exact .some h
    | _ => simp [Value.same] at hsame
  | _ => cases w <;> simp_all [Value.same, Value.dict?]

end Value.Reordered

-- ========================================================= dictionaries

/-- What is looked for under one key is there once. -/
theorem Assoc.length_filter_le_one {α : Type} {d : Assoc String α} {P : String × α → Bool}
    (h : d.Distinct) (hunique : ∀ p ∈ d, ∀ q ∈ d, P p = true → P q = true → p.1 = q.1) :
    (d.filter P).length ≤ 1 := by
  have hkeys : (d.filter P).Pairwise fun p q => p.1 ≠ q.1 :=
    (List.pairwise_map.1 h).filter P
  have hmem : ∀ p ∈ d.filter P, p ∈ d ∧ P p = true := fun p hp => List.mem_filter.1 hp
  revert hkeys hmem
  cases d.filter P with
  | nil => exact fun _ _ => Nat.zero_le 1
  | cons p rest =>
    cases rest with
    | nil => exact fun _ _ => Nat.le_refl 1
    | cons q rest =>
      intro hkeys hmem
      obtain ⟨hp, hPp⟩ := hmem p (.head _)
      obtain ⟨hq, hPq⟩ := hmem q (.tail _ (.head _))
      exact absurd (hunique p hp q hq hPp hPq) (List.rel_of_pairwise_cons hkeys (.head _))

theorem eq_singleton_of_mem {α : Type} {as : List α} {a : α} (h : as.length ≤ 1) (ha : a ∈ as) :
    as = [a] := by
  cases as with
  | nil => cases ha
  | cons b rest =>
    obtain rfl : rest = [] := List.length_eq_zero_iff.1 (Nat.le_zero.1 (Nat.le_of_succ_le_succ h))
    rw [List.mem_singleton.1 ha]

/-- Entries with one key and reordered values. -/
structure EntryReordered (p q : String × Value) : Prop where
  key : p.1 = q.1
  value : p.2.Reordered q.2

namespace Document.Reordered

variable {d e : Document}

theorem distinct (h : d.Reordered e) : Assoc.Distinct d ∧ Assoc.Distinct e :=
  ⟨h.left.1, h.right.1⟩

theorem reordered_nil : Reordered [] [] where
  left := ⟨List.nodup_nil, trivial⟩
  right := ⟨List.nodup_nil, trivial⟩
  same := by simp [Value.same, Value.sameEntries]

/-- What stands in the first stands in the second. -/
theorem exists_right (h : d.Reordered e) {p : String × Value} (hp : p ∈ d) :
    ∃ q ∈ e, EntryReordered p q := by
  have hsame := h.same
  rw [Value.same, decide_eq_true_eq, Value.sameEntries_iff] at hsame
  obtain ⟨w, hw, hvalue⟩ := hsame.2 p hp
  have hq := Assoc.mem_of_get?_eq_some hw
  exact ⟨(p.1, w), hq, rfl, Value.wellFormedEntries_iff.1 h.left.2 p hp,
    Value.wellFormedEntries_iff.1 h.right.2 _ hq, hvalue⟩

/-- There are as many keys in both, so the second has none for itself. -/
theorem exists_left (h : d.Reordered e) {q : String × Value} (hq : q ∈ e) :
    ∃ p ∈ d, EntryReordered p q := by
  have hlength : (Assoc.keys e).length ≤ (Assoc.keys d).length := by
    have hsame := h.same
    rw [Value.same, decide_eq_true_eq] at hsame
    simp [Assoc.keys, hsame.1]
  have hsubset : Assoc.keys d ⊆ Assoc.keys e := by
    intro key hkey
    obtain ⟨p, hp, rfl⟩ := List.mem_map.1 hkey
    obtain ⟨q, hq, hpq⟩ := h.exists_right hp
    exact hpq.key ▸ List.mem_map_of_mem hq
  have hkeys := (List.subperm_of_subset h.distinct.1 hsubset).perm_of_length_le hlength
  obtain ⟨p, hp, hkey⟩ := List.mem_map.1 (hkeys.mem_iff.2 (List.mem_map_of_mem hq))
  obtain ⟨q', hq', hpq⟩ := h.exists_right hp
  have hvalue := Assoc.get?_of_mem h.distinct.2 hq'
  rw [← hpq.key, hkey, Assoc.get?_of_mem h.distinct.2 hq] at hvalue
  obtain rfl : q = q' := Prod.ext (hkey.symm.trans hpq.key) (Option.some.inj hvalue)
  exact ⟨p, hp, hpq⟩

end Document.Reordered

/-- Sameness goes both ways while no key comes twice. The induction is on the
size of the first value. -/
theorem Value.Reordered.symm {v w : Value} (h : v.Reordered w) : w.Reordered v := by
  refine ⟨h.right, h.left, ?_⟩
  induction hsize : sizeOf v using Nat.strongRecOn generalizing v w with
  | ind n ih =>
    have hsame := h.same
    cases v with
    | array vs =>
      cases w with
      | array ws =>
        have hitems : List.Forall₂ Value.Reordered vs ws := by simpa [Value.array?] using h.array?
        rw [Value.same, sameItems_iff, List.forall₂_iff_get]
        rw [List.forall₂_iff_get] at hitems
        refine ⟨hitems.1.symm, fun i hi hi' => ih _ ?_ (hitems.2 i hi' hi) rfl⟩
        have hlt := List.sizeOf_lt_of_mem (List.get_mem vs ⟨i, hi'⟩)
        rw [← hsize, Value.array.sizeOf_spec]
        omega
      | _ => simp [Value.same] at hsame
    | dict d =>
      cases w with
      | dict e =>
        rw [Value.same, decide_eq_true_eq] at hsame ⊢
        refine ⟨hsame.1.symm, sameEntries_iff.2 fun q hq => ?_⟩
        obtain ⟨p, hp, hpq⟩ := Document.Reordered.exists_left h hq
        refine ⟨p.2, hpq.key ▸ Assoc.get?_of_mem h.left.1 hp, ih _ ?_ hpq.value rfl⟩
        have hlt := List.sizeOf_lt_of_mem hp
        have hpair : sizeOf p = 1 + sizeOf p.1 + sizeOf p.2 := Prod.mk.sizeOf_spec ..
        rw [← hsize, Value.dict.sizeOf_spec]
        omega
      | _ => simp [Value.same] at hsame
    | real x =>
      cases w with
      | real y =>
        simp only [Value.same, Binary64.same, decide_eq_true_eq] at hsame ⊢
        exact hsame.imp Eq.symm And.symm
      | _ => simp [Value.same] at hsame
    | _ => cases w <;> simp_all [Value.same]

namespace Document.Reordered

variable {d e : Document}

theorem symm (h : d.Reordered e) : e.Reordered d := Value.Reordered.symm h

/-- Under one key stands the same in both. -/
theorem get? (h : d.Reordered e) (key : String) :
    Option.Rel Value.Reordered (Assoc.get? d key) (Assoc.get? e key) := by
  cases hv : Assoc.get? d key with
  | some v =>
    obtain ⟨q, hq, hpq⟩ := h.exists_right (Assoc.mem_of_get?_eq_some hv)
    rw [show key = q.1 from hpq.key, Assoc.get?_of_mem h.distinct.2 hq]
    exact .some hpq.value
  | none =>
    cases hw : Assoc.get? e key with
    | none => exact .none
    | some w =>
      obtain ⟨p, hp, hpq⟩ := h.exists_left (Assoc.mem_of_get?_eq_some hw)
      have hfound := Assoc.get?_of_mem h.distinct.1 hp
      rw [show p.1 = key from hpq.key, hv] at hfound
      cases hfound

theorem getString?_eq (h : d.Reordered e) (key : String) : d.getString? key = e.getString? key := by
  unfold getString?
  rcases cases_of_rel (h.get? key) with ⟨hd, he⟩ | ⟨v, w, hd, he, hvalue⟩
  · rw [hd, he]
  · rw [hd, he]
    exact hvalue.string?_eq

theorem has_eq (h : d.Reordered e) (key : String) : Assoc.has d key = Assoc.has e key :=
  isSome_eq_of_rel (h.get? key)

theorem scopeOf_eq (h : d.Reordered e) : Outline.scopeOf d = Outline.scopeOf e := h.getString?_eq _

theorem targetOf_eq (h : d.Reordered e) : Outline.targetOf d = Outline.targetOf e := by
  rw [Outline.targetOf, Outline.targetOf, h.getString?_eq]

theorem refers_eq (h : d.Reordered e) (place : Place) : place.refers d = place.refers e := by
  cases place with
  | child => exact h.has_eq _
  | entry name => exact h.has_eq _
  | _ => rfl

/-- Where at most one key is looked for, by something that reordering does
not change, there are the same entries in the same order. -/
theorem forall₂_filter (h : d.Reordered e) {P : String × Value → Bool}
    (hP : ∀ p q, EntryReordered p q → P p = P q)
    (hunique : ∀ p ∈ d, ∀ q ∈ d, P p = true → P q = true → p.1 = q.1) :
    List.Forall₂ EntryReordered (d.filter P) (e.filter P) := by
  by_cases hsome : ∃ p ∈ d, P p = true
  · obtain ⟨p, hp, hPp⟩ := hsome
    obtain ⟨q, hq, hpq⟩ := h.exists_right hp
    have hunique' : ∀ q ∈ e, ∀ q' ∈ e, P q = true → P q' = true → q.1 = q'.1 := by
      intro q hq q' hq' hPq hPq'
      obtain ⟨p, hp, hpq⟩ := h.exists_left hq
      obtain ⟨p', hp', hpq'⟩ := h.exists_left hq'
      rw [← hpq.key, ← hpq'.key]
      exact hunique p hp p' hp' (hP p q hpq ▸ hPq) (hP p' q' hpq' ▸ hPq')
    rw [eq_singleton_of_mem (Assoc.length_filter_le_one h.distinct.1 hunique)
        (List.mem_filter.2 ⟨hp, hPp⟩),
      eq_singleton_of_mem (Assoc.length_filter_le_one h.distinct.2 hunique')
        (List.mem_filter.2 ⟨hq, hP p q hpq ▸ hPp⟩)]
    exact .cons hpq .nil
  · have hleft : d.filter P = [] :=
      List.filter_eq_nil_iff.2 fun p hp hPp => hsome ⟨p, hp, hPp⟩
    have hright : e.filter P = [] := List.filter_eq_nil_iff.2 fun q hq hPq => by
      obtain ⟨p, hp, hpq⟩ := h.exists_left hq
      exact hsome ⟨p, hp, hP p q hpq ▸ hPq⟩
    rw [hleft, hright]
    exact .nil

end Document.Reordered

-- ====================================================== plain documents

/-- Whether a rule dictionary spells no structural key twice, and describes
no match group twice under a capture key. -/
structure Document.Unambiguous (d : Document) : Prop where
  structural : ∀ key, ∀ p ∈ d, ∀ q ∈ d, RuleKey.ofSpelling p.1 = .structural key →
    RuleKey.ofSpelling q.1 = .structural key → p.1 = q.1
  groups : ∀ key, ∀ p ∈ d, RuleKey.ofSpelling p.1 = .captures key → ∀ entries, p.2 = .dict entries →
    ∀ index, ∀ e ∈ entries, ∀ f ∈ entries, groupOf? e = some index → groupOf? f = some index →
      e.1 = f.1

/-- Whether this is so of a document and of all rule dictionaries in it. -/
inductive Document.Plain : Document → Prop
  | intro {d : Document} (unambiguous : d.Unambiguous)
      (nested : ∀ place source, .nested place source ∈ d.clauses →
        place.refers source = false → Plain source) : Plain d

namespace Document

variable {d e : Document}

theorem Plain.unambiguous (h : d.Plain) : d.Unambiguous := by
  cases h with
  | intro unambiguous => exact unambiguous

theorem Plain.nested (h : d.Plain) {place : Place} {source : Document}
    (hmem : .nested place source ∈ d.clauses) (hrefers : place.refers source = false) :
    source.Plain := by
  cases h with
  | intro _ nested => exact nested place source hmem hrefers

/-- The dictionaries of the rules that stand right in the rule of a dictionary. -/
def sources (d : Document) : List Document :=
  d.clauses.filterMap fun
    | .nested place source => if place.refers source then none else some source
    | _ => none

theorem Plain.of_sources (hd : d.Unambiguous) (h : ∀ source ∈ d.sources, source.Plain) :
    d.Plain :=
  .intro hd fun _ source hmem hrefers =>
    h source (List.mem_filterMap.2 ⟨_, hmem, if_neg (Bool.eq_false_iff.1 hrefers)⟩)

/-- A slot is spoken of under one key. -/
theorem Unambiguous.key_eq (h : d.Unambiguous) (slot : Slot) {p q : String × Value} (hp : p ∈ d)
    (hq : q ∈ d) (hph : RuleKey.ofSpelling p.1 = slot.home)
    (hqh : RuleKey.ofSpelling q.1 = slot.home) : p.1 = q.1 := by
  cases slot with
  | «attribute» key =>
    have hp' := AttributeKey.spelling_of_ofSpelling? (RuleKey.ofSpelling_eq_attribute_iff.1 hph)
    have hq' := AttributeKey.spelling_of_ofSpelling? (RuleKey.ofSpelling_eq_attribute_iff.1 hqh)
    exact hp'.symm.trans hq'
  | place place =>
    cases place with
    | capture key index =>
      rw [RuleKey.ofSpelling_eq_captures_iff.1 hph, RuleKey.ofSpelling_eq_captures_iff.1 hqh]
    | _ => exact h.structural _ p hp q hq hph hqh

/-- Under a capture key no group is described twice, whatever stands there. -/
theorem Unambiguous.groups_getD (h : d.Unambiguous) {p : String × Value} (hp : p ∈ d)
    {key : CaptureKey} (hkey : RuleKey.ofSpelling p.1 = .captures key) (index : Nat) :
    ∀ e ∈ p.2.dict?.getD [], ∀ f ∈ p.2.dict?.getD [], groupOf? e = some index →
      groupOf? f = some index → e.1 = f.1 := by
  obtain ⟨spelling, value⟩ := p
  cases value with
  | dict groups => exact h.groups key _ hp hkey groups rfl index
  | _ => exact fun _ h => nomatch h

/-- There are few structural keys and few capture keys, and a dictionary
describes few groups. -/
theorem unambiguous_iff :
    d.Unambiguous ↔
      (∀ key ∈ StructuralKey.all, ∀ p ∈ d, ∀ q ∈ d, RuleKey.ofSpelling p.1 = .structural key →
        RuleKey.ofSpelling q.1 = .structural key → p.1 = q.1)
      ∧ ∀ key ∈ CaptureKey.all, ∀ p ∈ d, RuleKey.ofSpelling p.1 = .captures key →
        ∀ e ∈ p.2.dict?.getD [], ∀ f ∈ p.2.dict?.getD [],
          (groupOf? e).isSome = true → groupOf? e = groupOf? f → e.1 = f.1 := by
  constructor
  · intro h
    refine ⟨fun key _ => h.structural key, ?_⟩
    intro key _ p hp hkey e he f hf hsome hgroups
    obtain ⟨index, hindex⟩ := Option.isSome_iff_exists.1 hsome
    exact h.groups_getD hp hkey index e he f hf hindex (hgroups ▸ hindex)
  · intro h
    refine ⟨fun key => h.1 key (by cases key <;> decide), ?_⟩
    intro key p hp hkey entries hentries index e he f hf hindex hindex'
    have hvalue : p.2.dict?.getD [] = entries := by rw [hentries]; rfl
    exact h.2 key key.mem_all p hp hkey e (hvalue ▸ he) f (hvalue ▸ hf) (by rw [hindex]; rfl)
      (hindex.trans hindex'.symm)

instance (d : Document) : Decidable d.Unambiguous := decidable_of_iff _ unambiguous_iff.symm

end Document

-- ============================================================== clauses

/-- Clauses that say the same, but for the order of keys. -/
inductive Clause.Reordered : Clause → Clause → Prop
  | attribute (key : AttributeKey) (text : String) :
      Clause.Reordered (.attribute key text) (.attribute key text)
  | unusable (key : String) : Clause.Reordered (.unusable key) (.unusable key)
  | label (key : CaptureKey) (index : Nat) (text : String) :
      Clause.Reordered (.label key index text) (.label key index text)
  | nested (place : Place) {source source' : Document} (h : source.Reordered source') :
      Clause.Reordered (.nested place source) (.nested place source')

theorem Clause.Reordered.slot?_eq {clause clause' : Clause} (h : clause.Reordered clause') :
    clause.slot? = clause'.slot? := by
  cases h <;> rfl

theorem EntryReordered.groupOf?_eq {p q : String × Value} (h : EntryReordered p q) :
    Document.groupOf? p = Document.groupOf? q := by
  rw [Document.groupOf?, Document.groupOf?, h.key, isSome_eq_of_rel h.value.dict?]

namespace Document.Reordered

variable {d e : Document}

/-- Dictionaries whose keys are the places of their values. -/
theorem forall₂_named (h : d.Reordered e) {place : String → Place} (hplace : place.Injective)
    (name : String) :
    List.Forall₂ Clause.Reordered
      ((d.filterMap fun p => p.2.dict?.map (Clause.nested (place p.1))).filter
        fun clause => clause.slot? = some (.place (place name)))
      ((e.filterMap fun p => p.2.dict?.map (Clause.nested (place p.1))).filter
        fun clause => clause.slot? = some (.place (place name))) := by
  rw [Clause.filter_slot_named hplace, Clause.filter_slot_named hplace]
  refine List.rel_filterMap (R := EntryReordered) (fun p q hpq => ?_) (h.forall₂_filter ?_ ?_)
  · rw [hpq.key]
    exact map_of_rel hpq.value.dict? fun _ _ hsource => .nested _ hsource
  · intro p q hpq
    rw [hpq.key]
  · intro p _ q _ hp hq
    exact (of_decide_eq_true hp).trans (of_decide_eq_true hq).symm

/-- Capture dictionaries that describe no group twice. -/
theorem forall₂_groups (h : d.Reordered e) (key : CaptureKey) (index : Nat)
    (hunique : ∀ p ∈ d, ∀ q ∈ d, groupOf? p = some index → groupOf? q = some index → p.1 = q.1) :
    List.Forall₂ Clause.Reordered
      ((d.filterMap (Clause.ofGroup? key)).filter
        fun clause => clause.slot? = some (.place (.capture key index)))
      ((e.filterMap (Clause.ofGroup? key)).filter
        fun clause => clause.slot? = some (.place (.capture key index))) := by
  rw [Clause.filter_slot_groups, Clause.filter_slot_groups]
  refine List.rel_filterMap (R := EntryReordered) (fun p q hpq => ?_) (h.forall₂_filter ?_ ?_)
  · obtain ⟨group, v⟩ := p
    obtain ⟨group', w⟩ := q
    obtain ⟨hkey, hvalue⟩ := hpq
    obtain rfl : group = group' := hkey
    unfold Clause.ofGroup?
    cases Vocabulary.captureIndex? group with
    | none => exact .some (.unusable group)
    | some i =>
      have hsame := hvalue.same
      cases v with
      | dict source =>
        cases w with
        | dict source' =>
          have hsource : Document.Reordered source source' := hvalue
          simp only [hsource.getString?_eq Vocabulary.labelKey]
          cases Document.getString? source' Vocabulary.labelKey with
          | none => exact .some (.nested _ hsource)
          | some text => exact .some (.label key i text)
        | _ => simp [Value.same] at hsame
      | _ => cases w <;> first | exact .none | simp [Value.same] at hsame
  · intro p q hpq
    rw [hpq.groupOf?_eq]
  · intro p hp q hq hp' hq'
    exact hunique p hp q hq (of_decide_eq_true hp') (of_decide_eq_true hq')

/-- What stands under one key says of a slot the same in the same order. -/
theorem forall₂_ofEntry (hd : d.Unambiguous) {p q : String × Value} (hp : p ∈ d)
    (hpq : EntryReordered p q) (slot : Slot) :
    List.Forall₂ Clause.Reordered
      ((Clause.ofEntry p).filter fun clause => clause.slot? = some slot)
      ((Clause.ofEntry q).filter fun clause => clause.slot? = some slot) := by
  by_cases hhome : RuleKey.ofSpelling p.1 = slot.home
  · obtain ⟨key, v⟩ := p
    obtain ⟨key', w⟩ := q
    obtain ⟨hkey, hvalue⟩ := hpq
    obtain rfl : key = key' := hkey
    have hdicts : Document.Reordered (v.dict?.getD []) (w.dict?.getD []) :=
      getD_of_rel hvalue.dict? reordered_nil
    cases slot with
    | «attribute» home =>
      rw [Clause.ofEntry_attribute v hhome, Clause.ofEntry_attribute w hhome, hvalue.string?_eq]
      cases w.string? with
      | none => exact .nil
      | some text => simp [Clause.slot?, Clause.Reordered.attribute]
    | place place =>
      cases place with
      | child =>
        have hitems : List.Forall₂ Value.Reordered (v.array?.getD []) (w.array?.getD []) :=
          getD_of_rel hvalue.array? .nil
        rw [Clause.ofEntry_patterns v hhome, Clause.ofEntry_patterns w hhome]
        refine List.rel_filter (R := Clause.Reordered) (fun c c' hc => ?_) (List.rel_filterMap
          (fun _ _ hitem => map_of_rel hitem.dict? fun _ _ hsource => .nested _ hsource) hitems)
        show decide (c.slot? = some (.place .child)) = true
          ↔ decide (c'.slot? = some (.place .child)) = true
        rw [hc.slot?_eq]
      | entry name =>
        rw [Clause.ofEntry_repository v hhome, Clause.ofEntry_repository w hhome]
        exact hdicts.forall₂_named (fun _ _ h => Place.entry.inj h) name
      | injection selector =>
        rw [Clause.ofEntry_injections v hhome, Clause.ofEntry_injections w hhome]
        exact hdicts.forall₂_named (fun _ _ h => Place.injection.inj h) selector
      | capture home index =>
        rw [Clause.ofEntry_captures v hhome, Clause.ofEntry_captures w hhome]
        exact hdicts.forall₂_groups home index (hd.groups_getD hp hhome index)
  · have hnone : ∀ p : String × Value, RuleKey.ofSpelling p.1 ≠ slot.home →
        ((Clause.ofEntry p).filter fun clause => clause.slot? = some slot) = [] := fun p hp =>
      List.filter_eq_nil_iff.2 fun clause hclause hslot =>
        hp (Clause.home_of_mem_ofEntry hclause (of_decide_eq_true hslot))
    rw [hnone p hhome, hnone q (hpq.key ▸ hhome)]
    exact .nil

/-- Of each slot reordered dictionaries say the same things in the same
order, if the first one is unambiguous. -/
theorem forall₂_clauses (h : d.Reordered e) (hd : d.Unambiguous) (slot : Slot) :
    List.Forall₂ Clause.Reordered
      (d.clauses.filter fun clause => clause.slot? = some slot)
      (e.clauses.filter fun clause => clause.slot? = some slot) := by
  rw [Clause.filter_slot_clauses, Clause.filter_slot_clauses]
  have hentries := h.forall₂_filter (P := fun p => RuleKey.ofSpelling p.1 = slot.home)
    (fun p q hpq => by rw [hpq.key])
    (fun p hp q hq hp' hq' => hd.key_eq slot hp hq (of_decide_eq_true hp') (of_decide_eq_true hq'))
  exact List.rel_flatMap (forall₂_and_mem hentries) fun p q hpq =>
    forall₂_ofEntry hd (List.mem_of_mem_filter hpq.2.1) hpq.1 slot

/-- What is nested in the first is nested at that place in the second. -/
theorem exists_nested (h : d.Reordered e) (hd : d.Unambiguous) {place : Place} {source : Document}
    (hmem : .nested place source ∈ d.clauses) :
    ∃ source', .nested place source' ∈ e.clauses ∧ source.Reordered source' := by
  have hslot : .nested place source ∈ d.clauses.filter fun clause =>
      clause.slot? = some (.place place) :=
    List.mem_filter.2 ⟨hmem, decide_eq_true rfl⟩
  obtain ⟨clause, hclause, hsame⟩ := exists_of_forall₂_left (h.forall₂_clauses hd _) hslot
  cases hsame with
  | nested _ hsource => exact ⟨_, List.mem_of_mem_filter hclause, hsource⟩

theorem unambiguous (h : d.Reordered e) (hd : d.Unambiguous) : e.Unambiguous where
  structural := by
    intro key p' hp' q' hq' hpk hqk
    obtain ⟨p, hp, hpp⟩ := h.exists_left hp'
    obtain ⟨q, hq, hqq⟩ := h.exists_left hq'
    rw [← hpp.key, ← hqq.key]
    exact hd.structural key p hp q hq (hpp.key ▸ hpk) (hqq.key ▸ hqk)
  groups := by
    intro key p' hp' hkey entries' hentries' index f' hf' g' hg' hfi hgi
    obtain ⟨p, hp, hpp⟩ := h.exists_left hp'
    have hsame : Document.Reordered (p.2.dict?.getD []) (p'.2.dict?.getD []) :=
      getD_of_rel hpp.value.dict? reordered_nil
    rw [hentries'] at hsame
    obtain ⟨f, hf, hff⟩ := hsame.exists_left hf'
    obtain ⟨g, hg, hgg⟩ := hsame.exists_left hg'
    rw [← hff.groupOf?_eq] at hfi
    rw [← hgg.groupOf?_eq] at hgi
    rw [← hff.key, ← hgg.key]
    exact hd.groups_getD hp (hpp.key ▸ hkey) index f hf g hg hfi hgi

/-- What is reordered is as plain. -/
theorem plain (h : d.Reordered e) (hd : d.Plain) : e.Plain := by
  induction hd generalizing e with
  | @intro d unambiguous nested ih =>
    refine .intro (h.unambiguous unambiguous) fun place source' hmem hrefers => ?_
    obtain ⟨source, hsource, hsame⟩ := h.symm.exists_nested (h.unambiguous unambiguous) hmem
    exact ih place source hsource (hsame.refers_eq place ▸ hrefers) hsame.symm

/-- A document that mentions a name goes on doing so. -/
theorem names_subset (h : d.Reordered e) (hd : d.Plain) :
    (Outline.ofDocument d).names ⊆ (Outline.ofDocument e).names := by
  induction hd generalizing e with
  | @intro d unambiguous nested ih =>
    intro name hname
    rw [names_ofDocument] at hname ⊢
    obtain ⟨clause, hclause, hname⟩ := List.mem_flatMap.1 hname
    cases clause with
    | nested place source =>
      obtain ⟨source', hsource', hsame⟩ := h.exists_nested unambiguous hclause
      refine List.mem_flatMap_of_mem hsource' ?_
      rw [Clause.names, List.mem_append] at hname ⊢
      refine hname.imp_right fun hname => ?_
      cases hrefers : place.refers source with
      | true =>
        rw [if_pos hrefers] at hname
        rw [← hsame.refers_eq place, if_pos hrefers, ← hsame.targetOf_eq]
        exact hname
      | false =>
        rw [if_neg (Bool.eq_false_iff.1 hrefers)] at hname
        rw [← hsame.refers_eq place, if_neg (Bool.eq_false_iff.1 hrefers)]
        exact ih place source hclause hrefers hsame hname
    | _ => cases hname

end Document.Reordered

-- ======================================================== one of a kind

/-- A dictionary whose keys are places has one value for each. -/
theorem Clause.length_filter_named_le_one {place : String → Place} (hplace : place.Injective)
    {d : Document} (hd : Assoc.Distinct d) (name : String) :
    ((d.filterMap fun p => p.2.dict?.map (Clause.nested (place p.1))).filter
      fun clause => clause.slot? = some (.place (place name))).length ≤ 1 := by
  rw [Clause.filter_slot_named hplace]
  refine Nat.le_trans (List.length_filterMap_le _ _)
    (Assoc.length_filter_le_one hd fun p _ q _ hp hq => ?_)
  exact (of_decide_eq_true hp).trans (of_decide_eq_true hq).symm

namespace Document

variable {d : Document} {p : String × Value} {slot : Slot}

theorem WellFormed.distinct_getD (hwf : d.WellFormed) (hp : p ∈ d) :
    Assoc.Distinct (p.2.dict?.getD []) := by
  have hvalue := Value.wellFormedEntries_iff.1 hwf.2 p hp
  obtain ⟨key, value⟩ := p
  cases value with
  | dict entries => exact hvalue.1
  | _ => exact List.nodup_nil

/-- What stands under one key speaks at most once of a slot that is no
child's. -/
theorem length_slot_ofEntry_le_one (hwf : d.WellFormed) (hd : d.Unambiguous)
    (hslot : slot ≠ .place .child) (hp : p ∈ d) (hhome : RuleKey.ofSpelling p.1 = slot.home) :
    ((Clause.ofEntry p).filter fun clause => clause.slot? = some slot).length ≤ 1 := by
  have hdistinct := hwf.distinct_getD hp
  obtain ⟨key, value⟩ := p
  cases slot with
  | «attribute» home =>
    rw [Clause.ofEntry_attribute value hhome]
    refine Nat.le_trans (List.length_filter_le _ _) ?_
    cases value.string? <;> simp
  | place place =>
    cases place with
    | child => exact absurd rfl hslot
    | entry name =>
      rw [Clause.ofEntry_repository value hhome]
      exact Clause.length_filter_named_le_one (fun _ _ h => Place.entry.inj h) hdistinct name
    | injection selector =>
      rw [Clause.ofEntry_injections value hhome]
      exact Clause.length_filter_named_le_one (fun _ _ h => Place.injection.inj h) hdistinct
        selector
    | capture home index =>
      rw [Clause.ofEntry_captures value hhome, Clause.filter_slot_groups]
      refine Nat.le_trans (List.length_filterMap_le _ _)
        (Assoc.length_filter_le_one hdistinct fun e he f hf he' hf' => ?_)
      exact hd.groups_getD hp hhome index e he f hf (of_decide_eq_true he') (of_decide_eq_true hf')

/-- Of a slot that is no child's, an unambiguous dictionary speaks at most
once. -/
theorem length_slot_le_one (hwf : d.WellFormed) (hd : d.Unambiguous)
    (hslot : slot ≠ .place .child) :
    (d.clauses.filter fun clause => clause.slot? = some slot).length ≤ 1 := by
  rw [Clause.filter_slot_clauses]
  have hhome := Assoc.length_filter_le_one (P := fun p => RuleKey.ofSpelling p.1 = slot.home)
    hwf.1 fun p hp q hq hp' hq' =>
      hd.key_eq slot hp hq (of_decide_eq_true hp') (of_decide_eq_true hq')
  have hmem : ∀ p ∈ d.filter (fun p => RuleKey.ofSpelling p.1 = slot.home),
      p ∈ d ∧ RuleKey.ofSpelling p.1 = slot.home := fun p hp =>
    ⟨List.mem_of_mem_filter hp, of_decide_eq_true (List.mem_filter.1 hp).2⟩
  revert hhome hmem
  cases d.filter (fun p => RuleKey.ofSpelling p.1 = slot.home) with
  | nil => exact fun _ _ => Nat.zero_le 1
  | cons p rest =>
    intro hhome hmem
    obtain rfl : rest = [] :=
      List.length_eq_zero_iff.1 (Nat.le_zero.1 (Nat.le_of_succ_le_succ hhome))
    obtain ⟨hp, hkey⟩ := hmem p (.head _)
    simpa using length_slot_ofEntry_le_one hwf hd hslot hp hkey

end Document

end ScopeRules
