/-
Sameness of documents is an equivalence. As it is computed it does not look
like one: there are as many entries on both sides, and each entry on the left
has its like on the right, in dictionaries in arrays in dictionaries again.
Nobody looks for an entry of the right side on the left.

# Normal forms

What the comparison finds out is whether two documents have one normal form,
in which the keys of each dictionary stand in their order
(`Value.same_iff_normal`). An equation of normal forms goes both ways and can
be chained. It rests on keys that come once: then as many entries on both
sides and a like for each on the left leave nothing over on the right
(`Document.same_iff_rel`).

# What can be built

No document that is decoded, or built by storing values in it, has a key
twice, at any depth (`Value.Built.wellFormed`). A real in it is a number
(`Binary64.isNumber`), and the two zeros have one normal form.
-/
import Mathlib.Data.String.Basic
import ScopeRules.Document.Decode
import ScopeRules.Proofs.Dictionaries
import ScopeRules.Proofs.Readings

namespace ScopeRules

-- ================================================== keys that come once

namespace Document

theorem wellFormed_nil : WellFormed [] := ⟨List.nodup_nil, trivial⟩

theorem WellFormed.put {d : Document} (hd : d.WellFormed) (key : String) {v : Value}
    (hv : v.WellFormed) : WellFormed (Assoc.put d key v) := by
  refine ⟨Assoc.put_distinct hd.1 key v, Value.wellFormedEntries_iff.2 fun p hp => ?_⟩
  rcases Assoc.mem_of_mem_put hp with rfl | hp
  · exact hv
  · exact Value.wellFormedEntries_iff.1 hd.2 p hp

theorem wellFormed_ofPairs {pairs : List (String × Value)} (h : ∀ p ∈ pairs, p.2.WellFormed) :
    WellFormed (Assoc.ofPairs pairs) := by
  have key : ∀ d : Document, d.WellFormed →
      WellFormed (pairs.foldl (fun d p => Assoc.put d p.1 p.2) d) := by
    induction pairs with
    | nil => exact fun _ hd => hd
    | cons p rest ih =>
      obtain ⟨hp, hrest⟩ := List.forall_mem_cons.1 h
      exact fun d hd => ih hrest _ (hd.put p.1 hp)
  exact key [] wellFormed_nil

end Document

namespace Value

mutual

/-- A JSON value may name a member twice; what becomes of it does not. -/
theorem wellFormed_of_ofJson : ∀ (j : Json) {v : Value}, ofJson j = some v → v.WellFormed
  | .array items, _, h => by
    rw [ofJson] at h
    cases h
    exact wellFormedItems_ofItems items
  | .object members, _, h => by
    rw [ofJson] at h
    cases h
    exact wellFormed_ofMembers members Document.wellFormed_nil
  | .null, _, h => by cases h
  | .bool _, _, h => by cases h; trivial
  | .integer _, _, h => by cases h; trivial
  | .real _, _, h => by cases h; trivial
  | .string _, _, h => by cases h; trivial

theorem wellFormedItems_ofItems : ∀ items : List Json, WellFormedItems (ofItems items)
  | [] => trivial
  | j :: rest => by
    rw [ofItems]
    cases hj : ofJson j with
    | none => exact wellFormedItems_ofItems rest
    | some v => exact ⟨wellFormed_of_ofJson j hj, wellFormedItems_ofItems rest⟩

theorem wellFormed_ofMembers : ∀ (members : List (String × Json)) {stored : Document},
    stored.WellFormed → Document.WellFormed (ofMembers members stored)
  | [], _, hstored => hstored
  | (name, j) :: rest, stored, hstored => by
    rw [ofMembers]
    cases hj : ofJson j with
    | none => exact wellFormed_ofMembers rest hstored
    | some v => exact wellFormed_ofMembers rest (hstored.put name (wellFormed_of_ofJson j hj))

end

/-- Whether a value was decoded or put together: from simple values, as an
array, by storing values in a dictionary one after the other, or as a part of
what was built before. -/
inductive Built : Value → Prop where
  | string (text : String) : Built (.string text)
  | integer (value : Int) : Built (.integer value)
  | real (value : Binary64) : Built (.real value)
  | bool (value : Bool) : Built (.bool value)
  | array {items : List Value} (h : ∀ v ∈ items, Built v) : Built (.array items)
  | decoded {j : Json} {d : Document} (h : Document.ofJson j = .ok d) : Built (.dict d)
  | empty : Built (.dict [])
  | insert {d : Document} (hd : Built (.dict d)) (key : String) {v : Value} (hv : Built v) :
    Built (.dict (Assoc.put d key v))
  | collect {pairs : List (String × Value)} (h : ∀ p ∈ pairs, Built p.2) :
    Built (.dict (Assoc.ofPairs pairs))
  | part {v w : Value} (hv : Built v) (hw : w ∈ v.parts) : Built w

end Value

namespace Document

/-- Whether a document was decoded or put together. -/
def Built (d : Document) : Prop := Value.Built (.dict d)

theorem wellFormed_of_ofJson {j : Json} {d : Document} (h : ofJson j = .ok d) :
    d.WellFormed := by
  unfold ofJson at h
  cases hj : Value.ofJson j with
  | none =>
    rw [hj] at h
    cases h
  | some v =>
    have hv := Value.wellFormed_of_ofJson j hj
    simp only [hj, ofValue] at h
    cases v with
    | dict entries =>
      cases h
      exact hv
    | _ => cases h

theorem built_of_decode {bytes : List UInt8} {d : Document} (h : decode bytes = .ok d) :
    d.Built := by
  unfold decode at h
  split at h
  · exact .decoded h
  · cases h

theorem built_of_decodeValue {bytes : List UInt8} {d : Document} (h : decodeValue bytes = .ok d) :
    d.Built := by
  unfold decodeValue at h
  split at h
  · exact .decoded h
  · cases h

end Document

/-- Nothing that can be built has a key twice. -/
theorem Value.Built.wellFormed {v : Value} (h : v.Built) : v.WellFormed := by
  induction h with
  | string | integer | real | bool => trivial
  | array _ ih => exact wellFormedItems_iff.2 ih
  | decoded h => exact Document.wellFormed_of_ofJson h
  | empty => exact Document.wellFormed_nil
  | insert _ key _ ihd ihv => exact Document.WellFormed.put ihd key ihv
  | collect _ ih => exact Document.wellFormed_ofPairs ih
  | part _ hw ih => exact ih.parts hw

-- ========================================================= normal forms

namespace Binary64

/-- The number with the bits that stand for it; of the two zeros, the one
without a sign. -/
def normal (x : Binary64) : Binary64 := if x.isZero then ofMagnitude false 0 (Nat.zero_le _) else x

theorem eq_of_bits_eq {x y : Binary64} (h : x.bits = y.bits) : x = y := by
  cases x
  cases y
  cases h
  rfl

theorem same_iff_normal {x y : Binary64} : x.same y = true ↔ x.normal = y.normal := by
  have hzero : (ofMagnitude false 0 (Nat.zero_le _)).isZero = true := by decide
  have hsame : x.same y = true ↔ x = y ∨ (x.isZero = true ∧ y.isZero = true) := by
    rw [same, decide_eq_true_eq]
    exact or_congr_left ⟨eq_of_bits_eq, congrArg bits⟩
  rw [hsame]
  unfold normal
  by_cases hx : x.isZero = true <;> by_cases hy : y.isZero = true
  · simp [hx, hy]
  · rw [if_pos hx, if_neg hy]
    refine ⟨fun h => ?_, fun h => absurd (h ▸ hzero) hy⟩
    rcases h with rfl | ⟨-, h⟩
    · exact absurd hx hy
    · exact absurd h hy
  · rw [if_neg hx, if_pos hy]
    refine ⟨fun h => ?_, fun h => absurd (h ▸ hzero) hx⟩
    rcases h with rfl | ⟨h, -⟩
    · exact absurd hy hx
    · exact absurd h hx
  · simp [hx, hy]

end Binary64

namespace Value

/-- The order of the keys of a dictionary. -/
def keyBefore (a b : String) : Bool := a < b

mutual

/-- The value with the keys of every dictionary in it in their order. -/
def normal : Value → Value
  | .array items => .array (normalItems items)
  | .dict entries => .dict (Assoc.sorted keyBefore (normalEntries entries))
  | .real x => .real x.normal
  | .string s => .string s
  | .integer n => .integer n
  | .bool b => .bool b

def normalItems : List Value → List Value
  | [] => []
  | v :: rest => v.normal :: normalItems rest

def normalEntries : List (String × Value) → List (String × Value)
  | [] => []
  | (key, v) :: rest => (key, v.normal) :: normalEntries rest

end

theorem normalItems_eq_map (vs : List Value) : normalItems vs = vs.map normal := by
  induction vs with
  | nil => rfl
  | cons v rest ih => rw [normalItems, ih, List.map_cons]

theorem normalEntries_eq_map (es : List (String × Value)) :
    normalEntries es = es.map fun p => (p.1, p.2.normal) := by
  induction es with
  | nil => rfl
  | cons p rest ih =>
    obtain ⟨key, v⟩ := p
    rw [normalEntries, ih, List.map_cons]

end Value

namespace Document

/-- The document with its keys in their order, at every depth. -/
def normal (d : Document) : Value := Value.normal (.dict d)

/-- Sameness key by key. On the left each entry has its like on the right;
that the right has no more keys is a matter of counting. -/
theorem same_iff_rel {d e : Document} (hd : d.WellFormed) (he : e.WellFormed) :
    d.same e = true
      ↔ ∀ key, Option.Rel (fun v w : Value => v.same w = true) (Assoc.get? d key)
          (Assoc.get? e key) := by
  constructor
  · intro h key
    have hre : d.Reordered e := ⟨hd, he, h⟩
    exact imp_of_rel (hre.get? key) fun _ _ hvw => hvw.same
  · intro h
    have hperm : (Assoc.keys d).Perm (Assoc.keys e) := by
      refine (List.perm_ext_iff_of_nodup hd.1 he.1).2 fun key => ?_
      rw [Assoc.mem_keys_iff_has, Assoc.mem_keys_iff_has, Assoc.has, Assoc.has,
        isSome_eq_of_rel (h key)]
    have hlength : d.length = e.length := by simpa [Assoc.keys] using hperm.length_eq
    unfold same
    rw [Value.same, decide_eq_true_eq]
    refine ⟨hlength, Value.sameEntries_iff.2 fun p hp => ?_⟩
    have hrel := h p.1
    rw [Assoc.get?_of_mem hd.1 hp] at hrel
    rcases cases_of_rel hrel with ⟨hnone, -⟩ | ⟨v, w, hv, hw, hvw⟩
    · cases hnone
    · cases hv
      exact ⟨w, hw, hvw⟩

end Document

namespace Value

theorem keyBefore_strictOrder : Assoc.StrictOrder keyBefore :=
  Assoc.strictOrder_of_lt fun _ _ => decide_eq_true_iff

/-- Dictionaries have one normal form if and only if what stands under each
key has. -/
theorem normal_dict_eq_iff {d e : Document} (hd : Assoc.Distinct d) (he : Assoc.Distinct e) :
    normal (.dict d) = normal (.dict e)
      ↔ ∀ key, (Assoc.get? d key).map normal = (Assoc.get? e key).map normal := by
  have hkeys : ∀ f : Document, Assoc.keys (normalEntries f) = Assoc.keys f := by
    intro f
    rw [normalEntries_eq_map]
    simp [Assoc.keys]
  have hget : ∀ (f : Document) key,
      Assoc.get? (normalEntries f) key = (Assoc.get? f key).map normal := by
    intro f key
    rw [normalEntries_eq_map]
    exact Assoc.get?_map (fun p : String × Value => p.2.normal) f key
  rw [normal, normal, dict.injEq,
    Assoc.sorted_eq_sorted_iff keyBefore_strictOrder (by rwa [Assoc.Distinct, hkeys])
      (by rwa [Assoc.Distinct, hkeys])]
  refine forall_congr' fun key => ?_
  rw [hget, hget]

/-- Values are the same if and only if they have one normal form. The
induction is on the size of the first. -/
theorem same_iff_normal {v w : Value} (hv : v.WellFormed) (hw : w.WellFormed) :
    v.same w = true ↔ v.normal = w.normal := by
  induction hsize : sizeOf v using Nat.strongRecOn generalizing v w with
  | ind n ih =>
    have hpart : ∀ a ∈ v.parts, ∀ b ∈ w.parts, (a.same b = true ↔ a.normal = b.normal) := by
      intro a ha b hb
      exact ih _ (hsize ▸ sizeOf_lt_of_mem_parts ha) (hv.parts ha) (hw.parts hb) rfl
    cases v with
    | array vs =>
      cases w with
      | array ws =>
        rw [same, sameItems_iff, normal, normal, array.injEq, normalItems_eq_map,
          normalItems_eq_map, ← List.forall₂_eq_eq_eq, List.forall₂_map_left_iff,
          List.forall₂_map_right_iff]
        constructor
        · exact fun h => (forall₂_and_mem h).imp fun a b hab =>
            (hpart a hab.2.1 b hab.2.2).1 hab.1
        · exact fun h => (forall₂_and_mem h).imp fun a b hab =>
            (hpart a hab.2.1 b hab.2.2).2 hab.1
      | _ => simp [same, normal]
    | dict d =>
      cases w with
      | dict e =>
        have hd : Document.WellFormed d := hv
        have he : Document.WellFormed e := hw
        have hvalue : ∀ {key a b}, Assoc.get? d key = some a → Assoc.get? e key = some b →
            (a.same b = true ↔ a.normal = b.normal) := by
          intro key a b ha hb
          exact hpart a (List.mem_map_of_mem (Assoc.mem_of_get?_eq_some ha)) b
            (List.mem_map_of_mem (Assoc.mem_of_get?_eq_some hb))
        rw [normal_dict_eq_iff hd.1 he.1, ← Document.same, Document.same_iff_rel hd he]
        refine forall_congr' fun key => ?_
        cases ha : Assoc.get? d key <;> cases hb : Assoc.get? e key
        · simp
        · simp
        · simp
        · simpa using hvalue ha hb
      | _ => simp [same, normal]
    | real x =>
      cases w with
      | real y => rw [same, normal, normal, real.injEq, Binary64.same_iff_normal]
      | _ => simp [same, normal]
    | string s => cases w <;> simp [same, normal]
    | integer n => cases w <;> simp [same, normal]
    | bool b => cases w <;> simp [same, normal]

end Value

-- ======================================================= the equivalence

namespace Document

/-- Documents are the same if and only if they have the same keys, and the
same values under them. -/
theorem same_iff_keys {d e : Document} (hd : d.WellFormed) (he : e.WellFormed) :
    d.same e = true
      ↔ (∀ key, key ∈ Assoc.keys d ↔ key ∈ Assoc.keys e)
        ∧ ∀ key v w, Assoc.get? d key = some v → Assoc.get? e key = some w → v.same w = true := by
  rw [same_iff_rel hd he, ← forall_and]
  refine forall_congr' fun key => ?_
  rw [Assoc.mem_keys_iff_has, Assoc.mem_keys_iff_has, Assoc.has, Assoc.has]
  cases Assoc.get? d key <;> cases Assoc.get? e key <;> simp

/-- Storing the same under one key keeps documents the same. -/
theorem same_put {d e : Document} (hd : d.WellFormed) (he : e.WellFormed) {v w : Value}
    (hv : v.WellFormed) (hw : w.WellFormed) (hsame : d.same e = true) (hvw : v.same w = true)
    (key : String) : same (Assoc.put d key v) (Assoc.put e key w) = true := by
  refine (same_iff_rel (hd.put key hv) (he.put key hw)).2 fun other => ?_
  rw [Assoc.get?_put, Assoc.get?_put]
  by_cases hkey : key = other
  · rw [if_pos hkey, if_pos hkey]
    exact .some hvw
  · rw [if_neg hkey, if_neg hkey]
    exact (same_iff_rel hd he).1 hsame other

/-- Sameness of the documents that can be built is an equivalence. They are
the same if and only if they have the same keys with the same values, and so
if and only if they are one once the keys of every dictionary are sorted.
Storing a value under a key keeps them the same. Arrays are compared place by
place, and an integer is never a real. -/
theorem same_equivalence {d e f : Document} (hd : d.Built) (he : e.Built) (hf : f.Built) :
    d.same d = true
    ∧ (d.same e = true → e.same d = true)
    ∧ (d.same e = true → e.same f = true → d.same f = true)
    ∧ (d.same e = true
        ↔ (∀ key, key ∈ Assoc.keys d ↔ key ∈ Assoc.keys e)
          ∧ ∀ key v w, Assoc.get? d key = some v → Assoc.get? e key = some w → v.same w = true)
    ∧ (d.same e = true ↔ d.normal = e.normal)
    ∧ (∀ key v, v.Built → d.same e = true →
        same (Assoc.put d key v) (Assoc.put e key v) = true)
    ∧ (∀ vs ws, (Value.array vs).same (.array ws) = true
        ↔ List.Forall₂ (fun v w => v.same w = true) vs ws)
    ∧ ∀ n x, (Value.integer n).same (.real x) = false ∧ (Value.real x).same (.integer n) = false := by
  have hnormal : ∀ {g h : Document}, g.Built → h.Built → (g.same h = true ↔ g.normal = h.normal) :=
    fun hg hh => Value.same_iff_normal hg.wellFormed hh.wellFormed
  refine ⟨(hnormal hd hd).2 rfl, ?symm, ?trans, same_iff_keys hd.wellFormed he.wellFormed,
    hnormal hd he, ?put, fun vs ws => ?items, fun n x => ?kinds⟩
  case symm =>
    intro hde
    exact (hnormal he hd).2 ((hnormal hd he).1 hde).symm
  case trans =>
    intro hde hef
    exact (hnormal hd hf).2 (((hnormal hd he).1 hde).trans ((hnormal he hf).1 hef))
  case put =>
    intro key v hv hde
    have hself : v.same v = true := (Value.same_iff_normal hv.wellFormed hv.wellFormed).2 rfl
    exact same_put hd.wellFormed he.wellFormed hv.wellFormed hv.wellFormed hde hself key
  case items =>
    rw [Value.same, Value.sameItems_iff]
  case kinds =>
    simp [Value.same]

-- --- {"a":{"x":1,"y":[0.0]}} and {"a":{"y":[-0.0],"x":1}}

/-- Two texts, read in either way, with keys in another order and a zero of the
other sign, and a document put together by hand. -/
theorem same_equivalence_zeros :
    let zero : Bool → Value := fun negative =>
      .real (Binary64.ofMagnitude negative 0 (Nat.zero_le _))
    let d : Document := [("a", .dict [("x", .integer 1), ("y", .array [zero false])])]
    let e : Document := [("a", .dict [("y", .array [zero true]), ("x", .integer 1)])]
    let inner : Document := Assoc.ofPairs [("y", .array [zero false]), ("x", .integer 1)]
    let f : Document := Assoc.put [] "a" (.dict inner)
    decode [123, 34, 97, 34, 58, 123, 34, 120, 34, 58, 49, 44, 34, 121, 34, 58, 91, 48, 46, 48, 93,
      125, 125] = .ok d
    ∧ decodeValue [123, 34, 97, 34, 58, 123, 34, 121, 34, 58, 91, 45, 48, 46, 48, 93, 44, 34, 120,
      34, 58, 49, 125, 125] = .ok e
    ∧ d.Built ∧ e.Built ∧ f.Built ∧ d.same e = true ∧ e.same f = true
    ∧ e.same d = true ∧ d.same f = true ∧ d.normal = e.normal
    ∧ same (Assoc.put d "b" (.bool true)) (Assoc.put e "b" (.bool true)) = true := by
  intro zero d e inner f
  have hdecode : decode [123, 34, 97, 34, 58, 123, 34, 120, 34, 58, 49, 44, 34, 121, 34, 58, 91, 48,
    46, 48, 93, 125, 125] = .ok d := rfl
  have hdecode' : decodeValue [123, 34, 97, 34, 58, 123, 34, 121, 34, 58, 91, 45, 48, 46, 48, 93, 44,
    34, 120, 34, 58, 49, 125, 125] = .ok e := rfl
  have hd : d.Built := built_of_decode hdecode
  have he : e.Built := built_of_decodeValue hdecode'
  have hf : f.Built := by
    refine .insert .empty "a" (.collect ?_)
    simp only [List.forall_mem_cons, List.not_mem_nil, false_imp_iff, implies_true, and_true]
    exact ⟨.array (by simpa using .real _), .integer 1⟩
  have hde : d.same e = true := rfl
  have hef : e.same f = true := rfl
  obtain ⟨-, hsymm, htrans, -, hnormal, hput, -⟩ := same_equivalence hd he hf
  exact ⟨hdecode, hdecode', hd, he, hf, hde, hef, hsymm hde, htrans hde hef, hnormal.1 hde,
    hput "b" _ (.bool true) hde⟩

end Document

end ScopeRules
