/-
A dictionary comes about in three ways: pairs are inserted one after the
other, or collected, or listed in the text of an object, with nulls anywhere
between. The three are one (`Document.built_alike`).

Each way is a fold of `put` over the pairs. What an insertion answers is
beside the fold, and a null is a member that the fold leaves out
(`Value.ofMembers_eq_foldl`). The text is taken as it was put together, so
that it can be read is no assumption (`Json.read_of_spells`).
-/
import ScopeRules.Proofs.Spelling

namespace ScopeRules

namespace Assoc

variable {κ α : Type} [DecidableEq κ]

/-- The pairs that are stored: each key where it first came, with the value
that came last. -/
theorem entries_ofPairs (pairs : List (κ × α)) :
    ((ofPairs pairs).map fun p => (p.1, some p.2))
      = (pairs.map Prod.fst).eraseDups.map fun k => (k, last? pairs k) := by
  calc ((ofPairs pairs).map fun p => (p.1, some p.2))
      = (ofPairs pairs).map fun p => (p.1, (ofPairs pairs).get? p.1) :=
        List.map_congr_left fun p hp => by rw [get?_of_mem (ofPairs_distinct pairs) hp]
    _ = (ofPairs pairs).keys.map fun k => (k, (ofPairs pairs).get? k) := by
        rw [keys, List.map_map]
        rfl
    _ = (pairs.map Prod.fst).eraseDups.map fun k => (k, last? pairs k) := by
        simp only [keys_ofPairs, get?_ofPairs]

/-- A value goes to the place that its key has, or behind all others. -/
theorem put_eq_ite {d : Assoc κ α} (hd : d.Distinct) (k : κ) (v : α) :
    d.put k v
      = if k ∈ d.keys then d.map fun p => if p.1 = k then (k, v) else p else d ++ [(k, v)] := by
  by_cases hk : k ∈ d.keys
  · rw [if_pos hk, put_of_mem hd hk]
  · rw [if_neg hk, put_of_not_mem hk]

end Assoc

/-- Members are stored as the pairs that are present of them. -/
theorem Value.ofMembers_eq_foldl (members : List (String × Json)) (stored : Assoc String Value) :
    ofMembers members stored = (present members).foldl (fun d p => d.put p.1 p.2) stored := by
  induction members generalizing stored with
  | nil => rfl
  | cons p rest ih =>
    obtain ⟨name, j⟩ := p
    rw [ofMembers]
    cases hj : ofJson j with
    | none =>
      rw [present_cons_of_none hj]
      exact ih stored
    | some v =>
      rw [present_cons_of_some hj]
      exact ih (stored.put name v)

namespace Document

-- ========================================================== insertions

/-- Inserts pairs one after the other. What comes of it is what each insertion
answers, and the document after the last. -/
def insertAll (d : Document) (pairs : List (String × Value)) : List (Option Value) × Document :=
  match pairs with
  | [] => ([], d)
  | (key, value) :: rest =>
    let (before, d) := d.insert key value
    let (answers, d) := insertAll d rest
    (before :: answers, d)

theorem insertAll_cons (d : Document) (p : String × Value) (rest : List (String × Value)) :
    d.insertAll (p :: rest)
      = (d.get? p.1 :: (insertAll (d.put p.1 p.2) rest).1,
        (insertAll (d.put p.1 p.2) rest).2) := by
  rw [insertAll, insert_eq]

theorem insertAll_append (d : Document) (pairs more : List (String × Value)) :
    d.insertAll (pairs ++ more)
      = ((d.insertAll pairs).1 ++ ((d.insertAll pairs).2.insertAll more).1,
        ((d.insertAll pairs).2.insertAll more).2) := by
  induction pairs generalizing d with
  | nil => rfl
  | cons p rest ih => rw [List.cons_append, insertAll_cons, insertAll_cons, ih, List.cons_append]

theorem length_insertAll (d : Document) (pairs : List (String × Value)) :
    (d.insertAll pairs).1.length = pairs.length := by
  induction pairs generalizing d with
  | nil => rfl
  | cons p rest ih => rw [insertAll_cons, List.length_cons, List.length_cons, ih]

/-- Insertions store their pairs. -/
theorem snd_insertAll (d : Document) (pairs : List (String × Value)) :
    (d.insertAll pairs).2 = pairs.foldl (fun d p => d.put p.1 p.2) d := by
  induction pairs generalizing d with
  | nil => rfl
  | cons p rest ih => rw [insertAll_cons, ih, List.foldl_cons]

/-- An insertion behind others answers what these made of its key. -/
theorem getElem?_insertAll (d : Document) (front rest : List (String × Value))
    (p : String × Value) :
    (d.insertAll (front ++ p :: rest)).1[front.length]?
      = some ((d.insertAll front).2.get? p.1) := by
  rw [insertAll_append, ← length_insertAll d front, List.getElem?_append_right le_rfl,
    Nat.sub_self, insertAll_cons]
  rfl

-- ====================================================== the three ways

theorem isDecoded_of_read {bytes : List UInt8} {members : List (String × Json)}
    (h : Json.read false bytes = .ok (.object members)) :
    IsDecoded bytes (Assoc.ofPairs (Value.present members)) := by
  refine isDecoded_of_decode ?_
  rw [decode, h]
  exact congrArg Except.ok (Value.ofMembers_eq_foldl members [])

/-- Pairs make one document, whether they are inserted one after the other
into an empty one, collected, or listed in a text with nulls anywhere between.
Its keys stand where they first came, each with the value that came last, and
every reading of it agrees with that. Each insertion answers what was under its
key, and changes nothing but the value under it. -/
theorem built_alike (pairs : List (String × Value)) :
    let d : Document := Assoc.ofPairs pairs
    (insertAll [] pairs).2 = d
      ∧ (∀ bytes members, (Json.Lists bytes members ∨ Json.read false bytes = .ok (.object members))
        → Value.present members = pairs → IsDecoded bytes d)
      ∧ (d.map fun p => (p.1, some p.2))
        = (pairs.map Prod.fst).eraseDups.map (fun key => (key, Assoc.last? pairs key))
      ∧ (∀ key, d.get? key = Assoc.last? pairs key
        ∧ (d.has key = true ↔ key ∈ pairs.map Prod.fst))
      ∧ d.length = (pairs.map Prod.fst).eraseDups.length
      ∧ ∀ front p rest, pairs = front ++ p :: rest →
        let before := (insertAll [] front).2
        (insertAll [] pairs).1[front.length]? = some (before.get? p.1)
          ∧ (insertAll [] (front ++ [p])).2
            = if p.1 ∈ before.keys then before.map fun q => if q.1 = p.1 then p else q
              else before ++ [p] := by
  intro d
  have hentries := Assoc.entries_ofPairs pairs
  refine ⟨snd_insertAll [] pairs, ?_, hentries, fun key => ⟨Assoc.get?_ofPairs pairs key, ?_⟩, ?_,
    ?_⟩
  · rintro bytes members hlists rfl
    exact isDecoded_of_read (hlists.elim (Json.read_of_spells · rfl) id)
  · rw [← Assoc.mem_keys_iff_has, Assoc.keys_ofPairs, List.mem_eraseDups]
  · simpa using congrArg List.length hentries
  · rintro front p rest rfl before
    have hdistinct : before.Distinct := by
      rw [show before = Assoc.ofPairs front from snd_insertAll [] front]
      exact Assoc.ofPairs_distinct front
    refine ⟨getElem?_insertAll [] front rest p, ?_⟩
    rw [insertAll_append, insertAll_cons]
    exact Assoc.put_eq_ite hdistinct p.1 p.2

/-- A text in which a null comes before a name's values, and another name
between them. One of the values is `3e23`, for which two roundings give the
number next to the nearest one. -/
theorem built_alike_reoccurring :
    -- {"a":null,"b":0,"a":3e23,"b":"a"}
    let bytes : List UInt8 := [123, 34, 97, 34, 58, 110, 117, 108, 108, 44, 34, 98, 34, 58, 48, 44,
      34, 97, 34, 58, 51, 101, 50, 51, 44, 34, 98, 34, 58, 34, 97, 34, 125]
    let x : Binary64 := ⟨0x44cfc3842bd1f071, by decide⟩
    let members := [("a", Json.null), ("b", .integer 0), ("a", .real x), ("b", .string "a")]
    let pairs : List (String × Value) := [("b", .integer 0), ("a", .real x), ("b", .string "a")]
    let d : Document := [("b", .string "a"), ("a", .real x)]
    Json.Lists bytes members
      ∧ Value.present members = pairs
      ∧ IsDecoded bytes d
      ∧ insertAll [] pairs = ([none, none, some (.integer 0)], d) := by
  intro bytes x members pairs d
  have hquoted : ∀ {letter : UInt8} {name : String}, letter ≠ 34 → letter ≠ 92 → ¬ letter < 32
      → Text.bytes name = [letter] → Json.Quoted [34, letter, 34] name := by
    intro letter name hquote hslash hcontrol hname
    have hletters : Json.Letters [letter] (Text.bytes name) := by
      rw [hname]
      exact .cons (.plain hquote hslash hcontrol) .nil
    exact .intro hletters
  have ha : Json.Quoted [34, 97, 34] "a" := hquoted (by decide) (by decide) (by decide) rfl
  have hb : Json.Quoted [34, 98, 34] "b" := hquoted (by decide) (by decide) (by decide) rfl
  have hmember : ∀ {quoted text : List UInt8} {name : String} {j : Json},
      Json.Quoted quoted name → Json.Scalar text j
      → Json.Member (Json.Spells 126) (quoted ++ 58 :: text) (name, j) :=
    fun hquoted h => .intro (.bare hquoted) (.bare (.scalar h))
  have hlists : Json.Lists bytes members := by
    have hzero : Json.Scalar [48] (.integer 0) := .number (.zero false) rfl
    have hreal : Json.Scalar [51, 101, 50, 51] (.real x) := by
      have hcut : Json.Cut 0 [51] [] := ⟨by decide, nofun⟩
      have hthree : Json.Number [51] ⟨false, 3, 0, false, false, 0, .whole⟩ :=
        .whole false ⟨by decide, by simp [Json.IsDigit]⟩ (by decide) hcut
      have hnumber : Json.Number [51, 101, 50, 51] ⟨false, 3, 0, false, false, 23, .exponent⟩ :=
        hthree.exponent (by decide) (.inr rfl) (.inl rfl) ⟨by decide, by simp [Json.IsDigit]⟩
      have hdecimal : Binary64.ofDecimal false 3 (0 + (23 : Nat)) = some x := by decide +kernel
      refine .number hnumber ?_
      simp only [Json.Numeral.value?, Bool.false_eq_true, if_false, hdecimal, Option.map_some]
    have hobject := Json.Nested.members (.more (hmember ha .null) (.more (hmember hb hzero)
      (.more (hmember ha hreal) (.one (hmember hb (.string ha))))))
    exact .bare hobject
  obtain ⟨-, hdecoded, -⟩ := built_alike pairs
  exact ⟨hlists, rfl, hdecoded bytes members (.inl hlists) rfl, rfl⟩

end Document

end ScopeRules
