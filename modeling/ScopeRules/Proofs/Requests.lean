/-
Whether ids are ever given out twice. Requests of any kind and in any number
are put to one allocator, and its answers are collected, each with the number
of the session in which it was given (`responses`).

# The exact condition

`responses_apart_iff`: different names, and names of different sessions, are
answered with different ids if and only if there are no more of them than
there are ids. The counter is not started again, it stops: from then on new
names are all answered with the largest id.

# How a run is followed

`Allotted.responses`: along a run the list of allocations only grows. What it
gains is what was requested and was not in it, and every answer is the id of
a place of it. So the requests are all that matters: after the run the list
is made of what was requested, and the ids are those of its places
(`exists_places`). The first places have ids of their own (`idAt_value`), and
the rest have the largest id (`exists_alias`).
-/
import Mathlib.Data.List.Dedup
import ScopeRules.Proofs.IssuedIds

namespace ScopeRules

namespace RuleIds

-- ============================================================= requests

/-- What can be asked of an allocator. -/
inductive Request where
  | idFor (name : String)
  | get (name : String)
  | compact
  deriving DecidableEq, Repr, Inhabited

/-- An id that an allocator answered, in which session and for which name. -/
structure Response where
  session : Nat
  name : String
  id : RuleId
  deriving DecidableEq, Repr, Inhabited

/-- The ids that requests are answered with, in order. -/
def responses : RuleIds → Nat → List Request → List Response
  | _, _, [] => []
  | ids, session, .idFor name :: rest =>
    ⟨session, name, (ids.idFor name).1⟩ :: responses (ids.idFor name).2 session rest
  | ids, session, .get name :: rest =>
    ((ids.get? name).map fun id => ⟨session, name, id⟩).toList ++ responses ids session rest
  | ids, session, .compact :: rest => responses ids.compact (session + 1) rest

/-- The names for which there has to be an id, each with its session. -/
def requested : Nat → List Request → List (Nat × String)
  | _, [] => []
  | session, .idFor name :: rest => (session, name) :: requested session rest
  | session, .get _ :: rest => requested session rest
  | session, .compact :: rest => requested (session + 1) rest

variable {ids : RuleIds} {session : Nat} {past : List (Nat × String)}

-- ================================================================= runs

/-- What is requested is answered. -/
theorem exists_response_of_mem_requested (ids : RuleIds) {requests : List Request}
    {p : Nat × String} (h : p ∈ requested session requests) :
    ∃ a ∈ responses ids session requests, (a.session, a.name) = p := by
  induction requests generalizing ids session with
  | nil => cases h
  | cons request rest ih =>
    cases request with
    | idFor name =>
      rcases List.mem_cons.1 h with rfl | h
      · exact ⟨_, List.mem_cons_self, rfl⟩
      · obtain ⟨a, ha, hap⟩ := ih (ids.idFor name).2 h
        exact ⟨a, .tail _ ha, hap⟩
    | get name =>
      obtain ⟨a, ha, hap⟩ := ih ids h
      exact ⟨a, List.mem_append_right _ ha, hap⟩
    | compact =>
      obtain ⟨a, ha, hap⟩ := ih ids.compact h
      exact ⟨a, ha, hap⟩

/-- A run adds to the allocations what it requests, and answers from them. -/
theorem Allotted.responses (h : Allotted ids session past) (requests : List Request) :
    ∃ new, (past ++ new).Nodup
      ∧ (∀ p, p ∈ past ++ new ↔ p ∈ past ∨ p ∈ requested session requests)
      ∧ ∀ a ∈ RuleIds.responses ids session requests,
        ∃ k : Nat, (past ++ new)[k]? = some (a.session, a.name) ∧ a.id = idAt k := by
  induction requests generalizing ids session past with
  | nil =>
    refine ⟨[], by rw [List.append_nil]; exact h.distinct, by simp [requested], ?_⟩
    intro a ha
    cases ha
  | cons request rest ih =>
    cases request with
    | idFor name =>
      obtain ⟨new, hnext, hnew, k, hk, hid⟩ := h.idFor name
      obtain ⟨more, hnodup, hmem, hplaces⟩ := ih hnext
      rw [List.append_assoc] at hnodup hmem hplaces
      refine ⟨new ++ more, hnodup, fun p => ?_, fun a ha => ?_⟩
      · rw [hmem, hnew, requested, List.mem_cons, or_assoc]
      · rcases List.mem_cons.1 ha with rfl | ha
        · obtain ⟨hlt, -⟩ := List.getElem?_eq_some_iff.1 hk
          refine ⟨k, ?_, hid⟩
          rw [← List.append_assoc, List.getElem?_append_left hlt]
          exact hk
        · exact hplaces a ha
    | get name =>
      obtain ⟨new, hnodup, hmem, hplaces⟩ := ih h
      refine ⟨new, hnodup, hmem, fun a ha => ?_⟩
      rcases List.mem_append.1 ha with ha | ha
      · obtain ⟨id, hid, rfl⟩ := Option.map_eq_some_iff.1 (Option.mem_toList.1 ha)
        obtain ⟨k, hk, hplace⟩ := (h.answers name id).1 hid
        obtain ⟨hlt, -⟩ := List.getElem?_eq_some_iff.1 hk
        exact ⟨k, (List.getElem?_append_left hlt).trans hk, hplace⟩
      · exact hplaces a ha
    | compact => exact ih h.compact

/-- What was requested can be put in one list, each once, so that every answer
is the id of its place, and every place is answered with its id. -/
theorem exists_places (requests : List Request) :
    ∃ places : List (Nat × String), places.Nodup
      ∧ places.length = (requested 0 requests).dedup.length
      ∧ (∀ a ∈ responses .empty 0 requests,
        ∃ k : Nat, places[k]? = some (a.session, a.name) ∧ a.id = idAt k)
      ∧ ∀ (k : Nat) (p : Nat × String), places[k]? = some p →
        ∃ a ∈ responses .empty 0 requests, (a.session, a.name) = p ∧ a.id = idAt k := by
  obtain ⟨places, hnodup, hmem, hplaces⟩ := allotted_empty.responses requests
  rw [List.nil_append] at hnodup hmem hplaces
  have hrequested : ∀ p, p ∈ places ↔ p ∈ requested 0 requests := by
    intro p
    rw [hmem]
    simp
  have hperm : places.Perm (requested 0 requests).dedup := by
    refine (List.perm_ext_iff_of_nodup hnodup (List.nodup_dedup _)).2 fun p => ?_
    rw [hrequested, List.mem_dedup]
  refine ⟨places, hnodup, hperm.length_eq, hplaces, fun k p hk => ?_⟩
  obtain ⟨a, ha, rfl⟩ := exists_response_of_mem_requested .empty
    ((hrequested p).1 (List.mem_of_getElem? hk))
  obtain ⟨j, hj, hid⟩ := hplaces a ha
  obtain ⟨hlt, -⟩ := List.getElem?_eq_some_iff.1 hk
  obtain rfl : k = j := (List.getElem?_inj hlt hnodup).1 (hk.trans hj.symm)
  exact ⟨a, ha, rfl, hid⟩

/-- More names than ids are not told apart: two of the answers are the
largest id, for different names or in different sessions. -/
theorem exists_alias {requests : List Request}
    (h : RuleId.largest < (requested 0 requests).dedup.length) :
    ∃ a ∈ responses .empty 0 requests, ∃ b ∈ responses .empty 0 requests,
      (a.session ≠ b.session ∨ a.name ≠ b.name) ∧ a.id = ⟨RuleId.largest⟩ ∧ b.id = a.id := by
  obtain ⟨places, hnodup, hlength, -, hanswered⟩ := exists_places requests
  rw [← hlength] at h
  have hbefore : RuleId.largest - 1 < places.length := Nat.lt_of_le_of_lt (Nat.sub_le ..) h
  -- the place of the last id that is new, and the one after it
  obtain ⟨a, ha, haplace, haid⟩ := hanswered _ _ (List.getElem?_eq_getElem hbefore)
  obtain ⟨b, hb, hbplace, hbid⟩ := hanswered _ _ (List.getElem?_eq_getElem h)
  have hastopped : idAt (RuleId.largest - 1) = ⟨RuleId.largest⟩ := rfl
  have hbstopped : idAt RuleId.largest = ⟨RuleId.largest⟩ := rfl
  refine ⟨a, ha, b, hb, ?_, haid.trans hastopped, ?_⟩
  · by_contra hsame
    rw [not_or, not_not, not_not] at hsame
    have heq : places[RuleId.largest - 1] = places[RuleId.largest] := by
      rw [← haplace, ← hbplace, hsame.1, hsame.2]
    exact absurd (hnodup.getElem_inj_iff.1 heq) (by decide)
  · rw [haid, hbid, hastopped, hbstopped]

/-- Whatever is asked of an allocator, in whatever number: the ids for
different names, and those of different sessions, are all different if and
only if there are no more names in sessions, counted once each, than ids. -/
theorem responses_apart_iff (requests : List Request) :
    (∀ a ∈ responses .empty 0 requests, ∀ b ∈ responses .empty 0 requests,
        a.session ≠ b.session ∨ a.name ≠ b.name → a.id ≠ b.id)
      ↔ (requested 0 requests).dedup.length ≤ RuleId.largest := by
  constructor
  · intro happart
    by_contra hmany
    obtain ⟨a, ha, b, hb, hdiffer, -, hid⟩ := exists_alias (Nat.lt_of_not_le hmany)
    exact happart a ha b hb hdiffer hid.symm
  · intro hroom a ha b hb hdiffer hid
    obtain ⟨places, -, hlength, hplaces, -⟩ := exists_places requests
    obtain ⟨i, hi, hai⟩ := hplaces a ha
    obtain ⟨j, hj, hbj⟩ := hplaces b hb
    obtain ⟨hilt, -⟩ := List.getElem?_eq_some_iff.1 hi
    obtain ⟨hjlt, -⟩ := List.getElem?_eq_some_iff.1 hj
    have hvalue : (idAt i).value = (idAt j).value := by rw [← hai, ← hbj, hid]
    rw [idAt_value (by omega), idAt_value (by omega)] at hvalue
    obtain rfl : i = j := by omega
    obtain ⟨hsession, hname⟩ := Prod.mk.inj (Option.some.inj (hi.symm.trans hj))
    rcases hdiffer with h | h
    · exact h hsession
    · exact h hname

-- --- one name more than there are ids

/-- Requests for so many names, which are numbers. -/
def counting (n : Nat) : List Request := ((List.range n).map Nat.repr).map .idFor

theorem requested_map_idFor (session : Nat) (names : List String) :
    requested session (names.map .idFor) = names.map fun name => (session, name) := by
  induction names with
  | nil => rfl
  | cons name rest ih => rw [List.map_cons, requested, ih, List.map_cons]

theorem session_of_mem_responses {names : List String} {a : Response}
    (h : a ∈ responses ids session (names.map .idFor)) : a.session = session := by
  induction names generalizing ids with
  | nil => cases h
  | cons name rest ih =>
    rcases List.mem_cons.1 h with rfl | h
    · rfl
    · exact ih h

/-- What a request for a name is answered with is the name's id afterwards. -/
theorem get?_allocateAll_of_mem_responses {names : List String} {a : Response}
    (h : a ∈ responses ids session (names.map .idFor)) :
    a.name ∈ names ∧ (ids.allocateAll names).get? a.name = some a.id := by
  induction names generalizing ids with
  | nil => cases h
  | cons name rest ih =>
    rcases List.mem_cons.1 h with rfl | h
    · refine ⟨List.mem_cons_self, get?_allocateAll_of_some rest ?_⟩
      rw [get?_idFor, if_pos rfl]
    · obtain ⟨hname, hid⟩ := ih h
      exact ⟨.tail _ hname, hid⟩

theorem repr_injective {j k : Nat} (h : j.repr = k.repr) : j = k := by
  have hdigits := congrArg (fun s : String => Nat.ofDigitChars 10 s.toList 0) h
  simpa only [Nat.repr_eq_ofList_toDigits, String.toList_ofList, Nat.ofDigitChars_ten_toDigits]
    using hdigits

theorem nodup_map_repr (n : Nat) : ((List.range n).map Nat.repr).Nodup :=
  List.nodup_range.map fun _ _ => repr_injective

theorem length_dedup_requested_counting (n : Nat) :
    (requested 0 (counting n)).dedup.length = n := by
  rw [counting, requested_map_idFor, ((nodup_map_repr n).map fun _ _ h => (Prod.mk.inj h).2).dedup]
  simp

/-- Of more names than there are ids, requested in one session, two are answered
with one id. -/
theorem exists_alias_counting {n : Nat} (h : RuleId.largest < n) :
    ∃ a ∈ responses .empty 0 (counting n), ∃ b ∈ responses .empty 0 (counting n),
      a.session = b.session ∧ a.name ≠ b.name ∧ a.id = b.id := by
  have hmany : RuleId.largest < (requested 0 (counting n)).dedup.length := by
    rw [length_dedup_requested_counting]
    exact h
  obtain ⟨a, ha, b, hb, hdiffer, -, hid⟩ := exists_alias hmany
  have hsame : a.session = b.session :=
    (session_of_mem_responses ha).trans (session_of_mem_responses hb).symm
  exact ⟨a, ha, b, hb, hsame, hdiffer.resolve_left (not_not.2 hsame), hid.symm⟩

/-- One name more than there are ids, requested in one session: two of them
are answered with one id. -/
theorem responses_alias :
    ∃ a ∈ responses .empty 0 (counting (RuleId.largest + 1)),
    ∃ b ∈ responses .empty 0 (counting (RuleId.largest + 1)),
      a.session = b.session ∧ a.name ≠ b.name ∧ a.id = b.id :=
  exists_alias_counting (Nat.lt_succ_self _)

/-- Such names have one id after all of them were requested. -/
theorem exists_get?_eq {n : Nat} (h : RuleId.largest < n) :
    let names := (List.range n).map Nat.repr
    ∃ a ∈ names, ∃ b ∈ names, a ≠ b ∧ ∃ id, (allocateAll .empty names).get? a = some id
      ∧ (allocateAll .empty names).get? b = some id := by
  intro names
  obtain ⟨a, ha, b, hb, -, hdiffer, hid⟩ := exists_alias_counting h
  obtain ⟨haname, haid⟩ := get?_allocateAll_of_mem_responses ha
  obtain ⟨hbname, hbid⟩ := get?_allocateAll_of_mem_responses hb
  exact ⟨a.name, haname, b.name, hbname, hdiffer, a.id, haid, hid ▸ hbid⟩

end RuleIds

end ScopeRules
