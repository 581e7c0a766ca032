/-
The ids that an allocator has issued, over all of its sessions. The names
of a session are forgotten when it is closed, so what an id once meant is
not to be read off the allocator any more. `Allotted` keeps it: a list with
the session and the name of every allocation, oldest first. The allocation
at place `k` was answered with id `k + 1`, or with the largest id once the
counter has stopped there (`idAt`).

As long as the counter has not stopped, ids and places are the same thing
but for one. `Issued` is the record of such an allocator, which reads the
place off the id.

# The two facts that everything else rests on

- The list has no duplicates: within a session a name is allocated once,
  and sessions are told apart by their numbers. So an id means one name of
  one session (`name_eq_of_recorded`), and a name has one id in a session
  (`id_eq_of_recorded`).
- The list only grows (`Issued.allocateAll`, `Issued.compact`), so what was
  recorded of an allocator at one moment stays true (`Recorded.append`).

Both need that the counter never stopped at the largest id, which is what
the hypotheses on the number of allocations say.
-/
import ScopeRules.RuleIds

namespace ScopeRules

-- ============================================================= records

-- A record is a list to whose end something is added.

/-- The places of a list with one more element at its end. -/
theorem getElem?_append_singleton_iff {α : Type} {l : List α} {a b : α} {k : Nat} :
    (l ++ [a])[k]? = some b ↔ l[k]? = some b ∨ (k = l.length ∧ a = b) := by
  rcases Nat.lt_trichotomy k l.length with hlt | heq | hgt
  · rw [List.getElem?_append_left hlt]
    constructor
    · exact .inl
    · intro h
      rcases h with h | ⟨h, -⟩
      · exact h
      · omega
  · subst heq
    simp
  · have hend : (l ++ [a]).length ≤ k := by
      rw [List.length_append, List.length_singleton]
      omega
    rw [List.getElem?_eq_none hend, List.getElem?_eq_none (Nat.le_of_lt hgt)]
    constructor
    · intro h
      cases h
    · intro h
      rcases h with h | ⟨h, -⟩
      · cases h
      · omega

theorem nodup_append_singleton {α : Type} {l : List α} {a : α} (h : l.Nodup) (ha : a ∉ l) :
    (l ++ [a]).Nodup := by
  refine List.nodup_append.2 ⟨h, List.pairwise_singleton _ _, ?_⟩
  intro b hb c hc hbc
  rw [List.mem_singleton] at hc
  exact ha (hc ▸ hbc ▸ hb)

namespace RuleIds

-- ============================================================ requests

theorem idFor_of_get? {ids : RuleIds} {name : String} {id : RuleId}
    (h : ids.get? name = some id) : ids.idFor name = (id, ids) := by
  unfold get? at h
  rw [idFor, h]

theorem get?_idFor (ids : RuleIds) (name other : String) :
    (ids.idFor name).2.get? other
      = if name = other then some (ids.idFor name).1 else ids.get? other := by
  cases h : ids.get? name with
  | some id =>
    rw [idFor_of_get? h]
    split
    · rename_i hname
      exact hname ▸ h
    · rfl
  | none =>
    unfold get? at h ⊢
    rw [idFor, h]
    exact Assoc.get?_put _ _ _ _

/-- A request makes the session longer by one if the name is new. -/
theorem size_idFor (ids : RuleIds) (name : String) :
    (ids.idFor name).2.size = if (ids.get? name).isSome then ids.size else ids.size + 1 := by
  cases h : ids.get? name with
  | some id =>
    rw [idFor_of_get? h]
    rfl
  | none =>
    have hkeys := Assoc.keys_put ids.session name ids.next
    unfold get? at h
    rw [if_neg (by simp [Assoc.has, h])] at hkeys
    have hlength := congrArg List.length hkeys
    simp only [Assoc.keys, List.length_map, List.length_append, List.length_singleton] at hlength
    rw [idFor, h]
    exact hlength

theorem allocateAll_cons (ids : RuleIds) (name : String) (names : List String) :
    ids.allocateAll (name :: names) = (ids.idFor name).2.allocateAll names := rfl

theorem allocateAll_append (ids : RuleIds) (names more : List String) :
    ids.allocateAll (names ++ more) = (ids.allocateAll names).allocateAll more :=
  List.foldl_append

theorem size_le_size_allocateAll (ids : RuleIds) (names : List String) :
    ids.size ≤ (ids.allocateAll names).size := by
  induction names generalizing ids with
  | nil => exact Nat.le_refl _
  | cons name names ih =>
    have hstep := size_idFor ids name
    have hrest := ih (ids.idFor name).2
    rw [allocateAll_cons]
    split at hstep <;> omega

/-- A name that has an id keeps it through further requests. -/
theorem get?_allocateAll_of_some {ids : RuleIds} {name : String} {id : RuleId}
    (names : List String) (h : ids.get? name = some id) :
    (ids.allocateAll names).get? name = some id := by
  induction names generalizing ids with
  | nil => exact h
  | cons other names ih =>
    rw [allocateAll_cons]
    refine ih ?_
    rw [get?_idFor]
    split
    · rename_i hname
      subst hname
      rw [idFor_of_get? h]
    · exact h

/-- After requests for some names, each of them has an id. -/
theorem exists_get?_allocateAll {name : String} {names : List String} (ids : RuleIds)
    (h : name ∈ names) : ∃ id, (ids.allocateAll names).get? name = some id := by
  induction names generalizing ids with
  | nil => cases h
  | cons other names ih =>
    rw [allocateAll_cons]
    rcases List.mem_cons.1 h with rfl | h
    · refine ⟨(ids.idFor name).1, get?_allocateAll_of_some names ?_⟩
      rw [get?_idFor, if_pos rfl]
    · exact ih _ h

/-- Requests for names that have an id change nothing. -/
theorem allocateAll_of_known {ids : RuleIds} {names : List String}
    (h : ∀ name ∈ names, ∃ id, ids.get? name = some id) : ids.allocateAll names = ids := by
  induction names with
  | nil => rfl
  | cons name names ih =>
    obtain ⟨⟨id, hid⟩, hmore⟩ := List.forall_mem_cons.1 h
    rw [allocateAll_cons, idFor_of_get? hid]
    exact ih hmore

/-- Asking for names again is asking for them once. -/
theorem allocateAll_allocateAll (ids : RuleIds) (names : List String) :
    (ids.allocateAll names).allocateAll names = ids.allocateAll names :=
  allocateAll_of_known fun _ hname => exists_get?_allocateAll ids hname

/-- Requests give ids to the names that they ask for and to no other. -/
theorem isSome_get?_allocateAll (ids : RuleIds) (names : List String) (name : String) :
    ((ids.allocateAll names).get? name).isSome
      = ((ids.get? name).isSome || decide (name ∈ names)) := by
  induction names generalizing ids with
  | nil => simp [allocateAll]
  | cons other names ih =>
    rw [allocateAll_cons, ih, get?_idFor]
    by_cases h : other = name
    · simp [h]
    · simp [h, Ne.symm h]

-- ====================================================== the allocations

/-- The id that the allocation at place `k` of all is answered with. -/
def idAt (k : Nat) : RuleId := ⟨min (k + 1) RuleId.largest⟩

/-- What an allocator whose running session has the number `session` has
allocated: session and name of every allocation, oldest first. The counter
may have stopped meanwhile. -/
structure Allotted (ids : RuleIds) (session : Nat) (past : List (Nat × String)) : Prop where
  distinct : past.Nodup
  counted : ids.allocated = min past.length RuleId.largest
  answers : ∀ name id, ids.get? name = some id
    ↔ ∃ k : Nat, past[k]? = some (session, name) ∧ id = idAt k
  past : ∀ p ∈ past, p.1 ≤ session

section

variable {ids : RuleIds} {session : Nat} {past : List (Nat × String)} {name : String}

theorem idAt_value {k : Nat} (h : k < RuleId.largest) : (idAt k).value = k + 1 :=
  Nat.min_eq_left h

theorem allotted_empty : Allotted .empty 0 [] where
  distinct := List.nodup_nil
  counted := rfl
  answers := by
    intro name id
    simp [get?, empty]
  past := by
    intro p hp
    cases hp

/-- Closing the session allocates nothing, and none of the allocations is of
the session that is opened. -/
theorem Allotted.compact (h : Allotted ids session past) :
    Allotted ids.compact (session + 1) past where
  distinct := h.distinct
  counted := h.counted
  answers := by
    intro name id
    constructor
    · intro hid
      cases hid
    · intro hplace
      obtain ⟨k, hk, -⟩ := hplace
      have hpast := h.past _ (List.mem_of_getElem? hk)
      omega
  past := by
    intro p hp
    exact Nat.le_succ_of_le (h.past p hp)

/-- A name without an id was not allocated in the running session. -/
theorem Allotted.not_mem (h : Allotted ids session past) (hname : ids.get? name = none) :
    (session, name) ∉ past := by
  intro hmem
  obtain ⟨k, hk⟩ := List.mem_iff_getElem?.1 hmem
  rw [(h.answers name (idAt k)).2 ⟨k, hk, rfl⟩] at hname
  cases hname

theorem Allotted.next_eq (h : Allotted ids session past) : ids.next = idAt past.length := by
  have hcounted := h.counted
  refine congrArg RuleId.mk ?_
  omega

/-- A new name is the latest allocation. -/
theorem Allotted.idFor_of_none (h : Allotted ids session past) (hname : ids.get? name = none) :
    Allotted (ids.idFor name).2 session (past ++ [(session, name)]) := by
  have hanswer : ids.idFor name
      = (idAt past.length,
          ⟨ids.session.put name (idAt past.length), (idAt past.length).value⟩) := by
    unfold get? at hname
    rw [RuleIds.idFor, hname, ← h.next_eq]
  refine ⟨?_, ?_, ?_, ?_⟩
  · exact nodup_append_singleton h.distinct (h.not_mem hname)
  · rw [hanswer, List.length_append, List.length_singleton]
    rfl
  · intro other id
    rw [get?_idFor, hanswer]
    by_cases hother : name = other
    · subst hother
      rw [if_pos rfl]
      constructor
      · intro hid
        exact ⟨past.length, getElem?_append_singleton_iff.2 (.inr ⟨rfl, rfl⟩),
          (Option.some.inj hid).symm⟩
      · intro hplace
        obtain ⟨k, hk, rfl⟩ := hplace
        rcases getElem?_append_singleton_iff.1 hk with hat | ⟨rfl, -⟩
        · exact absurd (List.mem_of_getElem? hat) (h.not_mem hname)
        · rfl
    · rw [if_neg hother, h.answers]
      constructor
      · intro hplace
        obtain ⟨k, hk, hid⟩ := hplace
        exact ⟨k, getElem?_append_singleton_iff.2 (.inl hk), hid⟩
      · intro hplace
        obtain ⟨k, hk, hid⟩ := hplace
        rcases getElem?_append_singleton_iff.1 hk with hat | ⟨-, hat⟩
        · exact ⟨k, hat, hid⟩
        · exact absurd (Prod.mk.inj hat).2 hother
  · intro p hp
    rcases List.mem_append.1 hp with hp | hp
    · exact h.past p hp
    · cases List.mem_singleton.1 hp
      exact Nat.le_refl _

/-- A request for an id is answered from the allocations, among which the
name is then if it was not before. -/
theorem Allotted.idFor (h : Allotted ids session past) (name : String) :
    ∃ new, Allotted (ids.idFor name).2 session (past ++ new)
      ∧ (∀ p, p ∈ past ++ new ↔ p ∈ past ∨ p = (session, name))
      ∧ ∃ k : Nat, (past ++ new)[k]? = some (session, name) ∧ (ids.idFor name).1 = idAt k := by
  cases hname : ids.get? name with
  | some id =>
    obtain ⟨k, hk, rfl⟩ := (h.answers name id).1 hname
    refine ⟨[], ?_, ?_, k, ?_, ?_⟩
    · rw [idFor_of_get? hname, List.append_nil]
      exact h
    · intro p
      rw [List.append_nil]
      constructor
      · exact .inl
      · rintro (hp | rfl)
        · exact hp
        · exact List.mem_of_getElem? hk
    · rw [List.append_nil]
      exact hk
    · rw [idFor_of_get? hname]
  | none =>
    have hnext := h.idFor_of_none hname
    have hid : (ids.idFor name).2.get? name = some (ids.idFor name).1 := by
      rw [get?_idFor, if_pos rfl]
    exact ⟨[(session, name)], hnext, fun p => by simp, (hnext.answers _ _).1 hid⟩

end

-- ============================================================ the record

/-- What an allocator whose running session has the number `session` has
issued: session and name of every allocation, oldest first. The allocation
at place `k` was answered with id `k + 1`. -/
structure Issued (ids : RuleIds) (session : Nat) (issued : List (Nat × String)) : Prop where
  distinct : issued.Nodup
  counted : ids.allocated = issued.length
  answers : ∀ name id, ids.get? name = some id
    ↔ 0 < id.value ∧ issued[id.value - 1]? = some (session, name)
  past : ∀ p ∈ issued, p.1 ≤ session

/-- Up to the largest id, the place of an allocation is read off its id. -/
theorem exists_idAt_iff {past : List (Nat × String)} (hroom : past.length ≤ RuleId.largest)
    {p : Nat × String} {id : RuleId} :
    (∃ k : Nat, past[k]? = some p ∧ id = idAt k)
      ↔ 0 < id.value ∧ past[id.value - 1]? = some p := by
  constructor
  · intro hplace
    obtain ⟨k, hk, rfl⟩ := hplace
    obtain ⟨hlt, -⟩ := List.getElem?_eq_some_iff.1 hk
    rw [idAt_value (Nat.lt_of_lt_of_le hlt hroom)]
    exact ⟨Nat.succ_pos k, hk⟩
  · intro hissued
    obtain ⟨hpos, hat⟩ := hissued
    obtain ⟨hlt, -⟩ := List.getElem?_eq_some_iff.1 hat
    refine ⟨id.value - 1, hat, congrArg RuleId.mk ?_⟩
    omega

theorem issued_iff_allotted {ids : RuleIds} {session : Nat} {past : List (Nat × String)}
    (hroom : past.length ≤ RuleId.largest) :
    Issued ids session past ↔ Allotted ids session past := by
  have hlength : min past.length RuleId.largest = past.length := Nat.min_eq_left hroom
  constructor
  · intro h
    exact ⟨h.distinct, h.counted.trans hlength.symm,
      fun name id => (h.answers name id).trans (exists_idAt_iff hroom).symm, h.past⟩
  · intro h
    exact ⟨h.distinct, h.counted.trans hlength,
      fun name id => (h.answers name id).trans (exists_idAt_iff hroom), h.past⟩

/-- Whether the ids of a session stand in the record as that session's. -/
def Recorded (ids : RuleIds) (session : Nat) (issued : List (Nat × String)) : Prop :=
  ∀ name id, ids.get? name = some id
    → 0 < id.value ∧ issued[id.value - 1]? = some (session, name)

theorem issued_empty : Issued .empty 0 [] :=
  (issued_iff_allotted (Nat.zero_le _)).2 allotted_empty

theorem Issued.recorded {ids : RuleIds} {session : Nat} {issued : List (Nat × String)}
    (h : Issued ids session issued) : Recorded ids session issued :=
  fun name id hid => (h.answers name id).1 hid

/-- What was recorded stays recorded. -/
theorem Recorded.append {ids : RuleIds} {session : Nat} {issued : List (Nat × String)}
    (h : Recorded ids session issued) (new : List (Nat × String)) :
    Recorded ids session (issued ++ new) := by
  intro name id hid
  obtain ⟨hpos, hat⟩ := h name id hid
  refine ⟨hpos, ?_⟩
  obtain ⟨hlt, -⟩ := List.getElem?_eq_some_iff.1 hat
  rw [List.getElem?_append_left hlt]
  exact hat

/-- An id means one name of one session. -/
theorem name_eq_of_recorded {a b : RuleIds} {s t : Nat} {issued : List (Nat × String)}
    (ha : Recorded a s issued) (hb : Recorded b t issued) {m n : String} {id : RuleId}
    (hm : a.get? m = some id) (hn : b.get? n = some id) : s = t ∧ m = n := by
  have hsame := (ha m id hm).2.symm.trans (hb n id hn).2
  exact Prod.mk.inj (Option.some.inj hsame)

/-- In one session a name has one id. -/
theorem id_eq_of_recorded {a b : RuleIds} {s : Nat} {issued : List (Nat × String)}
    (hdistinct : issued.Nodup) (ha : Recorded a s issued) (hb : Recorded b s issued)
    {name : String} {i j : RuleId} (hi : a.get? name = some i) (hj : b.get? name = some j) :
    i = j := by
  obtain ⟨hipos, hi⟩ := ha name i hi
  obtain ⟨hjpos, hj⟩ := hb name j hj
  obtain ⟨hlt, -⟩ := List.getElem?_eq_some_iff.1 hi
  have hplace := (List.getElem?_inj hlt hdistinct).1 (hi.trans hj.symm)
  have hvalue : i.value = j.value := by omega
  cases i
  cases j
  exact congrArg RuleId.mk hvalue

-- ==================================================== the record grows

/-- Closing the session leaves the record as it is. -/
theorem Issued.compact {ids : RuleIds} {session : Nat} {issued : List (Nat × String)}
    (h : Issued ids session issued) : Issued ids.compact (session + 1) issued where
  distinct := h.distinct
  counted := h.counted
  answers := by
    intro name id
    constructor
    · intro hid
      cases hid
    · intro hissued
      have hpast := h.past _ (List.mem_of_getElem? hissued.2)
      omega
  past := by
    intro p hp
    exact Nat.le_succ_of_le (h.past p hp)

/-- A new name gets the next id, as long as the counter has not stopped. -/
theorem Issued.idFor_of_none {ids : RuleIds} {session : Nat} {issued : List (Nat × String)}
    (h : Issued ids session issued) {name : String} (hname : ids.get? name = none)
    (hroom : issued.length < RuleId.largest) :
    Issued (ids.idFor name).2 session (issued ++ [(session, name)]) := by
  have hallotted := (issued_iff_allotted (Nat.le_of_lt hroom)).1 h
  refine (issued_iff_allotted ?_).2 (hallotted.idFor_of_none hname)
  rw [List.length_append, List.length_singleton]
  exact hroom

/-- A request is answered from the record, or adds the name to it. -/
theorem Issued.idFor {ids : RuleIds} {session : Nat} {issued : List (Nat × String)}
    (h : Issued ids session issued) (name : String)
    (hroom : issued.length + ((ids.idFor name).2.size - ids.size) ≤ RuleId.largest) :
    ∃ new, new.length = (ids.idFor name).2.size - ids.size
      ∧ Issued (ids.idFor name).2 session (issued ++ new) := by
  have hsize := size_idFor ids name
  cases hname : ids.get? name with
  | some id =>
    refine ⟨[], ?_, ?_⟩
    · rw [idFor_of_get? hname, List.length_nil, Nat.sub_self]
    · rw [idFor_of_get? hname, List.append_nil]
      exact h
  | none =>
    rw [hname] at hsize
    simp only [Option.isSome_none, Bool.false_eq_true, if_false] at hsize
    refine ⟨[(session, name)], ?_, h.idFor_of_none hname ?_⟩
    · rw [hsize, List.length_singleton]
      omega
    · omega

/-- Requests for several names add the new ones to the record. -/
theorem Issued.allocateAll {ids : RuleIds} {session : Nat} {issued : List (Nat × String)}
    (h : Issued ids session issued) (names : List String)
    (hroom : issued.length + ((ids.allocateAll names).size - ids.size) ≤ RuleId.largest) :
    ∃ new, new.length = (ids.allocateAll names).size - ids.size
      ∧ Issued (ids.allocateAll names) session (issued ++ new) := by
  induction names generalizing ids issued with
  | nil => exact ⟨[], (Nat.sub_self _).symm, by rwa [List.append_nil]⟩
  | cons name names ih =>
    rw [allocateAll_cons] at hroom ⊢
    have hfirst : ids.size ≤ (ids.idFor name).2.size := by
      rw [size_idFor]
      split <;> omega
    have hrest := size_le_size_allocateAll (ids.idFor name).2 names
    obtain ⟨new, hlength, hnew⟩ := h.idFor name (by omega)
    obtain ⟨more, hlength', hmore⟩ := ih hnew (by rw [List.length_append]; omega)
    refine ⟨new ++ more, ?_, ?_⟩
    · rw [List.length_append]
      omega
    · rw [← List.append_assoc]
      exact hmore

end RuleIds

end ScopeRules
