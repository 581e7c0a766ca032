/-
What an allocator replies, call by call. Calls of every kind are put to a
new allocator in any order; which of them allocate, and what was allocated
before a place, is read off the calls alone (`allocation?`, `allocations`).

# The two things that have to stay in step

The names of a session go when it is closed, and the counter stays. The
list of allocations ties them together: the counter is its length, and the
names are its entries of the running session (`Tallied`). `tallied_after`
says that after any number of calls the allocator stands like this to the
list that was read off the calls.

# What follows

As sessions come one after the other, the allocations of the running one
are the last ones (`exists_append_filter`), so their ids are a block of
consecutive numbers that ends at the last id given out. `replies_dense`
puts this together for all calls of a run.
-/
import Mathlib.Data.List.Basic
import ScopeRules.Proofs.Requests

namespace ScopeRules

namespace RuleIds

theorem id_idFor_of_none {ids : RuleIds} {name : String} (h : ids.get? name = none) :
    (ids.idFor name).1 = ids.next := by
  unfold get? at h
  rw [idFor, h]

-- ==================================================== names, counted

/-- An allocator that has allotted `past`, and holds as many names as there
are allocations of the running session in it. -/
structure Tallied (ids : RuleIds) (session : Nat) (past : List (Nat × String)) : Prop where
  allotted : Allotted ids session past
  size : ids.size = (past.filter fun p => p.1 = session).length

theorem tallied_empty : Tallied .empty 0 [] := ⟨allotted_empty, rfl⟩

theorem Tallied.compact {ids : RuleIds} {session : Nat} {past : List (Nat × String)}
    (h : Tallied ids session past) : Tallied ids.compact (session + 1) past := by
  refine ⟨h.allotted.compact, ?_⟩
  -- what was allocated before belongs to earlier sessions
  have hnone : past.filter (fun p => p.1 = session + 1) = [] := by
    refine List.filter_eq_nil_iff.2 fun p hp hsession => ?_
    have hle := h.allotted.past p hp
    have heq := of_decide_eq_true hsession
    omega
  rw [hnone]
  rfl

theorem Tallied.idFor_of_none {ids : RuleIds} {session : Nat} {past : List (Nat × String)}
    {name : String} (h : Tallied ids session past) (hname : ids.get? name = none) :
    Tallied (ids.idFor name).2 session (past ++ [(session, name)]) := by
  refine ⟨h.allotted.idFor_of_none hname, ?_⟩
  rw [size_idFor, hname, h.size, List.filter_append, List.length_append]
  simp

-- =============================================================== calls

/-- A call on an allocator: a request, or how many names the session has. -/
inductive Call where
  | request (request : Request)
  | size
  deriving DecidableEq, Repr, Inhabited

/-- What a call is answered with. -/
inductive Reply where
  | id (id : RuleId)
  | found (id : Option RuleId)
  | size (count : Nat)
  | done
  deriving DecidableEq, Repr, Inhabited

/-- The reply to a call, and the allocator after it. -/
def call (ids : RuleIds) : Call → Reply × RuleIds
  | .request (.idFor name) => (.id (ids.idFor name).1, (ids.idFor name).2)
  | .request (.get name) => (.found (ids.get? name), ids)
  | .request .compact => (.done, ids.compact)
  | .size => (.size ids.size, ids)

/-- The allocator after some calls. -/
def after (ids : RuleIds) (calls : List Call) : RuleIds :=
  calls.foldl (fun ids c => (ids.call c).2) ids

/-- The replies to calls, in order. -/
def replies : RuleIds → List Call → List Reply
  | _, [] => []
  | ids, c :: rest => (ids.call c).1 :: replies (ids.call c).2 rest

-- ========================================== allocations, off the calls

/-- The number of the session in which the call at place `i` is made. -/
def sessionAt (calls : List Call) (i : Nat) : Nat := (calls.take i).count (.request .compact)

/-- Whether the id of a name was asked for before place `i`, since the ids
were compacted last. -/
def Asked (calls : List Call) (i : Nat) (name : String) : Prop :=
  ∃ j < i, sessionAt calls j = sessionAt calls i ∧ calls[j]? = some (.request (.idFor name))

instance (calls : List Call) (i : Nat) (name : String) : Decidable (Asked calls i name) :=
  inferInstanceAs (Decidable (∃ j < i, sessionAt calls j = sessionAt calls i
    ∧ calls[j]? = some (.request (.idFor name))))

/-- What the call at place `i` allocates: the name whose id it asks for,
unless that was asked for in the session before; with its session. -/
def allocation? (calls : List Call) (i : Nat) : Option (Nat × String) :=
  match calls[i]? with
  | some (.request (.idFor name)) =>
    if Asked calls i name then none else some (sessionAt calls i, name)
  | _ => none

/-- What the calls before place `i` allocate, in order. -/
def allocations (calls : List Call) (i : Nat) : List (Nat × String) :=
  (List.range i).filterMap (allocation? calls)

/-- What the calls before place `i` allocate, since the ids were compacted
last. -/
def sinceCompacted (calls : List Call) (i : Nat) : List (Nat × String) :=
  (allocations calls i).filter fun p => p.1 = sessionAt calls i

variable {calls : List Call} {i : Nat} {name : String}

/-- A call that allocates asks for the id of a name that was not asked for in
the session. -/
theorem exists_of_allocation?_eq_some {p : Nat × String} (h : allocation? calls i = some p) :
    ∃ name, calls[i]? = some (.request (.idFor name)) ∧ ¬ Asked calls i name
      ∧ p = (sessionAt calls i, name) := by
  unfold allocation? at h
  split at h
  · rename_i name hname
    obtain ⟨hasked, hp⟩ := Option.ite_none_left_eq_some.1 h
    exact ⟨name, hname, hasked, (Option.some.inj hp).symm⟩
  · cases h

theorem allocations_succ (calls : List Call) (i : Nat) :
    allocations calls (i + 1) = allocations calls i ++ (allocation? calls i).toList := by
  unfold allocations
  rw [List.range_succ, List.filterMap_append, List.filterMap_cons]
  cases allocation? calls i <;> rfl

theorem length_allocations_le (calls : List Call) {i j : Nat} (h : i ≤ j) :
    (allocations calls i).length ≤ (allocations calls j).length := by
  induction h with
  | refl => exact Nat.le_refl _
  | step _ ih =>
    rw [allocations_succ, List.length_append]
    omega

theorem take_succ_of_getElem? {c : Call} (h : calls[i]? = some c) :
    calls.take (i + 1) = calls.take i ++ [c] := by
  rw [List.take_add_one, h]
  rfl

theorem sessionAt_succ {c : Call} (h : calls[i]? = some c) :
    sessionAt calls (i + 1) = sessionAt calls i + if c = .request .compact then 1 else 0 := by
  unfold sessionAt
  rw [take_succ_of_getElem? h, List.count_append, List.count_singleton]
  simp only [beq_iff_eq]

theorem sessionAt_mono {j : Nat} (h : i ≤ j) : sessionAt calls i ≤ sessionAt calls j :=
  (List.take_prefix_take_left h).sublist.count_le _

/-- A name whose id was asked for is allocated in that session: by that call,
or by an earlier one. -/
theorem mem_allocations_of_getElem? {j : Nat} (hj : j < i)
    (h : calls[j]? = some (.request (.idFor name))) :
    (sessionAt calls j, name) ∈ allocations calls i := by
  induction j using Nat.strongRecOn with
  | ind j ih =>
    by_cases hasked : Asked calls j name
    · obtain ⟨m, hm, hsession, hname⟩ := hasked
      rw [← hsession]
      exact ih m hm (Nat.lt_trans hm hj) hname
    · refine List.mem_filterMap.2 ⟨j, List.mem_range.2 hj, ?_⟩
      rw [allocation?, h]
      exact if_neg hasked

/-- What is allocated before a place was asked for before it. -/
theorem exists_of_mem_allocations {p : Nat × String} (h : p ∈ allocations calls i) :
    ∃ j < i, sessionAt calls j = p.1 ∧ calls[j]? = some (.request (.idFor p.2)) := by
  obtain ⟨j, hj, hp⟩ := List.mem_filterMap.1 h
  obtain ⟨name, hname, -, rfl⟩ := exists_of_allocation?_eq_some hp
  exact ⟨j, List.mem_range.1 hj, rfl, hname⟩

/-- Asking in a session and allocating in it come to the same. -/
theorem asked_iff : Asked calls i name ↔ (sessionAt calls i, name) ∈ allocations calls i := by
  constructor
  · intro h
    obtain ⟨j, hj, hsession, hname⟩ := h
    rw [← hsession]
    exact mem_allocations_of_getElem? hj hname
  · intro h
    obtain ⟨j, hj, hsession, hname⟩ := exists_of_mem_allocations h
    exact ⟨j, hj, hsession, hname⟩

theorem session_le_of_mem_allocations {p : Nat × String} (h : p ∈ allocations calls i) :
    p.1 ≤ sessionAt calls i := by
  obtain ⟨j, hj, hsession, -⟩ := exists_of_mem_allocations h
  rw [← hsession]
  exact sessionAt_mono (Nat.le_of_lt hj)

/-- The sessions follow each other in the list of allocations. -/
theorem allocations_pairwise (calls : List Call) (i : Nat) :
    (allocations calls i).Pairwise fun p q => p.1 ≤ q.1 := by
  induction i with
  | zero => exact List.Pairwise.nil
  | succ i ih =>
    rw [allocations_succ, List.pairwise_append]
    refine ⟨ih, ?_, fun p hp q hq => ?_⟩
    · cases allocation? calls i <;> simp
    · obtain ⟨name, -, -, rfl⟩ := exists_of_allocation?_eq_some (Option.mem_toList.1 hq)
      exact session_le_of_mem_allocations hp

-- ================================================== the state of a run

theorem after_take_succ {ids : RuleIds} {c : Call} (h : calls[i]? = some c) :
    ids.after (calls.take (i + 1)) = ((ids.after (calls.take i)).call c).2 := by
  unfold after
  rw [take_succ_of_getElem? h, List.foldl_append]
  rfl

/-- The reply to a call is that of the allocator after the calls before. -/
theorem getElem?_replies (ids : RuleIds) (calls : List Call) (i : Nat) :
    (replies ids calls)[i]? = (calls[i]?).map fun c => ((ids.after (calls.take i)).call c).1 := by
  induction calls generalizing ids i with
  | nil => rfl
  | cons c rest ih =>
    cases i with
    | zero => rfl
    | succ i => exact ih (ids.call c).2 i

/-- A call allocates as the allocator does. -/
theorem allocation?_eq (h : Allotted (after .empty (calls.take i)) (sessionAt calls i)
      (allocations calls i)) (hname : calls[i]? = some (.request (.idFor name))) :
    allocation? calls i
      = if ((after .empty (calls.take i)).get? name).isSome then none
        else some (sessionAt calls i, name) := by
  have hasked : Asked calls i name ↔ ((after .empty (calls.take i)).get? name).isSome = true := by
    rw [asked_iff]
    constructor
    · intro hmem
      obtain ⟨k, hk⟩ := List.mem_iff_getElem?.1 hmem
      rw [(h.answers name (idAt k)).2 ⟨k, hk, rfl⟩]
      rfl
    · intro hsome
      obtain ⟨id, hid⟩ := Option.isSome_iff_exists.1 hsome
      obtain ⟨k, hk, -⟩ := (h.answers name id).1 hid
      exact List.mem_of_getElem? hk
  simp only [allocation?, hname, hasked]

/-- Other calls allocate nothing. -/
theorem allocation?_eq_none {c : Call} (h : calls[i]? = some c)
    (hc : ∀ name, c ≠ .request (.idFor name)) : allocation? calls i = none := by
  unfold allocation?
  split
  · rename_i name hname
    exact absurd (Option.some.inj (h.symm.trans hname)) (hc name)
  · rfl

/-- After any number of calls the allocator has allotted what the calls
allocate. -/
theorem tallied_after (hi : i ≤ calls.length) :
    Tallied (after .empty (calls.take i)) (sessionAt calls i) (allocations calls i) := by
  induction i with
  | zero => exact tallied_empty
  | succ i ih =>
    have h := ih (Nat.le_of_lt hi)
    have hc : calls[i]? = some calls[i] := List.getElem?_eq_getElem hi
    generalize calls[i] = c at hc
    rw [after_take_succ hc, sessionAt_succ hc, allocations_succ]
    cases c with
    | request request =>
      cases request with
      | idFor name =>
        rw [allocation?_eq h.allotted hc, if_neg (by simp), Nat.add_zero]
        cases hknown : (after .empty (calls.take i)).get? name with
        | some id =>
          have hsame : ((after .empty (calls.take i)).call (.request (.idFor name))).2
              = after .empty (calls.take i) := congrArg Prod.snd (idFor_of_get? hknown)
          rw [hsame, Option.isSome_some, if_pos rfl, Option.toList_none, List.append_nil]
          exact h
        | none => exact h.idFor_of_none hknown
      | get name =>
        rw [allocation?_eq_none hc (by simp), if_neg (by simp), Option.toList_none,
          List.append_nil]
        exact h
      | compact =>
        rw [allocation?_eq_none hc (by simp), if_pos rfl, Option.toList_none, List.append_nil]
        exact h.compact
    | size =>
      rw [allocation?_eq_none hc (by simp), if_neg (by simp), Option.toList_none,
        List.append_nil]
      exact h

/-- While there are ids left, a name has the id of its place in the list of
allocations. -/
theorem get?_after_iff (hi : i ≤ calls.length)
    (hroom : (allocations calls calls.length).length ≤ RuleId.largest) {id : RuleId} :
    (after .empty (calls.take i)).get? name = some id
      ↔ ∃ k : Nat, (allocations calls i)[k]? = some (sessionAt calls i, name) ∧ id = ⟨k + 1⟩ := by
  rw [(tallied_after hi).allotted.answers]
  refine exists_congr fun k => and_congr_right fun hk => ?_
  obtain ⟨hlt, -⟩ := List.getElem?_eq_some_iff.1 hk
  have hle := length_allocations_le calls hi
  rw [show idAt k = ⟨k + 1⟩ from congrArg RuleId.mk (idAt_value (by omega))]

-- =========================================================== the block

/-- Of numbers that increase up to `s`, those equal to `s` come last. -/
theorem exists_append_filter {past : List (Nat × String)} {s : Nat}
    (hordered : past.Pairwise fun p q => p.1 ≤ q.1) (hle : ∀ p ∈ past, p.1 ≤ s) :
    ∃ earlier, past = earlier ++ past.filter (fun p => p.1 = s) ∧ ∀ p ∈ earlier, p.1 ≠ s := by
  induction past with
  | nil => exact ⟨[], rfl, fun p hp => nomatch hp⟩
  | cons p rest ih =>
    obtain ⟨hp, hrest⟩ := List.pairwise_cons.1 hordered
    obtain ⟨hps, hle⟩ := List.forall_mem_cons.1 hle
    by_cases hsession : p.1 = s
    · refine ⟨[], ?_, fun p hp => nomatch hp⟩
      rw [List.nil_append, eq_comm, List.filter_eq_self]
      intro q hq
      rcases List.mem_cons.1 hq with rfl | hq
      · exact decide_eq_true hsession
      · exact decide_eq_true (Nat.le_antisymm (hle q hq) (hsession ▸ hp q hq))
    · obtain ⟨earlier, heq, hearlier⟩ := ih hrest hle
      refine ⟨p :: earlier, ?_, List.forall_mem_cons.2 ⟨hsession, hearlier⟩⟩
      rw [List.filter_cons_of_neg (by simpa using hsession), List.cons_append, ← heq]

/-- The places of the running session in the list of allocations are the
last ones. -/
theorem exists_allocations_iff (calls : List Call) (i k : Nat) :
    (∃ name, (allocations calls i)[k]? = some (sessionAt calls i, name))
      ↔ (allocations calls i).length - (sinceCompacted calls i).length ≤ k
        ∧ k < (allocations calls i).length := by
  obtain ⟨earlier, heq, hearlier⟩ := exists_append_filter (allocations_pairwise calls i)
    (fun _ => session_le_of_mem_allocations)
  have hlength := congrArg List.length heq
  rw [List.length_append] at hlength
  have hbefore : (allocations calls i).length - (sinceCompacted calls i).length = earlier.length := by
    unfold sinceCompacted
    omega
  rw [hbefore]
  constructor
  · intro hplace
    obtain ⟨name, hk⟩ := hplace
    obtain ⟨hlt, -⟩ := List.getElem?_eq_some_iff.1 hk
    refine ⟨?_, hlt⟩
    by_contra hearly
    rw [heq, List.getElem?_append_left (Nat.lt_of_not_le hearly)] at hk
    exact hearlier _ (List.mem_of_getElem? hk) rfl
  · intro hplace
    obtain ⟨hle, hlt⟩ := hplace
    obtain ⟨p, hk⟩ : ∃ p, (allocations calls i)[k]? = some p := ⟨_, List.getElem?_eq_getElem hlt⟩
    have hlate : p ∈ (allocations calls i).filter fun p => p.1 = sessionAt calls i := by
      rw [heq, List.getElem?_append_right hle] at hk
      exact List.mem_of_getElem? hk
    exact ⟨p.2, by rw [hk, ← of_decide_eq_true (List.mem_filter.1 hlate).2]⟩

-- ======================================================= all the replies

theorem lt_length_of_getElem? {c : Call} (h : calls[i]? = some c) : i < calls.length :=
  (List.getElem?_eq_some_iff.1 h).1

section Room

variable (hroom : (allocations calls calls.length).length ≤ RuleId.largest)

include hroom

/-- A call that allocates is answered with the number of its allocation. -/
theorem getElem?_replies_of_allocates {p : Nat × String} (hp : allocation? calls i = some p) :
    (replies .empty calls)[i]? = some (.id ⟨(allocations calls i).length + 1⟩) := by
  obtain ⟨name, hname, hnew, rfl⟩ := exists_of_allocation?_eq_some hp
  have hi := lt_length_of_getElem? hname
  have h := (tallied_after (Nat.le_of_lt hi)).allotted
  have hfresh : (after .empty (calls.take i)).get? name = none := by
    rw [allocation?_eq h hname] at hp
    exact Option.not_isSome_iff_eq_none.1 (Option.ite_none_left_eq_some.1 hp).1
  have hlast : (allocations calls i).length < RuleId.largest := by
    have hle := length_allocations_le calls hi
    rw [allocations_succ, hp, List.length_append] at hle
    exact Nat.lt_of_lt_of_le hle hroom
  rw [getElem?_replies, hname, Option.map_some]
  show some (Reply.id (idFor _ name).1) = _
  rw [id_idFor_of_none hfresh, h.next_eq]
  exact congrArg (fun n => some (Reply.id ⟨n⟩)) (idAt_value hlast)

/-- Any other request for an id is answered with the id that its name was
allocated. -/
theorem exists_getElem?_replies_of_known (hname : calls[i]? = some (.request (.idFor name)))
    (hold : allocation? calls i = none) :
    ∃ k, (allocations calls i)[k]? = some (sessionAt calls i, name)
      ∧ (replies .empty calls)[i]? = some (.id ⟨k + 1⟩) := by
  have hi := Nat.le_of_lt (lt_length_of_getElem? hname)
  obtain ⟨id, hid⟩ : ∃ id, (after .empty (calls.take i)).get? name = some id := by
    rw [allocation?_eq (tallied_after hi).allotted hname] at hold
    exact Option.ne_none_iff_exists'.1 (by simpa using hold)
  obtain ⟨k, hk, rfl⟩ := (get?_after_iff hi hroom).1 hid
  refine ⟨k, hk, ?_⟩
  rw [getElem?_replies, hname, Option.map_some]
  exact congrArg (fun p : RuleId × RuleIds => some (Reply.id p.1)) (idFor_of_get? hid)

/-- A look-up finds the id that its name was allocated, and allocates
nothing. -/
theorem exists_getElem?_replies_of_get (hname : calls[i]? = some (.request (.get name))) :
    after .empty (calls.take (i + 1)) = after .empty (calls.take i)
      ∧ ∃ found, (replies .empty calls)[i]? = some (.found found)
        ∧ ∀ id, found = some id
          ↔ ∃ k : Nat, (allocations calls i)[k]? = some (sessionAt calls i, name)
            ∧ id = ⟨k + 1⟩ := by
  refine ⟨after_take_succ hname, _, by rw [getElem?_replies, hname]; rfl, fun id => ?_⟩
  exact get?_after_iff (Nat.le_of_lt (lt_length_of_getElem? hname)) hroom

/-- The ids of a session are the numbers of its allocations, which are the
last ones. -/
theorem exists_get?_after_iff (hi : i ≤ calls.length) (id : RuleId) :
    (∃ name, (after .empty (calls.take i)).get? name = some id)
      ↔ (allocations calls i).length - (sinceCompacted calls i).length < id.value
        ∧ id.value ≤ (allocations calls i).length := by
  simp only [get?_after_iff hi hroom]
  rw [exists_comm]
  simp only [exists_and_right, exists_allocations_iff]
  constructor
  · intro hplace
    obtain ⟨k, ⟨hfrom, hto⟩, rfl⟩ := hplace
    exact ⟨Nat.lt_succ_of_le hfrom, hto⟩
  · intro hblock
    obtain ⟨hfrom, hto⟩ := hblock
    refine ⟨id.value - 1, ⟨by omega, by omega⟩, congrArg RuleId.mk ?_⟩
    omega

end Room

/-- While there are ids left, whatever is called in whatever order: the
`k`-th allocation of the run is answered with `k`; every other request for
an id, and every look-up, is answered with the id that its name was
allocated in the running session, a look-up with none if there is none; the
size is the number of allocations in the session; and the ids of the session
are as many consecutive numbers, the last one allocated being the last. -/
theorem replies_dense (calls : List Call)
    (hroom : (allocations calls calls.length).length ≤ RuleId.largest) :
    (∀ i p, allocation? calls i = some p →
      (replies .empty calls)[i]? = some (.id ⟨(allocations calls i).length + 1⟩))
    ∧ (∀ (i : Nat) name, calls[i]? = some (.request (.idFor name)) → allocation? calls i = none →
      ∃ k, (allocations calls i)[k]? = some (sessionAt calls i, name)
        ∧ (replies .empty calls)[i]? = some (.id ⟨k + 1⟩))
    ∧ (∀ (i : Nat) name, calls[i]? = some (.request (.get name)) →
      after .empty (calls.take (i + 1)) = after .empty (calls.take i)
        ∧ ∃ found, (replies .empty calls)[i]? = some (.found found)
          ∧ ∀ id, found = some id
            ↔ ∃ k : Nat, (allocations calls i)[k]? = some (sessionAt calls i, name)
              ∧ id = ⟨k + 1⟩)
    ∧ (∀ i : Nat, calls[i]? = some .size →
      (replies .empty calls)[i]? = some (.size (sinceCompacted calls i).length))
    ∧ ∀ i ≤ calls.length, ∀ id : RuleId,
      (∃ name, (after .empty (calls.take i)).get? name = some id)
        ↔ (allocations calls i).length - (sinceCompacted calls i).length < id.value
          ∧ id.value ≤ (allocations calls i).length := by
  refine ⟨?_, ?_, ?_, ?_, ?_⟩
  · exact fun i p hp => getElem?_replies_of_allocates hroom hp
  · exact fun i name hname hold => exists_getElem?_replies_of_known hroom hname hold
  · exact fun i name hname => exists_getElem?_replies_of_get hroom hname
  · intro i hsize
    rw [getElem?_replies, hsize, Option.map_some]
    have htallied := tallied_after (Nat.le_of_lt (lt_length_of_getElem? hsize))
    exact congrArg (fun n => some (Reply.size n)) htallied.size
  · exact fun i hi id => exists_get?_after_iff hroom hi id

-- --- two sessions

/-- Two names in one session and the same two, the other way round, in the
next; with look-ups, a request again, and the sizes. -/
def twoSessions : List Call :=
  [.request (.idFor "a"), .request (.get "b"), .request (.idFor "b"), .request (.idFor "a"),
    .size, .request .compact, .request (.get "a"), .request (.idFor "b"),
    .request (.idFor "a"), .request (.get "b"), .size]

/-- The fourth allocation is answered with 4, in the second session; the name
that the first session knew is not found before, and the request again is
answered with the id from before; and the second session has the ids 3
and 4. -/
theorem replies_dense_twoSessions :
    (allocations twoSessions twoSessions.length).length ≤ RuleId.largest
      ∧ allocation? twoSessions 8 = some (1, "a")
      ∧ (replies .empty twoSessions)[8]? = some (.id ⟨4⟩)
      ∧ (∃ k, (allocations twoSessions 3)[k]? = some (0, "a")
        ∧ (replies .empty twoSessions)[3]? = some (.id ⟨k + 1⟩))
      ∧ (∃ found, (replies .empty twoSessions)[6]? = some (.found found)
        ∧ ∀ id, found = some id
          ↔ ∃ k : Nat, (allocations twoSessions 6)[k]? = some (1, "a") ∧ id = ⟨k + 1⟩)
      ∧ (replies .empty twoSessions)[10]? = some (.size 2)
      ∧ ∀ id : RuleId, (∃ name, (after .empty (twoSessions.take 11)).get? name = some id)
        ↔ 2 < id.value ∧ id.value ≤ 4 := by
  have hroom : (allocations twoSessions twoSessions.length).length ≤ RuleId.largest := by decide
  obtain ⟨hnew, hknown, hget, hsize, hblock⟩ := replies_dense twoSessions hroom
  exact ⟨hroom, by decide, hnew 8 (1, "a") (by decide), hknown 3 "a" rfl (by decide),
    (hget 6 "a" rfl).2, hsize 10 rfl, hblock 11 (by decide)⟩

end RuleIds

end ScopeRules
