/-
What an interner has made, over all of its sessions. The texts of a session
are forgotten when it ends, and a symbol shows only its text and its stamp.
So where the symbol with a stamp comes from is not to be read off the
interner: `Minted` keeps it, as a list with the `Origin` of every symbol,
oldest first. The stamp of a symbol is its place there.

# The two facts that everything else rests on

- The list has no duplicates: in a session one symbol is made for a text,
  and sessions are told apart by their numbers, as loose symbols are by the
  calls that made them. So symbols with one stamp have one origin, and
  symbols with one origin have one stamp.
- The list only grows (`Minted.intern`, `Minted.loose`, `Minted.clear`), so
  what is known of a symbol when it is made stays true.

# Known texts

A text that the session knows is answered without a change (`intern_of_get?`).
Hence asking for texts twice is asking once (`internAll_internAll`), and the
texts of a session are those that were asked for in it (`Knows`).
-/
import Mathlib.Data.Finset.Card
import ScopeRules.Interner
import ScopeRules.Proofs.IssuedIds

namespace ScopeRules

namespace Interner

-- ============================================================= requests

variable {i : Interner} {text : String} {stamp : Nat}

/-- A known text is answered with its symbol, and nothing changes. -/
theorem intern_of_get? (h : i.strings.get? text = some stamp) :
    i.intern text = (⟨text, stamp⟩, i) := by
  rw [intern, h]

/-- A new text gets the next stamp. -/
theorem intern_of_none (h : i.strings.get? text = none) :
    i.intern text = (⟨text, i.stamped⟩, ⟨i.strings.put text i.stamped, i.stamped + 1⟩) := by
  rw [intern, h]

theorem get?_intern (i : Interner) (text other : String) :
    (i.intern text).2.strings.get? other
      = if text = other then some (i.intern text).1.stamp else i.strings.get? other := by
  cases h : i.strings.get? text with
  | some stamp =>
    rw [intern_of_get? h]
    split
    · rename_i htext
      exact htext ▸ h
    · rfl
  | none =>
    rw [intern_of_none h]
    exact Assoc.get?_put _ _ _ _

theorem internAll_cons (i : Interner) (text : String) (texts : List String) :
    i.internAll (text :: texts) = (i.intern text).2.internAll texts := rfl

/-- A text that is known keeps its stamp through further requests. -/
theorem get?_internAll_of_some (texts : List String) (h : i.strings.get? text = some stamp) :
    (i.internAll texts).strings.get? text = some stamp := by
  induction texts generalizing i with
  | nil => exact h
  | cons other texts ih =>
    rw [internAll_cons]
    refine ih ?_
    rw [get?_intern]
    split
    · rename_i htext
      subst htext
      rw [intern_of_get? h]
    · exact h

/-- After requests for some texts, each of them is known. -/
theorem exists_get?_internAll {texts : List String} (i : Interner) (h : text ∈ texts) :
    ∃ stamp, (i.internAll texts).strings.get? text = some stamp := by
  induction texts generalizing i with
  | nil => cases h
  | cons other texts ih =>
    rw [internAll_cons]
    rcases List.mem_cons.1 h with rfl | h
    · refine ⟨(i.intern text).1.stamp, get?_internAll_of_some texts ?_⟩
      rw [get?_intern, if_pos rfl]
    · exact ih _ h

/-- Requests for texts that are known change nothing. -/
theorem internAll_of_known {texts : List String}
    (h : ∀ text ∈ texts, ∃ stamp, i.strings.get? text = some stamp) : i.internAll texts = i := by
  induction texts with
  | nil => rfl
  | cons text texts ih =>
    obtain ⟨⟨stamp, hstamp⟩, hmore⟩ := List.forall_mem_cons.1 h
    rw [internAll_cons, intern_of_get? hstamp]
    exact ih hmore

/-- Asking for texts again is asking for them once. -/
theorem internAll_internAll (i : Interner) (texts : List String) :
    (i.internAll texts).internAll texts = i.internAll texts :=
  internAll_of_known fun _ htext => exists_get?_internAll i htext

-- =================================================== the known texts

/-- The texts that an interner knows, each under one stamp. -/
structure Knows (i : Interner) (texts : List String) : Prop where
  distinct : i.strings.Distinct
  mem_iff : ∀ text, text ∈ i.strings.keys ↔ text ∈ texts

theorem knows_empty : Knows .empty [] := ⟨List.nodup_nil, fun _ => Iff.rfl⟩

theorem Knows.intern {texts : List String} (h : i.Knows texts) (text : String) :
    (i.intern text).2.Knows (texts ++ [text]) := by
  cases hstamp : i.strings.get? text with
  | some stamp =>
    have hknown : text ∈ texts := by
      rw [← h.mem_iff, Assoc.mem_keys_iff_has, Assoc.has, hstamp]
      rfl
    rw [intern_of_get? hstamp]
    refine ⟨h.distinct, ?_⟩
    intro other
    rw [h.mem_iff, List.mem_append, List.mem_singleton]
    constructor
    · exact .inl
    · rintro (hother | rfl)
      · exact hother
      · exact hknown
  | none =>
    have hnew : i.strings.has text = false := by
      rw [Assoc.has, hstamp]
      rfl
    rw [intern_of_none hstamp]
    refine ⟨Assoc.put_distinct h.distinct _ _, ?_⟩
    intro other
    show other ∈ (i.strings.put text i.stamped).keys ↔ _
    rw [Assoc.keys_put, hnew, if_neg Bool.false_ne_true, List.mem_append, List.mem_append,
      h.mem_iff]

theorem Knows.internAll {texts : List String} (h : i.Knows texts) (more : List String) :
    (i.internAll more).Knows (texts ++ more) := by
  induction more generalizing i texts with
  | nil =>
    rw [List.append_nil]
    exact h
  | cons text more ih =>
    rw [internAll_cons, ← List.singleton_append, ← List.append_assoc]
    exact ih (h.intern text)

/-- An interner has as many strings as it knows different texts. -/
theorem Knows.size_eq {texts : List String} (h : i.Knows texts) :
    i.size = texts.toFinset.card := by
  have hsame : texts.toFinset = i.strings.keys.toFinset := by
    ext text
    rw [List.mem_toFinset, List.mem_toFinset, h.mem_iff]
  rw [hsame, List.toFinset_card_of_nodup h.distinct, size, Assoc.keys, List.length_map]

-- ============================================================== origins

/-- Where a symbol comes from: from a request for a text in a session, or
from a call for a symbol of its own. -/
inductive Origin where
  | interned (session : Nat) (text : String)
  | loose (call : Nat) (text : String)
  deriving DecidableEq, Repr, Inhabited

/-- What an interner has made after `calls` calls, with its session of number
`session` running: the origin of every symbol, at the place of its stamp. -/
structure Minted (i : Interner) (session calls : Nat) (past : List Origin) : Prop where
  distinct : past.Nodup
  stamped : i.stamped = past.length
  answers : ∀ text stamp, i.strings.get? text = some stamp
    ↔ past[stamp]? = some (.interned session text)
  sessions : ∀ s text, .interned s text ∈ past → s ≤ session
  calls : ∀ n text, .loose n text ∈ past → n < calls

section

variable {session calls : Nat} {past : List Origin}

theorem minted_empty : Minted .empty 0 0 [] where
  distinct := List.nodup_nil
  stamped := rfl
  answers := by
    intro text stamp
    simp [empty]
  sessions := by
    intro s text h
    cases h
  calls := by
    intro n text h
    cases h

/-- A call that makes no loose symbol leaves the record as it stands. -/
theorem Minted.next (h : i.Minted session calls past) : i.Minted session (calls + 1) past where
  distinct := h.distinct
  stamped := h.stamped
  answers := h.answers
  sessions := h.sessions
  calls n text hmem := Nat.lt_succ_of_lt (h.calls n text hmem)

/-- Ending the session makes nothing, and nothing that was made is of the
session that begins. -/
theorem Minted.clear (h : i.Minted session calls past) :
    i.clear.Minted (session + 1) calls past where
  distinct := h.distinct
  stamped := h.stamped
  answers := by
    intro text stamp
    constructor
    · intro hstamp
      cases hstamp
    · intro hplace
      have hle := h.sessions _ _ (List.mem_of_getElem? hplace)
      omega
  sessions s text hmem := Nat.le_succ_of_le (h.sessions s text hmem)
  calls := h.calls

/-- A symbol of its own is the latest that was made. -/
theorem Minted.loose (h : i.Minted session calls past) (text : String) :
    (i.loose text).2.Minted session (calls + 1) (past ++ [.loose calls text])
      ∧ (past ++ [.loose calls text])[(i.loose text).1.stamp]? = some (.loose calls text) := by
  have hnew : .loose calls text ∉ past := fun hmem => Nat.lt_irrefl _ (h.calls _ _ hmem)
  refine ⟨⟨?_, ?_, ?_, ?_, ?_⟩, ?_⟩
  · exact nodup_append_singleton h.distinct hnew
  · rw [List.length_append, ← h.stamped]
    rfl
  · intro other stamp
    rw [getElem?_append_singleton_iff]
    constructor
    · intro hstamp
      exact .inl ((h.answers other stamp).1 hstamp)
    · rintro (hplace | ⟨-, hplace⟩)
      · exact (h.answers other stamp).2 hplace
      · cases hplace
  · intro s other hmem
    rcases List.mem_append.1 hmem with hmem | hmem
    · exact h.sessions s other hmem
    · cases List.mem_singleton.1 hmem
  · intro n other hmem
    rcases List.mem_append.1 hmem with hmem | hmem
    · exact Nat.lt_succ_of_lt (h.calls n other hmem)
    · cases List.mem_singleton.1 hmem
      exact Nat.lt_succ_self _
  · exact getElem?_append_singleton_iff.2 (.inr ⟨h.stamped, rfl⟩)

/-- A new text is the latest that a symbol was made for. -/
theorem Minted.intern_of_none (h : i.Minted session calls past)
    (hnone : i.strings.get? text = none) :
    (i.intern text).2.Minted session calls (past ++ [.interned session text]) := by
  have hnew : .interned session text ∉ past := by
    intro hmem
    obtain ⟨stamp, hplace⟩ := List.mem_iff_getElem?.1 hmem
    rw [(h.answers text stamp).2 hplace] at hnone
    cases hnone
  refine ⟨?_, ?_, ?_, ?_, ?_⟩
  · exact nodup_append_singleton h.distinct hnew
  · rw [Interner.intern_of_none hnone, List.length_append, ← h.stamped]
    rfl
  · intro other stamp
    rw [get?_intern, Interner.intern_of_none hnone, getElem?_append_singleton_iff]
    by_cases htext : text = other
    · subst htext
      rw [if_pos rfl, ← h.stamped]
      constructor
      · intro hstamp
        exact .inr ⟨(Option.some.inj hstamp).symm, rfl⟩
      · rintro (hplace | ⟨rfl, -⟩)
        · exact absurd (List.mem_of_getElem? hplace) hnew
        · rfl
    · rw [if_neg htext, h.answers]
      constructor
      · exact .inl
      · rintro (hplace | ⟨-, hplace⟩)
        · exact hplace
        · cases hplace
          exact absurd rfl htext
  · intro s other hmem
    rcases List.mem_append.1 hmem with hmem | hmem
    · exact h.sessions s other hmem
    · cases List.mem_singleton.1 hmem
      exact Nat.le_refl _
  · intro n other hmem
    rcases List.mem_append.1 hmem with hmem | hmem
    · exact h.calls n other hmem
    · cases List.mem_singleton.1 hmem

/-- A request for a text is answered from the record, or adds to it. -/
theorem Minted.intern (h : i.Minted session calls past) (text : String) :
    ∃ new, (i.intern text).2.Minted session calls (past ++ new) := by
  cases hstamp : i.strings.get? text with
  | some stamp =>
    refine ⟨[], ?_⟩
    rw [intern_of_get? hstamp, List.append_nil]
    exact h
  | none => exact ⟨_, h.intern_of_none hstamp⟩

theorem Minted.internAll (h : i.Minted session calls past) (texts : List String) :
    ∃ new, (i.internAll texts).Minted session calls (past ++ new) := by
  induction texts generalizing i past with
  | nil =>
    refine ⟨[], ?_⟩
    rw [List.append_nil]
    exact h
  | cons text texts ih =>
    obtain ⟨new, hnew⟩ := h.intern text
    obtain ⟨more, hmore⟩ := ih hnew
    refine ⟨new ++ more, ?_⟩
    rw [← List.append_assoc]
    exact hmore

/-- The symbol for a text comes from the running session, as the interner
stands after the request. -/
theorem Minted.origin_intern (text : String)
    (h : (i.intern text).2.Minted session calls past) :
    past[(i.intern text).1.stamp]? = some (.interned session text) := by
  refine (h.answers text _).1 ?_
  rw [get?_intern, if_pos rfl]

end

end Interner

end ScopeRules
