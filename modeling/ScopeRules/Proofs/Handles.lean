/-
Symbols as handles. Calls of every kind are put to one interner in any
order: requests for texts, requests for symbols of their own, ends of
sessions, and documents added to tables. A handle is a symbol that such a
call gives out, or that a rule holds which it compiles (`Given`).

# From rules to requests

A compiled rule holds a symbol as its scope, an attribute, a label, a
selector, or the scope that a reference asks for (`Rule.Holds`). Each was
brought by a piece that was stored in the rule (`holds_store`), hence by a
construct of the outline, whose text was among those that were requested
(`holds_fill`, `holds_rules`). So a symbol in a rule, however deep in a
document, is the answer to a request of the call that added the document.

# The run

`minted_after` keeps the record of all symbols (Interning.lean) in step with
the calls, and with it the origin of every handle: the text and the session
of the call, or for a loose symbol the call itself. Two handles have one
stamp if and only if they have one origin, and two calls are in one session
if and only if none between them ends it (`sessionAt_eq_iff`).
-/
import ScopeRules.Proofs.InOrder
import ScopeRules.Proofs.Interning

namespace ScopeRules

-- ================================================== symbols in rules

/-- The symbols that a rule holds itself. -/
inductive Rule.Holds (r : Rule) : Symbol → Prop where
  | scope {s : Symbol} (h : r.scope = some s) : r.Holds s
  | attribute {key : AttributeKey} {s : Symbol} (h : (key, s) ∈ r.attributes) : r.Holds s
  | label {key : CaptureKey} {table : CaptureTable} {index : Nat} {s : Symbol}
      (htable : (key, table) ∈ r.captures) (h : (index, .label s) ∈ table.groups) : r.Holds s
  | selector {s : Symbol} {x : Rule} (h : (s, x) ∈ r.injections) : r.Holds s
  /-- The scope that a child or entry asks for. -/
  | target {p : Reference} {s : Symbol} (hnode : .reference p ∈ r.nodes)
      (h : p.scope? = some s) : r.Holds s

/-- The symbols that a piece brings into the rule that it is stored in. -/
def Piece.Brings (c : Context) (s : Symbol) : Piece → Prop
  | .attribute _ text => s = text
  | .label _ _ text => s = text
  | .node place _ x =>
    (∃ text, place.text? = some text ∧ s = c.symbol text)
      ∨ ∃ p, x = .reference p ∧ p.scope? = some s

namespace Context

variable {c : Context} {s : Symbol}

/-- Storing a piece adds at most what it brings to what the rule holds. -/
theorem holds_store {r : Rule} {q : Piece} (h : (c.store r q).Holds s) :
    r.Holds s ∨ q.Brings c s := by
  cases h with
  | scope h => exact .inl (.scope ((c.store_identity r q).2.2 ▸ h))
  | «attribute» h =>
    rw [attributes_store] at h
    cases q with
    | «attribute» key text =>
      rcases Assoc.mem_of_mem_put h with h | h
      · exact .inr (Prod.mk.inj h).2
      · exact .inl (.attribute h)
    | _ => exact .inl (.attribute h)
  | label htable h =>
    cases q with
    | «attribute» key text => exact .inl (.label htable h)
    | label key index text =>
      rcases mem_groups_setCapture htable h with h | ⟨old, hold, h⟩
      · exact .inr (Capture.label.inj h)
      · exact .inl (.label hold h)
    | node place source x =>
      cases x with
      | reference p => cases place <;> exact .inl (.label htable h)
      | rule x =>
        cases place with
        | capture key index =>
          rcases mem_groups_setCapture htable h with h | ⟨old, hold, h⟩
          · cases h
          · exact .inl (.label hold h)
        | _ => exact .inl (.label htable h)
  | selector h =>
    rw [injections_store] at h
    rcases List.mem_append.1 h with h | h
    · exact .inl (.selector h)
    · unfold injected? at h
      split at h
      · cases List.mem_singleton.1 h
        exact .inr (.inl ⟨_, rfl, rfl⟩)
      · cases h
  | target hnode h =>
    rcases c.mem_nodes_of_mem_nodes_store hnode with hnode | ⟨place, source, rfl⟩
    · exact .inl (.target hnode h)
    · exact .inr (.inr ⟨_, rfl, h⟩)

end Context

namespace Outline

variable {c : Context} {s : Symbol}

/-- The scope that a reference asks for is the symbol of the one in its
include. -/
theorem exists_of_scope?_reference {anchor : NodeId} {target : Include}
    (h : (c.reference anchor target).scope? = some s) :
    ∃ text, target.scope? = some text ∧ s = c.symbol text := by
  cases target with
  | foreign scope name => exact ⟨scope, rfl, (Option.some.inj h).symm⟩
  | _ => cases h

/-- Filling an outline into a rule adds symbols of its texts. -/
theorem holds_fill (o : Outline) {next : Nat} {r : Rule} (h : (o.fill c next r).Holds s) :
    r.Holds s ∨ ∃ text ∈ o.texts, s = c.symbol text := by
  induction o generalizing next r with
  | nothing => exact .inl h
  | «attribute» key text rest ih =>
    rcases ih h with h | ⟨other, hother, hs⟩
    · rcases Context.holds_store (c := c) (q := .attribute key (c.symbol text)) h with h | hs
      · exact .inl h
      · exact .inr ⟨text, .head _, hs⟩
    · exact .inr ⟨other, .tail _ hother, hs⟩
  | unusable key rest ih => exact ih h
  | label key index text rest ih =>
    rcases ih h with h | ⟨other, hother, hs⟩
    · rcases Context.holds_store (c := c) (q := .label key index (c.symbol text)) h with h | hs
      · exact .inl h
      · exact .inr ⟨text, .head _, hs⟩
    · exact .inr ⟨other, .tail _ hother, hs⟩
  | reference place target rest ih =>
    rw [texts]
    rcases ih h with h | ⟨other, hother, hs⟩
    · rcases Context.holds_store (c := c)
        (q := .node place [] (.reference (c.reference r.id target))) h with
        h | ⟨text, hplace, hs⟩ | ⟨p, hp, hscope⟩
      · exact .inl h
      · exact .inr ⟨text, by simp [hplace], hs⟩
      · cases hp
        obtain ⟨text, htarget, hs⟩ := exists_of_scope?_reference hscope
        exact .inr ⟨text, by simp [htarget], hs⟩
    · exact .inr ⟨other, List.mem_append_right _ hother, hs⟩
  | rule place scope body rest _ ih =>
    rw [texts]
    rcases ih h with h | ⟨other, hother, hs⟩
    · rcases Context.holds_store (c := c) (q := .node place [] (.rule _)) h with
        h | ⟨text, hplace, hs⟩ | ⟨p, hp, -⟩
      · exact .inl h
      · exact .inr ⟨text, by simp [hplace], hs⟩
      · cases hp
    · exact .inr ⟨other, List.mem_append_right _ hother, hs⟩

/-- A rule filled from nothing holds the symbols of its scope and of the texts
in its content. -/
theorem holds_fill_unfilled (o : Outline) {next serial : Nat} {scope : Option String}
    {parent : Option NodeId} (h : (o.fill c next (c.unfilled serial scope parent)).Holds s) :
    ∃ text ∈ scope.toList ++ o.texts, s = c.symbol text := by
  rcases o.holds_fill h with h | ⟨text, htext, hs⟩
  · cases h with
    | scope h =>
      obtain ⟨text, hscope, hs⟩ := Option.map_eq_some_iff.1 h
      exact ⟨text, by simp [hscope], hs.symm⟩
    | «attribute» h => cases h
    | label htable => cases htable
    | selector h => cases h
    | target hnode => cases hnode
  · exact ⟨text, List.mem_append_right _ htext, hs⟩

/-- The rules of an outline hold symbols of its texts, at any depth. -/
theorem holds_rules (o : Outline) {next : Nat} {owner : NodeId} {r : Rule}
    (hr : r ∈ o.rules c next owner) (h : r.Holds s) : ∃ text ∈ o.texts, s = c.symbol text := by
  induction o generalizing next owner with
  | nothing => cases hr
  | «attribute» key text rest ih =>
    obtain ⟨other, hother, hs⟩ := ih hr
    exact ⟨other, .tail _ hother, hs⟩
  | unusable key rest ih => exact ih hr
  | label key index text rest ih =>
    obtain ⟨other, hother, hs⟩ := ih hr
    exact ⟨other, .tail _ hother, hs⟩
  | reference place target rest ih =>
    obtain ⟨other, hother, hs⟩ := ih hr
    exact ⟨other, List.mem_append_right _ hother, hs⟩
  | rule place scope body rest ihbody ih =>
    rw [texts]
    rcases List.mem_cons.1 hr with rfl | hr
    · obtain ⟨text, htext, hs⟩ := body.holds_fill_unfilled h
      refine ⟨text, List.mem_append_left _ ?_, hs⟩
      rw [List.append_assoc]
      exact List.mem_append_right _ htext
    · rcases List.mem_append.1 hr with hr | hr
      · obtain ⟨text, htext, hs⟩ := ihbody hr
        exact ⟨text, List.mem_append_left _ (List.mem_append_right _ htext), hs⟩
      · obtain ⟨text, htext, hs⟩ := ih hr
        exact ⟨text, List.mem_append_right _ htext, hs⟩

end Outline

/-- A symbol in a compiled rule answers a request for one of the texts of the
document, put to the interner that the document leaves. -/
theorem Table.exists_of_holds {t : Table} {i : Interner} {d : Document} {r : Rule} {s : Symbol}
    (hr : r ∈ (t.compile i d).rules) (h : r.Holds s) :
    ∃ text ∈ Grammar.texts d, s = ((t.add i d).interner.intern text).1 := by
  rcases List.mem_cons.1 hr with rfl | hr
  · exact Outline.holds_fill_unfilled _ h
  · obtain ⟨text, htext, hs⟩ := Outline.holds_rules _ hr h
    exact ⟨text, List.mem_append_right _ htext, hs⟩

namespace Interner

-- =============================================================== calls

/-- A call that uses an interner; documents are added to any tables. -/
inductive Call where
  | intern (text : String)
  | loose (text : String)
  | clear
  | add (table : Table) (document : Document)

/-- The interner after a call. -/
def call (i : Interner) : Call → Interner
  | .intern text => (i.intern text).2
  | .loose text => (i.loose text).2
  | .clear => i.clear
  | .add t d => (t.add i d).interner

/-- The interner after some calls, from a new one on. -/
def after (calls : List Call) : Interner := calls.foldl call .empty

/-- The handles that a call gives out, or that are found in what it
compiles. -/
inductive Gives (i : Interner) : Call → Symbol → Prop where
  | intern (text : String) : i.Gives (.intern text) (i.intern text).1
  | loose (text : String) : i.Gives (.loose text) (i.loose text).1
  | compiled {t : Table} {d : Document} {r : Rule} {s : Symbol}
      (hr : r ∈ (t.compile i d).rules) (h : r.Holds s) : i.Gives (.add t d) s

/-- Whether a handle comes from the call at place `m`. -/
def Given (calls : List Call) (m : Nat) (s : Symbol) : Prop :=
  ∃ c, calls[m]? = some c ∧ (after (calls.take m)).Gives c s

namespace Call

def isLoose : Call → Bool
  | .loose _ => true
  | _ => false

def isClear : Call → Bool
  | .clear => true
  | _ => false

/-- The texts that a call has interned, in order. -/
def texts : Call → List String
  | .intern text => [text]
  | .add _ d => Grammar.texts d
  | _ => []

/-- Where the handles of a call come from, if it is made at place `m` and in
the session with the given number. -/
def origin (c : Call) (session m : Nat) (text : String) : Origin :=
  if c.isLoose then .loose m text else .interned session text

end Call

/-- The number of the session in which the call at place `m` is made. -/
def sessionAt (calls : List Call) (m : Nat) : Nat := (calls.take m).countP Call.isClear

/-- The calls since the interner was cleared last. -/
def sinceCleared (calls : List Call) : List Call :=
  (calls.reverse.takeWhile fun c => !c.isClear).reverse

-- ============================================================ sessions

variable {calls : List Call} {m n : Nat}

theorem sessionAt_succ (calls : List Call) (m : Nat) :
    sessionAt calls (m + 1) = sessionAt calls m + (calls[m]?.toList).countP Call.isClear := by
  rw [sessionAt, List.take_add_one, List.countP_append]
  rfl

theorem sessionAt_mono (h : m ≤ n) : sessionAt calls m ≤ sessionAt calls n :=
  (List.take_prefix_take_left h).sublist.countP_le

/-- Two calls are in one session if none from the first on ends it before the
second. -/
theorem sessionAt_eq_iff (h : m ≤ n) :
    sessionAt calls m = sessionAt calls n ↔ ∀ j, m ≤ j → j < n → calls[j]? ≠ some .clear := by
  induction h with
  | refl =>
    refine iff_of_true rfl ?_
    intro j hle hlt
    omega
  | @step n hmn ih =>
    have hmono : sessionAt calls m ≤ sessionAt calls n := sessionAt_mono hmn
    have hlast : (calls[n]?.toList).countP Call.isClear = 0 ↔ calls[n]? ≠ some .clear := by
      rcases calls[n]? with _ | _ | _ | _ | _ <;> simp [Call.isClear]
    rw [sessionAt_succ]
    constructor
    · intro hsame j hle hlt
      rcases Nat.lt_succ_iff_lt_or_eq.1 hlt with hlt | rfl
      · exact ih.1 (by omega) j hle hlt
      · exact hlast.1 (by omega)
    · intro hnone
      have hsame := ih.2 fun j hle hlt => hnone j hle (by omega)
      have hzero := hlast.2 (hnone n hmn (Nat.lt_succ_self n))
      omega

-- ============================================================== the run

/-- One call adds to what was made, and its handles are of the origin that
belongs to it. -/
theorem Minted.call {i : Interner} {session : Nat} {past : List Origin}
    (h : i.Minted session m past) (c : Call) :
    ∃ new, (i.call c).Minted (session + [c].countP Call.isClear) (m + 1) (past ++ new)
      ∧ ∀ s, i.Gives c s → (past ++ new)[s.stamp]? = some (c.origin session m s.text) := by
  cases c with
  | intern text =>
    obtain ⟨new, hnew⟩ := h.intern text
    refine ⟨new, hnew.next, ?_⟩
    intro s hs
    cases hs
    rw [text_intern]
    exact hnew.origin_intern text
  | loose text =>
    obtain ⟨hnew, hplace⟩ := h.loose text
    refine ⟨_, hnew, ?_⟩
    intro s hs
    cases hs
    exact hplace
  | clear =>
    refine ⟨[], ?_, ?_⟩
    · rw [List.append_nil]
      exact h.clear.next
    · intro s hs
      cases hs
  | add t d =>
    obtain ⟨new, hnew⟩ := h.internAll (Grammar.texts d)
    refine ⟨new, hnew.next, ?_⟩
    intro s hs
    cases hs with
    | compiled hr hs =>
      -- the text is known by then, so asking for it changes nothing
      obtain ⟨text, htext, rfl⟩ := Table.exists_of_holds hr hs
      obtain ⟨stamp, hstamp⟩ := exists_get?_internAll i htext
      rw [text_intern]
      have hlast : ((i.internAll (Grammar.texts d)).intern text).2.Minted session m
          (past ++ new) := by
        rw [intern_of_get? hstamp]
        exact hnew
      exact hlast.origin_intern text

theorem after_take_succ {c : Call} (h : calls[m]? = some c) :
    after (calls.take (m + 1)) = (after (calls.take m)).call c := by
  unfold after
  rw [List.take_add_one, h, List.foldl_append]
  rfl

/-- After any number of calls, what was made is on record, and every handle
that was given out stands there with its origin. -/
theorem minted_after (hm : m ≤ calls.length) :
    ∃ past, (after (calls.take m)).Minted (sessionAt calls m) m past
      ∧ ∀ j < m, ∀ c s, calls[j]? = some c → (after (calls.take j)).Gives c s
        → past[s.stamp]? = some (c.origin (sessionAt calls j) j s.text) := by
  induction m with
  | zero =>
    refine ⟨[], minted_empty, ?_⟩
    intro j hj
    omega
  | succ m ih =>
    obtain ⟨past, hpast, hgiven⟩ := ih (Nat.le_of_lt hm)
    have hc : calls[m]? = some calls[m] := List.getElem?_eq_getElem hm
    generalize calls[m] = c at hc
    obtain ⟨new, hnew, hgives⟩ := hpast.call c
    refine ⟨past ++ new, ?_, ?_⟩
    · rw [after_take_succ hc, sessionAt_succ, hc]
      exact hnew
    · intro j hj c' s hc' hs
      rcases Nat.lt_succ_iff_lt_or_eq.1 hj with hj | rfl
      · have hplace := hgiven j hj c' s hc' hs
        obtain ⟨hlt, -⟩ := List.getElem?_eq_some_iff.1 hplace
        rw [List.getElem?_append_left hlt]
        exact hplace
      · obtain rfl : c = c' := Option.some.inj (hc.symm.trans hc')
        exact hgives s hs

/-- Two handles are copies of one symbol if and only if they have one
origin. -/
theorem identical_iff_origin_eq {a b : Symbol} {c c' : Call} (hc : calls[m]? = some c)
    (hc' : calls[n]? = some c') (ha : (after (calls.take m)).Gives c a)
    (hb : (after (calls.take n)).Gives c' b) :
    a.identical b = true
      ↔ c.origin (sessionAt calls m) m a.text = c'.origin (sessionAt calls n) n b.text := by
  obtain ⟨past, hpast, hgiven⟩ := minted_after (Nat.le_refl calls.length)
  obtain ⟨hm, -⟩ := List.getElem?_eq_some_iff.1 hc
  obtain ⟨hn, -⟩ := List.getElem?_eq_some_iff.1 hc'
  have hplace := hgiven m hm c a hc ha
  have hplace' := hgiven n hn c' b hc' hb
  obtain ⟨hlt, -⟩ := List.getElem?_eq_some_iff.1 hplace
  unfold Symbol.identical
  rw [decide_eq_true_iff]
  constructor
  · intro hstamp
    rw [← hstamp] at hplace'
    exact Option.some.inj (hplace.symm.trans hplace')
  · intro horigin
    rw [← horigin] at hplace'
    exact (List.getElem?_inj hlt hpast.distinct).1 (hplace.trans hplace'.symm)

-- =========================================================== the texts

theorem sinceCleared_append_singleton (calls : List Call) (c : Call) :
    sinceCleared (calls ++ [c]) = if c.isClear then [] else sinceCleared calls ++ [c] := by
  unfold sinceCleared
  rw [List.reverse_append, List.reverse_singleton, List.singleton_append, List.takeWhile_cons]
  cases c.isClear <;> simp

/-- The interner knows the texts that were interned since it was cleared
last. -/
theorem knows_after (calls : List Call) :
    (after calls).Knows ((sinceCleared calls).flatMap Call.texts) := by
  induction calls using List.reverseRecOn with
  | nil => exact knows_empty
  | append_singleton calls c ih =>
    have hafter : after (calls ++ [c]) = (after calls).call c := List.foldl_append
    rw [hafter, sinceCleared_append_singleton]
    cases c with
    | clear => exact ⟨List.nodup_nil, fun _ => Iff.rfl⟩
    | loose text =>
      have hsame : ((sinceCleared calls ++ [Call.loose text]).flatMap Call.texts)
          = (sinceCleared calls).flatMap Call.texts := by simp [Call.texts]
      rw [if_neg (by simp [Call.isClear]), hsame]
      exact ⟨ih.distinct, ih.mem_iff⟩
    | intern text =>
      rw [if_neg (by simp [Call.isClear]), List.flatMap_append, List.flatMap_singleton]
      exact ih.intern text
    | add t d =>
      rw [if_neg (by simp [Call.isClear]), List.flatMap_append, List.flatMap_singleton]
      exact ih.internAll (Grammar.texts d)

-- ============================================================ handles

/-- Whether the call at place `m` makes a symbol of its own. -/
def LooseAt (calls : List Call) (m : Nat) : Prop := ∃ text, calls[m]? = some (.loose text)

variable {a b : Symbol} {c c' : Call}

/-- A call that gives out handles does not end the session. -/
theorem Gives.isClear {i : Interner} (h : i.Gives c a) : c.isClear = false := by
  cases h <;> rfl

theorem isLoose_iff_looseAt (hc : calls[m]? = some c) : c.isLoose = true ↔ LooseAt calls m := by
  unfold LooseAt
  rw [hc]
  cases c <;> simp [Call.isLoose]

/-- The calls of two handles are in one session if and only if no call between
them ends it. -/
theorem sessionAt_eq_iff_between (hc : calls[m]? = some c) (hc' : calls[n]? = some c')
    (hclear : c.isClear = false) (hclear' : c'.isClear = false) :
    sessionAt calls m = sessionAt calls n
      ↔ ∀ j, min m n < j → j < max m n → calls[j]? ≠ some .clear := by
  have hfirst : ∀ {m n : Nat} {c : Call}, m ≤ n → calls[m]? = some c → c.isClear = false →
      (sessionAt calls m = sessionAt calls n ↔ ∀ j, m < j → j < n → calls[j]? ≠ some .clear) := by
    intro m n c hle hc hclear
    rw [sessionAt_eq_iff hle]
    refine ⟨fun h j hlt => h j (Nat.le_of_lt hlt), ?_⟩
    intro h j hle
    rcases Nat.eq_or_lt_of_le hle with rfl | hlt
    · intro _ hj
      rw [Option.some.inj (hc.symm.trans hj)] at hclear
      cases hclear
    · exact h j hlt
  rcases Nat.le_total m n with hle | hle
  · rw [Nat.min_eq_left hle, Nat.max_eq_right hle]
    exact hfirst hle hc hclear
  · rw [Nat.min_eq_right hle, Nat.max_eq_left hle, eq_comm]
    exact hfirst hle hc' hclear'

/-- Interned handles are copies of one symbol if and only if they have one text
and one session. -/
theorem identical_iff_of_not_loose (ha : Given calls m a) (hb : Given calls n b)
    (hm : ¬ LooseAt calls m) (hn : ¬ LooseAt calls n) :
    a.identical b = true ↔ a.text = b.text
      ∧ ∀ j, min m n < j → j < max m n → calls[j]? ≠ some .clear := by
  obtain ⟨c, hc, ha⟩ := ha
  obtain ⟨c', hc', hb⟩ := hb
  have hloose : c.isLoose = false := Bool.eq_false_iff.2 fun h => hm ((isLoose_iff_looseAt hc).1 h)
  have hloose' : c'.isLoose = false :=
    Bool.eq_false_iff.2 fun h => hn ((isLoose_iff_looseAt hc').1 h)
  rw [identical_iff_origin_eq hc hc' ha hb, Call.origin, Call.origin, hloose, hloose',
    if_neg Bool.false_ne_true, if_neg Bool.false_ne_true, Origin.interned.injEq, and_comm,
    sessionAt_eq_iff_between hc hc' ha.isClear hb.isClear]

/-- A loose handle is a copy of no other handle. -/
theorem identical_iff_of_loose (ha : Given calls m a) (hb : Given calls n b)
    (hloose : LooseAt calls m ∨ LooseAt calls n) :
    a.identical b = true ↔ m = n ∧ a = b := by
  obtain ⟨c, hc, ha⟩ := ha
  obtain ⟨c', hc', hb⟩ := hb
  rw [← isLoose_iff_looseAt hc, ← isLoose_iff_looseAt hc'] at hloose
  rw [identical_iff_origin_eq hc hc' ha hb, Call.origin, Call.origin]
  constructor
  · intro horigin
    have hboth : c.isLoose = true ∧ c'.isLoose = true := by
      rcases hloose with h | h <;> rw [h, if_pos rfl] at horigin <;> split at horigin
      · exact ⟨h, ‹_›⟩
      · cases horigin
      · exact ⟨‹_›, h⟩
      · cases horigin
    rw [hboth.1, hboth.2, if_pos rfl, if_pos rfl] at horigin
    obtain ⟨rfl, -⟩ := Origin.loose.inj horigin
    obtain rfl : c = c' := Option.some.inj (hc.symm.trans hc')
    refine ⟨rfl, ?_⟩
    -- a call makes one symbol of its own
    cases ha with
    | loose text =>
      cases hb
      rfl
    | _ => cases hboth.1
  · rintro ⟨rfl, rfl⟩
    rw [Option.some.inj (hc.symm.trans hc')]

/-- Copies of one symbol have one text. -/
theorem text_eq_of_identical (ha : Given calls m a) (hb : Given calls n b)
    (h : a.identical b = true) : a.text = b.text := by
  by_cases hloose : LooseAt calls m ∨ LooseAt calls n
  · rw [((identical_iff_of_loose ha hb hloose).1 h).2]
  · obtain ⟨hm, hn⟩ := not_or.1 hloose
    exact ((identical_iff_of_not_loose ha hb hm hn).1 h).1

/-- Later calls change no handle. -/
theorem given_append_iff (more : List Call) (h : m < calls.length) :
    Given (calls ++ more) m a ↔ Given calls m a := by
  unfold Given
  rw [List.getElem?_append_left h, List.take_append_of_le_length (Nat.le_of_lt h)]

/-- A handle has the text that its call asks for, or one of the document that
its call adds. -/
theorem Gives.text_eq {i : Interner} (h : i.Gives c a) :
    c = .intern a.text ∨ c = .loose a.text ∨ ∃ t d, c = .add t d ∧ a.text ∈ Grammar.texts d := by
  cases h with
  | intern text => exact .inl (congrArg Call.intern (i.text_intern text).symm)
  | loose text => exact .inr (.inl rfl)
  | compiled hr h =>
    obtain ⟨text, htext, rfl⟩ := Table.exists_of_holds hr h
    refine .inr (.inr ⟨_, _, rfl, ?_⟩)
    rw [text_intern]
    exact htext

/-- The identity of handles. Two interned handles are copies of one symbol if and
only if they have one text and no call between theirs clears the interner; a
loose handle is a copy of itself alone. Handles are equal as strings if and
only if their texts are equal, whatever interner they are of, and to look at
their identity first makes no difference. A handle stays as it is through all
later calls, and its text is the one asked for, or one of the document that
was added. The interner counts the different texts since it was cleared
last. -/
theorem identity_of_handles (calls : List Call) :
    (∀ m n a b, Given calls m a → Given calls n b →
        (¬ LooseAt calls m → ¬ LooseAt calls n
          → (a.identical b = true ↔ a.text = b.text
            ∧ ∀ j, min m n < j → j < max m n → calls[j]? ≠ some .clear))
        ∧ (LooseAt calls m ∨ LooseAt calls n → (a.identical b = true ↔ m = n ∧ a = b))
        ∧ (a.identical b || a.same b) = a.same b)
      ∧ (∀ a b : Symbol, a.same b = true ↔ a.text = b.text)
      ∧ (∀ more m a, m < calls.length → (Given (calls ++ more) m a ↔ Given calls m a))
      ∧ (∀ m a, Given calls m a → ∃ c, calls[m]? = some c
        ∧ (c = .intern a.text ∨ c = .loose a.text
          ∨ ∃ t d, c = .add t d ∧ a.text ∈ Grammar.texts d))
      ∧ (after calls).size = ((sinceCleared calls).flatMap Call.texts).toFinset.card := by
  refine ⟨?_, fun a b => decide_eq_true_iff, fun more m a => given_append_iff more, ?_,
    (knows_after calls).size_eq⟩
  · intro m n a b ha hb
    refine ⟨identical_iff_of_not_loose ha hb, identical_iff_of_loose ha hb, ?_⟩
    cases hsame : a.identical b with
    | false => exact Bool.false_or _
    | true => exact (decide_eq_true (text_eq_of_identical ha hb hsame)).symm
  · intro m a ha
    obtain ⟨c, hc, ha⟩ := ha
    exact ⟨c, hc, ha.text_eq⟩

-- ---------------------------------------------------------------- a run

/-- A text that is interned, made loose, asked for deep in a document, and
interned again after a clear. -/
def Call.repeating : List Call :=
  [.intern "s", .loose "s",
    .add (.new ⟨1⟩) [("captures", .dict
      [("1", .dict [("patterns", .array [.dict [("include", .string "s")]])])])],
    .clear, .intern "s"]

/-- The handle in the document is a copy of the first one; the loose one and the
one after the clear are symbols of their own. -/
theorem identity_of_handles_repeating :
    Given Call.repeating 0 ⟨"s", 0⟩ ∧ Given Call.repeating 1 ⟨"s", 1⟩
      ∧ Given Call.repeating 2 ⟨"s", 0⟩ ∧ Given Call.repeating 4 ⟨"s", 2⟩
      ∧ (∀ a, Given Call.repeating 2 a → a.text = "s" → a.identical ⟨"s", 0⟩ = true)
      ∧ (∀ a, Given Call.repeating 2 a → a.identical ⟨"s", 1⟩ = false)
      ∧ (∀ a, Given Call.repeating 2 a → a.identical ⟨"s", 2⟩ = false)
      ∧ (after Call.repeating).size = 1 := by
  have hinterned : Given Call.repeating 0 ⟨"s", 0⟩ := ⟨_, rfl, .intern "s"⟩
  have hloose : Given Call.repeating 1 ⟨"s", 1⟩ := ⟨_, rfl, .loose "s"⟩
  have hfound : Given Call.repeating 2 ⟨"s", 0⟩ :=
    ⟨_, rfl, .compiled (List.mem_of_getElem? (i := 1) rfl)
      (.target (p := .foreign ⟨1⟩ ⟨"s", 0⟩ none (some ⟨⟨1⟩, 2⟩))
        (List.mem_of_getElem? (i := 0) rfl) rfl)⟩
  have hagain : Given Call.repeating 4 ⟨"s", 2⟩ := ⟨_, rfl, .intern "s"⟩
  have hnone : ∀ m, m ≠ 1 → ¬ LooseAt Call.repeating m := by
    rintro m hm ⟨text, hloose⟩
    rcases m with _ | _ | _ | _ | _ | m
    all_goals first | exact hm rfl | cases hloose
  obtain ⟨hidentical, -, -, -, hsize⟩ := identity_of_handles Call.repeating
  refine ⟨hinterned, hloose, hfound, hagain, ?_, ?_, ?_, hsize.trans (by decide)⟩
  · intro a ha htext
    refine ((hidentical 2 0 a _ ha hinterned).1 (hnone 2 (by decide)) (hnone 0 (by decide))).2
      ⟨htext, ?_⟩
    intro j hlt hj
    obtain rfl : j = 1 := by omega
    simp [Call.repeating]
  · intro a ha
    rw [← Bool.not_eq_true, (hidentical 2 1 a _ ha hloose).2.1 (.inr ⟨"s", rfl⟩)]
    rintro ⟨h, -⟩
    cases h
  · intro a ha
    rw [← Bool.not_eq_true,
      (hidentical 2 4 a _ ha hagain).1 (hnone 2 (by decide)) (hnone 4 (by decide))]
    intro h
    exact h.2 3 (by decide) (by decide) rfl

end Interner

end ScopeRules
