/-
A compiled rule, slot by slot. A rule is built by storing one piece after
the other (Pieces.lean); this file says what it shows of each slot in the
end, in terms of the pieces for that slot alone. So the order in which a
dictionary speaks of different slots leaves no trace but in the order in
which a rule lists things.

# What follows for reordered dictionaries

Slot by slot, reordered dictionaries say the same things in the same order
(KeyOrder.lean). So the rules compiled from them match: they have the same
scope, attributes and labels, and nodes at the same places
(`Context.matches_rule`). What is said of these nodes is only where they
come from (`Piece.Given`), since a rule knows nothing of the numbers around
it.
-/
import ScopeRules.Proofs.KeyOrder
import ScopeRules.Proofs.Likeness
import ScopeRules.Proofs.Registration

namespace ScopeRules

-- ========================================================= observations

/-- What a piece says, in words of the dictionary. -/
def Piece.clause : Piece → Clause
  | .attribute key text => .attribute key text.text
  | .label key index text => .label key index text.text
  | .node place source _ => .nested place source

/-- The pieces of clauses say what the clauses say. -/
theorem Context.map_clause_pieces (c : Context) (owner : NodeId) (next : Nat)
    (clauses : List Clause) :
    (c.pieces owner next clauses).map Piece.clause
      = clauses.filter fun clause => clause.slot?.isSome := by
  induction clauses generalizing next with
  | nil => rfl
  | cons clause more ih =>
    cases clause with
    | «attribute» key text => simp [pieces, Piece.clause, Clause.slot?, ih]
    | unusable key => simp [pieces, Clause.slot?, ih]
    | label key index text => simp [pieces, Piece.clause, Clause.slot?, ih]
    | nested place source =>
      rw [pieces]
      split <;> simp [Piece.clause, Clause.slot?, ih]

/-- For one slot the pieces of a rule say what its dictionary says. -/
theorem Context.map_clause_filter_contents (c : Context) (n : Nat) (d : Document) (slot : Slot) :
    ((c.contents n d).filter fun q => q.clause.slot? = some slot).map Piece.clause
      = d.clauses.filter fun clause => clause.slot? = some slot := by
  have hpieces := congrArg (List.filter fun clause => clause.slot? = some slot)
    (c.map_clause_pieces ⟨c.table, n⟩ (n + 1) d.clauses)
  rw [List.filter_map, List.filter_filter] at hpieces
  refine hpieces.trans (List.filter_congr fun clause _ => ?_)
  by_cases hslot : clause.slot? = some slot <;> simp [hslot]

namespace Piece

/-- The node that a piece makes a child. -/
def child? : Piece → Option Node
  | .node .child _ x => some x
  | _ => none

/-- The rule that a piece injects for a selector. -/
def injection? (selector : String) : Piece → Option Node
  | .node (.injection other) _ (.rule x) => if other = selector then some (.rule x) else none
  | _ => none

/-- The text that a piece gives an attribute. -/
def attribute? (key : AttributeKey) : Piece → Option Symbol
  | .attribute other text => if other = key then some text else none
  | _ => none

/-- What a piece puts into a slot of a capture table. -/
def capture? (key : CaptureKey) (index : Nat) : Piece → Option Capture
  | .label other i text => if other = key ∧ i = index then some (.label text) else none
  | .node (.capture other i) _ (.rule x) =>
    if other = key ∧ i = index then some (.rule x) else none
  | _ => none

section Slots

variable {q : Piece}

theorem attribute?_eq_none {key : AttributeKey} (h : q.clause.slot? ≠ some (.attribute key)) :
    q.attribute? key = none := by
  cases q with
  | «attribute» other text => exact if_neg fun hkey => h (by rw [hkey]; rfl)
  | _ => rfl

theorem child?_eq_none (h : q.clause.slot? ≠ some (.place .child)) : q.child? = none := by
  cases q with
  | node place source x =>
    cases place with
    | child => exact absurd rfl h
    | _ => rfl
  | _ => rfl

theorem entryNamed?_eq_none {name : String} (h : q.clause.slot? ≠ some (.place (.entry name))) :
    q.entryNamed? name = none := by
  cases q with
  | node place source x =>
    cases place with
    | entry other => exact if_neg fun hname => h (by rw [hname]; rfl)
    | _ => rfl
  | _ => rfl

theorem injection?_eq_none {selector : String}
    (h : q.clause.slot? ≠ some (.place (.injection selector))) : q.injection? selector = none := by
  cases q with
  | node place source x =>
    cases x with
    | reference p => cases place <;> rfl
    | rule r =>
      cases place with
      | injection other => exact if_neg fun hselector => h (by rw [hselector]; rfl)
      | _ => rfl
  | _ => rfl

theorem capture?_eq_none {key : CaptureKey} {index : Nat}
    (h : q.clause.slot? ≠ some (.place (.capture key index))) : q.capture? key index = none := by
  cases q with
  | «attribute» other text => rfl
  | label other i text => exact if_neg fun hkey => h (by rw [← hkey.1, ← hkey.2]; rfl)
  | node place source x =>
    cases x with
    | reference p => cases place <;> rfl
    | rule r =>
      cases place with
      | capture other i => exact if_neg fun hkey => h (by rw [← hkey.1, ← hkey.2]; rfl)
      | _ => rfl

theorem eq_node_of_child? {x : Node} (h : q.child? = some x) :
    ∃ source, q = .node .child source x := by
  unfold child? at h
  split at h
  · cases h
    exact ⟨_, rfl⟩
  · cases h

theorem eq_node_of_entryNamed? {name : String} {p : Document × Node}
    (h : q.entryNamed? name = some p) : q = .node (.entry name) p.1 p.2 := by
  unfold entryNamed? at h
  split at h
  · obtain ⟨rfl, hp⟩ := Option.ite_none_right_eq_some.1 h
    cases hp
    rfl
  · cases h

theorem eq_node_of_injection? {selector : String} {x : Node} (h : q.injection? selector = some x) :
    ∃ source, q = .node (.injection selector) source x := by
  unfold injection? at h
  split at h
  · obtain ⟨rfl, hx⟩ := Option.ite_none_right_eq_some.1 h
    cases hx
    exact ⟨_, rfl⟩
  · cases h

theorem eq_node_of_capture? {key : CaptureKey} {index : Nat} {r : Rule}
    (h : q.capture? key index = some (.rule r)) :
    ∃ source, q = .node (.capture key index) source (.rule r) := by
  unfold capture? at h
  split at h
  · cases (Option.ite_none_right_eq_some.1 h).2
  · obtain ⟨⟨rfl, rfl⟩, hr⟩ := Option.ite_none_right_eq_some.1 h
    cases hr
    exact ⟨_, rfl⟩
  · cases h

/-- What is read off the pieces for a slot is read off all pieces. -/
theorem filterMap_filter_slot {β : Type} {f : Piece → Option β} {slot : Slot}
    (hf : ∀ q : Piece, q.clause.slot? ≠ some slot → f q = none) (pieces : List Piece) :
    (pieces.filter fun q => q.clause.slot? = some slot).filterMap f = pieces.filterMap f := by
  rw [List.filterMap_filter]
  refine List.filterMap_congr fun q _ => ?_
  by_cases hslot : q.clause.slot? = some slot
  · simp [hslot]
  · simp [hslot, hf q hslot]

end Slots

end Piece

/-- The rule that a piece injects, with its selector. -/
def Context.injected? (c : Context) : Piece → Option (Symbol × Rule)
  | .node (.injection selector) _ (.rule x) => some (c.symbol selector, x)
  | _ => none

namespace Rule

/-- The rules injected for a selector. -/
def injectionsFor (r : Rule) (selector : String) : List Node :=
  r.injections.filterMap fun p => if p.1.text = selector then some (.rule p.2) else none

/-- The capture table under a key, the empty one if there is none. -/
def groupsOf (r : Rule) (key : CaptureKey) : CaptureTable := (r.capture? key).getD .empty

end Rule

-- ======================================================= after storing

namespace Context

variable (c : Context)

theorem children_store (r : Rule) (q : Piece) :
    (c.store r q).children = r.children ++ q.child?.toList := by
  have hsame : ∀ s : Rule, s.children = r.children → s.children = r.children ++ [] := by
    intro s hs
    rw [hs, List.append_nil]
  cases q with
  | node place source x =>
    cases place with
    | child => cases x <;> rfl
    | _ => cases x <;> exact hsame _ rfl
  | _ => exact hsame _ rfl

/-- The children are the nodes of the pieces for children, in order. -/
theorem children_foldl_store (pieces : List Piece) (r : Rule) :
    (pieces.foldl c.store r).children = r.children ++ pieces.filterMap Piece.child? := by
  induction pieces generalizing r with
  | nil => exact (List.append_nil _).symm
  | cons q more ih =>
    rw [List.foldl_cons, ih, children_store, List.append_assoc, List.filterMap_cons]
    cases q.child? <;> rfl

theorem injections_store (r : Rule) (q : Piece) :
    (c.store r q).injections = r.injections ++ (c.injected? q).toList := by
  have hsame : ∀ s : Rule, s.injections = r.injections → s.injections = r.injections ++ [] := by
    intro s hs
    rw [hs, List.append_nil]
  cases q with
  | node place source x =>
    cases place with
    | injection selector =>
      cases x with
      | rule x => rfl
      | reference p => exact hsame _ rfl
    | _ => cases x <;> exact hsame _ rfl
  | _ => exact hsame _ rfl

/-- The injections are the rules of the pieces that inject, in order. -/
theorem injections_foldl_store (pieces : List Piece) (r : Rule) :
    (pieces.foldl c.store r).injections = r.injections ++ pieces.filterMap c.injected? := by
  induction pieces generalizing r with
  | nil => exact (List.append_nil _).symm
  | cons q more ih =>
    rw [List.foldl_cons, ih, injections_store, List.append_assoc, List.filterMap_cons]
    cases c.injected? q <;> rfl

/-- What is stored later under one key comes before what was there. -/
theorem getLast?_filterMap_cons {α β : Type} {f : α → Option β} {a : α} {more : List α} :
    ((a :: more).filterMap f).getLast? = ((more.filterMap f).getLast?).or (f a) := by
  rw [List.filterMap_cons]
  cases ha : f a with
  | none => simp
  | some b => cases hmore : (more.filterMap f).getLast? <;> simp [List.getLast?_cons, hmore]

theorem attribute?_store (r : Rule) (q : Piece) (key : AttributeKey) :
    (c.store r q).attribute? key = (q.attribute? key).or (r.attribute? key) := by
  cases q with
  | «attribute» other text =>
    show Assoc.get? (Assoc.put r.attributes other text) key = _
    rw [Assoc.get?_put, Piece.attribute?]
    split <;> rfl
  | label other index text => rfl
  | node place source x => cases place <;> cases x <;> rfl

theorem attribute?_foldl_store (pieces : List Piece) (r : Rule) (key : AttributeKey) :
    (pieces.foldl c.store r).attribute? key
      = ((pieces.filterMap (Piece.attribute? key)).getLast?).or (r.attribute? key) := by
  induction pieces generalizing r with
  | nil => rfl
  | cons q more ih =>
    rw [List.foldl_cons, ih, attribute?_store, getLast?_filterMap_cons, Option.or_assoc]

/-- A piece fills a slot under one capture key, or leaves all tables alone. -/
theorem capture?_store (r : Rule) (q : Piece) :
    (∀ key, (c.store r q).capture? key = r.capture? key ∧ ∀ index, q.capture? key index = none)
    ∨ ∃ key index x, ∀ other,
      (c.store r q).capture? other
          = (if key = other then some ((r.groupsOf other).fill index x) else r.capture? other)
        ∧ ∀ i, q.capture? other i = if key = other ∧ index = i then some x else none := by
  have hset : ∀ key index x other, (r.setCapture key index x).capture? other
      = if key = other then some ((r.groupsOf other).fill index x) else r.capture? other := by
    intro key index x other
    refine (Assoc.get?_put _ _ _ _).trans ?_
    split
    · rename_i hkey
      rw [← hkey]
      rfl
    · rfl
  cases q with
  | «attribute» key text => exact .inl fun _ => ⟨rfl, fun _ => rfl⟩
  | label key index text =>
    exact .inr ⟨key, index, .label text, fun other => ⟨hset _ _ _ _, fun _ => rfl⟩⟩
  | node place source x =>
    cases x with
    | reference p => cases place <;> exact .inl fun _ => ⟨rfl, fun _ => rfl⟩
    | rule x =>
      cases place with
      | capture key index =>
        exact .inr ⟨key, index, .rule x, fun other => ⟨hset _ _ _ _, fun _ => rfl⟩⟩
      | _ => exact .inl fun _ => ⟨rfl, fun _ => rfl⟩

/-- A table is there once a slot of it is filled. -/
theorem isSome_capture?_foldl_store (pieces : List Piece) (r : Rule) (key : CaptureKey) :
    ((pieces.foldl c.store r).capture? key).isSome = true
      ↔ (r.capture? key).isSome = true ∨ ∃ i, pieces.filterMap (Piece.capture? key i) ≠ [] := by
  induction pieces generalizing r with
  | nil => simp
  | cons q more ih =>
    rw [List.foldl_cons, ih]
    rcases c.capture?_store r q with hsame | ⟨other, index, x, hset⟩
    · simp only [(hsame key).1, List.filterMap_cons, (hsame key).2]
    · obtain ⟨hcapture, hslot⟩ := hset key
      by_cases hkey : other = key
      · refine iff_of_true (.inl ?_) (.inr ⟨index, ?_⟩)
        · rw [hcapture, if_pos hkey]
          rfl
        · rw [List.filterMap_cons, hslot, if_pos ⟨hkey, rfl⟩]
          exact List.cons_ne_nil _ _
      · have hnone : ∀ i, q.capture? key i = none := fun i => by
          rw [hslot, if_neg fun h => hkey h.1]
        simp only [hcapture, if_neg hkey, List.filterMap_cons, hnone]

/-- A table is as large as its last slot that is filled asks for. -/
theorem lt_size_foldl_store (pieces : List Piece) (r : Rule) (key : CaptureKey) (i : Nat) :
    i < ((pieces.foldl c.store r).groupsOf key).size
      ↔ i < (r.groupsOf key).size
        ∨ ∃ j, i ≤ j ∧ pieces.filterMap (Piece.capture? key j) ≠ [] := by
  induction pieces generalizing r with
  | nil => simp
  | cons q more ih =>
    rw [List.foldl_cons, ih]
    rcases c.capture?_store r q with hsame | ⟨other, index, x, hset⟩
    · simp only [Rule.groupsOf, (hsame key).1, List.filterMap_cons, (hsame key).2]
    · obtain ⟨hcapture, hslot⟩ := hset key
      by_cases hkey : other = key
      · have hsize : ((c.store r q).groupsOf key).size = max (r.groupsOf key).size (index + 1) := by
          rw [Rule.groupsOf, hcapture, if_pos hkey]
          rfl
        have hmore : ∀ j, (q :: more).filterMap (Piece.capture? key j) ≠ []
            ↔ j = index ∨ more.filterMap (Piece.capture? key j) ≠ [] := by
          intro j
          rw [List.filterMap_cons, hslot]
          by_cases hj : index = j
          · simp [hkey, hj]
          · simp [hj, Ne.symm hj]
        simp only [hmore, hsize]
        constructor
        · rintro (hlt | ⟨j, hj, hfilled⟩)
          · by_cases hold : i < (r.groupsOf key).size
            · exact .inl hold
            · exact .inr ⟨index, by omega, .inl rfl⟩
          · exact .inr ⟨j, hj, .inr hfilled⟩
        · rintro (hlt | ⟨j, hj, rfl | hfilled⟩)
          · exact .inl (by omega)
          · exact .inl (by omega)
          · exact .inr ⟨j, hj, hfilled⟩
      · have hnone : ∀ i, q.capture? key i = none := fun i => by
          rw [hslot, if_neg fun h => hkey h.1]
        simp only [Rule.groupsOf, hcapture, if_neg hkey, List.filterMap_cons, hnone]

/-- A slot holds what the last piece for it brought. -/
theorem get?_groups_foldl_store (pieces : List Piece) (r : Rule) (key : CaptureKey) (i : Nat) :
    Assoc.get? ((pieces.foldl c.store r).groupsOf key).groups i
      = ((pieces.filterMap (Piece.capture? key i)).getLast?).or
          (Assoc.get? (r.groupsOf key).groups i) := by
  induction pieces generalizing r with
  | nil => rfl
  | cons q more ih =>
    have hstore : Assoc.get? ((c.store r q).groupsOf key).groups i
        = (q.capture? key i).or (Assoc.get? (r.groupsOf key).groups i) := by
      rcases c.capture?_store r q with hsame | ⟨other, index, x, hset⟩
      · rw [Rule.groupsOf, (hsame key).1, (hsame key).2]
        rfl
      · obtain ⟨hcapture, hslot⟩ := hset key
        rw [Rule.groupsOf, hcapture, hslot]
        by_cases hkey : other = key
        · rw [if_pos hkey, Option.getD_some]
          refine (Assoc.get?_putSorted _ _ _ _ _).trans ?_
          by_cases hi : index = i <;> simp [hkey, hi]
        · rw [if_neg hkey, if_neg fun h => hkey h.1]
          rfl
    rw [List.foldl_cons, ih, hstore, getLast?_filterMap_cons, Option.or_assoc]

-- ====================================================== compiled rules

variable {c} {n : Nat} {parent : Option NodeId} {d : Document}

theorem rule_scope : (c.rule n parent d).scope = (Outline.scopeOf d).map c.symbol := by
  rw [rule_eq_foldl]
  exact (c.foldl_store_identity _ _).2.2

theorem children_rule :
    (c.rule n parent d).children = (c.contents n d).filterMap Piece.child? := by
  rw [rule_eq_foldl, children_foldl_store]
  rfl

theorem injections_rule :
    (c.rule n parent d).injections = (c.contents n d).filterMap c.injected? := by
  rw [rule_eq_foldl, injections_foldl_store]
  rfl

theorem injectionsFor_rule (selector : String) :
    (c.rule n parent d).injectionsFor selector
      = (c.contents n d).filterMap (Piece.injection? selector) := by
  rw [Rule.injectionsFor, injections_rule, List.filterMap_filterMap]
  refine List.filterMap_congr fun q _ => ?_
  cases q with
  | node place source x =>
    cases place with
    | injection other =>
      cases x with
      | rule x => simp [injected?, Piece.injection?]
      | reference p => rfl
    | _ => cases x <;> rfl
  | _ => rfl

theorem attribute?_rule (key : AttributeKey) :
    (c.rule n parent d).attribute? key
      = ((c.contents n d).filterMap (Piece.attribute? key)).getLast? := by
  rw [rule_eq_foldl, attribute?_foldl_store]
  exact Option.or_none

theorem isSome_capture?_rule (key : CaptureKey) :
    ((c.rule n parent d).capture? key).isSome = true
      ↔ ∃ i, (c.contents n d).filterMap (Piece.capture? key i) ≠ [] := by
  rw [rule_eq_foldl, isSome_capture?_foldl_store]
  exact or_iff_right Bool.false_ne_true

theorem lt_size_rule (key : CaptureKey) (i : Nat) :
    i < ((c.rule n parent d).groupsOf key).size
      ↔ ∃ j, i ≤ j ∧ (c.contents n d).filterMap (Piece.capture? key j) ≠ [] := by
  rw [rule_eq_foldl, lt_size_foldl_store]
  exact or_iff_right (Nat.not_lt_zero i)

theorem get?_groups_rule (key : CaptureKey) (i : Nat) :
    Assoc.get? ((c.rule n parent d).groupsOf key).groups i
      = ((c.contents n d).filterMap (Piece.capture? key i)).getLast? := by
  rw [rule_eq_foldl, get?_groups_foldl_store]
  exact Option.or_none

/-- A slot of a capture table holds what was put into it last. -/
theorem captured_rule (key : CaptureKey) (i : Nat) :
    (((c.rule n parent d).capture? key).bind fun table => table.get? i)
      = ((c.contents n d).filterMap (Piece.capture? key i)).getLast? := by
  have hgroup : Assoc.get? ((c.rule n parent d).groupsOf key).groups i
      = ((c.contents n d).filterMap (Piece.capture? key i)).getLast? := get?_groups_rule key i
  have hsize : i < ((c.rule n parent d).groupsOf key).size
      ↔ ∃ j, i ≤ j ∧ (c.contents n d).filterMap (Piece.capture? key j) ≠ [] := lt_size_rule key i
  rw [Rule.groupsOf] at hgroup hsize
  cases htable : (c.rule n parent d).capture? key with
  | none =>
    rw [htable] at hgroup
    exact hgroup
  | some table =>
    rw [htable, Option.getD_some] at hgroup hsize
    rw [Option.bind_some, CaptureTable.get?, ← hgroup]
    split
    · rfl
    · rename_i hbeyond
      rw [hgroup, eq_comm, List.getLast?_eq_none_iff]
      by_contra hne
      exact hbeyond (hsize.2 ⟨i, Nat.le_refl i, hne⟩)

/-- A nested dictionary became a reference if it refers, and else a rule. -/
theorem isSome_reference?_of_mem_pieces {owner : NodeId} {next : Nat} {clauses : List Clause}
    {place : Place} {source : Document} {x : Node}
    (h : .node place source x ∈ c.pieces owner next clauses) :
    x.reference?.isSome = place.refers source := by
  cases x with
  | rule r =>
    obtain ⟨serial, -, -, -, -, hrefers⟩ := c.exists_of_rule_mem_pieces h
    exact hrefers.symm
  | reference p => exact (c.eq_of_reference_mem_pieces h).2.2.symm

end Context

-- ========================================================= side by side

/-- Tables of one size, with slots that are like each other. -/
structure CaptureTable.Matches (R : Node → Node → Prop) (t t' : CaptureTable) : Prop where
  size : t.size = t'.size
  slots : ∀ i, Option.Rel (Capture.Like R) (t.get? i) (t'.get? i)

/-- Rules that show the same, and have related nodes at the same places, in
whatever order they store attributes, capture tables and injections. Entries
are not compared, since that takes the ids of their names. -/
structure Rule.Matches (R : Node → Node → Prop) (r r' : Rule) : Prop where
  scope : r.scope.map Symbol.text = r'.scope.map Symbol.text
  attributes : ∀ key, (r.attribute? key).map Symbol.text = (r'.attribute? key).map Symbol.text
  captures : ∀ key, Option.Rel (CaptureTable.Matches R) (r.capture? key) (r'.capture? key)
  children : List.Forall₂ R r.children r'.children
  injections : ∀ selector, List.Forall₂ R (r.injectionsFor selector) (r'.injectionsFor selector)

theorem Capture.Like.mono {R S : Node → Node → Prop} {c c' : Capture} (h : c.Like R c')
    (hRS : ∀ x x', R x x' → S x x') : c.Like S c' := by
  cases h with
  | label same => exact .label same
  | rule related => exact .rule (hRS _ _ related)

/-- What matches under a relation matches under a weaker one. -/
theorem Rule.Matches.mono {R S : Node → Node → Prop} {r r' : Rule} (h : r.Matches R r')
    (hRS : ∀ x x', R x x' → S x x') : r.Matches S r' where
  scope := h.scope
  attributes := h.attributes
  captures key := imp_of_rel (h.captures key) fun _ _ ht =>
    ⟨ht.size, fun i => imp_of_rel (ht.slots i) fun _ _ hc => hc.mono hRS⟩
  children := h.children.imp hRS
  injections selector := (h.injections selector).imp hRS

/-- Nodes at one place of two rules, made of dictionaries that are
reordered. -/
def Piece.Given (pieces pieces' : List Piece) (x x' : Node) : Prop :=
  ∃ place source source', .node place source x ∈ pieces ∧ .node place source' x' ∈ pieces'
    ∧ source.Reordered source'

/-- Pieces that say the same, with related nodes of one kind. -/
inductive Piece.Matches (R : Node → Node → Prop) : Piece → Piece → Prop
  | attribute {key : AttributeKey} {text text' : Symbol} (same : text.text = text'.text) :
      Piece.Matches R (.attribute key text) (.attribute key text')
  | label {key : CaptureKey} {index : Nat} {text text' : Symbol} (same : text.text = text'.text) :
      Piece.Matches R (.label key index text) (.label key index text')
  | rule {place : Place} {source source' : Document} {x x' : Rule}
      (related : R (.rule x) (.rule x')) :
      Piece.Matches R (.node place source (.rule x)) (.node place source' (.rule x'))
  | reference {place : Place} {source source' : Document} {p p' : Reference}
      (related : R (.reference p) (.reference p')) :
      Piece.Matches R (.node place source (.reference p)) (.node place source' (.reference p'))

namespace Context

variable {c c' : Context} {n n' : Nat} {d d' : Document}

/-- Pieces of clauses that are reordered match. -/
theorem matches_of_mem_contents {q q' : Piece} (h : q.clause.Reordered q'.clause)
    (hq : q ∈ c.contents n d) (hq' : q' ∈ c'.contents n' d') :
    Piece.Matches (Piece.Given (c.contents n d) (c'.contents n' d')) q q' := by
  cases q with
  | «attribute» key text =>
    cases q' with
    | «attribute» key' text' =>
      obtain ⟨rfl, htext⟩ : key = key' ∧ text.text = text'.text := by
        generalize hclause : Piece.clause (.attribute key text) = clause at h
        generalize hclause' : Piece.clause (.attribute key' text') = clause' at h
        cases h <;> simp_all [Piece.clause]
      exact .attribute htext
    | _ => nomatch h
  | label key index text =>
    cases q' with
    | label key' index' text' =>
      obtain ⟨rfl, rfl, htext⟩ : key = key' ∧ index = index' ∧ text.text = text'.text := by
        generalize hclause : Piece.clause (.label key index text) = clause at h
        generalize hclause' : Piece.clause (.label key' index' text') = clause' at h
        cases h <;> simp_all [Piece.clause]
      exact .label htext
    | _ => nomatch h
  | node place source x =>
    cases q' with
    | node place' source' x' =>
      obtain ⟨rfl, hsource⟩ : place = place' ∧ source.Reordered source' := by
        cases h with
        | nested place hsource => exact ⟨rfl, hsource⟩
      have hkind := hsource.refers_eq place
      rw [← c.isSome_reference?_of_mem_pieces hq, ← c'.isSome_reference?_of_mem_pieces hq'] at hkind
      cases x with
      | rule r =>
        cases x' with
        | rule r' => exact .rule ⟨place, source, source', hq, hq', hsource⟩
        | reference p => cases hkind
      | reference p =>
        cases x' with
        | rule r' => cases hkind
        | reference p' => exact .reference ⟨place, source, source', hq, hq', hsource⟩
    | _ => nomatch h

/-- What compiled rules were given for a slot matches, one by one. -/
theorem forall₂_slot (h : d.Reordered d') (hd : d.Unambiguous) (slot : Slot) :
    List.Forall₂ (Piece.Matches (Piece.Given (c.contents n d) (c'.contents n' d')))
      ((c.contents n d).filter fun q => q.clause.slot? = some slot)
      ((c'.contents n' d').filter fun q => q.clause.slot? = some slot) := by
  have hclauses := h.forall₂_clauses hd slot
  rw [← c.map_clause_filter_contents n, ← c'.map_clause_filter_contents n',
    List.forall₂_map_left_iff, List.forall₂_map_right_iff] at hclauses
  refine (forall₂_and_mem hclauses).imp fun q q' hq => ?_
  exact matches_of_mem_contents hq.1 (List.mem_of_mem_filter hq.2.1)
    (List.mem_of_mem_filter hq.2.2)

/-- What is read off the pieces for one slot. -/
theorem forall₂_filterMap_contents (h : d.Reordered d') (hd : d.Unambiguous) (slot : Slot)
    {β γ : Type} {S : β → γ → Prop} {f : Piece → Option β} {g : Piece → Option γ}
    (hf : ∀ q, q.clause.slot? ≠ some slot → f q = none)
    (hg : ∀ q, q.clause.slot? ≠ some slot → g q = none)
    (hfg : ∀ q q', Piece.Matches (Piece.Given (c.contents n d) (c'.contents n' d')) q q' →
      Option.Rel S (f q) (g q')) :
    List.Forall₂ S ((c.contents n d).filterMap f) ((c'.contents n' d').filterMap g) := by
  rw [← Piece.filterMap_filter_slot hf, ← Piece.filterMap_filter_slot hg]
  exact List.rel_filterMap (R := Piece.Matches _) (fun q q' hq => hfg q q' hq)
    (forall₂_slot h hd slot)

/-- The entries under a name. -/
theorem forall₂_entries (h : d.Reordered d') (hd : d.Unambiguous) (name : String) :
    List.Forall₂ (fun e e' => Piece.Given (c.contents n d) (c'.contents n' d') e.2 e'.2)
      ((c.contents n d).filterMap (Piece.entryNamed? name))
      ((c'.contents n' d').filterMap (Piece.entryNamed? name)) := by
  have hnode : ∀ {place : Place} {source source' : Document} {x x' : Node},
      Piece.Given (c.contents n d) (c'.contents n' d') x x' →
      Option.Rel (fun e e' => Piece.Given (c.contents n d) (c'.contents n' d') e.2 e'.2)
        (Piece.entryNamed? name (.node place source x))
        (Piece.entryNamed? name (.node place source' x')) := by
    intro place source source' x x' hx
    cases place with
    | entry other =>
      by_cases hname : other = name
      · simpa [Piece.entryNamed?, hname] using hx
      · simp [Piece.entryNamed?, hname]
    | _ => exact .none
  refine forall₂_filterMap_contents h hd (.place (.entry name))
    (fun _ => Piece.entryNamed?_eq_none) (fun _ => Piece.entryNamed?_eq_none) fun q q' hq => ?_
  cases hq with
  | rule related => exact hnode related
  | reference related => exact hnode related
  | _ => exact .none

theorem forall₂_attributes (h : d.Reordered d') (hd : d.Unambiguous) (key : AttributeKey) :
    List.Forall₂ (fun text text' : Symbol => text.text = text'.text)
      ((c.contents n d).filterMap (Piece.attribute? key))
      ((c'.contents n' d').filterMap (Piece.attribute? key)) := by
  refine forall₂_filterMap_contents h hd (.attribute key)
    (fun _ => Piece.attribute?_eq_none) (fun _ => Piece.attribute?_eq_none) fun q q' hq => ?_
  cases hq with
  | @«attribute» other text text' same =>
    by_cases hkey : other = key
    · simpa [Piece.attribute?, hkey] using same
    · simp [Piece.attribute?, hkey]
  | _ => exact .none

theorem forall₂_children (h : d.Reordered d') (hd : d.Unambiguous) :
    List.Forall₂ (Piece.Given (c.contents n d) (c'.contents n' d'))
      ((c.contents n d).filterMap Piece.child?) ((c'.contents n' d').filterMap Piece.child?) := by
  refine forall₂_filterMap_contents h hd (.place .child)
    (fun _ => Piece.child?_eq_none) (fun _ => Piece.child?_eq_none) fun q q' hq => ?_
  cases hq with
  | @rule place source source' x x' related =>
    cases place with
    | child => exact .some related
    | _ => exact .none
  | @reference place source source' p p' related =>
    cases place with
    | child => exact .some related
    | _ => exact .none
  | _ => exact .none

theorem forall₂_injections (h : d.Reordered d') (hd : d.Unambiguous) (selector : String) :
    List.Forall₂ (Piece.Given (c.contents n d) (c'.contents n' d'))
      ((c.contents n d).filterMap (Piece.injection? selector))
      ((c'.contents n' d').filterMap (Piece.injection? selector)) := by
  refine forall₂_filterMap_contents h hd (.place (.injection selector))
    (fun _ => Piece.injection?_eq_none) (fun _ => Piece.injection?_eq_none) fun q q' hq => ?_
  cases hq with
  | @rule place source source' x x' related =>
    cases place with
    | injection other =>
      by_cases hselector : other = selector
      · simpa [Piece.injection?, hselector] using related
      · simp [Piece.injection?, hselector]
    | _ => exact .none
  | @reference place => cases place <;> exact .none
  | _ => exact .none

/-- What is put into a slot of a capture table. -/
theorem forall₂_captures (h : d.Reordered d') (hd : d.Unambiguous) (key : CaptureKey)
    (index : Nat) :
    List.Forall₂ (Capture.Like (Piece.Given (c.contents n d) (c'.contents n' d')))
      ((c.contents n d).filterMap (Piece.capture? key index))
      ((c'.contents n' d').filterMap (Piece.capture? key index)) := by
  refine forall₂_filterMap_contents h hd (.place (.capture key index))
    (fun _ => Piece.capture?_eq_none) (fun _ => Piece.capture?_eq_none) fun q q' hq => ?_
  cases hq with
  | «attribute» same => exact .none
  | @label other i text text' same =>
    by_cases hkey : other = key ∧ i = index
    · simpa [Piece.capture?, hkey] using Capture.Like.label same
    · simp [Piece.capture?, hkey]
  | @rule place source source' x x' related =>
    cases place with
    | capture other i =>
      by_cases hkey : other = key ∧ i = index
      · simpa [Piece.capture?, hkey] using Capture.Like.rule related
      · simp [Piece.capture?, hkey]
    | _ => exact .none
  | @reference place => cases place <;> exact .none

/-- Capture tables under one key. -/
theorem matches_groupsOf (h : d.Reordered d') (hd : d.Unambiguous) (parent parent' : Option NodeId)
    (key : CaptureKey) :
    Option.Rel (CaptureTable.Matches (Piece.Given (c.contents n d) (c'.contents n' d')))
      ((c.rule n parent d).capture? key) ((c'.rule n' parent' d').capture? key) := by
  have hfilled : ∀ i, (c.contents n d).filterMap (Piece.capture? key i) ≠ []
      ↔ (c'.contents n' d').filterMap (Piece.capture? key i) ≠ [] := by
    intro i
    rw [Ne, Ne, ← List.length_eq_zero_iff, ← List.length_eq_zero_iff,
      (forall₂_captures h hd key i).length_eq]
  have htable : CaptureTable.Matches (Piece.Given (c.contents n d) (c'.contents n' d'))
      ((c.rule n parent d).groupsOf key) ((c'.rule n' parent' d').groupsOf key) := by
    have hsize : ((c.rule n parent d).groupsOf key).size
        = ((c'.rule n' parent' d').groupsOf key).size := by
      refine eq_of_forall_lt_iff fun i => ?_
      rw [lt_size_rule, lt_size_rule]
      simp only [hfilled]
    refine ⟨hsize, fun i => ?_⟩
    rw [CaptureTable.get?, CaptureTable.get?, hsize]
    split
    · rw [get?_groups_rule, get?_groups_rule]
      exact getLast?_of_forall₂ (forall₂_captures h hd key i)
    · exact .none
  have hsome : ((c.rule n parent d).capture? key).isSome
      = ((c'.rule n' parent' d').capture? key).isSome := by
    rw [Bool.eq_iff_iff, isSome_capture?_rule, isSome_capture?_rule]
    simp only [hfilled]
  rw [Rule.groupsOf, Rule.groupsOf] at htable
  revert hsome htable
  cases (c.rule n parent d).capture? key with
  | none =>
    cases (c'.rule n' parent' d').capture? key with
    | none => exact fun _ _ => .none
    | some t' =>
      intro _ hsome
      cases hsome
  | some t =>
    cases (c'.rule n' parent' d').capture? key with
    | none =>
      intro _ hsome
      cases hsome
    | some t' => exact fun htable _ => .some htable

/-- What is read off the pieces for a slot that is no child's, is read off one
piece. -/
theorem length_filterMap_contents_le_one (hwf : d.WellFormed) (hd : d.Unambiguous) {slot : Slot}
    (hslot : slot ≠ .place .child) {β : Type} {f : Piece → Option β}
    (hf : ∀ q : Piece, q.clause.slot? ≠ some slot → f q = none) :
    ((c.contents n d).filterMap f).length ≤ 1 := by
  have hlength := Document.length_slot_le_one hwf hd hslot
  rw [← c.map_clause_filter_contents n d slot, List.length_map] at hlength
  rw [← Piece.filterMap_filter_slot hf]
  exact Nat.le_trans (List.length_filterMap_le _ _) hlength

/-- Rules compiled from reordered dictionaries match. -/
theorem matches_rule (h : d.Reordered d') (hd : d.Unambiguous) (parent parent' : Option NodeId) :
    (c.rule n parent d).Matches (Piece.Given (c.contents n d) (c'.contents n' d'))
      (c'.rule n' parent' d') where
  scope := by
    rw [rule_scope, rule_scope, h.scopeOf_eq]
    cases Outline.scopeOf d' <;> simp
  attributes := by
    intro key
    rw [attribute?_rule, attribute?_rule]
    exact map_eq_of_rel (getLast?_of_forall₂ (forall₂_attributes h hd key)) fun _ _ same => same
  captures := matches_groupsOf h hd parent parent'
  children := by
    rw [children_rule, children_rule]
    exact forall₂_children h hd
  injections := by
    intro selector
    rw [injectionsFor_rule, injectionsFor_rule]
    exact forall₂_injections h hd selector

end Context

end ScopeRules
