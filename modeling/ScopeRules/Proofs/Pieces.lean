/-
What a rule is built of. Filling an outline into a rule is one recursion
that numbers, looks up and stores all at once. Here the three are pulled
apart: `Context.pieces` lists what the clauses of a dictionary become, each
nested dictionary beside the node it was compiled to, and `Context.store`
puts one piece into a rule. `rule_eq_foldl` says that a compiled rule is its
pieces, stored one after the other.

# What the pieces carry

A piece is settled by the clause, the number of the owner and the numbers
given out before it; nothing of it depends on the rule that is being
filled. So what a rule holds in the end is a question about one list:

- `entryAt?_rule`: an entry is the last piece stored under its id;
- `mem_nodes_rule`: what a rule owns is a node of one of its pieces;
- `exists_of_rule_mem_pieces`, `eq_of_reference_mem_pieces`: a node of a
  piece is the rule compiled from its dictionary under a number of its own,
  or the reference that its include stands for.

# Numbers

The rules of a dictionary numbered from `n` on have the numbers `n`,
`n + 1`, … in document order (`map_id_rules`), so among the rules of one
document the id tells the rule.
-/
import ScopeRules.Compile
import ScopeRules.Proofs.Clauses
import ScopeRules.Rule.Ownership

namespace ScopeRules

-- ============================================================== pieces

/-- What a clause becomes in a compiled rule. -/
inductive Piece where
  | attribute (key : AttributeKey) (text : Symbol)
  | label (key : CaptureKey) (index : Nat) (text : Symbol)
  /-- What the dictionary `source` was compiled to. -/
  | node (place : Place) (source : Document) (node : Node)
  deriving Inhabited

namespace Context

variable (c : Context)

/-- The rule compiled from a dictionary, with number `serial`. -/
def rule (serial : Nat) (parent : Option NodeId) (d : Document) : Rule :=
  (Outline.ofDocument d).fill c (serial + 1) (c.unfilled serial (Outline.scopeOf d) parent)

/-- What clauses become in the rule `owner`, the nested rules numbered from
`next` on. -/
def pieces (owner : NodeId) : Nat → List Clause → List Piece
  | _, [] => []
  | next, .attribute key text :: more => .attribute key (c.symbol text) :: pieces owner next more
  | next, .unusable _ :: more => pieces owner next more
  | next, .label key index text :: more =>
    .label key index (c.symbol text) :: pieces owner next more
  | next, .nested place source :: more =>
    if place.refers source then
      .node place source (.reference (c.reference owner (Outline.targetOf source)))
        :: pieces owner next more
    else
      .node place source (.rule (c.rule next (some owner) source))
        :: pieces owner (next + 1 + (Outline.ofDocument source).count) more

/-- The pieces of the rule compiled from `d` with number `serial`. -/
def contents (serial : Nat) (d : Document) : List Piece :=
  c.pieces ⟨c.table, serial⟩ (serial + 1) d.clauses

/-- Stores a piece in a rule. -/
def store (r : Rule) : Piece → Rule
  | .attribute key text => r.setAttribute key text
  | .label key index text => r.setCapture key index (.label text)
  | .node place _ (.reference p) => c.placeReference r place p
  | .node place _ (.rule x) => c.placeRule r place x

end Context

-- ================================================ storing and identity

namespace Context

variable (c : Context)

/-- Storing a piece changes neither who the rule is nor where it belongs. -/
theorem store_identity (r : Rule) (q : Piece) :
    (c.store r q).id = r.id ∧ (c.store r q).parent = r.parent
      ∧ (c.store r q).scope = r.scope := by
  cases q with
  | «attribute» key text => exact ⟨rfl, rfl, rfl⟩
  | label key index text => exact ⟨rfl, rfl, rfl⟩
  | node place source x =>
    cases x <;> cases place <;> exact ⟨rfl, rfl, rfl⟩

theorem foldl_store_identity (pieces : List Piece) (r : Rule) :
    (pieces.foldl c.store r).id = r.id ∧ (pieces.foldl c.store r).parent = r.parent
      ∧ (pieces.foldl c.store r).scope = r.scope := by
  induction pieces generalizing r with
  | nil => exact ⟨rfl, rfl, rfl⟩
  | cons q more ih =>
    obtain ⟨hid, hparent, hscope⟩ := c.store_identity r q
    obtain ⟨hid', hparent', hscope'⟩ := ih (c.store r q)
    rw [List.foldl_cons, hid', hparent', hscope', hid, hparent, hscope]
    exact ⟨rfl, rfl, rfl⟩

/-- Filling clauses into a rule is storing their pieces. -/
theorem fill_foldr_onto (clauses : List Clause) (next : Nat) (r : Rule) :
    (clauses.foldr Clause.onto .nothing).fill c next r
      = (c.pieces r.id next clauses).foldl c.store r := by
  induction clauses generalizing next r with
  | nil => rfl
  | cons clause more ih =>
    rw [List.foldr_cons]
    cases clause with
    | «attribute» key text => exact ih next (r.setAttribute key (c.symbol text))
    | unusable key => exact ih next r
    | label key index text => exact ih next (r.setCapture key index (.label (c.symbol text)))
    | nested place source =>
      cases hrefers : place.refers source with
      | true =>
        simp only [Clause.onto, hrefers, if_true, Outline.fill, pieces, List.foldl_cons]
        have hmore := ih next (c.store r (.node place source
          (.reference (c.reference r.id (Outline.targetOf source)))))
        rw [(c.store_identity r _).1] at hmore
        exact hmore
      | false =>
        simp only [Clause.onto, hrefers, Bool.false_eq_true, if_false, Outline.fill, pieces,
          List.foldl_cons]
        have hmore := ih (next + 1 + (Outline.ofDocument source).count)
          (c.store r (.node place source (.rule (c.rule next (some r.id) source))))
        rw [(c.store_identity r _).1] at hmore
        exact hmore

/-- A compiled rule is its pieces, stored one after the other. -/
theorem rule_eq_foldl (serial : Nat) (parent : Option NodeId) (d : Document) :
    c.rule serial parent d
      = (c.contents serial d).foldl c.store
          (c.unfilled serial (Outline.scopeOf d) parent) := by
  unfold rule contents
  rw [ofDocument_eq_foldr, fill_foldr_onto]
  rfl

theorem rule_id (serial : Nat) (parent : Option NodeId) (d : Document) :
    (c.rule serial parent d).id = ⟨c.table, serial⟩ := by
  rw [rule_eq_foldl]
  exact (c.foldl_store_identity _ _).1

theorem rule_parent (serial : Nat) (parent : Option NodeId) (d : Document) :
    (c.rule serial parent d).parent = parent := by
  rw [rule_eq_foldl]
  exact (c.foldl_store_identity _ _).2.1

-- ============================================================= entries

/-- The node that a piece stores under the entry id `id`. -/
def entryNode? (id : RuleId) : Piece → Option Node
  | .node (.entry name) _ x => if c.ruleId name = id then some x else none
  | _ => none

theorem entryAt?_store (r : Rule) (q : Piece) (id : RuleId) :
    (c.store r q).entryAt? id = (c.entryNode? id q).or (r.entryAt? id) := by
  cases q with
  | «attribute» key text => rfl
  | label key index text => rfl
  | node place source x =>
    cases place with
    | entry name =>
      have hput : (c.store r (.node (.entry name) source x)).entryAt? id
          = if c.ruleId name = id then some x else r.entryAt? id := by
        cases x <;> exact Assoc.get?_putSorted _ _ _ _ _
      rw [hput, entryNode?]
      split <;> rfl
    | _ => cases x <;> rfl

/-- Of several pieces under one id the last one stays. -/
theorem entryAt?_foldl_store (pieces : List Piece) (r : Rule) (id : RuleId) :
    (pieces.foldl c.store r).entryAt? id
      = ((pieces.filterMap (c.entryNode? id)).getLast?).or (r.entryAt? id) := by
  induction pieces generalizing r with
  | nil => rfl
  | cons q more ih =>
    rw [List.foldl_cons, ih, entryAt?_store, List.filterMap_cons]
    cases hq : c.entryNode? id q with
    | none => rfl
    | some x =>
      cases hmore : (more.filterMap (c.entryNode? id)).getLast? <;>
        simp [List.getLast?_cons, hmore]

/-- The entry of a rule under an id is the last of its pieces stored under
that id. -/
theorem entryAt?_rule (serial : Nat) (parent : Option NodeId) (d : Document) (id : RuleId) :
    (c.rule serial parent d).entryAt? id
      = ((c.contents serial d).filterMap (c.entryNode? id)).getLast? := by
  rw [rule_eq_foldl, entryAt?_foldl_store]
  exact Option.or_none

-- ================================================== what a rule owns

/-- Filling a slot adds at most what fills it to what capture tables hold. -/
theorem mem_groups_setCapture {r : Rule} {key key' : CaptureKey} {index i : Nat}
    {capture y : Capture} {table : CaptureTable}
    (htable : (key', table) ∈ (r.setCapture key index capture).captures)
    (hy : (i, y) ∈ table.groups) :
    y = capture ∨ ∃ old, (key', old) ∈ r.captures ∧ (i, y) ∈ old.groups := by
  rcases Assoc.mem_of_mem_put htable with htable | htable
  · cases htable
    rcases Assoc.mem_of_mem_putSorted hy with hy | hy
    · exact .inl (Prod.mk.inj hy).2
    · cases hold : Assoc.get? r.captures key with
      | none =>
        rw [hold] at hy
        cases hy
      | some old =>
        rw [hold] at hy
        exact .inr ⟨old, Assoc.mem_of_get?_eq_some hold, hy⟩
  · exact .inr ⟨table, htable, hy⟩

/-- Storing a piece adds at most its node to what the rule owns. -/
theorem mem_nodes_of_mem_nodes_store {r : Rule} {q : Piece} {x : Node}
    (h : x ∈ (c.store r q).nodes) : x ∈ r.nodes ∨ ∃ place source, q = .node place source x := by
  have hcapture : ∀ key index capture, x ∈ (r.setCapture key index capture).nodes →
      x ∈ r.nodes ∨ capture.rule?.map Node.rule = some x := by
    intro key index capture hx
    rw [Rule.mem_nodes_iff] at hx ⊢
    rcases hx with hx | hx | ⟨key', table, hx, i, y, hy, rfl⟩ | hx
    · exact .inl (.inl hx)
    · exact .inl (.inr (.inl hx))
    · rcases mem_groups_setCapture hx hy with rfl | ⟨old, hold, hy⟩
      · exact .inr rfl
      · exact .inl (.inr (.inr (.inl ⟨key', old, hold, i, y, hy, rfl⟩)))
    · exact .inl (.inr (.inr (.inr hx)))
  have hchild : ∀ y, x ∈ (r.addChild y).nodes → x ∈ r.nodes ∨ y = x := by
    intro y hx
    rw [Rule.mem_nodes_iff] at hx ⊢
    rcases hx with hx | hx | hx | hx
    · rcases List.mem_append.1 hx with hx | hx
      · exact .inl (.inl hx)
      · exact .inr (List.mem_singleton.1 hx).symm
    · exact .inl (.inr (.inl hx))
    · exact .inl (.inr (.inr (.inl hx)))
    · exact .inl (.inr (.inr (.inr hx)))
  have hentry : ∀ id y, x ∈ (r.putEntry id y).nodes → x ∈ r.nodes ∨ y = x := by
    intro id y hx
    rw [Rule.mem_nodes_iff] at hx ⊢
    rcases hx with hx | ⟨id', hx⟩ | hx | hx
    · exact .inl (.inl hx)
    · rcases Assoc.mem_of_mem_putSorted hx with hx | hx
      · cases hx
        exact .inr rfl
      · exact .inl (.inr (.inl ⟨id', hx⟩))
    · exact .inl (.inr (.inr (.inl hx)))
    · exact .inl (.inr (.inr (.inr hx)))
  cases q with
  | «attribute» key text => exact .inl h
  | label key index text =>
    rcases hcapture _ _ _ h with h | h
    · exact .inl h
    · cases h
  | node place source y =>
    have hnew : y = x → ∃ place' source', Piece.node place source y = .node place' source' x := by
      intro hyx
      exact ⟨place, source, hyx ▸ rfl⟩
    cases y with
    | reference p =>
      cases place with
      | child => exact (hchild _ h).imp id hnew
      | entry name => exact (hentry _ _ h).imp id hnew
      | capture key index => exact .inl h
      | injection selector => exact .inl h
    | rule y =>
      cases place with
      | child => exact (hchild _ h).imp id hnew
      | entry name => exact (hentry _ _ h).imp id hnew
      | capture key index =>
        exact (hcapture _ _ _ h).imp id fun e => hnew (Option.some.inj e)
      | injection selector =>
        rw [Rule.mem_nodes_iff] at h
        rcases h with h | h | h | ⟨selector', y', h, rfl⟩
        · exact .inl (Rule.mem_nodes_iff.2 (.inl h))
        · exact .inl (Rule.mem_nodes_iff.2 (.inr (.inl h)))
        · exact .inl (Rule.mem_nodes_iff.2 (.inr (.inr (.inl h))))
        · rcases List.mem_append.1 h with h | h
          · exact .inl (Rule.mem_nodes_iff.2 (.inr (.inr (.inr ⟨selector', y', h, rfl⟩))))
          · cases List.mem_singleton.1 h
            exact .inr ⟨_, _, rfl⟩

theorem mem_nodes_foldl_store {pieces : List Piece} {r : Rule} {x : Node}
    (h : x ∈ (pieces.foldl c.store r).nodes) :
    x ∈ r.nodes ∨ ∃ place source, .node place source x ∈ pieces := by
  induction pieces generalizing r with
  | nil => exact .inl h
  | cons q more ih =>
    rw [List.foldl_cons] at h
    rcases ih h with h | ⟨place, source, h⟩
    · rcases c.mem_nodes_of_mem_nodes_store h with h | ⟨place, source, rfl⟩
      · exact .inl h
      · exact .inr ⟨place, source, List.mem_cons_self ..⟩
    · exact .inr ⟨place, source, List.mem_cons_of_mem _ h⟩

/-- What a compiled rule owns was compiled from a dictionary in its own. -/
theorem mem_nodes_rule {serial : Nat} {parent : Option NodeId} {d : Document} {x : Node}
    (h : x ∈ (c.rule serial parent d).nodes) :
    ∃ place source, .node place source x ∈ c.contents serial d := by
  rw [rule_eq_foldl] at h
  rcases c.mem_nodes_foldl_store h with h | h
  · cases h
  · exact h

-- ============================================================= numbers

/-- A rule among the pieces was compiled from its dictionary, under a number
that leaves room for all that is nested in it. -/
theorem exists_of_rule_mem_pieces {owner : NodeId} {next : Nat} {clauses : List Clause}
    {place : Place} {source : Document} {x : Rule}
    (h : .node place source (.rule x) ∈ c.pieces owner next clauses) :
    ∃ serial, x = c.rule serial (some owner) source ∧ next ≤ serial
      ∧ serial + 1 + (Outline.ofDocument source).count ≤ next + Clause.total clauses
      ∧ .nested place source ∈ clauses ∧ place.refers source = false := by
  induction clauses generalizing next with
  | nil => cases h
  | cons clause more ih =>
    have hskip : .node place source (.rule x) ∈ c.pieces owner next more →
        ∃ serial, x = c.rule serial (some owner) source ∧ next ≤ serial
          ∧ serial + 1 + (Outline.ofDocument source).count
            ≤ next + Clause.total (clause :: more)
          ∧ .nested place source ∈ clause :: more ∧ place.refers source = false := by
      intro hmem
      obtain ⟨serial, hx, hle, hroom, hclause, hrefers⟩ := ih hmem
      refine ⟨serial, hx, hle, ?_, List.mem_cons_of_mem _ hclause, hrefers⟩
      rw [Clause.total]
      omega
    cases clause with
    | «attribute» key text =>
      rcases List.mem_cons.1 h with h | h
      · cases h
      · exact hskip h
    | unusable key => exact hskip h
    | label key index text =>
      rcases List.mem_cons.1 h with h | h
      · cases h
      · exact hskip h
    | nested place' source' =>
      rw [pieces] at h
      split at h
      · rcases List.mem_cons.1 h with h | h
        · cases h
        · exact hskip h
      · rename_i hrefers
        rw [Clause.total, Clause.count, if_neg hrefers]
        rcases List.mem_cons.1 h with h | h
        · cases h
          refine ⟨next, rfl, Nat.le_refl _, ?_, List.mem_cons_self .., by simpa using hrefers⟩
          omega
        · obtain ⟨serial, hx, hle, hroom, hclause, hrefers'⟩ := ih h
          refine ⟨serial, hx, ?_, ?_, List.mem_cons_of_mem _ hclause, hrefers'⟩
          · omega
          · omega

/-- A reference among the pieces is what the include of its dictionary
stands for. -/
theorem eq_of_reference_mem_pieces {owner : NodeId} {next : Nat} {clauses : List Clause}
    {place : Place} {source : Document} {p : Reference}
    (h : .node place source (.reference p) ∈ c.pieces owner next clauses) :
    p = c.reference owner (Outline.targetOf source) ∧ .nested place source ∈ clauses
      ∧ place.refers source = true := by
  induction clauses generalizing next with
  | nil => cases h
  | cons clause more ih =>
    have hskip : ∀ n, .node place source (.reference p) ∈ c.pieces owner n more →
        p = c.reference owner (Outline.targetOf source) ∧ .nested place source ∈ clause :: more
          ∧ place.refers source = true := by
      intro n hmem
      obtain ⟨hp, hclause, hrefers⟩ := ih hmem
      exact ⟨hp, List.mem_cons_of_mem _ hclause, hrefers⟩
    cases clause with
    | «attribute» key text =>
      rcases List.mem_cons.1 h with h | h
      · cases h
      · exact hskip _ h
    | unusable key => exact hskip _ h
    | label key index text =>
      rcases List.mem_cons.1 h with h | h
      · cases h
      · exact hskip _ h
    | nested place' source' =>
      rw [pieces] at h
      split at h
      · rename_i hrefers
        rcases List.mem_cons.1 h with h | h
        · cases h
          exact ⟨rfl, List.mem_cons_self .., hrefers⟩
        · exact hskip _ h
      · rcases List.mem_cons.1 h with h | h
        · cases h
        · exact hskip _ h

end Context

-- ======================================================= rules in order

/-- Filling does not change who the rule is. -/
theorem fill_id (c : Context) (o : Outline) (next : Nat) (r : Rule) :
    (o.fill c next r).id = r.id := by
  induction o generalizing next r with
  | nothing => rfl
  | «attribute» key text rest ih =>
    rw [Outline.fill, ih]
    rfl
  | unusable key rest ih => exact ih next r
  | label key index text rest ih =>
    rw [Outline.fill, ih]
    rfl
  | reference place target rest ih =>
    rw [Outline.fill, ih]
    cases place <;> rfl
  | rule place scope body rest _ ih =>
    rw [Outline.fill, ih]
    cases place <;> rfl

/-- The rules of an outline have consecutive numbers, in document order. -/
theorem map_id_rules (c : Context) (o : Outline) (next : Nat) (owner : NodeId) :
    (o.rules c next owner).map Rule.id
      = (List.range' next o.count).map (NodeId.mk c.table) := by
  induction o generalizing next owner with
  | nothing => rfl
  | «attribute» key text rest ih => exact ih next owner
  | unusable key rest ih => exact ih next owner
  | label key index text rest ih => exact ih next owner
  | reference place target rest ih => exact ih next owner
  | rule place scope body rest ihbody ih =>
    have hcount : (Outline.rule place scope body rest).count = body.count + rest.count + 1 := by
      rw [Outline.count]
      omega
    rw [Outline.rules, List.map_cons, List.map_append, ihbody, ih, fill_id, hcount,
      List.range'_succ, List.map_cons, ← List.map_append, ← List.range'_append_1]
    rfl

theorem length_rules (c : Context) (o : Outline) (next : Nat) (owner : NodeId) :
    (o.rules c next owner).length = o.count := by
  simpa using congrArg List.length (map_id_rules c o next owner)

/-- The rules that a piece stands for: its own and those nested in it. -/
def Piece.rules (c : Context) : Piece → List Rule
  | .node _ source (.rule x) =>
    x :: (Outline.ofDocument source).rules c (x.id.serial + 1) x.id
  | _ => []

theorem rules_foldr_onto (c : Context) (clauses : List Clause) (next : Nat) (owner : NodeId) :
    (clauses.foldr Clause.onto .nothing).rules c next owner
      = (c.pieces owner next clauses).flatMap (Piece.rules c) := by
  induction clauses generalizing next with
  | nil => rfl
  | cons clause more ih =>
    rw [List.foldr_cons]
    cases clause with
    | «attribute» key text => exact ih next
    | unusable key => exact ih next
    | label key index text => exact ih next
    | nested place source =>
      cases hrefers : place.refers source with
      | true =>
        simp only [Clause.onto, hrefers, if_true, Outline.rules, Context.pieces, List.flatMap_cons]
        rw [ih]
        rfl
      | false =>
        simp only [Clause.onto, hrefers, Bool.false_eq_true, if_false, Outline.rules,
          Context.pieces, List.flatMap_cons, Piece.rules, c.rule_id]
        rw [ih]
        rfl

/-- The rules below a document's own are those of its pieces, in order. -/
theorem rules_ofDocument (c : Context) (serial : Nat) (d : Document) :
    (Outline.ofDocument d).rules c (serial + 1) ⟨c.table, serial⟩
      = (c.contents serial d).flatMap (Piece.rules c) := by
  unfold Context.contents
  rw [ofDocument_eq_foldr, rules_foldr_onto]

end ScopeRules
