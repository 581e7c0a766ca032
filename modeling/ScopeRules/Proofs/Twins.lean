/-
Two compilations of one document. Tables number rules and ids as they come,
so the same document compiled at two moments becomes two sets of rules with
other numbers, other entry ids and other symbols. `Compilation.Twins` says
which nodes of the two stand at the same place: rules that come at the same
place in document order, and references compiled from the same include.

# What carries over

- `Trail.beside`: every way into the document is one in both compilations,
  twin by twin.
- `forall₂_contents`: what stands in the dictionary of a rule, stands in
  that of its twin, piece by piece.
- `Twins.entryNamed?`: under a name, twins have twin entries.
- `Twins.mem_owned`: twins own twins. Here entry ids come in, for an entry
  replaces another one if their ids are equal; so the ids of a document have
  to tell its names apart (`Compilation.IdsApart`).
-/
import ScopeRules.Proofs.Alive
import ScopeRules.Proofs.Cells
import ScopeRules.Proofs.Entries
import ScopeRules.Proofs.SideBySide

namespace ScopeRules

namespace Compilation

variable {k k' : Compilation}

-- ============================================================== places

/-- The number of a rule says at which place of the document it comes. -/
theorem getElem?_rules_iff {n : Nat} {r : Rule} :
    k.rules[n]? = some r ↔ r ∈ k.rules ∧ r.id.serial = k.first + n := by
  have hid : ∀ {n r}, k.rules[n]? = some r → r.id.serial = k.first + n := by
    intro n r h
    obtain ⟨hn, -⟩ := List.getElem?_eq_some_iff.1 h
    have hmap : (k.rules.map Rule.id)[n]? = some r.id := by
      rw [List.getElem?_map, h]
      rfl
    rw [map_id_rules_eq, List.getElem?_map, List.getElem?_range' hn, Option.map_some] at hmap
    rw [← Option.some.inj hmap, Nat.one_mul]
  constructor
  · intro h
    exact ⟨List.mem_of_getElem? h, hid h⟩
  · intro h
    obtain ⟨hmem, hserial⟩ := h
    obtain ⟨m, hm⟩ := List.getElem?_of_mem hmem
    have hplace := hid hm
    obtain rfl : n = m := by omega
    exact hm

/-- Nodes at the same place of two compilations: rules with the same place
in document order, or references compiled from the same include in such
rules. -/
inductive Twins (k k' : Compilation) : Node → Node → Prop where
  | rule {n : Nat} {r r' : Rule} (left : k.rules[n]? = some r) (right : k'.rules[n]? = some r') :
      Twins k k' (.rule r) (.rule r')
  | reference {r r' : Rule} {d source : Document} {outer outer' : List (Rule × Document)}
      {place : Place} {p p' : Reference} (anchors : Twins k k' (.rule r) (.rule r'))
      (left : k.Trail ((r, d) :: outer))
      (memLeft : .node place source (.reference p) ∈ k.contents r d)
      (right : k'.Trail ((r', d) :: outer'))
      (memRight : .node place source (.reference p') ∈ k'.contents r' d) :
      Twins k k' (.reference p) (.reference p')

/-- Twin rules are as far from the roots of their documents. -/
theorem twins_rule_iff {r r' : Rule} :
    k.Twins k' (.rule r) (.rule r') ↔ r ∈ k.rules ∧ r' ∈ k'.rules
      ∧ r.id.serial + k'.first = r'.id.serial + k.first := by
  constructor
  · intro h
    cases h with
    | rule left right =>
      obtain ⟨hr, hserial⟩ := getElem?_rules_iff.1 left
      obtain ⟨hr', hserial'⟩ := getElem?_rules_iff.1 right
      exact ⟨hr, hr', by omega⟩
  · intro h
    obtain ⟨hr, hr', hserial⟩ := h
    have hfirst := (k.id_of_mem_rules hr).2.1
    have hfirst' := (k'.id_of_mem_rules hr').2.1
    exact .rule (getElem?_rules_iff.2 ⟨hr, by omega⟩ : k.rules[r.id.serial - k.first]? = some r)
      (getElem?_rules_iff.2 ⟨hr', by omega⟩)

theorem Twins.symm {x x' : Node} (h : k.Twins k' x x') : k'.Twins k x' x := by
  induction h with
  | rule left right => exact .rule right left
  | reference _ left memLeft right memRight ih => exact .reference ih right memRight left memLeft

theorem Twins.mem_left {r r' : Rule} (h : k.Twins k' (.rule r) (.rule r')) : r ∈ k.rules :=
  (twins_rule_iff.1 h).1

theorem Twins.mem_right {r r' : Rule} (h : k.Twins k' (.rule r) (.rule r')) : r' ∈ k'.rules :=
  (twins_rule_iff.1 h).2.1

/-- A rule has one twin. -/
theorem Twins.eq_iff {r r' s s' : Rule} (h : k.Twins k' (.rule r) (.rule r'))
    (hs : k.Twins k' (.rule s) (.rule s')) : r = s ↔ r' = s' := by
  obtain ⟨hr, hr', hserial⟩ := twins_rule_iff.1 h
  obtain ⟨hs, hs', hserial'⟩ := twins_rule_iff.1 hs
  -- the number and the table make the id
  have hsame : ∀ {k : Compilation} {a b : Rule}, a ∈ k.rules → b ∈ k.rules →
      a.id.serial = b.id.serial → a = b := by
    intro k a b ha hb hab
    apply k.eq_of_id_eq ha hb
    have htable := (k.id_of_mem_rules ha).1.trans (k.id_of_mem_rules hb).1.symm
    cases hida : a.id
    cases hidb : b.id
    simp_all
  constructor
  · intro heq
    rw [heq] at hserial
    exact hsame hr' hs' (by omega)
  · intro heq
    rw [heq] at hserial
    exact hsame hr hs (by omega)

/-- In one compilation a rule is its own twin. -/
theorem Twins.eq_self {r r' : Rule} (h : k.Twins k (.rule r) (.rule r')) : r = r' :=
  (h.eq_iff (twins_rule_iff.2 ⟨h.mem_right, h.mem_right, rfl⟩)).2 rfl

theorem twins_root (k k' : Compilation) : k.Twins k' (.rule k.root) (.rule k'.root) := by
  refine twins_rule_iff.2 ⟨k.root_mem_rules, k'.root_mem_rules, ?_⟩
  simp only [root_id]
  omega

end Compilation

-- ====================================================== piece by piece

/-- Pieces of two compilations that say the same: one thing up to its
symbol, or twins from one dictionary at one place. -/
inductive Piece.Twins (k k' : Compilation) : Piece → Piece → Prop where
  | attribute {key : AttributeKey} {text text' : Symbol} (same : text.text = text'.text) :
      Piece.Twins k k' (.attribute key text) (.attribute key text')
  | label {key : CaptureKey} {index : Nat} {text text' : Symbol} (same : text.text = text'.text) :
      Piece.Twins k k' (.label key index text) (.label key index text')
  | node {place : Place} {source : Document} {x x' : Node} (twins : k.Twins k' x x') :
      Piece.Twins k k' (.node place source x) (.node place source x')

namespace Compilation

variable {k k' : Compilation} {r r' : Rule} {d : Document} {outer outer' : List (Rule × Document)}

/-- The pieces of twins say the same. The induction is on the clauses of
their dictionary; what it carries is that numbers go up in step. -/
theorem forall₂_contents (h : k.Trail ((r, d) :: outer)) (h' : k'.Trail ((r', d) :: outer'))
    (htwins : k.Twins k' (.rule r) (.rule r')) :
    List.Forall₂ (Piece.Twins k k') (k.contents r d) (k'.contents r' d) := by
  have hpieces : ∀ clauses next next', next + k'.first = next' + k.first →
      (∀ q ∈ k.context.pieces ⟨k.context.table, r.id.serial⟩ next clauses, q ∈ k.contents r d) →
      (∀ q ∈ k'.context.pieces ⟨k'.context.table, r'.id.serial⟩ next' clauses,
        q ∈ k'.contents r' d) →
      List.Forall₂ (Piece.Twins k k')
        (k.context.pieces ⟨k.context.table, r.id.serial⟩ next clauses)
        (k'.context.pieces ⟨k'.context.table, r'.id.serial⟩ next' clauses) := by
    intro clauses
    induction clauses with
    | nil => exact fun _ _ _ _ _ => .nil
    | cons clause more ih =>
      intro next next' hnext hmem hmem'
      cases clause with
      | «attribute» key text =>
        refine .cons (.attribute ?_) (ih next next' hnext (fun q hq => hmem q (.tail _ hq))
          fun q hq => hmem' q (.tail _ hq))
        exact (Interner.text_intern _ _).trans (Interner.text_intern _ _).symm
      | unusable key => exact ih next next' hnext hmem hmem'
      | label key index text =>
        refine .cons (.label ?_) (ih next next' hnext (fun q hq => hmem q (.tail _ hq))
          fun q hq => hmem' q (.tail _ hq))
        exact (Interner.text_intern _ _).trans (Interner.text_intern _ _).symm
      | nested place source =>
        simp only [Context.pieces] at hmem hmem' ⊢
        cases hrefers : place.refers source with
        | true =>
          simp only [hrefers, if_true] at hmem hmem' ⊢
          refine .cons (.node ?_) (ih next next' hnext (fun q hq => hmem q (.tail _ hq))
            fun q hq => hmem' q (.tail _ hq))
          exact .reference htwins h (hmem _ (.head _)) h' (hmem' _ (.head _))
        | false =>
          simp only [hrefers, Bool.false_eq_true, if_false] at hmem hmem' ⊢
          have hinner := Trail.nested h (hmem _ (.head _))
          have hinner' := Trail.nested h' (hmem' _ (.head _))
          refine .cons (.node ?_) (ih _ _ (by omega) (fun q hq => hmem q (.tail _ hq))
            fun q hq => hmem' q (.tail _ hq))
          refine twins_rule_iff.2 ⟨hinner.mem_rules, hinner'.mem_rules, ?_⟩
          simpa only [Context.rule_id] using hnext
  have hserial := (twins_rule_iff.1 htwins).2.2
  exact hpieces d.clauses _ _ (by omega) (fun _ hq => hq) fun _ hq => hq

/-- A rule with its dictionary, and its twin with the same dictionary. -/
structure Beside (k k' : Compilation) (f f' : Rule × Document) : Prop where
  twins : k.Twins k' (.rule f.1) (.rule f'.1)
  source : f.2 = f'.2

/-- A way into the document is one in both compilations. -/
theorem Trail.beside (hdocument : k.document = k'.document) {trail : List (Rule × Document)}
    (h : k.Trail trail) : ∃ trail', k'.Trail trail' ∧ List.Forall₂ (k.Beside k') trail trail' := by
  induction h with
  | root =>
    exact ⟨_, .root, .cons ⟨twins_root k k', hdocument⟩ .nil⟩
  | @nested e f outer place source x enclosing mem ih =>
    obtain ⟨trail', htrail', hbeside⟩ := ih
    cases hbeside with
    | @cons _ f' _ outer' hf houter =>
      obtain ⟨e', f'⟩ := f'
      obtain rfl : f = f' := hf.source
      obtain ⟨q, hq, hpiece⟩ :=
        exists_of_forall₂_left (forall₂_contents enclosing htrail' hf.twins) mem
      cases hpiece with
      | @node _ _ _ x' hx =>
        cases hx with
        | rule left right =>
          exact ⟨_, .nested htrail' hq, .cons ⟨.rule left right, rfl⟩ (.cons hf houter)⟩

/-- The ways out of a rule and of its twin run beside each other. -/
theorem exists_trails (hdocument : k.document = k'.document) (hr : r ∈ k.rules) :
    ∃ r' d outer outer', k.Trail ((r, d) :: outer) ∧ k'.Trail ((r', d) :: outer')
      ∧ List.Forall₂ (k.Beside k') ((r, d) :: outer) ((r', d) :: outer') := by
  obtain ⟨d, outer, htrail⟩ := exists_trail_of_mem_rules hr
  obtain ⟨trail', htrail', hbeside⟩ := htrail.beside hdocument
  cases hbeside with
  | @cons _ f' _ outer' hf houter =>
    obtain ⟨r', d'⟩ := f'
    obtain rfl : d = d' := hf.source
    exact ⟨r', d, outer, outer', htrail, htrail', .cons hf houter⟩

/-- Every rule has a twin. -/
theorem exists_twins (hdocument : k.document = k'.document) (hr : r ∈ k.rules) :
    ∃ r', k.Twins k' (.rule r) (.rule r') := by
  obtain ⟨r', d, outer, outer', -, -, hbeside⟩ := exists_trails hdocument hr
  cases hbeside with
  | cons hf _ => exact ⟨r', hf.twins⟩

theorem Twins.exists_trails (hdocument : k.document = k'.document)
    (h : k.Twins k' (.rule r) (.rule r')) :
    ∃ d outer outer', k.Trail ((r, d) :: outer) ∧ k'.Trail ((r', d) :: outer')
      ∧ List.Forall₂ (k.Beside k') ((r, d) :: outer) ((r', d) :: outer') := by
  obtain ⟨s, d, outer, outer', htrail, htrail', hbeside⟩ :=
    Compilation.exists_trails hdocument h.mem_left
  have hs : k.Twins k' (.rule r) (.rule s) := by
    cases hbeside with
    | cons hf _ => exact hf.twins
  obtain rfl := (hs.eq_iff h).1 rfl
  exact ⟨d, outer, outer', htrail, htrail', hbeside⟩

/-- Every reference has a twin. -/
theorem exists_twins_of_refers (hdocument : k.document = k'.document) {p : Reference}
    (hp : k.Refers p) : ∃ p', k.Twins k' (.reference p) (.reference p') := by
  obtain ⟨r, d, outer, place, source, htrail, hmem⟩ := hp
  obtain ⟨trail', htrail', hbeside⟩ := htrail.beside hdocument
  cases hbeside with
  | @cons _ f' _ outer' hf houter =>
    obtain ⟨r', d'⟩ := f'
    obtain rfl : d = d' := hf.source
    obtain ⟨q, -, hpiece⟩ :=
      exists_of_forall₂_left (forall₂_contents htrail htrail' hf.twins) hmem
    cases hpiece with
    | @node _ _ _ x' hx =>
      cases x' with
      | rule s => cases hx
      | reference p' => exact ⟨p', hx⟩

/-- Twin references were compiled from one include, in rules that are
twins. -/
theorem Twins.exists_reference_eq {p p' : Reference}
    (h : k.Twins k' (.reference p) (.reference p')) :
    ∃ r r' target, k.Twins k' (.rule r) (.rule r') ∧ p = k.context.reference r.id target
      ∧ p' = k'.context.reference r'.id target
      ∧ ∀ name, target.name? = some name → name ∈ (Outline.ofDocument k.document).names := by
  cases h with
  | @reference r r' d source outer outer' place _ _ anchors left memLeft right memRight =>
    refine ⟨r, r', Outline.targetOf source, anchors, ?_, ?_, ?_⟩
    · rw [left.id_eq]
      exact (k.context.eq_of_reference_mem_pieces memLeft).1
    · rw [right.id_eq]
      exact (k'.context.eq_of_reference_mem_pieces memRight).1
    · intro name hname
      exact left.mem_names (mem_names_of_reference_mem_contents memLeft hname)

-- ============================================================= entries

/-- Under a name twins have twin entries, or both have none. -/
theorem Twins.entryNamed? (h : k.Trail ((r, d) :: outer)) (h' : k'.Trail ((r', d) :: outer'))
    (htwins : k.Twins k' (.rule r) (.rule r')) (name : String) :
    Option.Rel (k.Twins k') (k.entryNamed? r d name) (k'.entryNamed? r' d name) := by
  have hentries : List.Forall₂ (fun e e' => k.Twins k' e.2 e'.2) (k.entries r d name)
      (k'.entries r' d name) := by
    refine List.rel_filterMap ?_ (forall₂_contents h h' htwins)
    intro q q' hq
    cases hq with
    | @node place source x x' twins =>
      cases place with
      | entry other =>
        by_cases hother : other = name
        · simpa [Piece.entryNamed?, hother] using twins
        · simp [Piece.entryNamed?, hother]
      | _ => exact .none
    | _ => exact .none
  exact map_of_rel (getLast?_of_forall₂ hentries) fun _ _ twins => twins

-- =========================================================== ownership

/-- Whether the ids of a document tell its names apart. -/
def IdsApart (k : Compilation) : Prop :=
  ∀ m ∈ (Outline.ofDocument k.document).names, ∀ n ∈ (Outline.ofDocument k.document).names,
    k.context.ruleId m = k.context.ruleId n → m = n

/-- The ids of a document tell its names apart while they stand in a record. -/
theorem idsApart_of_recorded {issued : List (Nat × String)}
    (h : RuleIds.Recorded k.context.ruleIds k.epoch issued) : k.IdsApart := by
  intro m hm n hn hid
  have hget := get?_ruleIds hm
  rw [hid] at hget
  exact (RuleIds.name_eq_of_recorded h h hget (get?_ruleIds hn)).2

end Compilation

/-- The place that a piece takes for itself, so that an earlier piece has to
give way. -/
def Piece.takes? : Piece → Option Place
  | .label key index _ => some (.capture key index)
  | .node (.entry name) _ _ => some (.entry name)
  | .node (.capture key index) _ (.rule _) => some (.capture key index)
  | _ => none

/-- The cell at a place. -/
def Context.cellAt? (c : Context) : Place → Option Cell
  | .entry name => some (.entry (c.ruleId name))
  | .capture key index => some (.group key index)
  | _ => none

theorem Context.cell?_eq (c : Context) (q : Piece) : c.cell? q = q.takes?.bind c.cellAt? := by
  cases q with
  | node place source x => cases place <;> cases x <;> rfl
  | _ => rfl

namespace Compilation

variable {k k' : Compilation} {r r' : Rule} {d : Document} {outer outer' : List (Rule × Document)}

theorem takes?_eq {q q' : Piece} (h : Piece.Twins k k' q q') : q.takes? = q'.takes? := by
  cases h with
  | @node place source x x' twins => cases twins <;> cases place <;> rfl
  | _ => rfl

/-- The name that a piece takes a place for is mentioned by the document. -/
theorem Trail.mem_names_of_takes? (h : k.Trail ((r, d) :: outer)) {q : Piece}
    (hq : q ∈ k.contents r d) {name : String} (hname : q.takes? = some (.entry name)) :
    name ∈ (Outline.ofDocument k.document).names := by
  cases q with
  | node place source x =>
    cases place with
    | entry other =>
      obtain rfl : other = name := by simpa [Piece.takes?] using hname
      exact h.mem_names (mem_names_of_entry_mem_contents hq)
    | capture key index => cases x <;> simp [Piece.takes?] at hname
    | _ => cases hname
  | _ => cases hname

/-- While ids tell names apart, pieces in one cell take one place. -/
theorem Trail.takes?_eq_of_cell? (h : k.Trail ((r, d) :: outer)) (hids : k.IdsApart)
    {p q : Piece} (hp : p ∈ k.contents r d) (hq : q ∈ k.contents r d) {cell : Cell}
    (hpcell : k.context.cell? p = some cell) (hqcell : k.context.cell? q = some cell) :
    p.takes? = q.takes? := by
  rw [Context.cell?_eq] at hpcell hqcell
  obtain ⟨a, ha, hacell⟩ := Option.bind_eq_some_iff.1 hpcell
  obtain ⟨b, hb, hbcell⟩ := Option.bind_eq_some_iff.1 hqcell
  rw [ha, hb]
  have hcell := hacell.trans hbcell.symm
  cases a with
  | entry m =>
    cases b with
    | entry n =>
      simp only [Context.cellAt?, Option.some.injEq, Cell.entry.injEq] at hcell
      rw [hids m (h.mem_names_of_takes? hp ha) n (h.mem_names_of_takes? hq hb) hcell]
    | _ => cases hcell
  | capture key index =>
    cases b with
    | capture key' index' =>
      simp only [Context.cellAt?, Option.some.injEq, Cell.group.injEq] at hcell
      rw [hcell.1, hcell.2]
    | _ => cases hcell
  | _ => cases hacell

/-- A rule owns itself the twins of what its twin owns itself. -/
theorem Twins.mem_nested (hdocument : k.document = k'.document) (hids : k'.IdsApart)
    (h : k.Twins k' (.rule r) (.rule r')) {x : Rule} (hx : x ∈ r.nested) :
    ∃ x' ∈ r'.nested, k.Twins k' (.rule x) (.rule x') := by
  obtain ⟨d, outer, outer', htrail, htrail', -⟩ := h.exists_trails hdocument
  have hcontents := forall₂_contents htrail htrail' h
  rw [htrail.eq_rule, Context.mem_nested_rule_iff] at hx
  obtain ⟨before, q, after, hsplit, hrule, hlast⟩ := hx
  have hsplit' : k.contents r d = before ++ q :: after := hsplit
  rw [hsplit'] at hcontents
  obtain ⟨before', q', after', heq, hq, hafter⟩ := split_of_forall₂ hcontents
  obtain ⟨x', hrule', hx⟩ : ∃ x', q'.rule? = some x' ∧ k.Twins k' (.rule x) (.rule x') := by
    cases hq with
    | node twins =>
      cases twins with
      | rule left right =>
        cases hrule
        exact ⟨_, rfl, .rule left right⟩
      | reference => cases hrule
    | _ => cases hrule
  refine ⟨x', ?_, hx⟩
  rw [htrail'.eq_rule, Context.mem_nested_rule_iff]
  refine ⟨before', q', after', heq, hrule', ?_⟩
  intro p' hp' cell' hcell' hpcell'
  -- a later piece in the same cell would take the same place here too
  obtain ⟨p, hp, htwins⟩ := exists_of_forall₂_right hafter hp'
  have hplace := htrail'.takes?_eq_of_cell? hids (p := q') (q := p') (heq ▸ by simp)
    (heq ▸ by simp [hp']) hcell' hpcell'
  rw [← takes?_eq hq, ← takes?_eq htwins] at hplace
  rw [Context.cell?_eq] at hcell'
  obtain ⟨place, htakes, hat⟩ := Option.bind_eq_some_iff.1 hcell'
  obtain ⟨cell, hcell⟩ : ∃ cell, k.context.cellAt? place = some cell := by
    cases place with
    | child => cases hat
    | injection => cases hat
    | _ => exact ⟨_, rfl⟩
  rw [← takes?_eq hq] at htakes
  apply hlast p hp cell
  · rw [Context.cell?_eq, htakes]
    exact hcell
  · rw [Context.cell?_eq, ← hplace, htakes]
    exact hcell

/-- Twins own twins, at any depth. -/
theorem Twins.mem_owned (hdocument : k.document = k'.document) (hids : k'.IdsApart)
    {s s' : Rule} (h : k.Twins k' (.rule r) (.rule r')) (hs : k.Twins k' (.rule s) (.rule s'))
    (hmem : s ∈ r.owned) : s' ∈ r'.owned := by
  induction r using Rule.nestedInduction generalizing r' with
  | step r ih =>
    rcases Rule.mem_owned_iff.1 hmem with rfl | ⟨t, ht, hmem⟩
    · rw [(hs.eq_iff h).1 rfl]
      exact Rule.mem_owned_self r'
    · obtain ⟨t', ht', htwins⟩ := h.mem_nested hdocument hids ht
      exact Rule.mem_owned_iff.2 (.inr ⟨t', ht', ih t ht htwins hmem⟩)

end Compilation

end ScopeRules
