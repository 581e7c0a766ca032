/-
Repository entries by name. A document writes its entries under names, a
compiled rule keeps them under ids. This file says which entry a rule has
under a name, in terms of the document alone, and shows that the look-up by
id finds that entry and no other.

# Names

`Document.entriesNamed` reads the entries of a dictionary off its text: all
dictionaries under exactly that name in the repositories, whatever the case
of the word for these. `Compilation.entries` puts beside each what it was
compiled to, and `map_fst_entries` says that nothing is left out, added or
moved. The last one is the one that counts (`entryNamed?`), and the nearest rule
that has one (`nearest`).

# Ids

An id is asked for by a reference, which got it when its own document was
compiled, and is looked for in a rule of some document of the same table.
`Trail.entryAt?_eq` settles all cases at once: the rule answers with its
entry of that name if the ids were not compacted between the two documents,
and has nothing under the id if they were. It needs the record of the ids
that the table has issued (IssuedIds.lean), by which an id never comes to
mean a second name.
-/
import ScopeRules.Proofs.IssuedIds
import ScopeRules.Proofs.Slots
import ScopeRules.Proofs.Trail

namespace ScopeRules

-- ============================================================== by name

/-- The dictionaries that a rule dictionary has under an entry name in its
repositories, in document order. -/
def Document.entriesNamed (d : Document) (name : String) : List Document :=
  d.flatMap fun (key, value) =>
    if sameUpToCase StructuralKey.repository.spelling key then
      (value.dict?.getD []).filterMap fun (n, entry) => if n = name then entry.dict? else none
    else []

/-- The dictionary that a clause puts under an entry name. -/
def Clause.entryNamed? (name : String) : Clause → Option Document
  | .nested (.entry n) source => if n = name then some source else none
  | _ => none

/-- What a piece puts under an entry name: a dictionary, and what it was
compiled to. -/
def Piece.entryNamed? (name : String) : Piece → Option (Document × Node)
  | .node (.entry n) source x => if n = name then some (source, x) else none
  | _ => none

/-- The clauses of a dictionary give a name the entries that the dictionary
has under it. -/
theorem Document.filterMap_entryNamed?_clauses (d : Document) (name : String) :
    d.clauses.filterMap (Clause.entryNamed? name) = d.entriesNamed name := by
  rw [Clause.filterMap_clauses (.structural .repository)]
  · refine List.flatMap_congr fun p _ => ?_
    obtain ⟨key, value⟩ := p
    show _ = if sameUpToCase StructuralKey.repository.spelling key then
        (value.dict?.getD []).filterMap fun (e : String × Value) =>
          if e.1 = name then e.2.dict? else none
      else []
    rw [← if_congr RuleKey.ofSpelling_eq_structural_iff rfl rfl]
    split
    · rename_i hkey
      rw [Clause.ofEntry_repository value hkey, List.filterMap_filterMap]
      refine List.filterMap_congr fun e _ => ?_
      cases e.2.dict? with
      | none => exact (ite_self _).symm
      | some source => rfl
    · rfl
  · intro clause hhome
    unfold Clause.entryNamed?
    split
    · exact absurd rfl hhome
    · rfl

namespace Compilation

variable (k : Compilation)

/-- The entries that a rule was given under a name, in document order: each
dictionary with what it was compiled to. -/
def entries (r : Rule) (d : Document) (name : String) : List (Document × Node) :=
  (k.contents r d).filterMap (Piece.entryNamed? name)

/-- The entry of a rule under a name: of several the last one. -/
def entryNamed? (r : Rule) (d : Document) (name : String) : Option Node :=
  ((k.entries r d name).getLast?).map Prod.snd

/-- The entry of the nearest rule of a trail that has one under the name. -/
def nearest (name : String) (trail : List (Rule × Document)) : Option Node :=
  trail.findSome? fun f => k.entryNamed? f.1 f.2 name

end Compilation

/-- What clauses put under a name is what their pieces put under it. -/
theorem Context.map_fst_filterMap_entryNamed?_pieces (c : Context) (owner : NodeId) (next : Nat)
    (clauses : List Clause) (name : String) :
    ((c.pieces owner next clauses).filterMap (Piece.entryNamed? name)).map Prod.fst
      = clauses.filterMap (Clause.entryNamed? name) := by
  induction clauses generalizing next with
  | nil => rfl
  | cons clause more ih =>
    have hnested : ∀ place source x n,
        ((Piece.node place source x :: c.pieces owner n more).filterMap
          (Piece.entryNamed? name)).map Prod.fst
          = (Clause.nested place source :: more).filterMap (Clause.entryNamed? name) := by
      intro place source x n
      have hmore := ih n
      rw [List.filterMap_cons, List.filterMap_cons]
      cases place with
      | entry other =>
        by_cases hother : other = name
        · simp only [Piece.entryNamed?, Clause.entryNamed?, hother, if_true, List.map_cons, hmore]
        · simp only [Piece.entryNamed?, Clause.entryNamed?, hother, if_false, hmore]
      | _ => exact hmore
    cases clause with
    | «attribute» key text => exact ih next
    | unusable key => exact ih next
    | label key index text => exact ih next
    | nested place source =>
      rw [Context.pieces]
      split
      · exact hnested place source _ _
      · exact hnested place source _ _

/-- The entries that a rule was given under a name are compiled from those
that its dictionary has under it. -/
theorem Compilation.map_fst_entries (k : Compilation) (r : Rule) (d : Document) (name : String) :
    (k.entries r d name).map Prod.fst = d.entriesNamed name := by
  unfold Compilation.entries Compilation.contents Context.contents
  rw [Context.map_fst_filterMap_entryNamed?_pieces, Document.filterMap_entryNamed?_clauses]

-- ======================================================= names and ids

namespace Compilation

variable {k : Compilation}

/-- A name that a clause of `d` mentions is mentioned by `d`. -/
theorem mem_names_of_mem_clauses {d : Document} {clause : Clause} {name : String}
    (h : clause ∈ d.clauses) (hname : name ∈ clause.names) :
    name ∈ (Outline.ofDocument d).names := by
  rw [names_ofDocument]
  exact List.mem_flatMap_of_mem h hname

/-- A name mentioned on a trail is mentioned by the document. -/
theorem Trail.mem_names {r : Rule} {d : Document} {outer : List (Rule × Document)}
    (h : k.Trail ((r, d) :: outer)) {name : String}
    (hname : name ∈ (Outline.ofDocument d).names) :
    name ∈ (Outline.ofDocument k.document).names := by
  cases h with
  | root => exact hname
  | nested enclosing mem =>
    obtain ⟨serial, -, -, -, hclause, hrefers⟩ := k.context.exists_of_rule_mem_pieces mem
    refine enclosing.mem_names (mem_names_of_mem_clauses hclause ?_)
    rw [Clause.names, hrefers]
    exact List.mem_append_right _ hname

/-- A name that the document mentions has an id, which is the one that its
rules are built with. -/
theorem get?_ruleIds {name : String} (h : name ∈ (Outline.ofDocument k.document).names) :
    k.context.ruleIds.get? name = some (k.context.ruleId name) := by
  obtain ⟨id, hid⟩ := RuleIds.exists_get?_allocateAll k.table.ruleIds h
  have hanswer := congrArg Prod.fst (RuleIds.idFor_of_get? hid)
  exact hid.trans (congrArg some hanswer.symm)

/-- The name of an entry is mentioned by the dictionary. -/
theorem mem_names_of_entry_mem_contents {r : Rule} {d source : Document} {name : String}
    {x : Node} (h : .node (.entry name) source x ∈ k.contents r d) :
    name ∈ (Outline.ofDocument d).names := by
  have hclause : .nested (.entry name) source ∈ d.clauses := by
    cases x with
    | rule s =>
      obtain ⟨serial, -, -, -, hclause, -⟩ := k.context.exists_of_rule_mem_pieces h
      exact hclause
    | reference p => exact (k.context.eq_of_reference_mem_pieces h).2.1
  refine mem_names_of_mem_clauses hclause ?_
  rw [Clause.names]
  exact List.mem_append_left _ (List.mem_cons_self ..)

/-- The name that an include asks for is mentioned by the dictionary. -/
theorem mem_names_of_reference_mem_contents {r : Rule} {d source : Document} {place : Place}
    {p : Reference} {name : String} (h : .node place source (.reference p) ∈ k.contents r d)
    (hname : (Outline.targetOf source).name? = some name) :
    name ∈ (Outline.ofDocument d).names := by
  obtain ⟨-, hclause, hrefers⟩ := k.context.eq_of_reference_mem_pieces h
  refine mem_names_of_mem_clauses hclause ?_
  rw [Clause.names, hrefers, if_pos rfl, hname]
  exact List.mem_append_right _ (List.mem_cons_self ..)

/-- Under an id that `name` got in some session of ids, a rule has its entry
of that name if its document was compiled in the same session, and nothing
if it was not. -/
theorem Trail.entryAt?_of_get? {r : Rule} {d : Document} {outer : List (Rule × Document)}
    {issued : List (Nat × String)} {ids : RuleIds} {epoch : Nat} {name : String} {id : RuleId}
    (h : k.Trail ((r, d) :: outer)) (hdistinct : issued.Nodup)
    (hids : RuleIds.Recorded ids epoch issued)
    (hk : RuleIds.Recorded k.context.ruleIds k.epoch issued) (hid : ids.get? name = some id) :
    r.entryAt? id = if epoch = k.epoch then k.entryNamed? r d name else none := by
  have hpieces : (k.contents r d).filterMap (k.context.entryNode? (id))
      = if epoch = k.epoch then (k.entries r d name).map Prod.snd else [] := by
    have hmatch : ∀ q ∈ k.contents r d, k.context.entryNode? (id) q
        = if epoch = k.epoch then (Piece.entryNamed? name q).map Prod.snd else none := by
      intro q hq
      cases q with
      | «attribute» key text => exact (ite_self _).symm
      | label key index text => exact (ite_self _).symm
      | node place source x =>
        cases place with
        | entry n =>
          have hn := get?_ruleIds (h.mem_names (mem_names_of_entry_mem_contents hq))
          simp only [Context.entryNode?, Piece.entryNamed?]
          by_cases hsame : k.context.ruleId n = id
          · rw [hsame] at hn
            obtain ⟨hepoch, rfl⟩ := RuleIds.name_eq_of_recorded hids hk hid hn
            rw [if_pos hsame, if_pos hepoch, if_pos rfl]
            rfl
          · rw [if_neg hsame]
            by_cases hepoch : epoch = k.epoch
            · have hother : n ≠ name := by
                intro heq
                subst heq
                exact hsame (RuleIds.id_eq_of_recorded hdistinct hk (hepoch ▸ hids) hn hid)
              rw [if_pos hepoch, if_neg hother]
              rfl
            · rw [if_neg hepoch]
        | _ => exact (ite_self _).symm
    rw [List.filterMap_congr hmatch]
    split
    · exact List.map_filterMap.symm
    · exact List.filterMap_none _
  have hrule := k.context.entryAt?_rule r.id.serial (outer.head?.map fun f => f.1.id) d
    (id)
  rw [← h.eq_rule] at hrule
  rw [hrule]
  show ((k.contents r d).filterMap _).getLast? = _
  rw [hpieces]
  split
  · exact List.getLast?_map
  · rfl

/-- Under an id that `name` got in the document `j`, a rule of the document
`k` has its entry of that name if the ids were not compacted between the
two, and nothing if they were. -/
theorem Trail.entryAt?_eq {j : Compilation} {r : Rule} {d : Document}
    {outer : List (Rule × Document)} {issued : List (Nat × String)} {name : String}
    (h : k.Trail ((r, d) :: outer)) (hdistinct : issued.Nodup)
    (hj : RuleIds.Recorded j.context.ruleIds j.epoch issued)
    (hk : RuleIds.Recorded k.context.ruleIds k.epoch issued)
    (hname : name ∈ (Outline.ofDocument j.document).names) :
    r.entryAt? (j.context.ruleId name)
      = if j.epoch = k.epoch then k.entryNamed? r d name else none :=
  h.entryAt?_of_get? hdistinct hj hk (get?_ruleIds hname)

end Compilation

end ScopeRules
