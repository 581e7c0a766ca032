/-
Which names a document mentions, and which of them get an id. The document
is read from its beginning to its end, an entry's key before its content
(`Document.mentions`); where a name is mentioned at all is said without any
order, of one rule dictionary at a time (`Document.Says`). Neither reading
knows of outlines, places or ids.

# New names

A request allocates only if the name has no id, and then it takes the next
number. So of a list of requests those for new names count, each where it
comes first: these are the `fresh` names, and a list of them is exactly what
one request more or less changes at its front (`fresh_cons`). The ids, the
counter and the order of the allocations are inductions over that equation.

# Two readings of one document

`names_eq_mentions` matches the traversal with what the compiler asks for,
clause by clause. `mem_mentions_iff` matches it with the rule dictionaries of
the compiled rules, as the trails lead to them. What the dictionaries do not
say is asked for nowhere: in an entry of a wrong kind, beside the include of
a reference, or in a group with a label there is no rule dictionary.
-/
import ScopeRules.Proofs.IssuedIds
import ScopeRules.Proofs.Pruning

namespace ScopeRules

-- ============================================================= new names

namespace RuleIds

/-- The names without an id, each at the place where it comes first. -/
def fresh (ids : RuleIds) (names : List String) : List String :=
  (names.filter fun name => (ids.get? name).isNone).eraseDups

variable {ids : RuleIds} {name : String} {names : List String}

theorem mem_fresh_iff : name ∈ ids.fresh names ↔ name ∈ names ∧ ids.get? name = none := by
  unfold fresh
  rw [List.mem_eraseDups, List.mem_filter, Option.isNone_iff_eq_none]

/-- A new name in front is fresh, and the others are as they are after the
request for it. -/
theorem fresh_cons_of_none (h : ids.get? name = none) (names : List String) :
    ids.fresh (name :: names) = name :: (ids.idFor name).2.fresh names := by
  have hknown : (ids.get? name).isNone = true := Option.isNone_iff_eq_none.2 h
  unfold fresh
  rw [List.filter_cons, hknown, if_pos rfl, List.eraseDups_cons, List.filter_filter]
  refine congrArg (fun more => name :: List.eraseDups more) (List.filter_congr ?_)
  intro other _
  rw [get?_idFor]
  by_cases hother : name = other
  · simp [hother]
  · simp [hother, Ne.symm hother]

/-- A known name in front changes nothing. -/
theorem fresh_cons_of_some {id : RuleId} (h : ids.get? name = some id) (names : List String) :
    ids.fresh (name :: names) = ids.fresh names := by
  have hknown : (ids.get? name).isNone = false := by
    rw [h]
    rfl
  unfold fresh
  rw [List.filter_cons, hknown]
  rfl

/-- A fresh name is not a known one. -/
theorem ne_of_mem_fresh {known : String} {id : RuleId} (hknown : ids.get? known = some id)
    (h : name ∈ ids.fresh names) : known ≠ name := by
  intro heq
  have hnone := (mem_fresh_iff.1 h).2
  rw [← heq, hknown] at hnone
  cases hnone

/-- While there is room, a new name gets the next number. -/
theorem idFor_of_none_of_room (h : ids.get? name = none) (hroom : ids.allocated < RuleId.largest) :
    (ids.idFor name).1 = ⟨ids.allocated + 1⟩
      ∧ (ids.idFor name).2.allocated = ids.allocated + 1 := by
  have hnext : min (ids.allocated + 1) RuleId.largest = ids.allocated + 1 := Nat.min_eq_left hroom
  unfold get? at h
  rw [idFor, h]
  exact ⟨congrArg RuleId.mk hnext, hnext⟩

/-- The counter goes up by one for each fresh name. -/
theorem allocated_allocateAll (hroom : ids.allocated + (ids.fresh names).length ≤ RuleId.largest) :
    (ids.allocateAll names).allocated = ids.allocated + (ids.fresh names).length := by
  induction names generalizing ids with
  | nil => rfl
  | cons name names ih =>
    rw [allocateAll_cons]
    cases h : ids.get? name with
    | some id =>
      rw [fresh_cons_of_some h] at hroom ⊢
      rw [idFor_of_get? h]
      exact ih hroom
    | none =>
      rw [fresh_cons_of_none h, List.length_cons] at hroom ⊢
      obtain ⟨-, hnext⟩ := idFor_of_none_of_room h (by omega)
      rw [ih (by omega), hnext]
      omega

/-- The fresh names get the next ids, in order. -/
theorem get?_allocateAll_fresh
    (hroom : ids.allocated + (ids.fresh names).length ≤ RuleId.largest) {k : Nat}
    (hk : (ids.fresh names)[k]? = some name) :
    (ids.allocateAll names).get? name = some ⟨ids.allocated + 1 + k⟩ := by
  induction names generalizing ids k with
  | nil => cases hk
  | cons first names ih =>
    rw [allocateAll_cons]
    cases h : ids.get? first with
    | some id =>
      rw [fresh_cons_of_some h] at hroom hk
      rw [idFor_of_get? h]
      exact ih hroom hk
    | none =>
      rw [fresh_cons_of_none h] at hroom hk
      rw [List.length_cons] at hroom
      obtain ⟨hid, hnext⟩ := idFor_of_none_of_room h (by omega)
      cases k with
      | zero =>
        obtain rfl : first = name := Option.some.inj hk
        refine get?_allocateAll_of_some names ?_
        rw [get?_idFor, if_pos rfl, hid, Nat.add_zero]
      | succ k =>
        rw [List.getElem?_cons_succ] at hk
        rw [ih (by omega) hk, hnext, Nat.add_assoc (ids.allocated + 1) 1 k, Nat.add_comm 1 k]

/-- A name that is not fresh keeps the id that it has, or has none. -/
theorem get?_allocateAll_of_not_mem_fresh (h : name ∉ ids.fresh names) :
    (ids.allocateAll names).get? name = ids.get? name := by
  cases hid : ids.get? name with
  | some id => exact get?_allocateAll_of_some names hid
  | none =>
    have hmem : name ∉ names := fun hmem => h (mem_fresh_iff.2 ⟨hmem, hid⟩)
    have hsome := isSome_get?_allocateAll ids names name
    rw [hid, decide_eq_false hmem] at hsome
    exact Option.isSome_eq_false_iff.1 hsome |> Option.isNone_iff_eq_none.1

/-- Fresh names stand in the order in which the list has them first. -/
theorem fresh_pairwise (ids : RuleIds) (names : List String) :
    (ids.fresh names).Pairwise fun m n => names.idxOf m < names.idxOf n := by
  induction names generalizing ids with
  | nil => exact List.Pairwise.nil
  | cons first names ih =>
    -- once the first name has an id, the places are those in the rest, one further on
    have hlater : ∀ {state : RuleIds} {id : RuleId}, state.get? first = some id →
        (state.fresh names).Pairwise fun m n =>
          (first :: names).idxOf m < (first :: names).idxOf n := by
      intro state id hfirst
      refine (ih state).imp_of_mem ?_
      intro m n hm hn hlt
      rw [List.idxOf_cons_ne _ (ne_of_mem_fresh hfirst hm),
        List.idxOf_cons_ne _ (ne_of_mem_fresh hfirst hn)]
      omega
    cases h : ids.get? first with
    | some id =>
      rw [fresh_cons_of_some h]
      exact hlater h
    | none =>
      have hfirst : (ids.idFor first).2.get? first = some (ids.idFor first).1 := by
        rw [get?_idFor, if_pos rfl]
      rw [fresh_cons_of_none h]
      refine List.pairwise_cons.2 ⟨?_, hlater hfirst⟩
      intro name hname
      rw [List.idxOf_cons_self, List.idxOf_cons_ne _ (ne_of_mem_fresh hfirst hname)]
      omega

end RuleIds

-- ============================================================== includes

/-- Whether an include string asks for an entry of this name: the string is
the name after a hash, or it asks for another grammar and the name, which is
not empty, stands after its first hash. -/
def Include.Asks (text name : String) : Prop :=
  text = "#" ++ name
    ∨ (Vocabulary.isSelfWord text = false ∧ name ≠ ""
      ∧ ∃ scope : String, scope ≠ "" ∧ '#' ∉ scope.toList ∧ text = scope ++ "#" ++ name)

/-- A text with a hash in it is split by the first one. -/
theorem split_of_dropWhile_ne_nil {cs : List Char} (h : cs.dropWhile (· ≠ '#') ≠ []) :
    cs = cs.takeWhile (· ≠ '#') ++ '#' :: (cs.dropWhile (· ≠ '#')).drop 1
      ∧ '#' ∉ cs.takeWhile (· ≠ '#') := by
  refine ⟨?_, fun hmem => by simpa using List.mem_takeWhile_imp hmem⟩
  have hsplit := List.takeWhile_append_dropWhile (p := (· ≠ '#')) (l := cs)
  cases hafter : cs.dropWhile (· ≠ '#') with
  | nil => exact absurd hafter h
  | cons c rest =>
    have hhash : c = '#' := by
      have hhead := List.head?_dropWhile_not (fun c => decide (c ≠ '#')) cs
      rw [hafter] at hhead
      simpa using hhead
    rw [hafter, hhash] at hsplit
    exact hsplit.symm

/-- Reading an include string finds the name that it asks for. -/
theorem Include.name?_ofText_eq_some_iff {text name : String} :
    (Include.ofText text).name? = some name ↔ Include.Asks text name := by
  constructor
  · intro h
    unfold ofText at h
    split at h
    · rename_i rest htext
      refine .inl (String.toList_inj.1 ?_)
      rw [htext, String.toList_append, ← Option.some.inj h]
      exact congrArg (List.cons '#') String.toList_ofList.symm
    · rename_i hstart
      split at h
      · cases h
      · rename_i hself
        obtain ⟨hne, hname⟩ := Option.ite_none_left_eq_some.1 h
        obtain ⟨hsplit, hhash⟩ := split_of_dropWhile_ne_nil fun hnil => hne (by rw [hnil]; rfl)
        refine .inr ⟨Bool.eq_false_iff.2 hself, ?_,
          String.ofList (text.toList.takeWhile (· ≠ '#')), ?_, ?_, ?_⟩
        · rintro rfl
          rw [String.ofList_eq_empty_iff.1 (Option.some.inj hname)] at hne
          exact hne rfl
        · intro hempty
          rw [String.ofList_eq_empty_iff.1 hempty, List.nil_append] at hsplit
          exact hstart _ hsplit
        · rw [String.toList_ofList]
          exact hhash
        · refine String.toList_inj.1 ?_
          rw [← Option.some.inj hname]
          simp only [String.toList_append, String.toList_ofList]
          rw [List.append_assoc]
          exact hsplit
  · intro h
    rcases h with rfl | ⟨hself, hne, scope, hscope, hhash, rfl⟩
    · rw [ofText_hash]
      rfl
    · have hwritten := @ofText_written scope (some name) hhash (.inl hscope) hself
      unfold written at hwritten
      rw [hwritten]
      simp [name?, Option.filter, hne]

-- ============================================================= documents

namespace Document

mutual

/-- The names that the entries of a rule dictionary mention, read from the
first to the last. -/
def mentionsOfKeys : List (String × Value) → List String
  | [] => []
  | (key, value) :: more => mentionsUnder (RuleKey.ofSpelling key) value ++ mentionsOfKeys more

/-- The names mentioned in the value of a key. -/
def mentionsUnder : RuleKey → Value → List String
  | .captures _, .dict groups => mentionsOfGroups groups
  | .structural .patterns, .array items => mentionsOfItems items
  | .structural .repository, .dict entries => mentionsOfEntries entries
  | .structural .injections, .dict entries => mentionsOfInjections entries
  | _, _ => []

/-- An item or entry mentions what its include asks for, and if it has none,
what it mentions as a rule dictionary. -/
def mentionsOfNested : Value → List String
  | .dict source =>
    if Assoc.has source Vocabulary.includeKey then (Outline.targetOf source).name?.toList
    else mentionsOfKeys source
  | _ => []

def mentionsOfItems : List Value → List String
  | [] => []
  | item :: more => mentionsOfNested item ++ mentionsOfItems more

/-- An entry that is a dictionary mentions its own name, and then what it
holds. -/
def mentionsOfEntries : List (String × Value) → List String
  | [] => []
  | (name, entry) :: more =>
    (entry.dict?.map fun _ => name).toList ++ mentionsOfNested entry ++ mentionsOfEntries more

def mentionsOfInjections : List (String × Value) → List String
  | [] => []
  | (_, .dict source) :: more => mentionsOfKeys source ++ mentionsOfInjections more
  | _ :: more => mentionsOfInjections more

/-- A group with a label mentions nothing, and neither does one without a
usable numeral. -/
def mentionsOfGroups : List (String × Value) → List String
  | [] => []
  | (key, .dict source) :: more =>
    if (Vocabulary.captureIndex? key).isSome
        ∧ Document.getString? source Vocabulary.labelKey = none then
      mentionsOfKeys source ++ mentionsOfGroups more
    else mentionsOfGroups more
  | _ :: more => mentionsOfGroups more

end

/-- The names that a document mentions, in the order in which it is read: from
its beginning to its end, the key of an entry before its content. -/
def mentions (d : Document) : List String := mentionsOfKeys d

/-- Whether a rule dictionary itself mentions a name: as the key of a
dictionary in a repository, or in the include of an item or entry. -/
def Says (d : Document) (name : String) : Prop :=
  (∃ entry, (name, entry) ∈ d.named .repository)
    ∨ ∃ reference, (reference ∈ d.items ∨ ∃ key, (key, reference) ∈ d.named .repository)
      ∧ Assoc.has reference Vocabulary.includeKey = true
      ∧ Include.Asks ((reference.getString? Vocabulary.includeKey).getD "") name

end Document

-- ======================================= the traversal and the compiler

namespace Outline

mutual

/-- An outline asks for the names that its entries mention, and then for
those of what follows. One equation for each function that reads a
document. -/
theorem names_ofEntries (entries : List (String × Value)) (rest : Outline) :
    (ofEntries entries rest).names = Document.mentionsOfKeys entries ++ rest.names := by
  cases entries with
  | nil => rw [ofEntries, Document.mentionsOfKeys, List.nil_append]
  | cons entry more =>
    obtain ⟨key, value⟩ := entry
    rw [ofEntries, Document.mentionsOfKeys, names_ofEntry, names_ofEntries, List.append_assoc]

theorem names_ofEntry (key : String) (value : Value) (rest : Outline) :
    (ofEntry key value rest).names
      = Document.mentionsUnder (RuleKey.ofSpelling key) value ++ rest.names := by
  unfold ofEntry Document.mentionsUnder
  cases RuleKey.ofSpelling key with
  | «attribute» a => cases value <;> rfl
  | captures c =>
    cases value with
    | dict groups => exact names_ofGroups c groups rest
    | _ => rfl
  | structural s =>
    cases s with
    | patterns =>
      cases value with
      | array items => exact names_ofItems items rest
      | _ => rfl
    | repository =>
      cases value with
      | dict entries => exact names_ofRepository entries rest
      | _ => rfl
    | injections =>
      cases value with
      | dict entries => exact names_ofInjections entries rest
      | _ => rfl
  | unknown => rfl

theorem names_ofNested (place : Place) (value : Value) (rest : Outline) :
    (ofNested place value rest).names
      = (value.dict?.bind fun _ => place.name?).toList ++ Document.mentionsOfNested value
        ++ rest.names := by
  cases value with
  | dict source =>
    rw [ofNested, Document.mentionsOfNested]
    split
    · rfl
    · rw [names, names_ofEntries, names, List.append_nil]
      rfl
  | _ => rw [ofNested, Document.mentionsOfNested] <;> simp [Value.dict?]

theorem names_ofItems (items : List Value) (rest : Outline) :
    (ofItems items rest).names = Document.mentionsOfItems items ++ rest.names := by
  cases items with
  | nil => rw [ofItems, Document.mentionsOfItems, List.nil_append]
  | cons item more =>
    have hname : (item.dict?.bind fun _ => Place.child.name?) = none := by
      cases item.dict? <;> rfl
    rw [ofItems, Document.mentionsOfItems, names_ofNested, names_ofItems, hname,
      Option.toList_none, List.nil_append, List.append_assoc]

theorem names_ofRepository (entries : List (String × Value)) (rest : Outline) :
    (ofRepository entries rest).names = Document.mentionsOfEntries entries ++ rest.names := by
  cases entries with
  | nil => rw [ofRepository, Document.mentionsOfEntries, List.nil_append]
  | cons entry more =>
    obtain ⟨name, value⟩ := entry
    have hname : (value.dict?.bind fun _ => (Place.entry name).name?)
        = value.dict?.map fun _ => name := by
      cases value.dict? <;> rfl
    rw [ofRepository, Document.mentionsOfEntries, names_ofNested, names_ofRepository, hname,
      List.append_assoc _ _ rest.names]

theorem names_ofInjections (entries : List (String × Value)) (rest : Outline) :
    (ofInjections entries rest).names = Document.mentionsOfInjections entries ++ rest.names := by
  cases entries with
  | nil => rw [ofInjections, Document.mentionsOfInjections, List.nil_append]
  | cons entry more =>
    obtain ⟨selector, value⟩ := entry
    cases value with
    | dict source =>
      have hname : (Place.injection selector).name?.toList = [] := rfl
      rw [ofInjections, Document.mentionsOfInjections, names, hname, names_ofEntries, names,
        names_ofInjections, List.append_nil, List.nil_append, List.append_assoc]
    | _ =>
      rw [ofInjections, Document.mentionsOfInjections, names_ofInjections]
      all_goals simp

theorem names_ofGroups (c : CaptureKey) (groups : List (String × Value)) (rest : Outline) :
    (ofGroups c groups rest).names = Document.mentionsOfGroups groups ++ rest.names := by
  cases groups with
  | nil => rw [ofGroups, Document.mentionsOfGroups, List.nil_append]
  | cons group more =>
    obtain ⟨key, value⟩ := group
    have hmore := names_ofGroups c more rest
    rw [ofGroups.eq_def]
    cases hindex : Vocabulary.captureIndex? key with
    | none =>
      cases value with
      | dict source => simpa [Document.mentionsOfGroups, hindex, names] using hmore
      | _ => simpa [Document.mentionsOfGroups, hindex, names] using hmore
    | some index =>
      cases value with
      | dict source =>
        cases hlabel : Document.getString? source Vocabulary.labelKey with
        | some text => simpa [Document.mentionsOfGroups, hindex, hlabel, names] using hmore
        | none =>
          have hsource := names_ofEntries source .nothing
          simp [Document.mentionsOfGroups, hindex, hlabel, names, hsource, hmore, Place.name?]
      | _ => simpa [Document.mentionsOfGroups, hindex] using hmore

end

/-- Compiling a document asks for the names that it mentions, in that
order. -/
theorem names_eq_mentions (d : Document) : (ofDocument d).names = d.mentions := by
  rw [ofDocument, names_ofEntries, names, List.append_nil, Document.mentions]

end Outline

-- ======================================= where a name is mentioned

namespace Clause

variable {d : Document} {name : String} {source : Document}

theorem nested_child_mem_clauses_iff : .nested .child source ∈ d.clauses ↔ source ∈ d.items := by
  rw [← filterMap_item?_clauses, List.mem_filterMap]
  constructor
  · intro h
    exact ⟨_, h, rfl⟩
  · rintro ⟨clause, hmem, hitem⟩
    unfold item? at hitem
    split at hitem
    · cases hitem
      exact hmem
    · cases hitem

theorem nested_entry_mem_clauses_iff :
    .nested (.entry name) source ∈ d.clauses ↔ (name, source) ∈ d.named .repository := by
  rw [← filterMap_entry?_clauses, List.mem_filterMap]
  constructor
  · intro h
    exact ⟨_, h, rfl⟩
  · rintro ⟨clause, hmem, hentry⟩
    unfold entry? at hentry
    split at hentry
    · cases hentry
      exact hmem
    · cases hentry

end Clause

/-- A rule dictionary says a name where a clause of it mentions the name as
that of its place, or as the target of its include. -/
theorem Document.says_iff {d : Document} {name : String} :
    d.Says name ↔ ∃ place source, .nested place source ∈ d.clauses
      ∧ (place.name? = some name
        ∨ (place.refers source = true ∧ (Outline.targetOf source).name? = some name)) := by
  constructor
  · rintro (⟨entry, hentry⟩ | ⟨reference, hplace, hinclude, hasks⟩)
    · exact ⟨_, _, Clause.nested_entry_mem_clauses_iff.2 hentry, .inl rfl⟩
    · have htarget := Include.name?_ofText_eq_some_iff.2 hasks
      rcases hplace with hitem | ⟨key, hentry⟩
      · exact ⟨_, _, Clause.nested_child_mem_clauses_iff.2 hitem, .inr ⟨hinclude, htarget⟩⟩
      · exact ⟨_, _, Clause.nested_entry_mem_clauses_iff.2 hentry, .inr ⟨hinclude, htarget⟩⟩
  · rintro ⟨place, source, hmem, hname | ⟨hrefers, htarget⟩⟩
    · cases place with
      | entry key =>
        cases hname
        exact .inl ⟨source, Clause.nested_entry_mem_clauses_iff.1 hmem⟩
      | _ => cases hname
    · have hasks := Include.name?_ofText_eq_some_iff.1 htarget
      cases place with
      | child =>
        exact .inr ⟨source, .inl (Clause.nested_child_mem_clauses_iff.1 hmem), hrefers, hasks⟩
      | entry key =>
        exact .inr ⟨source, .inr ⟨key, Clause.nested_entry_mem_clauses_iff.1 hmem⟩, hrefers, hasks⟩
      | _ => cases hrefers

/-- A clause mentions a name as that of its place, as the target of its
include, or in the rule dictionary that it nests. -/
theorem Clause.mem_names_nested_iff {place : Place} {source : Document} {name : String} :
    name ∈ (Clause.nested place source).names
      ↔ (place.name? = some name
          ∨ (place.refers source = true ∧ (Outline.targetOf source).name? = some name))
        ∨ (place.refers source = false ∧ name ∈ source.mentions) := by
  rw [Clause.names, ← Outline.names_eq_mentions, List.mem_append, Option.mem_toList]
  cases place.refers source <;> simp

/-- A document mentions what the clauses of its outermost dictionary do. -/
theorem Document.mem_mentions_iff_clauses {d : Document} {name : String} :
    name ∈ d.mentions
      ↔ d.Says name ∨ ∃ place source, .nested place source ∈ d.clauses
        ∧ place.refers source = false ∧ name ∈ source.mentions := by
  rw [← Outline.names_eq_mentions, names_ofDocument, List.mem_flatMap, says_iff]
  constructor
  · rintro ⟨clause, hmem, hname⟩
    cases clause with
    | nested place source =>
      rcases Clause.mem_names_nested_iff.1 hname with hsays | hbelow
      · exact .inl ⟨place, source, hmem, hsays⟩
      · exact .inr ⟨place, source, hmem, hbelow⟩
    | _ => cases hname
  · rintro (⟨place, source, hmem, hsays⟩ | ⟨place, source, hmem, hbelow⟩)
    · exact ⟨_, hmem, Clause.mem_names_nested_iff.2 (.inl hsays)⟩
    · exact ⟨_, hmem, Clause.mem_names_nested_iff.2 (.inr hbelow)⟩

namespace Compilation

variable {k : Compilation} {r : Rule} {d : Document} {outer : List (Rule × Document)}
  {name : String}

/-- Every nested dictionary was compiled to a node. -/
theorem exists_node_of_mem_clauses (k : Compilation) (r : Rule) {place : Place}
    {source : Document} (hmem : .nested place source ∈ d.clauses) :
    ∃ x, .node place source x ∈ k.contents r d := by
  have hpieces := k.context.map_clause_pieces ⟨k.context.table, r.id.serial⟩ (r.id.serial + 1)
    d.clauses
  have hclause : .nested place source ∈ (k.contents r d).map Piece.clause := by
    unfold contents Context.contents
    rw [hpieces]
    exact List.mem_filter.2 ⟨hmem, rfl⟩
  obtain ⟨q, hq, heq⟩ := List.mem_map.1 hclause
  cases q with
  | node place' source' x =>
    cases heq
    exact ⟨x, hq⟩
  | _ => cases heq

/-- A trail goes on to every dictionary that was compiled to a rule. -/
theorem Trail.exists_of_mem_clauses (h : k.Trail ((r, d) :: outer)) {place : Place}
    {source : Document} (hmem : .nested place source ∈ d.clauses)
    (hrefers : place.refers source = false) : ∃ x, k.Trail ((x, source) :: (r, d) :: outer) := by
  obtain ⟨x, hx⟩ := k.exists_node_of_mem_clauses r hmem
  cases x with
  | rule x => exact ⟨x, .nested h hx⟩
  | reference p =>
    rw [(k.context.eq_of_reference_mem_pieces hx).2.2] at hrefers
    cases hrefers

/-- What the dictionary of a compiled rule mentions, the document mentions. -/
theorem Trail.mentions_subset {k : Compilation} {r : Rule} {d : Document}
    {outer : List (Rule × Document)} (h : k.Trail ((r, d) :: outer)) :
    d.mentions ⊆ k.document.mentions := by
  cases h with
  | root => exact List.Subset.refl _
  | nested enclosing mem =>
    obtain ⟨serial, -, -, -, hclause, hrefers⟩ := k.context.exists_of_rule_mem_pieces mem
    intro name hname
    exact enclosing.mentions_subset
      (Document.mem_mentions_iff_clauses.2 (.inr ⟨_, _, hclause, hrefers, hname⟩))

/-- What is mentioned below a compiled rule is said by the dictionary of a
compiled rule. The induction goes on to the nested dictionaries. -/
theorem Trail.exists_says (h : k.Trail ((r, d) :: outer)) (hname : name ∈ d.mentions) :
    ∃ s source enclosing, k.Trail ((s, source) :: enclosing) ∧ source.Says name := by
  induction d using Document.nestedInduction generalizing r outer with
  | step d ih =>
    rcases Document.mem_mentions_iff_clauses.1 hname
      with hsays | ⟨place, source, hmem, hrefers, hin⟩
    · exact ⟨r, d, outer, h, hsays⟩
    · obtain ⟨x, hx⟩ := h.exists_of_mem_clauses hmem hrefers
      exact ih place source hmem hx hin

/-- A document mentions a name exactly if the dictionary of one of its
compiled rules says it. -/
theorem mem_mentions_iff (k : Compilation) (name : String) :
    name ∈ k.document.mentions
      ↔ ∃ r ∈ k.rules, ∃ source outer, k.Trail ((r, source) :: outer) ∧ source.Says name := by
  constructor
  · intro hname
    obtain ⟨r, source, outer, htrail, hsays⟩ := Trail.root.exists_says hname
    exact ⟨r, htrail.mem_rules, source, outer, htrail, hsays⟩
  · rintro ⟨r, -, source, outer, htrail, hsays⟩
    exact htrail.mentions_subset (Document.mem_mentions_iff_clauses.2 (.inl hsays))

end Compilation

-- ============================================================ the table

namespace Table

/-- Adding a document allocates ids for the names that its rule dictionaries
say and the session does not know, and for no other. They are the next ids,
in the order in which the document mentions the names first; the ids that
the session knows stay. What no rule dictionary wants can be left out of the
document, and so can all keys of a reference but its include and all keys of
a group with a label but the label. -/
theorem ids_follow_first_mention (t : Table) (i : Interner) (d : Document)
    (hroom : t.ruleIds.allocated + (t.ruleIds.fresh d.mentions).length ≤ RuleId.largest) :
    (∀ epoch name, name ∈ t.ruleIds.fresh d.mentions
        ↔ t.ruleIds.get? name = none
          ∧ ∃ r ∈ (t.compile i d).rules, ∃ source outer,
            Compilation.Trail ⟨t, i, d, epoch⟩ ((r, source) :: outer) ∧ source.Says name)
      ∧ (t.ruleIds.fresh d.mentions).Pairwise
          (fun m n => d.mentions.idxOf m < d.mentions.idxOf n)
      ∧ (∀ k name, (t.ruleIds.fresh d.mentions)[k]? = some name
        → (t.add i d).table.ruleIds.get? name = some ⟨t.ruleIds.allocated + 1 + k⟩)
      ∧ (t.add i d).table.ruleIds.allocated
        = t.ruleIds.allocated + (t.ruleIds.fresh d.mentions).length
      ∧ (∀ name, name ∉ t.ruleIds.fresh d.mentions
        → (t.add i d).table.ruleIds.get? name = t.ruleIds.get? name)
      ∧ ∀ keep, d.WellFormed
        → (t.add i (d.prune keep)).table.ruleIds = (t.add i d).table.ruleIds := by
  have hids : (t.add i d).table.ruleIds = t.ruleIds.allocateAll d.mentions := by
    rw [← Outline.names_eq_mentions]
    rfl
  refine ⟨?_, RuleIds.fresh_pairwise _ _, ?_, ?_, ?_, ?_⟩
  · intro epoch name
    rw [RuleIds.mem_fresh_iff, and_comm]
    exact and_congr_right' (Compilation.mem_mentions_iff ⟨t, i, d, epoch⟩ name)
  · intro k name hk
    rw [hids]
    exact RuleIds.get?_allocateAll_fresh hroom hk
  · rw [hids]
    exact RuleIds.allocated_allocateAll hroom
  · intro name hname
    rw [hids]
    exact RuleIds.get?_allocateAll_of_not_mem_fresh hname
  · intro keep hd
    exact congrArg Table.ruleIds (t.add_prune keep i hd).2.1

-- ------------------------------------------------------------- a document

/-- A grammar that mentions names in every way, some of them twice, and that
has names where nothing is mentioned. -/
def mentioning : Document :=
  [("scopeName", .string "s"),
    ("patterns", .array
      [.dict [("include", .string "#late")],
        .dict [("include", .string "other#entry#more"), ("repository",
          .dict [("unread", .dict [])])],
        .dict [("include", .string "other#")],
        .dict [("include", .string "$self")]]),
    ("captures", .dict
      [("1", .dict [("name", .string "label"), ("patterns", .array
          [.dict [("include", .string "#unread")]])]),
        ("2", .dict [("patterns", .array [.dict [("include", .string "#known")]])])]),
    ("Repository", .dict
      [("wrong", .string "kind"),
        ("outer", .dict
          [("repository", .dict [("inner", .dict [("include", .string "#outer")])])]),
        ("late", .dict [])])]

/-- A table that knows one of the names. -/
def acquainted : Table := { Table.new ⟨1⟩ with ruleIds := (RuleIds.empty.idFor "known").2 }

/-- Four names are new, and get ids in the order of their first mention. -/
theorem ids_follow_first_mention_mentioning :
    acquainted.ruleIds.fresh mentioning.mentions = ["late", "entry#more", "outer", "inner"]
      ∧ ["late", "entry#more", "outer", "inner"].map
          (acquainted.add .empty mentioning).table.ruleIds.get?
        = [some ⟨2⟩, some ⟨3⟩, some ⟨4⟩, some ⟨5⟩]
      ∧ (acquainted.add .empty mentioning).table.ruleIds.get? "known" = some ⟨1⟩
      ∧ ∀ name ∈ ["wrong", "unread", ""],
          (acquainted.add .empty mentioning).table.ruleIds.get? name = none := by
  have hfresh : acquainted.ruleIds.fresh mentioning.mentions
      = ["late", "entry#more", "outer", "inner"] := by decide
  have hroom : acquainted.ruleIds.allocated
      + (acquainted.ruleIds.fresh mentioning.mentions).length ≤ RuleId.largest := by
    rw [hfresh]
    decide
  obtain ⟨-, -, hnew, -, hold, -⟩ := ids_follow_first_mention acquainted .empty mentioning hroom
  rw [hfresh] at hnew hold
  refine ⟨hfresh, ?_, ?_, ?_⟩
  · simp only [List.map_cons, List.map_nil]
    rw [hnew 0 "late" rfl, hnew 1 "entry#more" rfl, hnew 2 "outer" rfl, hnew 3 "inner" rfl]
    rfl
  · rw [hold "known" (by decide)]
    rfl
  · have hsilent : ∀ name ∈ ["wrong", "unread", ""],
        name ∉ ["late", "entry#more", "outer", "inner"]
          ∧ acquainted.ruleIds.get? name = none := by
      decide
    intro name hname
    obtain ⟨hnot, hnone⟩ := hsilent name hname
    rw [hold name hnot, hnone]

end Table

end ScopeRules
