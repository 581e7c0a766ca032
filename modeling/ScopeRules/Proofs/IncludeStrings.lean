/-
Include strings are read without loss. There are five ways to spell what a
reference asks for (`Include.Spells`), and a string spells one thing: a hash
in front is tested first, then the two words for the enclosing grammar, and
what is left is split at its first hash (`Include.ofText_eq_iff`). Two strings
spell one thing if they are equal, if both are words for the enclosing
grammar, or if one is the other, a scope, with nothing behind a hash
(`Include.ofText_eq_ofText_iff`).

# References

What a string asks for becomes a reference with ids instead of names. In a
session of ids a name has one id and an id one name, so references of one
session hold the same data if and only if their strings ask for the same
(`Context.agree_reference_iff`), and the id of a reference is what the table
goes on to answer for its name (`World.Accounts.answers`).
-/
import ScopeRules.Proofs.Mentions
import ScopeRules.Proofs.NearestEntry
import ScopeRules.Proofs.Suffixes

namespace ScopeRules

-- ============================================================== spelling

/-- A hash is no letter, so it has one case. -/
theorem eq_of_sameLetter_hash {c : Char} (h : SameLetter '#' c) : c = '#' := by
  have hhash : '#'.toNat = 35 := rfl
  unfold SameLetter IsSmallOf at h
  rcases h with rfl | h | h
  · rfl
  · omega
  · omega

namespace Vocabulary

/-- The words for the enclosing grammar have no hash in them, in any case. -/
theorem isSelfWord_eq_false_of_hash {s : String} (h : '#' ∈ s.toList) :
    isSelfWord s = false := by
  have hword : ∀ word : String, '#' ∉ word.toList → sameUpToCase s word = false := by
    intro word hword
    rw [Bool.eq_false_iff]
    intro hsame
    obtain ⟨c, hc, hletter⟩ := exists_of_forall₂_left (sameUpToCase_iff.1 hsame) h
    exact hword (eq_of_sameLetter_hash hletter ▸ hc)
  unfold isSelfWord
  rw [hword selfWord (by decide), hword baseWord (by decide)]
  rfl

end Vocabulary

namespace Include

/-- How an include string spells what it asks for. -/
inductive Spells : String → Include → Prop where
  | entry (name : String) : Spells ("#" ++ name) (.entry name)
  | root {word : String} (h : Vocabulary.isSelfWord word = true) : Spells word .root
  | scope {scope : String} (hhash : '#' ∉ scope.toList)
      (hself : Vocabulary.isSelfWord scope = false) : Spells scope (.foreign scope none)
  /-- A scope with nothing behind the hash. -/
  | bare {scope : String} (hne : scope ≠ "") (hhash : '#' ∉ scope.toList) :
    Spells (scope ++ "#") (.foreign scope none)
  | member {scope name : String} (hne : scope ≠ "") (hhash : '#' ∉ scope.toList)
      (hname : name ≠ "") : Spells (scope ++ "#" ++ name) (.foreign scope (some name))

/-- A scope with a hash and what is behind it asks for that, or for nothing
in the scope. -/
theorem ofText_hashed {scope : String} (hne : scope ≠ "") (hhash : '#' ∉ scope.toList)
    (name : String) :
    ofText (scope ++ "#" ++ name) = .foreign scope (if name = "" then none else some name) := by
  have hself : Vocabulary.isSelfWord (written scope (some name)) = false :=
    Vocabulary.isSelfWord_eq_false_of_hash (by simp [written])
  have hread := ofText_written hhash (.inl hne) hself
  unfold written at hread
  rw [hread]
  by_cases hname : name = "" <;> simp [Option.filter, hname]

/-- A spelling is read as what it spells. -/
theorem Spells.ofText_eq {s : String} {i : Include} (h : Spells s i) : ofText s = i := by
  cases h with
  | entry name => exact ofText_hash name
  | root hself =>
    unfold ofText
    split
    · rename_i name hs
      rw [Vocabulary.isSelfWord_eq_false_of_hash (by rw [hs]; exact List.mem_cons_self ..)] at hself
      cases hself
    · exact if_pos hself
  | scope hhash hself => exact @ofText_written _ none hhash (.inr rfl) hself
  | bare hne hhash =>
    rw [← String.append_empty (s := _ ++ "#"), ofText_hashed hne hhash, if_pos rfl]
  | member hne hhash hname => rw [ofText_hashed hne hhash, if_neg hname]

/-- Every string spells what it is read as. -/
theorem spells_ofText (s : String) : Spells s (ofText s) := by
  by_cases hstart : ∃ name, s = "#" ++ name
  · obtain ⟨name, rfl⟩ := hstart
    rw [ofText_hash]
    exact .entry name
  · cases hself : Vocabulary.isSelfWord s with
    | true =>
      have hroot : Spells s .root := .root hself
      exact hroot.ofText_eq.symm ▸ hroot
    | false =>
      -- what is in front of the first hash is the scope
      by_cases hafter : s.toList.dropWhile (· ≠ '#') = []
      · have hhash : '#' ∉ s.toList := fun hmem => by
          simpa using List.dropWhile_eq_nil_iff.1 hafter '#' hmem
        have hscope : Spells s (.foreign s none) := .scope hhash hself
        exact hscope.ofText_eq.symm ▸ hscope
      · obtain ⟨hsplit, hhash⟩ := split_of_dropWhile_ne_nil hafter
        generalize s.toList.takeWhile (· ≠ '#') = before at hsplit hhash
        generalize (s.toList.dropWhile (· ≠ '#')).drop 1 = after at hsplit
        obtain rfl : s = String.ofList before ++ "#" ++ String.ofList after := by
          refine String.toList_inj.1 ?_
          simpa using hsplit
        have hne : String.ofList before ≠ "" := by
          intro hempty
          exact hstart ⟨String.ofList after, by rw [hempty, String.empty_append]⟩
        rw [← String.toList_ofList (l := before)] at hhash
        rw [ofText_hashed hne hhash]
        by_cases hname : String.ofList after = ""
        · rw [if_pos hname, hname, String.append_empty]
          exact .bare hne hhash
        · rw [if_neg hname]
          exact .member hne hhash hname

theorem ofText_eq_iff {s : String} {i : Include} : ofText s = i ↔ Spells s i :=
  ⟨fun h => h ▸ spells_ofText s, Spells.ofText_eq⟩

/-- Whether a string is another one, a scope, with a hash at its end. -/
def Trailing (s s' : String) : Prop :=
  s ≠ "" ∧ '#' ∉ s.toList ∧ Vocabulary.isSelfWord s = false ∧ s' = s ++ "#"

/-- Whether two strings are equal, both words for the enclosing grammar, or
one scope with and without a hash at its end. -/
def Synonymous (s s' : String) : Prop :=
  s = s' ∨ (Vocabulary.isSelfWord s = true ∧ Vocabulary.isSelfWord s' = true)
    ∨ Trailing s s' ∨ Trailing s' s

theorem Trailing.ofText_eq {s s' : String} (h : Trailing s s') : ofText s = ofText s' := by
  obtain ⟨hne, hhash, hself, rfl⟩ := h
  rw [(Spells.scope hhash hself).ofText_eq, (Spells.bare hne hhash).ofText_eq]

/-- Strings that ask for the same are synonymous. -/
theorem ofText_eq_ofText_iff {s s' : String} : ofText s = ofText s' ↔ Synonymous s s' := by
  constructor
  · intro heq
    have h := spells_ofText s
    have h' := spells_ofText s'
    rw [heq] at h
    generalize ofText s' = i at h h'
    cases h with
    | entry name =>
      cases h'
      exact .inl rfl
    | root hself =>
      cases h' with
      | root hself' => exact .inr (.inl ⟨hself, hself'⟩)
    | scope hhash hself =>
      cases h' with
      | scope => exact .inl rfl
      | bare hne => exact .inr (.inr (.inl ⟨hne, hhash, hself, rfl⟩))
    | bare hne hhash =>
      cases h' with
      | scope _ hself => exact .inr (.inr (.inr ⟨hne, hhash, hself, rfl⟩))
      | bare => exact .inl rfl
    | member =>
      cases h'
      exact .inl rfl
  · rintro (rfl | ⟨hself, hself'⟩ | htrailing | htrailing)
    · rfl
    · rw [(Spells.root hself).ofText_eq, (Spells.root hself').ofText_eq]
    · exact htrailing.ofText_eq
    · exact htrailing.ofText_eq.symm

end Include

-- ============================================================ references

/-- Whether two references hold the same data, whatever their anchors: they
are of one kind, with the same id, and with scopes of one text in one
table. -/
def Reference.Agree : Reference → Reference → Prop
  | .entry id _, .entry id' _ => id = id'
  | .root _, .root _ => True
  | .foreign table scope id _, .foreign table' scope' id' _ =>
    table = table' ∧ scope.same scope' = true ∧ id = id'
  | _, _ => False

theorem Reference.agree_refl (p : Reference) : p.Agree p := by
  cases p with
  | entry => rfl
  | root => trivial
  | foreign => exact ⟨rfl, decide_eq_true rfl, rfl⟩

namespace Context

variable (c : Context) (anchor : NodeId) {s : String}

/-- An include becomes a reference to an entry if a hash is in front. -/
theorem reference_eq_entry_iff {id : RuleId} :
    c.reference anchor (.ofText s) = .entry id (some anchor)
      ↔ ∃ name, s = "#" ++ name ∧ c.ruleId name = id := by
  constructor
  · intro h
    have hspells := Include.spells_ofText s
    generalize Include.ofText s = i at h hspells
    cases hspells with
    | entry name =>
      cases h
      exact ⟨name, rfl, rfl⟩
    | _ => cases h
  · rintro ⟨name, rfl, rfl⟩
    rw [Include.ofText_hash]
    rfl

/-- It becomes a reference to the root if it is a word for that. -/
theorem reference_eq_root_iff :
    c.reference anchor (.ofText s) = .root (some anchor) ↔ Vocabulary.isSelfWord s = true := by
  constructor
  · intro h
    have hspells := Include.spells_ofText s
    generalize Include.ofText s = i at h hspells
    cases hspells with
    | root hself => exact hself
    | _ => cases h
  · intro hself
    rw [(Include.Spells.root hself).ofText_eq]
    rfl

/-- Otherwise it becomes a reference to another grammar, whose scope is what
is in front of the first hash, and to an entry of that if anything is behind
it. -/
theorem exists_reference_eq_foreign (hhash : ¬ ∃ name, s = "#" ++ name)
    (hself : Vocabulary.isSelfWord s = false) :
    ∃ scope id, c.reference anchor (.ofText s) = .foreign c.table scope id (some anchor)
      ∧ '#' ∉ scope.text.toList
      ∧ ((id = none ∧ (s = scope.text ∨ s = scope.text ++ "#"))
        ∨ ∃ name, (Include.ofText s).name? = some name ∧ name ≠ ""
          ∧ s = scope.text ++ "#" ++ name ∧ id = some (c.ruleId name)) := by
  have htext : ∀ text, (c.symbol text).text = text := fun text => c.interner.text_intern text
  have hspells := Include.spells_ofText s
  generalize Include.ofText s = i at hspells ⊢
  cases hspells with
  | entry name => exact absurd ⟨name, rfl⟩ hhash
  | root hword =>
    rw [hself] at hword
    cases hword
  | scope hscope =>
    refine ⟨c.symbol s, none, rfl, ?_, .inl ⟨rfl, .inl ?_⟩⟩
    · rwa [htext]
    · rw [htext]
  | @bare scope _ hscope =>
    refine ⟨c.symbol scope, none, rfl, ?_, .inl ⟨rfl, .inr ?_⟩⟩
    · rwa [htext]
    · rw [htext]
  | @member scope name _ hscope hname =>
    refine ⟨c.symbol scope, some (c.ruleId name), rfl, ?_, .inr ⟨name, rfl, hname, ?_, rfl⟩⟩
    · rwa [htext]
    · rw [htext]

/-- Where ids are as good as names, references agree if and only if the
includes are one. -/
theorem agree_reference_iff {c c' : Context} {anchor anchor' : NodeId} {i i' : Include}
    (htable : c.table = c'.table)
    (hids : ∀ m n, i.name? = some m → i'.name? = some n → (c.ruleId m = c'.ruleId n ↔ m = n)) :
    (c.reference anchor i).Agree (c'.reference anchor' i') ↔ i = i' := by
  cases i with
  | entry m =>
    cases i' with
    | entry n =>
      rw [Include.entry.injEq]
      exact hids m n rfl rfl
    | _ => simp [reference, Reference.Agree]
  | root => cases i' <;> simp [reference, Reference.Agree]
  | foreign scope m =>
    cases i' with
    | foreign scope' n =>
      have hscope : (c.symbol scope).same (c'.symbol scope') = true ↔ scope = scope' := by
        rw [Symbol.same, decide_eq_true_eq]
        exact Iff.of_eq (congrArg₂ Eq (c.interner.text_intern scope)
          (c'.interner.text_intern scope'))
      have hname : m.map c.ruleId = n.map c'.ruleId ↔ m = n := by
        cases m <;> cases n <;> simp_all [Include.name?]
      rw [Include.foreign.injEq, ← hscope, ← hname]
      exact and_iff_right htable
    | _ => simp [reference, Reference.Agree]

end Context

namespace World

variable {w : World}

/-- Whether `id` is the answer of a document's table to a request for a name:
as the document left the table, and whenever its ids are not yet compacted. -/
def Answers (w : World) (k : Compilation) (name : String) (id : RuleId) : Prop :=
  ((k.table.add k.interner k.document).table.ruleId name).1 = id
    ∧ ∀ t ∈ w.session.tables, t.id = k.table.id → w.compactions t.id = k.epoch →
      (t.ruleId name).1 = id

/-- The table answers a name that a document mentions with the id that the
document was compiled with. -/
theorem Accounts.answers {k : Compilation} {issued : List (Nat × String)}
    (h : w.Accounts k.table.id issued) (hk : k ∈ w.log) {name : String}
    (hname : name ∈ (Outline.ofDocument k.document).names) :
    w.Answers k name (k.context.ruleId name) := by
  refine ⟨rfl, fun t ht hid hepoch => ?_⟩
  have hrecorded := h.compiled k hk rfl name _ (Compilation.get?_ruleIds hname)
  have hissued := h.current t ht hid
  rw [← hid, hepoch] at hissued
  exact congrArg Prod.fst (RuleIds.idFor_of_get? ((hissued.answers name _).2 hrecorded))

/-- In a session of ids the documents of a table give different ids to
different names. -/
theorem Accounts.ruleId_eq_iff {k k' : Compilation} {issued : List (Nat × String)}
    (h : w.Accounts k.table.id issued) (hk : k ∈ w.log) (hk' : k' ∈ w.log)
    (hid : k'.table.id = k.table.id) (hepoch : k'.epoch = k.epoch) {m n : String}
    (hm : m ∈ (Outline.ofDocument k.document).names)
    (hn : n ∈ (Outline.ofDocument k'.document).names) :
    k.context.ruleId m = k'.context.ruleId n ↔ m = n := by
  have hrecorded := h.compiled k hk rfl
  have hrecorded' := h.compiled k' hk' hid
  have hmid := Compilation.get?_ruleIds hm
  have hnid := Compilation.get?_ruleIds hn
  constructor
  · intro heq
    exact (RuleIds.name_eq_of_recorded hrecorded hrecorded' hmid (heq ▸ hnid)).2
  · rintro rfl
    exact RuleIds.id_eq_of_recorded h.distinct hrecorded (hepoch ▸ hrecorded') hmid hnid

end World

/-- A dictionary with an include string asks for what the string says. -/
theorem Outline.targetOf_of_getString? {source : Document} {s : String}
    (h : source.getString? Vocabulary.includeKey = some s) : targetOf source = .ofText s := by
  rw [targetOf, h]
  rfl

/-- What includes is compiled to a reference. -/
theorem Compilation.Trail.reference_mem_contents {k : Compilation} {r : Rule} {d : Document}
    {outer : List (Rule × Document)} (h : k.Trail ((r, d) :: outer)) {place : Place}
    {source : Document} (hclause : .nested place source ∈ d.clauses)
    (hrefers : place.refers source = true) :
    .node place source (.reference (k.context.reference r.id (Outline.targetOf source)))
      ∈ k.contents r d := by
  obtain ⟨x, hx⟩ := k.exists_node_of_mem_clauses r hclause
  cases x with
  | rule x =>
    obtain ⟨-, -, -, -, -, hrule⟩ := k.context.exists_of_rule_mem_pieces hx
    rw [hrefers] at hrule
    cases hrule
  | reference p => exact h.reference_eq hx ▸ hx

namespace World

variable {w : World} {k : Compilation} {r : Rule} {d : Document} {outer : List (Rule × Document)}
  {place : Place} {source : Document} {p : Reference} {s : String}

/-- References of one session of ids hold the same data if and only if their
strings are synonymous; of one rule they are then the same. -/
theorem agree_iff_synonymous (hw : w.Reachable) (hk : k ∈ w.log)
    (hroom : w.allocations k.table.id ≤ RuleId.largest) (htrail : k.Trail ((r, d) :: outer))
    (hp : .node place source (.reference p) ∈ k.contents r d)
    (htext : source.getString? Vocabulary.includeKey = some s) {k' : Compilation}
    (hk' : k' ∈ w.log) (hid : k'.table.id = k.table.id) (hepoch : k'.epoch = k.epoch) {r' : Rule}
    {d' : Document} {outer' : List (Rule × Document)} (htrail' : k'.Trail ((r', d') :: outer'))
    {place' : Place} {source' : Document} {p' : Reference}
    (hp' : .node place' source' (.reference p') ∈ k'.contents r' d') {s' : String}
    (htext' : source'.getString? Vocabulary.includeKey = some s') :
    (p.Agree p' ↔ Include.Synonymous s s')
      ∧ (r.id = r'.id → (p = p' ↔ Include.Synonymous s s')) := by
  obtain ⟨issued, haccounts⟩ := hw.sound.accounted k.table.id hroom
  have htarget := Outline.targetOf_of_getString? htext
  have htarget' := Outline.targetOf_of_getString? htext'
  have hreference := htarget ▸ htrail.reference_eq hp
  have hreference' := htarget' ▸ htrail'.reference_eq hp'
  have hagree : p.Agree p' ↔ Include.Synonymous s s' := by
    rw [hreference, hreference', ← Include.ofText_eq_ofText_iff]
    refine Context.agree_reference_iff hid.symm fun m n hm hn => ?_
    refine haccounts.ruleId_eq_iff hk hk' hid hepoch ?_ ?_
    · refine htrail.mem_names (Compilation.mem_names_of_reference_mem_contents hp ?_)
      rw [htarget, hm]
    · refine htrail'.mem_names (Compilation.mem_names_of_reference_mem_contents hp' ?_)
      rw [htarget', hn]
  refine ⟨hagree, fun hanchor => ⟨?_, fun hsynonymous => ?_⟩⟩
  · rintro rfl
    exact hagree.1 p.agree_refl
  · obtain rfl := hw.sound.coherent.eq_of_mem_rules hk hk' htrail.mem_rules htrail'.mem_rules
      hanchor
    rw [hreference, hreference', hanchor, Include.ofText_eq_ofText_iff.2 hsynonymous]

/-- What an include string is compiled to. With a hash in front it gives a
reference to an entry, with the id that the table answers for the rest of
it; a word for the enclosing grammar gives a reference to its root; and
every other string one to another grammar, by the scope in front of the first
hash, and by the id that the table answers for what is behind it. Within a
session of ids only synonymous strings give references with the same data. -/
theorem include_read_without_loss (hw : w.Reachable) (hk : k ∈ w.log)
    (hroom : w.allocations k.table.id ≤ RuleId.largest) (htrail : k.Trail ((r, d) :: outer))
    (hclause : .nested place source ∈ d.clauses) (hrefers : place.refers source = true)
    (htext : source.getString? Vocabulary.includeKey = some s) :
    ∃ p, .node place source (.reference p) ∈ k.contents r d ∧ p.anchor = some r.id
      ∧ ((∃ id, p = .entry id (some r.id)) ↔ ∃ name, s = "#" ++ name)
      ∧ (∀ name, s = "#" ++ name → ∃ id, p = .entry id (some r.id) ∧ w.Answers k name id)
      ∧ (p = .root (some r.id) ↔ Vocabulary.isSelfWord s = true)
      ∧ ((¬ ∃ name, s = "#" ++ name) → Vocabulary.isSelfWord s = false →
        ∃ scope id, p = .foreign k.table.id scope id (some r.id) ∧ '#' ∉ scope.text.toList
          ∧ ((id = none ∧ (s = scope.text ∨ s = scope.text ++ "#"))
            ∨ ∃ name n, name ≠ "" ∧ s = scope.text ++ "#" ++ name ∧ id = some n
              ∧ w.Answers k name n))
      ∧ ∀ k' ∈ w.log, k'.table.id = k.table.id → k'.epoch = k.epoch →
        ∀ {r' d' outer' place' source' p' s'}, k'.Trail ((r', d') :: outer') →
          .node place' source' (.reference p') ∈ k'.contents r' d' →
          source'.getString? Vocabulary.includeKey = some s' →
          (p.Agree p' ↔ Include.Synonymous s s')
            ∧ (r.id = r'.id → (p = p' ↔ Include.Synonymous s s')) := by
  obtain ⟨issued, haccounts⟩ := hw.sound.accounted k.table.id hroom
  have hp := htrail.reference_mem_contents hclause hrefers
  have htarget := Outline.targetOf_of_getString? htext
  have hanswers : ∀ name, (Include.ofText s).name? = some name →
      w.Answers k name (k.context.ruleId name) := by
    intro name hname
    refine haccounts.answers hk (htrail.mem_names ?_)
    refine Compilation.mem_names_of_reference_mem_contents hp ?_
    rw [htarget, hname]
  refine ⟨_, hp, htrail.anchor_eq hp, ?entry, ?id, ?root, ?foreign, ?agree⟩
  case agree =>
    intro k' hk' hid hepoch r' d' outer' place' source' p' s' htrail' hp' htext'
    exact agree_iff_synonymous hw hk hroom htrail hp htext hk' hid hepoch htrail' hp' htext'
  all_goals rw [htarget]
  case entry =>
    simp only [Context.reference_eq_entry_iff]
    constructor
    · rintro ⟨id, name, h, -⟩
      exact ⟨name, h⟩
    · rintro ⟨name, h⟩
      exact ⟨_, name, h, rfl⟩
  case id =>
    rintro name rfl
    have hname : (Include.ofText ("#" ++ name)).name? = some name := by
      rw [Include.ofText_hash]
      rfl
    exact ⟨_, (Context.reference_eq_entry_iff _ _).2 ⟨name, rfl, rfl⟩, hanswers name hname⟩
  case root => exact Context.reference_eq_root_iff _ _
  case foreign =>
    intro hhash hself
    obtain ⟨scope, id, hforeign, hscope, hname⟩ :=
      k.context.exists_reference_eq_foreign r.id hhash hself
    refine ⟨scope, id, hforeign, hscope, hname.imp_right ?_⟩
    rintro ⟨name, hasked, hne, hs, rfl⟩
    exact ⟨name, _, hne, hs, rfl, hanswers name hasked⟩

-- ------------------------------------------------------------- a document

/-- A grammar that asks for another one twice, and for an entry of it whose
name has a hash in it. -/
def spelled : Document :=
  [("patterns", .array
    [.dict [("include", .string "a")], .dict [("include", .string "a#")],
      .dict [("include", .string "a#b#c")]])]

def spelledCompilation : Compilation := ⟨.new ⟨1⟩, .empty, spelled, 0⟩

def spelledWorld : World := run "" [.newTable "t", .add "t" spelled]

/-- The entry is the one named by all that is behind the first hash, and a
hash at the end makes no difference. -/
theorem include_read_without_loss_spelled :
    let k := spelledCompilation
    let asking : String → Reference → Prop := fun s p =>
      .node .child [("include", .string s)] (.reference p) ∈ k.contents k.root spelled
    (∃ p, asking "a#b#c" p
      ∧ ∃ scope n, p = .foreign ⟨1⟩ scope (some n) (some k.root.id) ∧ scope.text = "a"
        ∧ spelledWorld.Answers k "b#c" n)
    ∧ ∃ p, asking "a" p ∧ ∀ p', (asking "a#" p' → p = p') ∧ (asking "a#b#c" p' → p ≠ p') := by
  intro k asking
  have hreachable : spelledWorld.Reachable := ⟨"", _, rfl⟩
  have hk : k ∈ spelledWorld.log := .head _
  have hroom : spelledWorld.allocations k.table.id ≤ RuleId.largest := by decide
  refine ⟨?_, ?_⟩
  · have hclause : .nested .child [("include", .string "a#b#c")] ∈ spelled.clauses :=
      .tail _ (.tail _ (.head _))
    obtain ⟨p, hp, -, -, -, -, hforeign, -⟩ :=
      include_read_without_loss hreachable hk hroom .root hclause rfl rfl
    have hhash : ¬ ∃ name, "a#b#c" = "#" ++ name := by
      rintro ⟨name, hname⟩
      simpa using congrArg (fun s => s.toList.head?) hname
    obtain ⟨scope, id, rfl, hscope, h⟩ := hforeign hhash (by decide)
    have hread : Reference.foreign ⟨1⟩ scope id (some k.root.id)
        = .foreign ⟨1⟩ ⟨"a", 0⟩ (some ⟨1⟩) (some k.root.id) := Compilation.Trail.root.reference_eq hp
    cases hread
    rcases h with ⟨hnone, -⟩ | ⟨name, n, -, hname, hid, hanswers⟩
    · cases hnone
    · have hrest : "b#c" = name := by
        have hchars := congrArg String.toList hname
        exact String.toList_inj.1 (by simpa using hchars)
      cases hid
      exact ⟨_, hp, ⟨"a", 0⟩, ⟨1⟩, rfl, rfl, hrest ▸ hanswers⟩
  · have hclause : .nested .child [("include", .string "a")] ∈ spelled.clauses := .head _
    obtain ⟨p, hp, -, -, -, -, -, hagree⟩ :=
      include_read_without_loss hreachable hk hroom .root hclause rfl rfl
    have hsynonymous : Include.Synonymous "a" "a#" ∧ ¬ Include.Synonymous "a" "a#b#c" := by
      unfold Include.Synonymous Include.Trailing
      decide
    refine ⟨p, hp, fun p' => ⟨fun hp' => ?_, fun hp' => ?_⟩⟩
    · exact ((hagree k hk rfl rfl .root hp' rfl).2 rfl).2 hsynonymous.1
    · exact fun heq => hsynonymous.2 (((hagree k hk rfl rfl .root hp' rfl).2 rfl).1 heq)

end World

end ScopeRules
