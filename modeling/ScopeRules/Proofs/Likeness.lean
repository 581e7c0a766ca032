/-
What a rule shows, apart from its identity. A caller who only looks sees
texts, keys and counts, and cannot tell a rule from its twin in another
compilation of the document. `Rule.Like` relates rules that show the same
and have related nodes at the same places; `Twins.like` says that twins are
like each other, with twins at the same places.

# The repository

A repository is kept in the order of the ids, and two compilations may give
the names of a document ids in different orders. So entries are compared by
name (Twins.lean), and here only counted: a repository has one entry for
every name that the dictionary puts something under
(`Trail.length_repository`).
-/
import Mathlib.Data.List.Dedup
import ScopeRules.Proofs.Twins

namespace ScopeRules

-- ======================================================== dictionaries

namespace Assoc

variable {κ α β : Type} [DecidableEq κ] {S : α → β → Prop} {d : Assoc κ α} {e : Assoc κ β}

/-- Whether two dictionaries have the same keys in the same order, with
related values. -/
def Similar (S : α → β → Prop) (d : Assoc κ α) (e : Assoc κ β) : Prop :=
  List.Forall₂ (fun p q => p.1 = q.1 ∧ S p.2 q.2) d e

theorem Similar.get? (h : d.Similar S e) (k : κ) : Option.Rel S (d.get? k) (e.get? k) := by
  induction h with
  | nil => exact .none
  | @cons p q _ _ hpq _ ih =>
    obtain ⟨i, v⟩ := p
    obtain ⟨j, w⟩ := q
    obtain ⟨rfl, hvw⟩ := hpq
    by_cases hik : i = k
    · simpa [Assoc.get?, hik] using hvw
    · simpa [Assoc.get?, hik] using ih

theorem Similar.put (h : d.Similar S e) (k : κ) {v : α} {w : β} (hvw : S v w) :
    (d.put k v).Similar S (e.put k w) := by
  induction h with
  | nil => exact .cons ⟨rfl, hvw⟩ .nil
  | @cons p q _ _ hpq hrest ih =>
    obtain ⟨i, v'⟩ := p
    obtain ⟨j, w'⟩ := q
    obtain ⟨rfl, hold⟩ := hpq
    by_cases hik : i = k
    · simp only [Assoc.put, hik, if_true]
      exact .cons ⟨rfl, hvw⟩ hrest
    · simp only [Assoc.put, hik, if_false]
      exact .cons ⟨rfl, hold⟩ ih

theorem Similar.putSorted (lt : κ → κ → Bool) (h : d.Similar S e) (k : κ) {v : α} {w : β}
    (hvw : S v w) : (Assoc.putSorted lt d k v).Similar S (Assoc.putSorted lt e k w) := by
  induction h with
  | nil => exact .cons ⟨rfl, hvw⟩ .nil
  | @cons p q _ _ hpq hrest ih =>
    obtain ⟨i, v'⟩ := p
    obtain ⟨j, w'⟩ := q
    obtain ⟨rfl, hold⟩ := hpq
    by_cases hik : i = k
    · simp only [Assoc.putSorted, hik, if_true]
      exact .cons ⟨rfl, hvw⟩ hrest
    · by_cases hlt : lt k i = true
      · simp only [Assoc.putSorted, hik, hlt, if_false, if_true]
        exact .cons ⟨rfl, hvw⟩ (.cons ⟨rfl, hold⟩ hrest)
      · simp only [Assoc.putSorted, hik, hlt, if_false]
        exact .cons ⟨rfl, hold⟩ ih

end Assoc

-- ============================================================ likeness

/-- Slots with the same label, or with related rules. -/
inductive Capture.Like (R : Node → Node → Prop) : Capture → Capture → Prop where
  | label {text text' : Symbol} (same : text.text = text'.text) :
      Capture.Like R (.label text) (.label text')
  | rule {r r' : Rule} (related : R (.rule r) (.rule r')) : Capture.Like R (.rule r) (.rule r')

/-- Tables of one size, with slots that are like each other. -/
structure CaptureTable.Like (R : Node → Node → Prop) (t t' : CaptureTable) : Prop where
  size : t.size = t'.size
  groups : Assoc.Similar (Capture.Like R) t.groups t'.groups

/-- Rules that show the same, and have related nodes at the same places. -/
structure Rule.Like (R : Node → Node → Prop) (r r' : Rule) : Prop where
  scope : r.scope.map Symbol.text = r'.scope.map Symbol.text
  attributes : Assoc.Similar (fun a b => a.text = b.text) r.attributes r'.attributes
  captures : Assoc.Similar (CaptureTable.Like R) r.captures r'.captures
  children : List.Forall₂ R r.children r'.children
  injections : List.Forall₂ (fun i i' => i.1.text = i'.1.text ∧ R (.rule i.2) (.rule i'.2))
    r.injections r'.injections

section Like

variable {R : Node → Node → Prop} {r r' : Rule}

/-- What is like under a relation is like under a weaker one. -/
theorem Rule.Like.mono {S : Node → Node → Prop} (h : r.Like R r')
    (hRS : ∀ x x', R x x' → S x x') : r.Like S r' where
  scope := h.scope
  attributes := h.attributes
  captures := by
    refine h.captures.imp fun p q hpq =>
      ⟨hpq.1, hpq.2.size, hpq.2.groups.imp fun g g' hg => ⟨hg.1, ?_⟩⟩
    obtain ⟨i, c⟩ := g
    obtain ⟨i', c'⟩ := g'
    cases hg.2 with
    | label same => exact .label same
    | rule related => exact .rule (hRS _ _ related)
  children := h.children.imp hRS
  injections := h.injections.imp fun i i' hi => ⟨hi.1, hRS _ _ hi.2⟩

theorem CaptureTable.Like.get? {t t' : CaptureTable} (h : t.Like R t') (i : Nat) :
    Option.Rel (Capture.Like R) (t.get? i) (t'.get? i) := by
  unfold CaptureTable.get?
  rw [h.size]
  split
  · exact h.groups.get? i
  · exact .none

theorem Rule.Like.setCapture (h : r.Like R r') (key : CaptureKey) (i : Nat) {c c' : Capture}
    (hc : c.Like R c') : (r.setCapture key i c).Like R (r'.setCapture key i c') := by
  have htable : CaptureTable.Like R ((Assoc.get? r.captures key).getD .empty)
      ((Assoc.get? r'.captures key).getD .empty) :=
    getD_of_rel (h.captures.get? key) ⟨rfl, .nil⟩
  refine { h with captures := h.captures.put key ⟨?_, htable.groups.putSorted _ i hc⟩ }
  show max _ (i + 1) = max _ (i + 1)
  rw [htable.size]

theorem Rule.Like.addChild (h : r.Like R r') {x x' : Node} (hx : R x x') :
    (r.addChild x).Like R (r'.addChild x') :=
  { h with children := List.rel_append h.children (.cons hx .nil) }

theorem Rule.Like.addInjection (h : r.Like R r') {a a' : Symbol} {x x' : Rule}
    (ha : a.text = a'.text) (hx : R (.rule x) (.rule x')) :
    (r.addInjection a x).Like R (r'.addInjection a' x') :=
  { h with injections := List.rel_append h.injections (.cons ⟨ha, hx⟩ .nil) }

/-- The repository is not compared. -/
theorem Rule.Like.putEntry (h : r.Like R r') (id id' : RuleId) (x x' : Node) :
    (r.putEntry id x).Like R (r'.putEntry id' x') :=
  { h with }

end Like

namespace Compilation

variable {k k' : Compilation} {r r' : Rule}

/-- Pieces that say the same keep rules like each other. -/
theorem like_store (h : r.Like (k.Twins k') r') {q q' : Piece} (hq : Piece.Twins k k' q q') :
    (k.context.store r q).Like (k.Twins k') (k'.context.store r' q') := by
  cases hq with
  | «attribute» same => exact { h with attributes := h.attributes.put _ same }
  | label same => exact h.setCapture _ _ (.label same)
  | @node place source x x' twins =>
    cases twins with
    | reference anchors left memLeft right memRight =>
      have htwins := Twins.reference anchors left memLeft right memRight
      cases place with
      | child => exact h.addChild htwins
      | entry name => exact h.putEntry _ _ _ _
      | capture key index => exact h
      | injection selector => exact h
    | rule left right =>
      have htwins := Twins.rule left right
      cases place with
      | child => exact h.addChild htwins
      | entry name => exact h.putEntry _ _ _ _
      | capture key index => exact h.setCapture _ _ (.rule htwins)
      | injection selector =>
        refine h.addInjection ?_ htwins
        exact (Interner.text_intern _ _).trans (Interner.text_intern _ _).symm

/-- Twins show the same, and have twins at the same places. -/
theorem Twins.like (hdocument : k.document = k'.document)
    (h : k.Twins k' (.rule r) (.rule r')) : r.Like (k.Twins k') r' := by
  obtain ⟨d, outer, outer', htrail, htrail', -⟩ := h.exists_trails hdocument
  have hcontents := forall₂_contents htrail htrail' h
  have hfold : ∀ {pieces pieces' : List Piece} {s s' : Rule},
      List.Forall₂ (Piece.Twins k k') pieces pieces' → s.Like (k.Twins k') s' →
      (pieces.foldl k.context.store s).Like (k.Twins k') (pieces'.foldl k'.context.store s') := by
    intro pieces pieces' s s' hpieces hs
    induction hpieces generalizing s s' with
    | nil => exact hs
    | cons hq _ ih => exact ih (like_store hs hq)
  rw [htrail.eq_rule, htrail'.eq_rule, Context.rule_eq_foldl, Context.rule_eq_foldl]
  refine hfold hcontents ⟨?_, .nil, .nil, .nil, .nil⟩
  cases Outline.scopeOf d with
  | none => rfl
  | some scope =>
    exact congrArg some ((Interner.text_intern _ _).trans (Interner.text_intern _ _).symm)

-- ====================================================== the repository

/-- The names under which a dictionary puts something, in document order. -/
def entryNames (k : Compilation) (r : Rule) (d : Document) : List String :=
  (k.contents r d).filterMap fun q => q.takes?.bind Place.name?

/-- Some piece has a name if and only if the rule has an entry under its id. -/
theorem Trail.has_repository_iff {d : Document} {outer : List (Rule × Document)}
    (h : k.Trail ((r, d) :: outer)) {id : RuleId} :
    Assoc.has r.repository id = true ↔ ∃ name ∈ k.entryNames r d, k.context.ruleId name = id := by
  have hentry := k.context.entryAt?_rule r.id.serial (outer.head?.map fun f => f.1.id) d id
  rw [← h.eq_rule] at hentry
  have hnames : ∀ q, (k.context.entryNode? id q).isSome = true
      ↔ ∃ name, q.takes?.bind Place.name? = some name ∧ k.context.ruleId name = id := by
    intro q
    cases q with
    | node place source x =>
      cases place with
      | capture key index => cases x <;> simp [Context.entryNode?, Piece.takes?, Place.name?]
      | _ => simp [Context.entryNode?, Piece.takes?, Place.name?]
    | _ => simp [Context.entryNode?, Piece.takes?, Place.name?]
  show (r.entryAt? id).isSome = true ↔ _
  rw [hentry, List.getLast?_isSome]
  constructor
  · intro hsome
    obtain ⟨x, hx⟩ := List.exists_mem_of_ne_nil _ hsome
    obtain ⟨q, hq, hqx⟩ := List.mem_filterMap.1 hx
    obtain ⟨name, hname, hid⟩ := (hnames q).1 (Option.isSome_iff_exists.2 ⟨x, hqx⟩)
    exact ⟨name, List.mem_filterMap.2 ⟨q, hq, hname⟩, hid⟩
  · intro hput
    obtain ⟨name, hname, hid⟩ := hput
    obtain ⟨q, hq, hname⟩ := List.mem_filterMap.1 hname
    obtain ⟨x, hx⟩ := Option.isSome_iff_exists.1 ((hnames q).2 ⟨name, hname, hid⟩)
    exact List.ne_nil_of_mem (List.mem_filterMap.2 ⟨q, hq, hx⟩)

/-- A name that something is put under is one of the document's. -/
theorem Trail.mem_names_of_mem_entryNames {d : Document} {outer : List (Rule × Document)}
    (h : k.Trail ((r, d) :: outer)) {name : String} (hname : name ∈ k.entryNames r d) :
    name ∈ (Outline.ofDocument k.document).names := by
  obtain ⟨q, hq, hname⟩ := List.mem_filterMap.1 hname
  obtain ⟨place, htakes, hplace⟩ := Option.bind_eq_some_iff.1 hname
  cases place with
  | entry other =>
    obtain rfl : other = name := Option.some.inj hplace
    exact h.mem_names_of_takes? hq htakes
  | _ => cases hplace

/-- A repository has the ids of the names that something is put under, each
once, if and only if the ids tell these names apart. -/
theorem Trail.keys_repository_iff {d : Document} {outer : List (Rule × Document)}
    (h : k.Trail ((r, d) :: outer)) :
    (Assoc.keys r.repository).Perm ((k.entryNames r d).dedup.map k.context.ruleId)
      ↔ ∀ m ∈ k.entryNames r d, ∀ n ∈ k.entryNames r d,
        k.context.ruleId m = k.context.ruleId n → m = n := by
  have hdistinct : (Assoc.keys r.repository).Nodup := by
    have htidy := k.context.tidy_rule r.id.serial (outer.head?.map fun f => f.1.id) d
    rw [← h.eq_rule] at htidy
    exact htidy.repository.distinct RuleId.before_strictOrder
  constructor
  · intro hkeys m hm n hn
    exact List.inj_on_of_nodup_map (hkeys.nodup_iff.1 hdistinct) (List.mem_dedup.2 hm)
      (List.mem_dedup.2 hn)
  · intro hids
    refine (List.perm_ext_iff_of_nodup hdistinct ?_).2 fun id => ?_
    · refine (List.nodup_dedup _).map_on fun m hm n hn => ?_
      exact hids m (List.mem_dedup.1 hm) n (List.mem_dedup.1 hn)
    · rw [Assoc.mem_keys_iff_has, h.has_repository_iff]
      simp

/-- While the ids of a document tell its names apart, they do so with the names
in each repository. -/
theorem Trail.entryNames_apart {d : Document} {outer : List (Rule × Document)}
    (h : k.Trail ((r, d) :: outer)) (hids : k.IdsApart) :
    ∀ m ∈ k.entryNames r d, ∀ n ∈ k.entryNames r d,
      k.context.ruleId m = k.context.ruleId n → m = n :=
  fun m hm n hn =>
    hids m (h.mem_names_of_mem_entryNames hm) n (h.mem_names_of_mem_entryNames hn)

/-- A repository has one entry for every name that is put into it. -/
theorem Trail.length_repository {d : Document} {outer : List (Rule × Document)}
    (h : k.Trail ((r, d) :: outer)) (hids : k.IdsApart) :
    r.repository.length = (k.entryNames r d).dedup.length := by
  simpa [Assoc.keys] using (h.keys_repository_iff.2 (h.entryNames_apart hids)).length_eq

/-- Twins have as many entries. -/
theorem Twins.length_repository (hdocument : k.document = k'.document) (hids : k.IdsApart)
    (hids' : k'.IdsApart) (h : k.Twins k' (.rule r) (.rule r')) :
    r.repository.length = r'.repository.length := by
  obtain ⟨d, outer, outer', htrail, htrail', -⟩ := h.exists_trails hdocument
  have hnames : k.entryNames r d = k'.entryNames r' d := by
    refine filterMap_eq_of_forall₂ (forall₂_contents htrail htrail' h) fun q q' hq => ?_
    rw [takes?_eq hq]
  rw [htrail.length_repository hids, htrail'.length_repository hids', hnames]

end Compilation

-- ================================================================ faces

/-- What a rule shows of itself: its texts, the labels of its groups (a group
without one has a rule), and how many nodes it has at each kind of place. -/
structure Rule.Face where
  scope : Option String
  attributes : List (AttributeKey × String)
  captures : List (CaptureKey × Nat × List (Nat × Option String))
  selectors : List String
  children : Nat
  repository : Nat
  deriving DecidableEq, Repr

/-- The label in a slot, if it holds one. -/
def Capture.label? : Capture → Option String
  | .label text => some text.text
  | .rule _ => none

def Rule.face (r : Rule) : Rule.Face where
  scope := r.scope.map Symbol.text
  attributes := r.attributes.map fun p => (p.1, p.2.text)
  captures := r.captures.map fun p => (p.1, p.2.size, p.2.groups.map fun g => (g.1, g.2.label?))
  selectors := r.injections.map fun i => i.1.text
  children := r.children.length
  repository := r.repository.length

/-- Rules that are like each other have one face, if they have as many
entries. -/
theorem Rule.Like.face_eq {R : Node → Node → Prop} {r r' : Rule} (h : r.Like R r')
    (hrepository : r.repository.length = r'.repository.length) : r.face = r'.face := by
  have hattributes := map_eq_of_forall₂ (f := fun p : AttributeKey × Symbol => (p.1, p.2.text))
    (g := fun p => (p.1, p.2.text)) h.attributes fun p q hpq => by rw [hpq.1, hpq.2]
  have hgroups : ∀ t t' : CaptureTable, t.Like R t' →
      t.groups.map (fun g => (g.1, g.2.label?)) = t'.groups.map fun g => (g.1, g.2.label?) := by
    intro t t' ht
    refine map_eq_of_forall₂ ht.groups fun g g' hg => ?_
    obtain ⟨i, c⟩ := g
    obtain ⟨i', c'⟩ := g'
    obtain ⟨rfl, hlike⟩ := hg
    cases hlike with
    | label same => exact congrArg (fun text => (i, some text)) same
    | rule => rfl
  have hcaptures := map_eq_of_forall₂ h.captures
    (f := fun p => (p.1, p.2.size, p.2.groups.map fun g => (g.1, g.2.label?)))
    (g := fun p => (p.1, p.2.size, p.2.groups.map fun g => (g.1, g.2.label?)))
    fun p q hpq => by rw [hpq.1, hpq.2.size, hgroups _ _ hpq.2]
  have hselectors := map_eq_of_forall₂ (f := fun i : Symbol × Rule => i.1.text)
    (g := fun i => i.1.text) h.injections fun i i' hi => hi.1
  unfold Rule.face
  rw [h.scope, hattributes, hcaptures, hselectors, h.children.length_eq, hrepository]

end ScopeRules
