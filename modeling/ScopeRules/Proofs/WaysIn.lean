/-
The two ways from a text to a document agree. Decoding a text drops each
null where it is met and then stores what is left; decoding it by way of one
JSON value stores everything first, nulls included, and drops the nulls
afterwards. A null that is stored takes the place of an earlier member of its
name and keeps a place for a later one, so the two orders of work can only
agree where no name comes more than once with a null among its values
(`Json.NullsApart`), and there they do, at every depth.

# The readers

The readers of the two ways differ in one thing, which is whether the whole
document may be null. Byte by byte they are in the same state, or the one that
accepts a null has nothing left to end with but a null or a fault
(`alike_foldl_step`).

# The stores

While members are stored one after the other, what is `present` in the store
with nulls, in its order, is the store without them
(`present_collapseMembers`). A member that comes again finds an earlier
member that is present, and replaces it at the same place in both stores; a
null comes to a name that was not there and will not come again.
-/
import Mathlib.Tactic.SplitIfs
import ScopeRules.Document.Decode
import ScopeRules.Proofs.Dictionaries

namespace ScopeRules

-- ============================================================== readers

namespace Json

def isNull : Json → Bool
  | .null => true
  | _ => false

/-- Whether a reader can end here with nothing but a null or a fault. -/
def State.IsOver : State → Prop
  | .done .null => True
  | .failed _ => True
  | _ => False

/-- Whether something that depends on whether a null is accepted comes to the
same state either way, unless it is over where nulls are accepted. -/
def Alike (f : Bool → State) : Prop := f false = f true ∨ (f true).IsOver

theorem alike_self (s : State) : Alike fun _ => s := .inl rfl

theorem Alike.ite {f g : Bool → State} {c : Prop} [Decidable c] (hf : Alike f) (hg : Alike g) :
    Alike fun nullAllowed => if c then f nullAllowed else g nullAllowed := by
  by_cases hc : c
  · simpa only [if_pos hc] using hf
  · simpa only [if_neg hc] using hg

/-- What goes on from a state keeps this up, if it goes on from what is over
to what is over. -/
theorem Alike.bind {f : Bool → State} {g : Bool → State → State} (hf : Alike f)
    (hg : ∀ s, Alike fun nullAllowed => g nullAllowed s)
    (hover : ∀ s, s.IsOver → (g true s).IsOver) :
    Alike fun nullAllowed => g nullAllowed (f nullAllowed) := by
  rcases hf with heq | hf
  · show g false (f false) = g true (f true) ∨ (g true (f true)).IsOver
    rw [heq]
    exact hg (f true)
  · exact .inr (hover _ hf)

theorem alike_complete (frames : List Frame) (v : Json) :
    Alike fun nullAllowed => complete nullAllowed frames v := by
  cases frames with
  | nil =>
    cases v with
    | null => exact .inr trivial
    | _ => exact .inl rfl
  | cons frame outer => cases frame <;> exact .inl rfl

theorem alike_stepNext (frames : List Frame) (b : UInt8) :
    Alike fun nullAllowed => stepNext nullAllowed frames b := by
  cases frames with
  | nil => exact alike_self _
  | cons frame outer =>
    cases frame with
    | array items => exact .ite (alike_self _) (.ite (alike_complete _ _) (alike_self _))
    | object members => exact .ite (alike_self _) (.ite (alike_complete _ _) (alike_self _))
    | member members name => exact alike_self _

theorem alike_closeText (frames : List Frame) (isName : Bool) (bytes : List UInt8) :
    Alike fun nullAllowed => closeText nullAllowed frames isName bytes := by
  simp only [closeText]
  cases String.fromUTF8? ⟨bytes.reverse.toArray⟩ with
  | none => exact alike_self _
  | some s =>
    cases isName with
    | true => exact alike_self _
    | false => exact alike_complete frames (.string s)

theorem alike_stepText (frames : List Frame) (isName : Bool) (bytes : List UInt8)
    (escape : Escape) (b : UInt8) :
    Alike fun nullAllowed => stepText nullAllowed frames isName bytes escape b := by
  cases escape with
  | outside => exact .ite (alike_closeText _ _ _) (alike_self _)
  | _ => exact alike_self _

theorem alike_stepToken (frames : List Frame) (phase : Phase) (b : UInt8) :
    Alike fun nullAllowed => stepToken nullAllowed frames phase b := by
  refine .ite (alike_self _) ?_
  split
  · exact .ite (alike_complete _ _) (alike_self _)
  · exact .ite (alike_complete _ _) (alike_self _)
  · exact alike_self _
  · exact alike_self _
  · exact alike_stepNext _ _
  · exact alike_self _
  · exact alike_self _

/-- What is over goes on to be over. -/
theorem isOver_step {s : State} (h : s.IsOver) (b : UInt8) : (step true s b).IsOver := by
  cases s with
  | failed fault => trivial
  | done v =>
    cases v with
    | null =>
      rw [step]
      split <;> trivial
    | _ => cases h
  | reading frames phase => cases h

/-- One byte leads both readers to the same state, unless the one that
accepts a null is over. -/
theorem alike_step (s : State) (b : UInt8) : Alike fun nullAllowed => step nullAllowed s b := by
  cases s with
  | failed fault => exact alike_self _
  | done v => exact alike_self _
  | reading frames phase =>
    cases phase with
    | word rest meaning =>
      cases rest with
      | nil => exact alike_self _
      | cons c more => exact .ite (.ite (alike_complete _ _) (alike_self _)) (alike_self _)
    | text isName bytes escape => exact alike_stepText _ _ _ _ _
    | numeral n =>
      simp only [step]
      cases n.extend? b with
      | some longer => exact alike_self _
      | none =>
        refine .ite ?_ (alike_self _)
        cases n.value? with
        | none => exact alike_self _
        | some v =>
          -- the byte after a number is read in the state after the number
          rcases alike_complete frames v with heq | hover
          · have hsame : complete false frames v = complete true frames v := heq
            simp only [Alike, hsame]
            cases complete true frames v with
            | reading frames phase => exact alike_stepToken frames phase b
            | _ => exact .inl rfl
          · refine .inr ?_
            dsimp only at hover ⊢
            cases hstate : complete true frames v with
            | reading frames phase =>
              rw [hstate] at hover
              cases hover
            | _ =>
              rw [hstate] at hover
              exact isOver_step hover b
    | _ => exact alike_stepToken _ _ _

theorem isOver_foldl_step {s : State} (h : s.IsOver) (bytes : List UInt8) :
    (bytes.foldl (step true) s).IsOver := by
  induction bytes generalizing s with
  | nil => exact h
  | cons b rest ih => exact ih (isOver_step h b)

theorem alike_foldl_step (s : State) (bytes : List UInt8) :
    Alike fun nullAllowed => bytes.foldl (step nullAllowed) s := by
  induction bytes generalizing s with
  | nil => exact alike_self s
  | cons b rest ih => exact (alike_step s b).bind ih fun _ h => isOver_foldl_step h rest

/-- What ends a reader that is over is a null or a fault. -/
theorem isNull_of_finish {s : State} (h : s.IsOver) {j : Json} (hj : finish s = .ok j) :
    j.isNull = true := by
  cases s with
  | failed fault => cases hj
  | done v =>
    cases hj
    cases j with
    | null => rfl
    | _ => cases h
  | reading frames phase => cases h

/-- A text that spells something else than a null is read alike, whether a
null would be accepted or not. -/
theorem read_false_of_read_true {bytes : List UInt8} {j : Json} (h : read true bytes = .ok j)
    (hj : j.isNull = false) : read false bytes = .ok j := by
  rcases alike_foldl_step start bytes with heq | hover
  · rw [← h]
    exact congrArg finish heq
  · rw [isNull_of_finish hover h] at hj
    cases hj

end Json

-- =============================================================== stores

namespace Json

/-- Whether of two members with one name neither is null. -/
def NullsLone (members : List (String × Json)) : Prop :=
  members.Pairwise fun p q => p.1 = q.1 → p.2.isNull = false ∧ q.2.isNull = false

mutual

/-- In no object, at any depth, a name comes more than once with a null among
its values. -/
def NullsApart : Json → Prop
  | .array items => NullsApartItems items
  | .object members => NullsLone members ∧ NullsApartMembers members
  | _ => True

def NullsApartItems : List Json → Prop
  | [] => True
  | j :: rest => j.NullsApart ∧ NullsApartItems rest

def NullsApartMembers : List (String × Json) → Prop
  | [] => True
  | (_, j) :: rest => j.NullsApart ∧ NullsApartMembers rest

end

theorem isNull_collapse (j : Json) : j.collapse.isNull = j.isNull := by cases j <;> rfl

theorem collapseMembers_distinct {members : List (String × Json)} {stored : Assoc String Json}
    (h : stored.Distinct) : (collapseMembers members stored).Distinct := by
  induction members generalizing stored with
  | nil => exact h
  | cons p rest ih => exact ih (Assoc.put_distinct h p.1 p.2.collapse)

end Json

namespace Value

/-- A value is there if and only if it is not null. -/
theorem isSome_ofJson (j : Json) : (ofJson j).isSome = !j.isNull := by cases j <;> rfl

/-- What of a store with nulls is there, in its order. -/
def present (stored : Assoc String Json) : Assoc String Value :=
  stored.filterMap fun p => (ofJson p.2).map fun v => (p.1, v)

theorem present_cons_of_some {name : String} {j : Json} {v : Value} (h : ofJson j = some v)
    (stored : Assoc String Json) : present ((name, j) :: stored) = (name, v) :: present stored := by
  simp [present, h]

theorem present_cons_of_none {name : String} {j : Json} (h : ofJson j = none)
    (stored : Assoc String Json) : present ((name, j) :: stored) = present stored := by
  simp [present, h]

/-- A value that is stored in place of values, or under a new name, is stored
at the same place among what is present. -/
theorem present_put_of_some {name : String} {j : Json} {v : Value} (h : ofJson j = some v)
    {stored : Assoc String Json}
    (hstored : ∀ p ∈ stored, p.1 = name → (ofJson p.2).isSome = true) :
    present (stored.put name j) = (present stored).put name v := by
  induction stored with
  | nil => exact present_cons_of_some h []
  | cons p rest ih =>
    obtain ⟨other, w⟩ := p
    obtain ⟨hp, hrest⟩ := List.forall_mem_cons.1 hstored
    rw [Assoc.put]
    by_cases hname : other = name
    · obtain ⟨u, hu⟩ := Option.isSome_iff_exists.1 (hp hname)
      rw [if_pos hname, present_cons_of_some h, present_cons_of_some hu, Assoc.put, if_pos hname]
    · rw [if_neg hname]
      cases hu : ofJson w with
      | none => rw [present_cons_of_none hu, present_cons_of_none hu, ih hrest]
      | some u =>
        rw [present_cons_of_some hu, present_cons_of_some hu, Assoc.put, if_neg hname, ih hrest]

/-- A null under a new name adds nothing to what is present. -/
theorem present_put_of_none {name : String} {j : Json} (h : ofJson j = none)
    {stored : Assoc String Json} (hname : name ∉ stored.keys) :
    present (stored.put name j) = present stored := by
  rw [Assoc.put_of_not_mem hname]
  simp [present, h]

/-- Members with names of their own are stored one behind the other. -/
theorem ofMembers_eq_append {members : List (String × Json)} {stored : Assoc String Value}
    (h : (stored.keys ++ members.map Prod.fst).Nodup) :
    ofMembers members stored = stored ++ present members := by
  induction members generalizing stored with
  | nil => exact (List.append_nil _).symm
  | cons p rest ih =>
    obtain ⟨name, j⟩ := p
    rw [ofMembers]
    cases hj : ofJson j with
    | none =>
      rw [present_cons_of_none hj]
      exact ih (h.sublist (List.Sublist.append_left (List.sublist_cons_self ..) _))
    | some v =>
      have hnew : name ∉ stored.keys := fun hmem =>
        (List.nodup_append.1 h).2.2 name hmem name (.head _) rfl
      have hnames : ((stored ++ [(name, v)]).keys ++ rest.map Prod.fst).Nodup := by
        simpa [Assoc.keys] using h
      rw [present_cons_of_some hj]
      show ofMembers rest (stored.put name v) = _
      rw [Assoc.put_of_not_mem hnew, ih hnames, List.append_assoc]
      rfl

/-- Storing members with nulls and then looking at what is present comes to
storing the members that are not null. -/
theorem present_collapseMembers {members : List (String × Json)} {stored : Assoc String Json}
    (hvalues : ∀ p ∈ members, ofJson p.2.collapse = ofJson p.2) (hlone : Json.NullsLone members)
    (hstored : ∀ p ∈ stored, ∀ q ∈ members, p.1 = q.1 →
      p.2.isNull = false ∧ q.2.isNull = false) :
    present (Json.collapseMembers members stored) = ofMembers members (present stored) := by
  induction members generalizing stored with
  | nil => rfl
  | cons q rest ih =>
    obtain ⟨name, j⟩ := q
    obtain ⟨hj, hrest⟩ := List.forall_mem_cons.1 hvalues
    obtain ⟨hhead, hlone⟩ := List.pairwise_cons.1 hlone
    have hnext : ∀ p ∈ stored.put name j.collapse, ∀ q ∈ rest, p.1 = q.1 →
        p.2.isNull = false ∧ q.2.isNull = false := by
      intro p hp q hq hpq
      rcases Assoc.mem_of_mem_put hp with rfl | hp
      · rw [j.isNull_collapse]
        exact hhead q hq hpq
      · exact hstored p hp q (.tail _ hq) hpq
    rw [Json.collapseMembers, ih hrest hlone hnext, ofMembers]
    cases hvalue : ofJson j with
    | none =>
      have hnull : j.isNull = true := by simpa [hvalue] using isSome_ofJson j
      have hnew : name ∉ stored.keys := by
        intro hmem
        obtain ⟨p, hp, hname⟩ := List.mem_map.1 hmem
        rw [(hstored p hp _ (.head _) hname).2] at hnull
        cases hnull
      rw [present_put_of_none (hj.trans hvalue) hnew]
    | some v =>
      have hthere : ∀ p ∈ stored, p.1 = name → (ofJson p.2).isSome = true := by
        intro p hp hname
        rw [isSome_ofJson, (hstored p hp _ (.head _) hname).1]
        rfl
      rw [present_put_of_some (hj.trans hvalue) hthere]

-- ======================================================== every depth

mutual

/-- Storing the nulls first makes no difference where they are apart. -/
theorem ofJson_collapse : ∀ j : Json, j.NullsApart → ofJson j.collapse = ofJson j
  | .array items, h => by
    rw [Json.collapse, ofJson, ofJson, ofItems_collapse items h]
  | .object members, h => by
    have hvalues := ofJson_collapse_of_mem members h.2
    have hdistinct : (Json.collapseMembers members []).Distinct :=
      Json.collapseMembers_distinct List.nodup_nil
    have hpresent : present (Json.collapseMembers members []) = ofMembers members [] :=
      present_collapseMembers hvalues h.1 (by simp)
    have happend : ofMembers (Json.collapseMembers members []) []
        = [] ++ present (Json.collapseMembers members []) :=
      ofMembers_eq_append hdistinct
    rw [Json.collapse, ofJson, ofJson, happend, List.nil_append, hpresent]
  | .null, _ => rfl
  | .bool _, _ => rfl
  | .integer _, _ => rfl
  | .real _, _ => rfl
  | .string _, _ => rfl

theorem ofItems_collapse : ∀ items : List Json, Json.NullsApartItems items →
    ofItems (Json.collapseItems items) = ofItems items
  | [], _ => rfl
  | j :: rest, h => by
    rw [Json.collapseItems, ofItems, ofItems, ofJson_collapse j h.1, ofItems_collapse rest h.2]

theorem ofJson_collapse_of_mem : ∀ members : List (String × Json),
    Json.NullsApartMembers members → ∀ p ∈ members, ofJson p.2.collapse = ofJson p.2
  | [], _, p, hp => by cases hp
  | (name, j) :: rest, h, p, hp => by
    rcases List.mem_cons.1 hp with rfl | hp
    · exact ofJson_collapse j h.1
    · exact ofJson_collapse_of_mem rest h.2 p hp

end

end Value

-- ========================================================= the ways in

namespace Document

/-- A text of an object in which no name comes more than once with a null
among its values, at any depth, is decoded to the same document on both ways,
the same keys in the same order with the same values: the members that are
not null, stored one after the other. -/
theorem decode_eq_decodeValue {bytes : List UInt8} {members : List (String × Json)}
    (hread : Json.read true bytes = .ok (.object members))
    (hapart : (Json.object members).NullsApart) :
    ∃ d, decode bytes = .ok d ∧ decodeValue bytes = .ok d
      ∧ (∀ text : String, text.toUTF8.toList = bytes → decodeText text = .ok d)
      ∧ d = Value.ofMembers members [] := by
  have hdecode : decode bytes = .ok (Value.ofMembers members []) := by
    rw [decode, Json.read_false_of_read_true hread rfl]
    rfl
  refine ⟨Value.ofMembers members [], hdecode, ?_, ?_, rfl⟩
  · rw [decodeValue, hread]
    show ofJson (Json.object members).collapse = _
    rw [ofJson, Value.ofJson_collapse _ hapart]
    rfl
  · intro text htext
    rw [decodeText, htext]
    exact hdecode

-- --- {"a":{"b":1,"b":[null,2]},"c":null}

/-- A name that comes again with values only, and a null under a name of its
own. -/
theorem decode_eq_decodeValue_again :
    let bytes : List UInt8 := [123, 34, 97, 34, 58, 123, 34, 98, 34, 58, 49, 44, 34, 98, 34, 58, 91,
      110, 117, 108, 108, 44, 50, 93, 125, 44, 34, 99, 34, 58, 110, 117, 108, 108, 125]
    let again : Json := .object [("b", .integer 1), ("b", .array [.null, .integer 2])]
    let members := [("a", again), ("c", .null)]
    Json.read true bytes = .ok (.object members) ∧ (Json.object members).NullsApart
    ∧ ∃ d, decode bytes = .ok d ∧ decodeValue bytes = .ok d
      ∧ (∀ text : String, text.toUTF8.toList = bytes → decodeText text = .ok d)
      ∧ d = [("a", .dict [("b", .array [.integer 2])])] := by
  intro bytes again members
  have hread : Json.read true bytes = .ok (.object members) := by rfl
  have hapart : (Json.object members).NullsApart := by
    simp [members, again, Json.NullsApart, Json.NullsApartMembers, Json.NullsApartItems,
      Json.NullsLone, Json.isNull]
  exact ⟨hread, hapart, decode_eq_decodeValue hread hapart⟩

-- {"a":1,"a":null}
example :
    let bytes : List UInt8 := [123, 34, 97, 34, 58, 49, 44, 34, 97, 34, 58, 110, 117, 108, 108, 125]
    decode bytes = .ok [("a", .integer 1)] ∧ decodeValue bytes = .ok [] :=
  ⟨rfl, rfl⟩

end Document

end ScopeRules
