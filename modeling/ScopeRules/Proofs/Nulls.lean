/-
Nulls in a text say nothing. A document takes from an array the items that
are not null, and from an object the members that are not, so it is settled
by the value with all its nulls left out, at every depth (`Json.erase`,
`Value.ofJson_erase`). Inserting a null changes the value, but not what is
left of it.

# Values and texts

What is inserted is said twice. `Json.NullInserted` inserts a null item or a
null under any name into a value, at any place of any array or object in it.
`Json.NullWritten` inserts the letters of it into a text: in front of an
item or member with a comma behind it, behind one with a comma in front of
it, or alone between brackets.

# The reader

The reader never looks at what open containers hold. So from states that
agree but for nulls it goes on to states that agree but for nulls
(`agree_step`), byte by byte. Once the letters of a null and the byte after
them are read, the state agrees with the one in which they never stood
(`agree_of_nullWritten`); what follows is read alike. In particular a text
that can be read can still be read.
-/
import Mathlib.Data.List.Forall2
import Mathlib.Logic.Relation
import ScopeRules.Proofs.WaysIn

namespace ScopeRules

namespace Json

-- ====================================================== without nulls

mutual

/-- A value without the nulls in it, at any depth. -/
def erase : Json → Json
  | .array items => .array (eraseItems items)
  | .object members => .object (eraseMembers members)
  | .null => .null
  | .bool b => .bool b
  | .integer n => .integer n
  | .real x => .real x
  | .string s => .string s

def eraseItems : List Json → List Json
  | [] => []
  | item :: rest => if item.isNull then eraseItems rest else item.erase :: eraseItems rest

def eraseMembers : List (String × Json) → List (String × Json)
  | [] => []
  | (name, member) :: rest =>
    if member.isNull then eraseMembers rest else (name, member.erase) :: eraseMembers rest

end

/-- Erasing goes item by item. -/
theorem eraseItems_eq (items : List Json) :
    eraseItems items = (items.filter fun item => !item.isNull).map erase := by
  induction items with
  | nil => rfl
  | cons item rest ih =>
    rw [eraseItems, List.filter_cons, ih]
    cases item.isNull <;> rfl

theorem eraseMembers_eq (members : List (String × Json)) :
    eraseMembers members
      = (members.filter fun p => !p.2.isNull).map fun p => (p.1, p.2.erase) := by
  induction members with
  | nil => rfl
  | cons p rest ih =>
    obtain ⟨name, member⟩ := p
    rw [eraseMembers, List.filter_cons, ih]
    cases h : member.isNull <;> simp

theorem eraseItems_append (items more : List Json) :
    eraseItems (items ++ more) = eraseItems items ++ eraseItems more := by
  simp only [eraseItems_eq, List.filter_append, List.map_append]

theorem eraseMembers_append (members more : List (String × Json)) :
    eraseMembers (members ++ more) = eraseMembers members ++ eraseMembers more := by
  simp only [eraseMembers_eq, List.filter_append, List.map_append]

theorem eraseItems_reverse (items : List Json) :
    eraseItems items.reverse = (eraseItems items).reverse := by
  simp only [eraseItems_eq, List.filter_reverse, List.map_reverse]

theorem eraseMembers_reverse (members : List (String × Json)) :
    eraseMembers members.reverse = (eraseMembers members).reverse := by
  simp only [eraseMembers_eq, List.filter_reverse, List.map_reverse]

/-- Erasing leaves what a value is. -/
theorem isNull_erase (j : Json) : j.erase.isNull = j.isNull := by cases j <;> rfl

theorem isNull_eq_of_erase_eq {j j' : Json} (h : j.erase = j'.erase) : j.isNull = j'.isNull := by
  rw [← isNull_erase j, h, isNull_erase]

theorem eraseItems_cons_congr {j j' : Json} {items items' : List Json} (h : j.erase = j'.erase)
    (hitems : eraseItems items = eraseItems items') :
    eraseItems (j :: items) = eraseItems (j' :: items') := by
  rw [eraseItems, eraseItems, isNull_eq_of_erase_eq h, h, hitems]

theorem eraseMembers_cons_congr {name : String} {j j' : Json}
    {members members' : List (String × Json)}
    (h : j.erase = j'.erase) (hmembers : eraseMembers members = eraseMembers members') :
    eraseMembers ((name, j) :: members) = eraseMembers ((name, j') :: members') := by
  rw [eraseMembers, eraseMembers, isNull_eq_of_erase_eq h, h, hmembers]

end Json

namespace Value

/-- A null has no value. -/
theorem ofJson_eq_none {j : Json} (h : j.isNull = true) : ofJson j = none := by
  cases j <;> first | rfl | cases h

mutual

/-- What a value becomes in a document is what becomes of it without its
nulls. -/
theorem ofJson_erase : ∀ j : Json, ofJson j.erase = ofJson j
  | .array items => by rw [Json.erase, ofJson, ofJson, ofItems_erase items]
  | .object members => by rw [Json.erase, ofJson, ofJson, ofMembers_erase members]
  | .null => rfl
  | .bool _ => rfl
  | .integer _ => rfl
  | .real _ => rfl
  | .string _ => rfl

theorem ofItems_erase : ∀ items : List Json, ofItems (Json.eraseItems items) = ofItems items
  | [] => rfl
  | j :: rest => by
    rw [Json.eraseItems, ofItems]
    cases hnull : j.isNull with
    | true =>
      rw [if_pos rfl, ofItems_erase rest, ofJson_eq_none hnull]
    | false =>
      rw [if_neg Bool.false_ne_true, ofItems, ofItems_erase rest, ofJson_erase j]

/-- Members are stored as before: a null stores nothing, moves nothing and
takes nothing away. -/
theorem ofMembers_erase : ∀ (members : List (String × Json)) (stored : Assoc String Value),
    ofMembers (Json.eraseMembers members) stored = ofMembers members stored
  | [], _ => rfl
  | (name, j) :: rest, stored => by
    rw [Json.eraseMembers, ofMembers]
    cases hnull : j.isNull with
    | true =>
      rw [if_pos rfl, ofMembers_erase rest, ofJson_eq_none hnull]
    | false =>
      rw [if_neg Bool.false_ne_true, ofMembers, ofJson_erase j]
      cases ofJson j with
      | none => exact ofMembers_erase rest stored
      | some v => exact ofMembers_erase rest (stored.put name v)

end

end Value

/-- Values that agree but for nulls are one document. -/
theorem Document.ofJson_congr {j j' : Json} (h : j.erase = j'.erase) : ofJson j = ofJson j' := by
  rw [ofJson, ofJson, ← Value.ofJson_erase j, h, Value.ofJson_erase]

namespace Json

-- ================================================== nulls in a value

/-- A value, and the value with one null more: an item, or under any name a
member, at any place of an array or object in it. -/
inductive NullInserted : Json → Json → Prop where
  | item (before after : List Json) :
    NullInserted (.array (before ++ after)) (.array (before ++ .null :: after))
  | member (before after : List (String × Json)) (name : String) :
    NullInserted (.object (before ++ after)) (.object (before ++ (name, .null) :: after))
  | inItem (before after : List Json) {j j' : Json} (h : NullInserted j j') :
    NullInserted (.array (before ++ j :: after)) (.array (before ++ j' :: after))
  | inMember (before after : List (String × Json)) (name : String) {j j' : Json}
      (h : NullInserted j j') :
    NullInserted (.object (before ++ (name, j) :: after)) (.object (before ++ (name, j') :: after))

/-- Without nulls the two values are one. -/
theorem erase_eq_of_nullInserted {j j' : Json} (h : NullInserted j j') : j.erase = j'.erase := by
  induction h with
  | item before after =>
    rw [erase, erase, eraseItems_append, eraseItems_append]
    rfl
  | member before after name =>
    rw [erase, erase, eraseMembers_append, eraseMembers_append]
    rfl
  | inItem before after _ ih =>
    rw [erase, erase, eraseItems_append, eraseItems_append, eraseItems_cons_congr ih rfl]
  | inMember before after name _ ih =>
    rw [erase, erase, eraseMembers_append, eraseMembers_append, eraseMembers_cons_congr ih rfl]

/-- So are they after any number of insertions. -/
theorem erase_eq_of_reflTransGen {j j' : Json} (h : Relation.ReflTransGen NullInserted j j') :
    j.erase = j'.erase := by
  induction h with
  | refl => rfl
  | tail _ hstep ih => exact ih.trans (erase_eq_of_nullInserted hstep)

-- ================================================== states of the reader

/-- Open containers that hold the same but for nulls. -/
inductive Frame.Agree : Frame → Frame → Prop where
  | array {items items' : List Json} (h : eraseItems items = eraseItems items') :
    Frame.Agree (.array items) (.array items')
  | object {members members' : List (String × Json)}
      (h : eraseMembers members = eraseMembers members') :
    Frame.Agree (.object members) (.object members')
  | member {members members' : List (String × Json)} (name : String)
      (h : eraseMembers members = eraseMembers members') :
    Frame.Agree (.member members name) (.member members' name)

/-- States that are the same but for nulls. -/
inductive State.Agree : State → State → Prop where
  | reading {frames frames' : List Frame} (h : List.Forall₂ Frame.Agree frames frames')
      (phase : Phase) : State.Agree (.reading frames phase) (.reading frames' phase)
  | done {v v' : Json} (h : v.erase = v'.erase) : State.Agree (.done v) (.done v')
  | failed (fault : Fault) : State.Agree (.failed fault) (.failed fault)

theorem Frame.Agree.refl (frame : Frame) : frame.Agree frame := by
  cases frame with
  | array items => exact .array rfl
  | object members => exact .object rfl
  | member members name => exact .member name rfl

theorem agree_refl_frames (frames : List Frame) : List.Forall₂ Frame.Agree frames frames :=
  List.forall₂_same.2 fun frame _ => .refl frame

theorem State.Agree.refl (s : State) : s.Agree s := by
  cases s with
  | reading frames phase => exact .reading (agree_refl_frames frames) phase
  | done v => exact .done rfl
  | failed fault => exact .failed fault

theorem State.Agree.ite {s s' t t' : State} {c : Prop} [Decidable c] (hs : s.Agree s')
    (ht : t.Agree t') : State.Agree (if c then s else t) (if c then s' else t') := by
  by_cases hc : c
  · rw [if_pos hc, if_pos hc]
    exact hs
  · rw [if_neg hc, if_neg hc]
    exact ht

section

variable {frames frames' : List Frame}

theorem agree_complete (h : List.Forall₂ Frame.Agree frames frames') {v v' : Json}
    (hv : v.erase = v'.erase) : (complete false frames v).Agree (complete false frames' v') := by
  cases h with
  | nil =>
    cases v <;> cases v' <;> first | exact .failed _ | exact .done hv | cases hv
  | cons hframe houter =>
    cases hframe with
    | array hitems => exact .reading (.cons (.array (eraseItems_cons_congr hv hitems)) houter) _
    | object hmembers => exact .failed _
    | member name hmembers =>
      exact .reading (.cons (.object (eraseMembers_cons_congr hv hmembers)) houter) _

theorem agree_openFrame (h : List.Forall₂ Frame.Agree frames frames') (frame : Frame)
    (phase : Phase) : (openFrame frames frame phase).Agree (openFrame frames' frame phase) := by
  rw [openFrame, openFrame, h.length_eq]
  exact .ite (.reading (.cons (.refl frame) h) phase) (.failed _)

theorem agree_startValue (h : List.Forall₂ Frame.Agree frames frames') (b : UInt8) :
    (startValue frames b).Agree (startValue frames' b) := by
  unfold startValue
  refine .ite (agree_openFrame h _ _) (.ite (agree_openFrame h _ _) ?_)
  refine .ite (.reading h _) (.ite (.reading h _) (.ite (.reading h _) (.ite (.reading h _) ?_)))
  refine .ite (.reading h _) ?_
  split
  · exact .reading h _
  · exact .failed _

theorem agree_stepNext (h : List.Forall₂ Frame.Agree frames frames') (b : UInt8) :
    (stepNext false frames b).Agree (stepNext false frames' b) := by
  cases h with
  | nil => exact .failed _
  | cons hframe houter =>
    cases hframe with
    | array hitems =>
      refine .ite (.reading (.cons (.array hitems) houter) _)
        (.ite (agree_complete houter ?_) (.failed _))
      rw [erase, erase, eraseItems_reverse, eraseItems_reverse, hitems]
    | object hmembers =>
      refine .ite (.reading (.cons (.object hmembers) houter) _)
        (.ite (agree_complete houter ?_) (.failed _))
      rw [erase, erase, eraseMembers_reverse, eraseMembers_reverse, hmembers]
    | member name hmembers => exact .failed _

theorem agree_closeText (h : List.Forall₂ Frame.Agree frames frames') (isName : Bool)
    (bytes : List UInt8) :
    (closeText false frames isName bytes).Agree (closeText false frames' isName bytes) := by
  unfold closeText
  cases String.fromUTF8? ⟨bytes.reverse.toArray⟩ with
  | none => exact .failed _
  | some s =>
    refine .ite ?_ (agree_complete h rfl)
    cases h with
    | nil => exact .failed _
    | cons hframe houter =>
      cases hframe with
      | object hmembers => exact .reading (.cons (.member s hmembers) houter) _
      | _ => exact .failed _

theorem agree_closeDigits (h : List.Forall₂ Frame.Agree frames frames') (isName : Bool)
    (bytes : List UInt8) (lead : Option Nat) (digits : List UInt8) :
    (closeDigits frames isName bytes lead digits).Agree
      (closeDigits frames' isName bytes lead digits) := by
  unfold closeDigits
  cases hexValue? digits with
  | none => exact .failed _
  | some unit =>
    cases lead with
    | none => exact .ite (.failed _) (.ite (.reading h _) (.reading h _))
    | some first => exact .ite (.reading h _) (.failed _)

theorem agree_stepText (h : List.Forall₂ Frame.Agree frames frames') (isName : Bool)
    (bytes : List UInt8) (escape : Escape) (b : UInt8) :
    (stepText false frames isName bytes escape b).Agree
      (stepText false frames' isName bytes escape b) := by
  cases escape with
  | outside =>
    exact .ite (agree_closeText h _ _) (.ite (.reading h _) (.ite (.failed _) (.reading h _)))
  | letter =>
    refine .ite (.reading h _) ?_
    cases escapedByte? b with
    | none => exact .failed _
    | some c => exact .reading h _
  | digits lead read => exact .ite (.reading h _) (agree_closeDigits h _ _ _ _)
  | pairSlash lead => exact .ite (.reading h _) (.failed _)
  | pairLetter lead => exact .ite (.reading h _) (.failed _)

theorem agree_stepToken (h : List.Forall₂ Frame.Agree frames frames') (phase : Phase) (b : UInt8) :
    (stepToken false frames phase b).Agree (stepToken false frames' phase b) := by
  refine .ite (.reading h phase) ?_
  cases phase with
  | value => exact agree_startValue h b
  | firstItem =>
    cases h with
    | nil => exact .failed _
    | cons hframe houter =>
      cases hframe with
      | array hitems =>
        refine .ite (agree_complete houter ?_) (agree_startValue (.cons (.array hitems) houter) b)
        rw [erase, erase, hitems]
      | _ => exact .failed _
  | firstName =>
    cases h with
    | nil => exact .failed _
    | cons hframe houter =>
      cases hframe with
      | object hmembers =>
        refine .ite (agree_complete houter ?_)
          (.ite (.reading (.cons (.object hmembers) houter) _) (.failed _))
        rw [erase, erase, hmembers]
      | _ => exact .failed _
  | name => exact .ite (.reading h _) (.failed _)
  | colon => exact .ite (.reading h _) (.failed _)
  | next => exact agree_stepNext h b
  | word rest meaning => exact .failed _
  | text isName bytes escape => exact .failed _
  | numeral n => exact .failed _

end

/-- One byte leads from states that agree but for nulls to states that do. -/
theorem agree_step {s s' : State} (h : s.Agree s') (b : UInt8) :
    (step false s b).Agree (step false s' b) := by
  cases h with
  | failed fault => exact .failed fault
  | done hv => exact .ite (.done hv) (.failed _)
  | @reading frames frames' hframes phase =>
    cases phase with
    | word rest meaning =>
      cases rest with
      | nil => exact .failed _
      | cons c more =>
        exact .ite (.ite (agree_complete hframes rfl) (.reading hframes _)) (.failed _)
    | text isName bytes escape => exact agree_stepText hframes isName bytes escape b
    | numeral n =>
      simp only [step]
      cases n.extend? b with
      | some longer => exact .reading hframes _
      | none =>
        refine .ite ?_ (.failed _)
        cases n.value? with
        | none => exact .failed _
        | some v =>
          -- the byte after a number is read in the state after the number
          have hafter := agree_complete hframes (rfl : v.erase = v.erase)
          dsimp only
          generalize complete false frames v = t at hafter ⊢
          generalize complete false frames' v = t' at hafter ⊢
          cases hafter with
          | failed fault => exact .failed fault
          | done hv => exact .ite (.done hv) (.failed _)
          | reading hframes phase => exact agree_stepToken hframes phase b
    | _ => exact agree_stepToken hframes _ b

theorem agree_foldl_step {s s' : State} (h : s.Agree s') (bytes : List UInt8) :
    (bytes.foldl (step false) s).Agree (bytes.foldl (step false) s') := by
  induction bytes generalizing s s' with
  | nil => exact h
  | cons b rest ih => exact ih (agree_step h b)

-- =================================================== nulls in a text

/-- The state after some bytes. -/
def run (bytes : List UInt8) : State := bytes.foldl (step false) start

theorem run_append (bytes more : List UInt8) :
    run (bytes ++ more) = more.foldl (step false) (run bytes) := List.foldl_append

/-- The letters of a null. -/
def nullLetters : List UInt8 := [110, 117, 108, 108]

/-- Whether bytes, with a quotation mark in front of them, spell a name. -/
def SpellsName (bytes : List UInt8) (name : String) : Prop :=
  ∀ members outer, bytes.foldl (step false) (.reading (.object members :: outer)
      (.text true [] .outside))
    = .reading (.member members name :: outer) .colon

namespace Frame

/-- What is expected in a container that was just opened. -/
def first : Frame → Phase
  | .array _ => .firstItem
  | .object _ => .firstName
  | .member _ _ => .colon

/-- What is expected after a comma. -/
def later : Frame → Phase
  | .array _ => .value
  | .object _ => .name
  | .member _ _ => .colon

/-- The bracket that closes a container. -/
def closing : Frame → UInt8
  | .array _ => 93
  | .object _ => 125
  | .member _ _ => 125

end Frame

/-- The text of a null in an open container, and the container after it: an
item, or a member under any name. -/
inductive NullText : Frame → List UInt8 → Frame → Prop where
  | item (items : List Json) : NullText (.array items) nullLetters (.array (.null :: items))
  | member (members : List (String × Json)) {spelled : List UInt8} {name : String}
      (h : SpellsName spelled name) :
    NullText (.object members) (34 :: spelled ++ 58 :: nullLetters)
      (.object ((name, .null) :: members))

/-- Whether in this state a value has been read whole, in the open `frames`, if
the next byte is `b`. A number is whole if the byte is no part of it. -/
inductive Whole (b : UInt8) : State → List Frame → Prop where
  | next (frames : List Frame) : Whole b (.reading frames .next) frames
  | numeral {inner frames : List Frame} {n : Numeral} {v : Json} (hcomplete : n.isComplete = true)
      (hvalue : n.value? = some v) (hb : n.extend? b = none)
      (h : complete false inner v = .reading frames .next) :
    Whole b (.reading inner (.numeral n)) frames

/-- A text, and the text with one null more in an array or object: in front of
an item or member, behind one, or alone. -/
inductive NullWritten : List UInt8 → List UInt8 → Prop where
  | before {front rest text : List UInt8} {b : UInt8} {frame frame' : Frame} {outer : List Frame}
      {phase : Phase} (hstate : run front = .reading (frame :: outer) phase)
      (hphase : phase = frame.first ∨ phase = frame.later) (htext : NullText frame text frame')
      (hspace : isSpace b = false) (hclosing : b ≠ frame.closing) :
    NullWritten (front ++ b :: rest) (front ++ (text ++ 44 :: b :: rest))
  | behind {front rest text : List UInt8} {b : UInt8} {frame frame' : Frame} {outer : List Frame}
      (hwhole : Whole b (run front) (frame :: outer)) (htext : NullText frame text frame') :
    NullWritten (front ++ b :: rest) (front ++ (44 :: text ++ b :: rest))
  | alone {front rest text : List UInt8} {frame frame' : Frame} {outer : List Frame}
      (hempty : frame = .array [] ∨ frame = .object [])
      (hstate : run front = .reading (frame :: outer) frame.first)
      (htext : NullText frame text frame') :
    NullWritten (front ++ frame.closing :: rest) (front ++ (text ++ frame.closing :: rest))

section

variable {frame frame' : Frame} {text : List UInt8}

/-- With a null more a container holds the same but for nulls. -/
theorem NullText.agree (h : NullText frame text frame') : frame.Agree frame' := by
  cases h with
  | item items => exact .array rfl
  | member members h => exact .object rfl

/-- Where an item or member may stand, the text of a null can be read. -/
theorem NullText.foldl_step (h : NullText frame text frame') (outer : List Frame) {phase : Phase}
    (hphase : phase = frame.first ∨ phase = frame.later) :
    text.foldl (step false) (.reading (frame :: outer) phase)
      = .reading (frame' :: outer) .next := by
  cases h with
  | item items => rcases hphase with rfl | rfl <;> rfl
  | @member members spelled name h =>
    have hquote : step false (.reading (.object members :: outer) phase) 34
        = .reading (.object members :: outer) (.text true [] .outside) := by
      rcases hphase with rfl | rfl <;> rfl
    rw [List.cons_append, List.foldl_cons, hquote, List.foldl_append, h]
    rfl

/-- A comma after a value goes on to the next one, before the null as after
it. -/
theorem NullText.step_comma (h : NullText frame text frame') (outer : List Frame) :
    step false (.reading (frame :: outer) .next) 44 = .reading (frame :: outer) frame.later
      ∧ step false (.reading (frame' :: outer) .next) 44
        = .reading (frame' :: outer) frame.later := by
  cases h <;> exact ⟨rfl, rfl⟩

/-- The first byte of an item or member is read alike behind a bracket and
behind a comma. -/
theorem step_first_eq_later (frame : Frame) (outer : List Frame) {b : UInt8}
    (hspace : isSpace b = false) (hclosing : b ≠ frame.closing) :
    step false (.reading (frame :: outer) frame.first) b
      = step false (.reading (frame :: outer) frame.later) b := by
  cases frame with
  | array items =>
    have hne : b ≠ 93 := hclosing
    show stepToken false (.array items :: outer) .firstItem b
      = stepToken false (.array items :: outer) .value b
    simp only [stepToken, hspace, Bool.false_eq_true, if_false, if_neg hne]
  | object members =>
    have hne : b ≠ 125 := hclosing
    show stepToken false (.object members :: outer) .firstName b
      = stepToken false (.object members :: outer) .name b
    simp only [stepToken, hspace, Bool.false_eq_true, if_false, if_neg hne]
  | member members name => rfl

end

theorem Numeral.extend?_comma (n : Numeral) : n.extend? 44 = none := by
  unfold extend?
  have hdigit : digit? 44 = none := rfl
  rw [hdigit]
  cases n.part <;> rfl

/-- A byte that is no part of a number, after a number, is read as after any
other value. -/
theorem Whole.step {b c : UInt8} {s : State} {frames : List Frame} (h : Whole b s frames)
    (hc : c = 44 ∨ c = b) :
    Json.step false s c = Json.step false (.reading frames .next) c := by
  cases h with
  | next => rfl
  | @numeral inner frames n v hcomplete hvalue hb h =>
    have hextend : n.extend? c = none := by
      rcases hc with rfl | rfl
      · exact n.extend?_comma
      · exact hb
    simp only [Json.step, hextend, hcomplete, hvalue, h, if_true]

/-- After the text with a null more the reader is where it is after the text,
but for nulls. -/
theorem agree_run_of_nullWritten {bytes bytes' : List UInt8} (h : NullWritten bytes bytes') :
    (run bytes).Agree (run bytes') := by
  cases h with
  | @before front rest text b frame frame' outer phase hstate hphase htext hspace hclosing =>
    have hsame : Json.step false (run front) b
        = Json.step false (.reading (frame :: outer) frame.later) b := by
      rw [hstate]
      rcases hphase with rfl | rfl
      · exact step_first_eq_later frame outer hspace hclosing
      · rfl
    rw [run_append, run_append, List.foldl_append, List.foldl_cons, List.foldl_cons,
      List.foldl_cons, hsame, hstate, htext.foldl_step outer hphase, (htext.step_comma outer).2]
    exact agree_foldl_step (agree_step (.reading (.cons htext.agree (agree_refl_frames outer)) _) b)
      rest
  | @behind front rest text b frame frame' outer hwhole htext =>
    rw [run_append, run_append, List.foldl_cons, List.cons_append, List.foldl_cons,
      List.foldl_append, List.foldl_cons, hwhole.step (.inr rfl), hwhole.step (.inl rfl),
      (htext.step_comma outer).1, htext.foldl_step outer (.inr rfl)]
    exact agree_foldl_step (agree_step (.reading (.cons htext.agree (agree_refl_frames outer)) _) b)
      rest
  | @alone front rest text frame frame' outer hempty hstate htext =>
    rw [run_append, run_append, List.foldl_append, List.foldl_cons, List.foldl_cons, hstate,
      htext.foldl_step outer (.inl rfl)]
    refine agree_foldl_step ?_ rest
    -- the bracket closes a container without items or members, and one with a null
    have houter := agree_refl_frames outer
    cases htext with
    | item items =>
      rcases hempty with heq | heq <;> cases heq
      show (complete false outer (.array [])).Agree (complete false outer (.array [.null]))
      exact agree_complete houter rfl
    | @member members spelled name h =>
      rcases hempty with heq | heq <;> cases heq
      show (complete false outer (.object [])).Agree
        (complete false outer (.object [(name, .null)]))
      exact agree_complete houter rfl

/-- States that agree but for nulls end with values that do. -/
theorem finish_of_agree {s s' : State} (h : s.Agree s') {j : Json} (hj : finish s = .ok j) :
    ∃ j', finish s' = .ok j' ∧ j.erase = j'.erase := by
  cases h with
  | failed fault => cases hj
  | done hv =>
    cases hj
    exact ⟨_, rfl, hv⟩
  | reading hframes phase =>
    cases phase with
    | numeral n =>
      cases hframes with
      | nil => exact ⟨j, hj, rfl⟩
      | cons hframe houter =>
        -- inside a container no text ends with a number
        unfold finish at hj
        cases hcomplete : n.isComplete <;> cases hvalue : n.value? <;>
          simp [hcomplete, hvalue] at hj
    | _ => cases hj

/-- A text that can be read can be read with any number of nulls more, and
spells the same but for nulls. -/
theorem read_of_nullWritten {bytes bytes' : List UInt8}
    (h : Relation.ReflTransGen NullWritten bytes bytes') {j : Json}
    (hj : read false bytes = .ok j) : ∃ j', read false bytes' = .ok j' ∧ j.erase = j'.erase := by
  induction h with
  | refl => exact ⟨j, hj, rfl⟩
  | tail _ hstep ih =>
    obtain ⟨k, hk, herase⟩ := ih
    obtain ⟨j', hj', herase'⟩ := finish_of_agree (agree_run_of_nullWritten hstep) hk
    exact ⟨j', hj', herase.trans herase'⟩

end Json

-- ============================================================= documents

namespace Document

/-- Whether bytes are decoded to a document, and so is every text that has
them. -/
def IsDecoded (bytes : List UInt8) (d : Document) : Prop :=
  decode bytes = .ok d ∧ ∀ text : String, text.toUTF8.toList = bytes → decodeText text = .ok d

theorem isDecoded_of_decode {bytes : List UInt8} {d : Document} (h : decode bytes = .ok d) :
    IsDecoded bytes d := by
  refine ⟨h, ?_⟩
  intro text htext
  rw [decodeText, htext]
  exact h

/-- A text that spells an object is decoded, and nulls make no difference to
the document: neither where a text spells the object with any number of
nulls inserted, as items or under any names, at any places and depths; nor
where nulls are written into the text, which then still can be read. -/
theorem isDecoded_of_nulls {bytes : List UInt8} {members : List (String × Json)}
    (hread : Json.read false bytes = .ok (.object members)) :
    ∃ d, IsDecoded bytes d
      ∧ (∀ bytes' j', Relation.ReflTransGen Json.NullInserted (.object members) j'
        → Json.read false bytes' = .ok j' → IsDecoded bytes' d)
      ∧ ∀ bytes', Relation.ReflTransGen Json.NullWritten bytes bytes' → IsDecoded bytes' d := by
  have hdecode : ∀ {bytes' j'}, Json.read false bytes' = .ok j'
      → (Json.object members).erase = j'.erase
      → IsDecoded bytes' (Value.ofMembers members []) := by
    intro bytes' j' hread' herase
    refine isDecoded_of_decode ?_
    rw [decode, hread']
    exact (ofJson_congr herase).symm
  refine ⟨_, hdecode hread rfl, ?_, ?_⟩
  · intro bytes' j' hinserted hread'
    exact hdecode hread' (Json.erase_eq_of_reflTransGen hinserted)
  · intro bytes' hwritten
    obtain ⟨j', hread', herase⟩ := Json.read_of_nullWritten hwritten hread
    exact hdecode hread' herase

-- ------------------------------------------------------------- a document

/-- A null under a name that has a value, and a null behind a number. -/
theorem isDecoded_of_nulls_shadowing :
    -- {"a":[1]}
    let bytes : List UInt8 := [123, 34, 97, 34, 58, 91, 49, 93, 125]
    -- {"a":null,"a":[1,null]}
    let bytes' : List UInt8 := [123, 34, 97, 34, 58, 110, 117, 108, 108, 44, 34, 97, 34, 58, 91, 49,
      44, 110, 117, 108, 108, 93, 125]
    let members := [("a", Json.array [.integer 1])]
    let members' := [("a", Json.null), ("a", Json.array [.integer 1, .null])]
    Json.read false bytes = .ok (.object members)
      ∧ Json.read false bytes' = .ok (.object members')
      ∧ Relation.ReflTransGen Json.NullInserted (.object members) (.object members')
      ∧ Relation.ReflTransGen Json.NullWritten bytes bytes'
      ∧ IsDecoded bytes [("a", .array [.integer 1])]
      ∧ IsDecoded bytes' [("a", .array [.integer 1])] := by
  intro bytes bytes' members members'
  have hread : Json.read false bytes = .ok (.object members) := rfl
  have hread' : Json.read false bytes' = .ok (.object members') := rfl
  have hname : Json.SpellsName [97, 34] "a" := fun _ _ => rfl
  have hinserted : Relation.ReflTransGen Json.NullInserted (.object members) (.object members') :=
    .tail (.single (.member [] members "a"))
      (.inMember [("a", .null)] [] "a" (.item [.integer 1] []))
  have hwritten : Relation.ReflTransGen Json.NullWritten bytes bytes' := by
    have hfront : Json.run [123] = .reading [.object []] .firstName := rfl
    have hmember : Json.NullWritten bytes ([123] ++ ((34 :: [97, 34] ++ 58 :: Json.nullLetters)
        ++ 44 :: 34 :: [97, 34, 58, 91, 49, 93, 125])) :=
      .before hfront (.inl rfl) (.member [] hname) rfl (by decide)
    have hnumeral : Json.run [123, 34, 97, 34, 58, 110, 117, 108, 108, 44, 34, 97, 34, 58, 91, 49]
        = .reading [.array [], .member [("a", .null)] "a"]
          (.numeral ⟨false, 1, 0, false, false, 0, .whole⟩) := rfl
    have hwhole : Json.Whole 93 (.reading [.array [], .member [("a", .null)] "a"]
        (.numeral ⟨false, 1, 0, false, false, 0, .whole⟩))
        [.array [.integer 1], .member [("a", .null)] "a"] :=
      .numeral rfl rfl rfl rfl
    rw [← hnumeral] at hwhole
    exact .tail (.single hmember) (.behind hwhole (.item [.integer 1]))
  obtain ⟨d, hd, -, hall⟩ := isDecoded_of_nulls hread
  have hdecode : decode bytes = .ok [("a", .array [.integer 1])] := rfl
  obtain rfl : d = [("a", .array [.integer 1])] := Except.ok.inj (hd.1.symm.trans hdecode)
  exact ⟨hread, hread', hinserted, hwritten, hd, hall bytes' hwritten⟩

end Document

end ScopeRules
