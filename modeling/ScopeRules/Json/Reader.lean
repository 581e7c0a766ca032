/-
Reading JSON text, one byte at a time. The reader is a pushdown machine:
`step` takes a state and a byte, `read` folds it over the text, and
`finish` says what the end of the text means in the state reached. A fault
is a state of its own that no byte leaves, so the first thing wrong with a
text is what is reported, and whatever follows it is not looked at.

The grammar is the strict one: four white space bytes, no comments, no
signs or zeros in front of a number, every control byte in a string
escaped, surrogates only in pairs, containers at most `maxDepth` deep.

Two kinds of fault are told apart, `unfinished` where a longer text could
have been read and `malformed` where none could. The third, `bareNull`,
belongs to readers that accept no null as the whole document; it is
reported when the last letter is read, before anything after it counts.
-/
import ScopeRules.Json.Basic

namespace ScopeRules.Json

-- ============================================================== states

/-- Why a text cannot be read. -/
inductive Fault where
  /-- No continuation of what was read is a value. -/
  | malformed
  /-- The text ends inside a value. -/
  | unfinished
  /-- The whole document is null where that is not accepted. -/
  | bareNull
  deriving DecidableEq, Repr, Inhabited

/-- A container that is still open, with what it holds so far, last first. -/
inductive Frame where
  | array (items : List Json)
  | object (members : List (String × Json))
  /-- An object whose member `name` awaits its value. -/
  | member (members : List (String × Json)) (name : String)
  deriving Inhabited, Repr

/-- Where the reader is inside an escape sequence of a string. A `lead` is
the first half of a surrogate pair whose second half has to follow. -/
inductive Escape where
  | outside
  /-- After a backslash. -/
  | letter
  /-- Inside the four digits after `\u`; the bytes so far, last first. -/
  | digits (lead : Option Nat) (bytes : List UInt8)
  /-- After the first half of a pair: the backslash of the second. -/
  | pairSlash (lead : Nat)
  /-- After that backslash: the `u` of the second half. -/
  | pairLetter (lead : Nat)
  deriving DecidableEq, Repr, Inhabited

/-- The part of a number that was read last. -/
inductive NumeralPart where
  | sign | zero | whole | point | fraction | mark | exponentSign | exponent
  deriving DecidableEq, Repr, Inhabited

/-- A number as far as it was read, with `significand · 10^scale` for what
stands before the exponent. The significand is kept in a word; digits that it
has no room for are dropped, and `full` says that this has happened on this
side of the point. -/
structure Numeral where
  negative : Bool
  significand : Nat
  scale : Int
  full : Bool
  exponentNegative : Bool
  exponent : Nat
  part : NumeralPart
  deriving Repr, Inhabited

/-- What the reader expects next. -/
inductive Phase where
  | value
  /-- A value, or the end of the array just opened. -/
  | firstItem
  /-- A name, or the end of the object just opened. -/
  | firstName
  /-- A name, after a comma. -/
  | name
  | colon
  /-- What may follow a value: a comma or the end of the container, and
  at the outermost level only white space. -/
  | next
  /-- The rest of a word that means `meaning`. -/
  | word (rest : List UInt8) (meaning : Json)
  /-- The inside of a string, its bytes so far last first. -/
  | text (isName : Bool) (bytes : List UInt8) (escape : Escape)
  | numeral (numeral : Numeral)
  deriving Inhabited, Repr

/-- The reader between two bytes. `done` is a state in which the value of
the whole document is known. -/
inductive State where
  | reading (frames : List Frame) (phase : Phase)
  | done (value : Json)
  | failed (fault : Fault)
  deriving Inhabited, Repr

/-- Arrays and objects nest at most this deep. -/
def maxDepth : Nat := 127

-- ============================================================ numerals

/-- The integers that are kept as integers: a signed sixty-four bit word. -/
def isWord64 (n : Int) : Bool := -0x8000000000000000 ≤ n ∧ n < 0x8000000000000000

namespace Numeral

/-- Whether a number may end here. -/
def isComplete (n : Numeral) : Bool :=
  match n.part with
  | .zero | .whole | .fraction | .exponent => true
  | .sign | .point | .mark | .exponentSign => false

def digit? (b : UInt8) : Option Nat :=
  if 48 ≤ b ∧ b ≤ 57 then some (b.toNat - 48) else none

/-- The significand with one digit more, if there is room for it. Behind a
digit that was dropped there is none. -/
def push? (n : Numeral) (d : Nat) : Option Nat :=
  let longer := n.significand * 10 + d
  if !n.full ∧ longer < 0x10000000000000000 then some longer else none

/-- A digit in front of the point: if it is dropped, what was kept weighs
ten times as much. -/
def pushWhole (n : Numeral) (d : Nat) : Numeral :=
  match n.push? d with
  | some longer => { n with significand := longer }
  | none => { n with scale := n.scale + 1, full := true }

/-- A digit behind the point, which may be dropped without a trace. -/
def pushFraction (n : Numeral) (d : Nat) : Numeral :=
  match n.push? d with
  | some longer => { n with significand := longer, scale := n.scale - 1, part := .fraction }
  | none => { n with full := true, part := .fraction }

/-- The number with one byte more; `none` if the byte is no part of it. -/
def extend? (n : Numeral) (b : UInt8) : Option Numeral :=
  match n.part, digit? b with
  | .sign, some 0 => some { n with part := .zero }
  | .sign, some d => some { n with significand := d, part := .whole }
  | .whole, some d => some (n.pushWhole d)
  | .point, some d | .fraction, some d => some (n.pushFraction d)
  | .mark, some d | .exponentSign, some d | .exponent, some d =>
    some { n with exponent := n.exponent * 10 + d, part := .exponent }
  | .zero, none | .whole, none =>
    if b = 46 then some { n with full := false, part := .point }
    else if b = 69 ∨ b = 101 then some { n with part := .mark }
    else none
  | .fraction, none => if b = 69 ∨ b = 101 then some { n with part := .mark } else none
  | .mark, none =>
    if b = 43 then some { n with part := .exponentSign }
    else if b = 45 then some { n with exponentNegative := true, part := .exponentSign }
    else none
  | _, _ => none

/-- The number, if it is finite. A literal of digits alone is an integer
when a signed word holds it; minus zero is no integer. Exponents are added
up exactly, however long they are: far out there is only zero, or nothing. -/
def value? (n : Numeral) : Option Json :=
  let exponent : Int := if n.exponentNegative then -(n.exponent : Int) else n.exponent
  let real := (Binary64.ofDecimal n.negative n.significand (n.scale + exponent)).map Json.real
  match n.part with
  | .zero => if n.negative then real else some (.integer 0)
  | .whole =>
    let whole : Int := if n.negative then -(n.significand : Int) else n.significand
    if !n.full ∧ isWord64 whole then some (.integer whole) else real
  | _ => real

end Numeral

-- ============================================================= strings

def hexDigit? (b : UInt8) : Option Nat :=
  if 48 ≤ b ∧ b ≤ 57 then some (b.toNat - 48)
  else if 65 ≤ b ∧ b ≤ 70 then some (b.toNat - 55)
  else if 97 ≤ b ∧ b ≤ 102 then some (b.toNat - 87)
  else none

/-- The number that hexadecimal digits spell, given last first. -/
def hexValue? : List UInt8 → Option Nat
  | [] => some 0
  | b :: front => do
    let high ← hexValue? front
    let low ← hexDigit? b
    return high * 16 + low

/-- The byte that a one-letter escape stands for. -/
def escapedByte? (letter : UInt8) : Option UInt8 :=
  if letter = 34 then some 34        -- quotation mark
  else if letter = 92 then some 92   -- backslash
  else if letter = 47 then some 47   -- slash
  else if letter = 98 then some 8    -- b
  else if letter = 102 then some 12  -- f
  else if letter = 110 then some 10  -- n
  else if letter = 114 then some 13  -- r
  else if letter = 116 then some 9   -- t
  else none

/-- Whether a code unit is the first half of a surrogate pair. -/
def isLead (unit : Nat) : Bool := 0xd800 ≤ unit ∧ unit ≤ 0xdbff

/-- Whether a code unit is the second half of a surrogate pair. -/
def isTrail (unit : Nat) : Bool := 0xdc00 ≤ unit ∧ unit ≤ 0xdfff

/-- The code point that a surrogate pair stands for. -/
def pairValue (lead trail : Nat) : Nat := 0x10000 + (lead - 0xd800) * 0x400 + (trail - 0xdc00)

/-- Puts the bytes of a code point in front of bytes kept last first. -/
def pushCodePoint (code : Nat) (bytes : List UInt8) : List UInt8 :=
  (String.utf8EncodeChar (Char.ofNat code)).reverse ++ bytes

-- ======================================================= values, frames

/-- White space between tokens: space, tab, line feed, carriage return. -/
def isSpace (b : UInt8) : Bool := b = 32 ∨ b = 9 ∨ b = 10 ∨ b = 13

/-- The state after a value is complete inside the open `frames`. -/
def complete (nullAllowed : Bool) (frames : List Frame) (v : Json) : State :=
  match frames with
  | [] =>
    match v, nullAllowed with
    | .null, false => .failed .bareNull
    | v, _ => .done v
  | .array items :: outer => .reading (.array (v :: items) :: outer) .next
  | .member members name :: outer => .reading (.object ((name, v) :: members) :: outer) .next
  | .object _ :: _ => .failed .malformed

/-- Opens a container, if there is depth left. -/
def openFrame (frames : List Frame) (frame : Frame) (phase : Phase) : State :=
  if frames.length < maxDepth then .reading (frame :: frames) phase else .failed .malformed

/-- The first byte of a value. -/
def startValue (frames : List Frame) (b : UInt8) : State :=
  if b = 123 then openFrame frames (.object []) .firstName
  else if b = 91 then openFrame frames (.array []) .firstItem
  else if b = 34 then .reading frames (.text false [] .outside)
  else if b = 116 then .reading frames (.word [114, 117, 101] (.bool true))
  else if b = 102 then .reading frames (.word [97, 108, 115, 101] (.bool false))
  else if b = 110 then .reading frames (.word [117, 108, 108] .null)
  else if b = 45 then .reading frames (.numeral ⟨true, 0, 0, false, false, 0, .sign⟩)
  else
    match (⟨false, 0, 0, false, false, 0, .sign⟩ : Numeral).extend? b with
    | some n => .reading frames (.numeral n)
    | none => .failed .malformed

/-- The byte after a value and its white space. -/
def stepNext (nullAllowed : Bool) (frames : List Frame) (b : UInt8) : State :=
  match frames with
  | .array items :: outer =>
    if b = 44 then .reading frames .value
    else if b = 93 then complete nullAllowed outer (.array items.reverse)
    else .failed .malformed
  | .object members :: outer =>
    if b = 44 then .reading frames .name
    else if b = 125 then complete nullAllowed outer (.object members.reverse)
    else .failed .malformed
  | _ => .failed .malformed

/-- The end of a string: a name awaits its colon, and a value is complete.
Bytes that are no text are found out here. -/
def closeText (nullAllowed : Bool) (frames : List Frame) (isName : Bool) (bytes : List UInt8) :
    State :=
  match String.fromUTF8? ⟨bytes.reverse.toArray⟩ with
  | none => .failed .malformed
  | some s =>
    if isName then
      match frames with
      | .object members :: outer => .reading (.member members s :: outer) .colon
      | _ => .failed .malformed
    else complete nullAllowed frames (.string s)

/-- The end of the four digits of an escape, given last first. -/
def closeDigits (frames : List Frame) (isName : Bool) (bytes : List UInt8) (lead : Option Nat)
    (digits : List UInt8) : State :=
  match hexValue? digits, lead with
  | none, _ => .failed .malformed
  | some unit, none =>
    if isTrail unit then .failed .malformed
    else if isLead unit then .reading frames (.text isName bytes (.pairSlash unit))
    else .reading frames (.text isName (pushCodePoint unit bytes) .outside)
  | some unit, some first =>
    if isTrail unit then
      .reading frames (.text isName (pushCodePoint (pairValue first unit) bytes) .outside)
    else .failed .malformed

/-- A byte inside a string. -/
def stepText (nullAllowed : Bool) (frames : List Frame) (isName : Bool) (bytes : List UInt8)
    (escape : Escape) (b : UInt8) : State :=
  match escape with
  | .outside =>
    if b = 34 then closeText nullAllowed frames isName bytes
    else if b = 92 then .reading frames (.text isName bytes .letter)
    else if b < 32 then .failed .malformed
    else .reading frames (.text isName (b :: bytes) .outside)
  | .letter =>
    if b = 117 then .reading frames (.text isName bytes (.digits none []))
    else
      match escapedByte? b with
      | some c => .reading frames (.text isName (c :: bytes) .outside)
      | none => .failed .malformed
  | .digits lead read =>
    if read.length < 3 then .reading frames (.text isName bytes (.digits lead (b :: read)))
    else closeDigits frames isName bytes lead (b :: read)
  | .pairSlash lead =>
    if b = 92 then .reading frames (.text isName bytes (.pairLetter lead)) else .failed .malformed
  | .pairLetter lead =>
    if b = 117 then .reading frames (.text isName bytes (.digits (some lead) []))
    else .failed .malformed

-- ============================================================= the machine

/-- A byte where white space may stand. -/
def stepToken (nullAllowed : Bool) (frames : List Frame) (phase : Phase) (b : UInt8) : State :=
  if isSpace b then .reading frames phase
  else
    match phase, frames with
    | .firstItem, .array items :: outer =>
      if b = 93 then complete nullAllowed outer (.array items) else startValue frames b
    | .firstName, .object members :: outer =>
      if b = 125 then complete nullAllowed outer (.object members)
      else if b = 34 then .reading frames (.text true [] .outside)
      else .failed .malformed
    | .name, _ => if b = 34 then .reading frames (.text true [] .outside) else .failed .malformed
    | .colon, _ => if b = 58 then .reading frames .value else .failed .malformed
    | .next, _ => stepNext nullAllowed frames b
    | .value, _ => startValue frames b
    | _, _ => .failed .malformed

/-- One byte read. A number ends at the first byte that is no part of it,
and that byte is then read in the state after the number. -/
def step (nullAllowed : Bool) (state : State) (b : UInt8) : State :=
  match state with
  | .failed fault => .failed fault
  | .done v => if isSpace b then .done v else .failed .malformed
  | .reading frames (.word rest meaning) =>
    match rest with
    | [] => .failed .malformed
    | c :: more =>
      if b = c then
        if more.isEmpty then complete nullAllowed frames meaning
        else .reading frames (.word more meaning)
      else .failed .malformed
  | .reading frames (.text isName bytes escape) => stepText nullAllowed frames isName bytes escape b
  | .reading frames (.numeral n) =>
    match n.extend? b with
    | some longer => .reading frames (.numeral longer)
    | none =>
      if n.isComplete then
        match n.value? with
        | none => .failed .malformed
        | some v =>
          match complete nullAllowed frames v with
          | .done v => if isSpace b then .done v else .failed .malformed
          | .reading frames phase => stepToken nullAllowed frames phase b
          | .failed fault => .failed fault
      else .failed .malformed
  | .reading frames phase => stepToken nullAllowed frames phase b

/-- The reader before the first byte. -/
def start : State := .reading [] .value

/-- The end of the text. Only a number at the outermost level can end with
it; a number that is no finite value is wrong before it is unfinished. -/
def finish : State → Except Fault Json
  | .done v => .ok v
  | .failed fault => .error fault
  | .reading frames (.numeral n) =>
    if n.isComplete then
      match n.value?, frames with
      | none, _ => .error .malformed
      | some v, [] => .ok v
      | some _, _ :: _ => .error .unfinished
    else .error .unfinished
  | .reading _ _ => .error .unfinished

/-- The value that a text spells. -/
def read (nullAllowed : Bool) (bytes : List UInt8) : Except Fault Json :=
  finish (bytes.foldl (step nullAllowed) start)

end ScopeRules.Json
