/-
What a text spells, said without the reader: where white space may stand, how
numbers and strings are written, what is listed between brackets with commas
between, and how deep it is nested. Then the reader is held to it. Every text
that spells a value is read as that value (`read_of_spells`), so whoever
knows how a text was put together need not run the reader over it.

# Nesting

`Nested` builds the texts of containers from the texts of what they hold, and
`Spells` applies it as often as containers may stand in one another. Every
lemma on containers is about any such texts that the reader can deal with
(`Readable`), and the induction is on the depth alone.

# The digits of a number

A significand has room for the digits that fit in a word. How many these are
is said by the word alone (`Cut`), and not by the way the reader finds out.

# The end of a number

Only the byte behind a number tells that it is over. What stands behind a
value, be it white space, a comma or a bracket, is read as if the value had
been complete before it (`After.step`).
-/
import ScopeRules.Proofs.Nulls
import ScopeRules.Proofs.Suffixes

namespace ScopeRules.Json

-- ================================================ statement vocabulary

/-- White space, or nothing. -/
def Blank (bytes : List UInt8) : Prop := ∀ b ∈ bytes, isSpace b = true

def IsDigit (b : UInt8) : Prop := 48 ≤ b ∧ b ≤ 57

/-- Decimal digits, at least one. -/
def Digits (bytes : List UInt8) : Prop := bytes ≠ [] ∧ ∀ b ∈ bytes, IsDigit b

/-- The number that decimal digits spell, behind those of the number `front`. -/
def decimal (front : Nat) (digits : List UInt8) : Nat :=
  digits.foldl (fun n b => n * 10 + (b.toNat - 48)) front

/-- The sign in front of a number. -/
def minus (negative : Bool) : List UInt8 := if negative then [45] else []

/-- Where digits behind those of the number `front` are cut off: a word holds
what they spell up to there, and does not with one digit more. -/
structure Cut (front : Nat) (kept dropped : List UInt8) : Prop where
  fits : decimal front kept < 2 ^ 64
  full : ∀ b rest, dropped = b :: rest → 2 ^ 64 ≤ decimal front (kept ++ [b])

/-- A number: digits, of which the first of several is no zero, then a point
with more digits, or none, and then a mark with an exponent, or none. Digits
that a word has no room for are dropped. In front of the point each of them
still counts as a power of ten. -/
inductive Number : List UInt8 → Numeral → Prop where
  | zero (negative : Bool) :
    Number (minus negative ++ [48]) ⟨negative, 0, 0, false, false, 0, .zero⟩
  | whole (negative : Bool) {kept dropped : List UInt8} (h : Digits (kept ++ dropped))
      (hfirst : (kept ++ dropped).head? ≠ some 48) (hcut : Cut 0 kept dropped) :
    Number (minus negative ++ (kept ++ dropped))
      ⟨negative, decimal 0 kept, dropped.length, !dropped.isEmpty, false, 0, .whole⟩
  | fraction {front kept dropped : List UInt8} {n : Numeral} (h : Number front n)
      (hpart : n.part = .zero ∨ n.part = .whole) (hdigits : Digits (kept ++ dropped))
      (hcut : Cut n.significand kept dropped) :
    Number (front ++ 46 :: (kept ++ dropped))
      { n with
        significand := decimal n.significand kept
        scale := n.scale - kept.length
        full := !dropped.isEmpty
        part := .fraction }
  | exponent {front sign digits : List UInt8} {mark : UInt8} {n : Numeral} (h : Number front n)
      (hpart : n.part ≠ .exponent) (hmark : mark = 69 ∨ mark = 101)
      (hsign : sign = [] ∨ sign = [43] ∨ sign = [45]) (hdigits : Digits digits) :
    Number (front ++ mark :: (sign ++ digits))
      { n with exponentNegative := sign = [45], exponent := decimal 0 digits, part := .exponent }

/-- Four hexadecimal digits, and the code unit that they spell. -/
def SpellsUnit (digits : List UInt8) (unit : Nat) : Prop :=
  digits.length = 4 ∧ hexValue? digits.reverse = some unit

/-- A byte of a string or an escape sequence, and the bytes that are meant. -/
inductive Letter : List UInt8 → List UInt8 → Prop where
  | plain {b : UInt8} (hquote : b ≠ 34) (hslash : b ≠ 92) (hcontrol : ¬ b < 32) : Letter [b] [b]
  | escaped {letter b : UInt8} (h : escapedByte? letter = some b) : Letter [92, letter] [b]
  | unit {digits : List UInt8} {unit : Nat} (h : SpellsUnit digits unit)
      (hlead : isLead unit = false) (htrail : isTrail unit = false) :
    Letter (92 :: 117 :: digits) (String.utf8EncodeChar (Char.ofNat unit))
  | pair {first second : List UInt8} {lead trail : Nat} (hfirst : SpellsUnit first lead)
      (hlead : isLead lead = true) (hsecond : SpellsUnit second trail)
      (htrail : isTrail trail = true) :
    Letter (92 :: 117 :: (first ++ 92 :: 117 :: second))
      (String.utf8EncodeChar (Char.ofNat (pairValue lead trail)))

/-- What stands between quotation marks, and the bytes that are meant. -/
inductive Letters : List UInt8 → List UInt8 → Prop where
  | nil : Letters [] []
  | cons {letter bytes spelled meant : List UInt8} (h : Letter letter bytes)
      (hrest : Letters spelled meant) : Letters (letter ++ spelled) (bytes ++ meant)

/-- A text in quotation marks. -/
inductive Quoted : List UInt8 → String → Prop where
  | intro {letters : List UInt8} {s : String} (h : Letters letters (Text.bytes s)) :
    Quoted (34 :: (letters ++ [34])) s

/-- A value that holds no others. -/
inductive Scalar : List UInt8 → Json → Prop where
  | null : Scalar nullLetters .null
  | true : Scalar [116, 114, 117, 101] (.bool true)
  | false : Scalar [102, 97, 108, 115, 101] (.bool false)
  | number {text : List UInt8} {n : Numeral} {v : Json} (h : Number text n)
      (hvalue : n.value? = some v) : Scalar text v
  | string {text : List UInt8} {s : String} (h : Quoted text s) : Scalar text (.string s)

section

variable {α : Type}

/-- Something with white space around it. -/
inductive Spaced (spells : List UInt8 → α → Prop) : List UInt8 → α → Prop where
  | intro {before text after : List UInt8} {a : α} (hbefore : Blank before) (h : spells text a)
      (hafter : Blank after) : Spaced spells (before ++ (text ++ after)) a

/-- Some things, at least one, with commas between. -/
inductive Listed (spells : List UInt8 → α → Prop) : List UInt8 → List α → Prop where
  | one {text : List UInt8} {a : α} (h : spells text a) : Listed spells text [a]
  | more {text rest : List UInt8} {a : α} {others : List α} (h : spells text a)
      (hrest : Listed spells rest others) : Listed spells (text ++ 44 :: rest) (a :: others)

end

section

variable (spells : List UInt8 → Json → Prop)

/-- A name, a colon and a value. -/
inductive Member : List UInt8 → String × Json → Prop where
  | intro {name text : List UInt8} {s : String} {j : Json} (hname : Spaced Quoted name s)
      (h : Spaced spells text j) : Member (name ++ 58 :: text) (s, j)

/-- A value, or a container of values. -/
inductive Nested : List UInt8 → Json → Prop where
  | scalar {text : List UInt8} {j : Json} (h : Scalar text j) : Nested text j
  | noItems {blank : List UInt8} (h : Blank blank) : Nested (91 :: (blank ++ [93])) (.array [])
  | items {text : List UInt8} {items : List Json} (h : Listed (Spaced spells) text items) :
    Nested (91 :: (text ++ [93])) (.array items)
  | noMembers {blank : List UInt8} (h : Blank blank) :
    Nested (123 :: (blank ++ [125])) (.object [])
  | members {text : List UInt8} {members : List (String × Json)}
      (h : Listed (Member spells) text members) : Nested (123 :: (text ++ [125])) (.object members)

end

/-- What a text spells, with containers nested at most `depth` deep. -/
def Spells : Nat → List UInt8 → Json → Prop
  | 0 => Scalar
  | depth + 1 => Nested (Spells depth)

/-- Whether a whole text spells an object with these members, in this order. -/
def Lists (bytes : List UInt8) (members : List (String × Json)) : Prop :=
  Spaced (Spells maxDepth) bytes (.object members)

-- ========================================================= white space

/-- Where a token may begin, white space changes nothing. -/
theorem foldl_blank {frames : List Frame} {phase : Phase} {blank : List UInt8} (h : Blank blank)
    (hphase : ∀ b, step false (.reading frames phase) b = stepToken false frames phase b) :
    blank.foldl (step false) (.reading frames phase) = .reading frames phase := by
  induction blank with
  | nil => rfl
  | cons b rest ih =>
    obtain ⟨hb, hrest⟩ := List.forall_mem_cons.1 h
    have hstep : step false (.reading frames phase) b = .reading frames phase :=
      (hphase b).trans (if_pos hb)
    rw [List.foldl_cons, hstep, ih hrest]

/-- A complete value is followed by a token, or by nothing. -/
theorem step_complete_space (frames : List Frame) (j : Json) {b : UInt8} (hb : isSpace b = true) :
    step false (complete false frames j) b = complete false frames j := by
  cases frames with
  | nil => cases j <;> first | rfl | exact if_pos hb
  | cons frame outer => cases frame <;> first | rfl | exact if_pos hb

-- =========================================================== after a value

/-- The states after the text of a value: the value is complete, or a number
that the next byte ends. -/
inductive After (frames : List Frame) (j : Json) : State → Prop where
  | whole : After frames j (complete false frames j)
  | numeral {n : Numeral} (hcomplete : n.isComplete = true) (hvalue : n.value? = some j) :
    After frames j (.reading frames (.numeral n))

/-- The bytes that can stand behind a value. -/
def Ends (b : UInt8) : Prop := isSpace b = true ∨ b = 44 ∨ b = 93 ∨ b = 125

theorem Numeral.extend?_of_ends (n : Numeral) {b : UInt8} (hb : Ends b) : n.extend? b = none := by
  simp only [Ends, isSpace, decide_eq_true_eq] at hb
  rcases hb with (rfl | rfl | rfl | rfl) | rfl | rfl | rfl <;>
  · unfold extend?
    cases n.part <;> rfl

section

variable {frames : List Frame} {j : Json} {s : State}

/-- What stands behind a value is read as if the value was complete. -/
theorem After.step (h : After frames j s) {b : UInt8} (hb : Ends b) :
    Json.step false s b = Json.step false (complete false frames j) b := by
  cases h with
  | whole => rfl
  | @numeral n hcomplete hvalue =>
    simp only [Json.step, n.extend?_of_ends hb, hcomplete, hvalue, if_true]
    cases frames with
    | nil => cases j <;> rfl
    | cons frame outer => cases frame <;> rfl

theorem After.foldl_blank (h : After frames j s) {blank : List UInt8} (hblank : Blank blank) :
    After frames j (blank.foldl (Json.step false) s) := by
  induction blank generalizing s with
  | nil => exact h
  | cons b rest ih =>
    obtain ⟨hb, hrest⟩ := List.forall_mem_cons.1 hblank
    rw [List.foldl_cons, h.step (.inl hb), step_complete_space frames j hb]
    exact ih .whole hrest

/-- The text ends behind a value that stands alone. -/
theorem After.finish (h : After [] j s) (hj : j.isNull = false) : finish s = .ok j := by
  cases h with
  | whole =>
    cases j with
    | null => cases hj
    | _ => rfl
  | numeral hcomplete hvalue => simp only [Json.finish, hcomplete, hvalue, if_true]

end

-- ============================================================= numbers

section

variable {frames : List Frame} {n : Numeral} {b : UInt8} {digits : List UInt8}

theorem step_numeral {m : Numeral} (h : n.extend? b = some m) :
    step false (.reading frames (.numeral n)) b = .reading frames (.numeral m) := by
  simp only [step, h]

theorem Numeral.digit?_eq (h : IsDigit b) : digit? b = some (b.toNat - 48) := if_pos h

theorem decimal_append_singleton (front : Nat) (digits : List UInt8) (b : UInt8) :
    decimal front (digits ++ [b]) = decimal front digits * 10 + (b.toNat - 48) := by
  rw [decimal, List.foldl_append]
  rfl

theorem decimal_le_append (front : Nat) (digits more : List UInt8) :
    decimal front digits ≤ decimal front (digits ++ more) := by
  induction more using List.reverseRecOn with
  | nil => rw [List.append_nil]
  | append_singleton more b ih =>
    rw [← List.append_assoc, decimal_append_singleton]
    omega

/-- Digits go on a number as each of them does. -/
theorem foldl_digits (numeral : List UInt8 → Numeral)
    (hmore : ∀ read b rest, digits = read ++ b :: rest
      → (numeral read).extend? b = some (numeral (read ++ [b]))) :
    digits.foldl (step false) (.reading frames (.numeral (numeral [])))
      = .reading frames (.numeral (numeral digits)) := by
  induction digits using List.reverseRecOn with
  | nil => rfl
  | append_singleton front b ih =>
    have hfront := ih fun read c rest h => hmore read c (rest ++ [b]) (by simp [h])
    rw [List.foldl_append, hfront]
    exact step_numeral (hmore front b [] rfl)

theorem Numeral.push?_eq_some {d longer : Nat} (hfull : n.full = false)
    (hlonger : longer = n.significand * 10 + d) (h : longer < 2 ^ 64) :
    n.push? d = some longer := by
  subst hlonger
  exact if_pos ⟨by rw [hfull]; rfl, h⟩

theorem Numeral.push?_eq_none {d : Nat} (h : n.full = false → 2 ^ 64 ≤ n.significand * 10 + d) :
    n.push? d = none := by
  refine if_neg ?_
  rintro ⟨hfull, hlt⟩
  have hle := h (by simpa using hfull)
  omega

/-- Digits go on a number while there is room, and are dropped from there on. -/
theorem foldl_cut {front : Nat} {kept dropped : List UInt8}
    (numeral : List UInt8 → List UInt8 → Numeral) (hcut : Cut front kept dropped)
    (hdigits : ∀ b ∈ kept ++ dropped, IsDigit b)
    (hsignificand : ∀ read more, (numeral read more).significand = decimal front read)
    (hfull : ∀ read more, (numeral read more).full = !more.isEmpty)
    (hkeep : ∀ read b, IsDigit b
      → (numeral read []).push? (b.toNat - 48) = some (decimal front (read ++ [b]))
      → (numeral read []).extend? b = some (numeral (read ++ [b]) []))
    (hdrop : ∀ more b, IsDigit b → (numeral kept more).push? (b.toNat - 48) = none
      → (numeral kept more).extend? b = some (numeral kept (more ++ [b]))) :
    (kept ++ dropped).foldl (step false) (.reading frames (.numeral (numeral [] [])))
      = .reading frames (.numeral (numeral kept dropped)) := by
  have hlonger : ∀ read more b, decimal front (read ++ [b])
      = (numeral read more).significand * 10 + (b.toNat - 48) := by
    intro read more b
    rw [hsignificand, decimal_append_singleton]
  have hkept : kept.foldl (step false) (.reading frames (.numeral (numeral [] [])))
      = .reading frames (.numeral (numeral kept [])) := by
    refine foldl_digits (numeral · []) ?_
    rintro read b rest rfl
    have hle : decimal front (read ++ [b]) ≤ decimal front (read ++ b :: rest) :=
      List.append_cons read b rest ▸ decimal_le_append front (read ++ [b]) rest
    refine hkeep read b (hdigits b (by simp)) ?_
    exact Numeral.push?_eq_some (hfull read []) (hlonger read [] b)
      (Nat.lt_of_le_of_lt hle hcut.fits)
  rw [List.foldl_append, hkept]
  refine foldl_digits (numeral kept) ?_
  rintro more b rest rfl
  refine hdrop more b (hdigits b (by simp)) (Numeral.push?_eq_none fun hroom => ?_)
  -- with room left nothing was dropped yet, and this digit is the first
  obtain rfl : more = [] := by simpa [hfull] using hroom
  exact hlonger kept [] b ▸ hcut.full b rest rfl

theorem Numeral.extend?_whole (hpart : n.part = .whole) (hb : IsDigit b) :
    n.extend? b = some (n.pushWhole (b.toNat - 48)) := by
  simp only [extend?, hpart, digit?_eq hb]

theorem Numeral.extend?_fraction (hpart : n.part = .point ∨ n.part = .fraction) (hb : IsDigit b) :
    n.extend? b = some (n.pushFraction (b.toNat - 48)) := by
  rcases hpart with hpart | hpart <;> simp only [extend?, hpart, digit?_eq hb]

/-- The first of several digits, which is no zero, is read like those behind
it. -/
theorem Numeral.extend?_sign (negative : Bool) (hb : IsDigit b) (hne : b ≠ 48) :
    (⟨negative, 0, 0, false, false, 0, .sign⟩ : Numeral).extend? b
      = (⟨negative, 0, 0, false, false, 0, .whole⟩ : Numeral).extend? b := by
  have hpos : b.toNat - 48 ≠ 0 := by
    have hlow : 48 ≤ b.toNat := UInt8.le_iff_toNat_le.1 hb.1
    have hdiffer : b.toNat ≠ 48 := fun h => hne (UInt8.toNat_inj.1 h)
    omega
  have hpush : (⟨negative, 0, 0, false, false, 0, .whole⟩ : Numeral).push? (b.toNat - 48)
      = some (b.toNat - 48) :=
    push?_eq_some rfl (Nat.zero_add _).symm (by have := b.toNat_lt; omega)
  rw [extend?_whole (n := ⟨negative, 0, 0, false, false, 0, .whole⟩) rfl hb, pushWhole, hpush]
  obtain ⟨d, hd⟩ := Nat.exists_eq_succ_of_ne_zero hpos
  simp only [extend?, digit?_eq hb, hd]

theorem ne_of_digit (hb : IsDigit b) (c : UInt8) (hc : c < 48 ∨ 57 < c) : b ≠ c := by
  rintro rfl
  exact hc.elim (UInt8.not_lt.2 hb.1) (UInt8.not_lt.2 hb.2)

theorem isSpace_digit (hb : IsDigit b) : isSpace b = false := by
  have hne := ne_of_digit hb
  simp only [isSpace, hne 32 (by decide), hne 9 (by decide), hne 10 (by decide),
    hne 13 (by decide), or_self, decide_false]

/-- No digit begins anything but a number. -/
theorem step_digit (hb : IsDigit b) {m : Numeral}
    (h : (⟨false, 0, 0, false, false, 0, .sign⟩ : Numeral).extend? b = some m) :
    step false (.reading frames .value) b = .reading frames (.numeral m) := by
  have hne := ne_of_digit hb
  simp only [step, stepToken, isSpace_digit hb, startValue, h, Bool.false_eq_true, if_false,
    hne 123 (by decide), hne 91 (by decide), hne 34 (by decide), hne 116 (by decide),
    hne 102 (by decide), hne 110 (by decide), hne 45 (by decide)]

theorem Digits.exists_cons (h : Digits digits) :
    ∃ b rest, digits = b :: rest ∧ IsDigit b ∧ ∀ c ∈ rest, IsDigit c := by
  obtain ⟨b, rest, rfl⟩ := List.exists_cons_of_ne_nil h.1
  exact ⟨b, rest, rfl, List.forall_mem_cons.1 h.2⟩

theorem foldl_wholeDigits (negative : Bool) {kept dropped : List UInt8}
    (h : Digits (kept ++ dropped)) (hfirst : (kept ++ dropped).head? ≠ some 48)
    (hcut : Cut 0 kept dropped) :
    (minus negative ++ (kept ++ dropped)).foldl (step false) (.reading frames .value)
      = .reading frames (.numeral
        ⟨negative, decimal 0 kept, dropped.length, !dropped.isEmpty, false, 0, .whole⟩) := by
  let numeral (kept dropped : List UInt8) : Numeral :=
    ⟨negative, decimal 0 kept, dropped.length, !dropped.isEmpty, false, 0, .whole⟩
  have hstart : (minus negative ++ (kept ++ dropped)).foldl (step false) (.reading frames .value)
      = (kept ++ dropped).foldl (step false) (.reading frames (.numeral (numeral [] []))) := by
    obtain ⟨b, rest, hcons, hb, -⟩ := h.exists_cons
    rw [hcons] at hfirst ⊢
    have hne : b ≠ 48 := fun hb => hfirst (congrArg some hb)
    have hwhole : (numeral [] []).extend? b = some _ := Numeral.extend?_whole rfl hb
    have hsign := (Numeral.extend?_sign negative hb hne).trans hwhole
    rw [List.foldl_cons, step_numeral hwhole]
    cases negative with
    | false => exact congrArg (rest.foldl (step false)) (step_digit hb hsign)
    | true => exact congrArg (rest.foldl (step false)) (step_numeral hsign)
  rw [hstart]
  refine foldl_cut numeral hcut h.2 (fun _ _ => rfl) (fun _ _ => rfl) ?_ ?_
  · intro read b hb hpush
    rw [Numeral.extend?_whole rfl hb, Numeral.pushWhole, hpush]
  · intro more b hb hpush
    rw [Numeral.extend?_whole rfl hb, Numeral.pushWhole, hpush]
    simp [numeral]

theorem foldl_fraction {kept dropped : List UInt8} (hpart : n.part = .zero ∨ n.part = .whole)
    (h : Digits (kept ++ dropped)) (hcut : Cut n.significand kept dropped) :
    (46 :: (kept ++ dropped)).foldl (step false) (.reading frames (.numeral n))
      = .reading frames (.numeral { n with
          significand := decimal n.significand kept
          scale := n.scale - kept.length
          full := !dropped.isEmpty
          part := .fraction }) := by
  let numeral (kept dropped : List UInt8) : Numeral :=
    { n with
      significand := decimal n.significand kept
      scale := n.scale - kept.length
      full := !dropped.isEmpty
      part := .fraction }
  have hpoint : n.extend? 46 = some { n with full := false, part := .point } := by
    rcases hpart with hpart | hpart <;> simp [Numeral.extend?, Numeral.digit?, hpart]
  have hstart : (46 :: (kept ++ dropped)).foldl (step false) (.reading frames (.numeral n))
      = (kept ++ dropped).foldl (step false) (.reading frames (.numeral (numeral [] []))) := by
    obtain ⟨b, rest, hcons, hb, -⟩ := h.exists_cons
    have hnone : numeral [] [] = { n with full := false, part := .fraction } := by
      simp [numeral, decimal]
    rw [hnone, hcons, List.foldl_cons, step_numeral hpoint, List.foldl_cons, List.foldl_cons,
      step_numeral (Numeral.extend?_fraction (.inl rfl) hb),
      step_numeral (Numeral.extend?_fraction (.inr rfl) hb)]
    rfl
  rw [hstart]
  refine foldl_cut numeral hcut h.2 (fun _ _ => rfl) (fun _ _ => rfl) ?_ ?_
  · intro read b hb hpush
    rw [Numeral.extend?_fraction (.inr rfl) hb, Numeral.pushFraction, hpush]
    simp [numeral, Int.sub_sub]
  · intro more b hb hpush
    rw [Numeral.extend?_fraction (.inr rfl) hb, Numeral.pushFraction, hpush]
    simp [numeral]

theorem foldl_exponent {sign : List UInt8} {mark : UInt8} (hcomplete : n.isComplete = true)
    (hpart : n.part ≠ .exponent) (hexponent : n.exponent = 0)
    (hnegative : n.exponentNegative = false) (hmark : mark = 69 ∨ mark = 101)
    (hsign : sign = [] ∨ sign = [43] ∨ sign = [45]) (h : Digits digits) :
    (mark :: (sign ++ digits)).foldl (step false) (.reading frames (.numeral n))
      = .reading frames (.numeral { n with
          exponentNegative := sign = [45], exponent := decimal 0 digits, part := .exponent }) := by
  obtain ⟨b, rest, rfl, hb, hrest⟩ := h.exists_cons
  have hextend : n.extend? mark = some { n with part := .mark } := by
    rcases hmark with rfl | rfl <;> cases hn : n.part <;>
      simp_all [Numeral.extend?, Numeral.digit?, Numeral.isComplete]
  have hdigit : (sign ++ [b]).foldl (step false)
        (.reading frames (.numeral { n with part := .mark }))
      = .reading frames (.numeral { n with
          exponentNegative := sign = [45], exponent := decimal 0 [b], part := .exponent }) := by
    have hplus : Numeral.digit? 43 = none := rfl
    have hminus : Numeral.digit? 45 = none := rfl
    rcases hsign with rfl | rfl | rfl <;>
      simp [step, Numeral.extend?, Numeral.digit?_eq hb, decimal, hexponent, hnegative, hplus,
        hminus]
  rw [List.foldl_cons, step_numeral hextend, List.append_cons, List.foldl_append, hdigit]
  refine foldl_digits (fun read => { n with
    exponentNegative := sign = [45], exponent := decimal 0 (b :: read), part := .exponent }) ?_
  rintro read c more rfl
  have hc : IsDigit c := hrest c (by simp)
  have hmore := decimal_append_singleton 0 (b :: read) c
  simp [Numeral.extend?, Numeral.digit?_eq hc, ← hmore]

end

section

variable {text : List UInt8} {n : Numeral}

theorem Number.isComplete (h : Number text n) : n.isComplete = true := by
  cases h <;> rfl

theorem Number.exponent_eq (h : Number text n) (hpart : n.part ≠ .exponent) :
    n.exponent = 0 ∧ n.exponentNegative = false := by
  cases h with
  | zero | whole => exact ⟨rfl, rfl⟩
  | fraction h hwhole =>
    -- in front of a point there is no exponent
    cases h with
    | zero | whole => exact ⟨rfl, rfl⟩
    | fraction | exponent => simp at hwhole
  | exponent => exact absurd rfl hpart

/-- The reader comes to the number that is spelled. -/
theorem Number.foldl_step (h : Number text n) (frames : List Frame) :
    text.foldl (step false) (.reading frames .value) = .reading frames (.numeral n) := by
  induction h with
  | zero negative => cases negative <;> rfl
  | whole negative hdigits hfirst hcut => exact foldl_wholeDigits negative hdigits hfirst hcut
  | fraction h hpart hdigits hcut ih =>
    rw [List.foldl_append, ih, foldl_fraction hpart hdigits hcut]
  | exponent h hpart hmark hsign hdigits ih =>
    obtain ⟨hexponent, hnegative⟩ := h.exponent_eq hpart
    rw [List.foldl_append, ih,
      foldl_exponent h.isComplete hpart hexponent hnegative hmark hsign hdigits]

end

-- ============================================================= strings

section

variable {frames : List Frame} {isName : Bool}

/-- Four digits are read up to the last one, which closes the escape. -/
theorem SpellsUnit.foldl_step {digits : List UInt8} {unit : Nat} (h : SpellsUnit digits unit)
    (bytes : List UInt8) (lead : Option Nat) :
    digits.foldl (step false) (.reading frames (.text isName bytes (.digits lead [])))
      = closeDigits frames isName bytes lead digits.reverse := by
  obtain ⟨hlength, -⟩ := h
  match digits, hlength with
  | [a, b, c, d], _ => rfl

/-- The reader keeps the bytes that are meant, last first. -/
theorem Letter.foldl_step {letter meant : List UInt8} (h : Letter letter meant)
    (bytes : List UInt8) :
    letter.foldl (step false) (.reading frames (.text isName bytes .outside))
      = .reading frames (.text isName (meant.reverse ++ bytes) .outside) := by
  cases h with
  | plain hquote hslash hcontrol =>
    show stepText false frames isName bytes .outside _ = _
    simp only [stepText, hquote, hslash, hcontrol, if_false]
    rfl
  | @escaped letter b h =>
    have hletter : letter ≠ 117 := by
      rintro rfl
      cases h
    show stepText false frames isName bytes .letter letter = _
    simp only [stepText, hletter, h, if_false]
    rfl
  | @unit digits unit h hlead htrail =>
    show digits.foldl (step false) (.reading frames (.text isName bytes (.digits none []))) = _
    rw [h.foldl_step]
    simp only [closeDigits, h.2, hlead, htrail, Bool.false_eq_true, if_false]
    rfl
  | @pair first second lead trail hfirst hlead hsecond htrail =>
    -- no unit is the first half of a pair and the second
    have hother : isTrail lead = false := by
      simp only [isLead, isTrail, decide_eq_true_eq, decide_eq_false_iff_not] at hlead ⊢
      omega
    have hhalf : (92 :: 117 :: first).foldl (step false)
          (.reading frames (.text isName bytes .outside))
        = .reading frames (.text isName bytes (.pairSlash lead)) := by
      show first.foldl (step false) (.reading frames (.text isName bytes (.digits none []))) = _
      rw [hfirst.foldl_step]
      simp only [closeDigits, hfirst.2, hlead, hother, Bool.false_eq_true, if_false, if_true]
    rw [← List.cons_append, ← List.cons_append, List.foldl_append, hhalf]
    show second.foldl (step false)
      (.reading frames (.text isName bytes (.digits (some lead) []))) = _
    rw [hsecond.foldl_step]
    simp only [closeDigits, hsecond.2, htrail, if_true]
    rfl

theorem Letters.foldl_step {spelled meant : List UInt8} (h : Letters spelled meant)
    (bytes : List UInt8) :
    spelled.foldl (step false) (.reading frames (.text isName bytes .outside))
      = .reading frames (.text isName (meant.reverse ++ bytes) .outside) := by
  induction h generalizing bytes with
  | nil => rfl
  | cons h _ ih =>
    rw [List.foldl_append, h.foldl_step, ih, List.reverse_append, List.append_assoc]

/-- At the second quotation mark the text is known. -/
theorem Quoted.foldl_step {text : List UInt8} {s : String} (h : Quoted text s) {phase : Phase}
    (hquote : step false (.reading frames phase) 34 = .reading frames (.text isName [] .outside)) :
    text.foldl (step false) (.reading frames phase)
      = closeText false frames isName (Text.bytes s).reverse := by
  obtain ⟨hletters⟩ := h
  rw [List.foldl_cons, hquote, List.foldl_append, hletters.foldl_step, List.append_nil]
  rfl

end

theorem closeText_value (frames : List Frame) (s : String) :
    closeText false frames false (Text.bytes s).reverse = complete false frames (.string s) := by
  simp only [closeText, List.reverse_reverse, Text.fromUTF8?_eq_some_iff.2 (rfl : _ = Text.bytes s),
    Bool.false_eq_true, if_false]

theorem closeText_name (members : List (String × Json)) (outer : List Frame) (s : String) :
    closeText false (.object members :: outer) true (Text.bytes s).reverse
      = .reading (.member members s :: outer) .colon := by
  simp only [closeText, List.reverse_reverse, Text.fromUTF8?_eq_some_iff.2 (rfl : _ = Text.bytes s),
    if_true]

-- ============================================================== values

/-- Bytes that go on, behind white space, with one that closes nothing. -/
def Begins (bytes : List UInt8) : Prop :=
  ∃ blank b rest, bytes = blank ++ b :: rest ∧ Blank blank ∧ isSpace b = false ∧ b ≠ 93 ∧ b ≠ 125

/-- Texts that the reader can deal with while there is room for `depth` more
containers. -/
structure Readable (depth : Nat) (spells : List UInt8 → Json → Prop) : Prop where
  begins : ∀ {text j}, spells text j → Begins text
  reads : ∀ {text j}, spells text j → ∀ {frames}, frames.length + depth ≤ maxDepth →
    After frames j (text.foldl (step false) (.reading frames .value))

section

variable {α : Type} {spells : List UInt8 → α → Prop} {text : List UInt8} {a : α}

theorem Begins.append {bytes : List UInt8} (h : Begins bytes) (more : List UInt8) :
    Begins (bytes ++ more) := by
  obtain ⟨blank, b, rest, rfl, h⟩ := h
  exact ⟨blank, b, rest ++ more, by simp, h⟩

/-- White space may be missing. -/
theorem Spaced.bare (h : spells text a) : Spaced spells text a := by
  have hspaced := Spaced.intro (List.forall_mem_nil _) h (List.forall_mem_nil _)
  rwa [List.nil_append, List.append_nil] at hspaced

theorem Spaced.begins (hspells : ∀ {text a}, spells text a → Begins text)
    (h : Spaced spells text a) : Begins text := by
  cases h with
  | @intro before text after _ hbefore h _ =>
    obtain ⟨blank, b, rest, rfl, hblank, hb⟩ := hspells h
    refine ⟨before ++ blank, b, rest ++ after, by simp, ?_, hb⟩
    exact List.forall_mem_append.2 ⟨hbefore, hblank⟩

theorem Listed.begins (hspells : ∀ {text a}, spells text a → Begins text) {all : List α}
    (h : Listed spells text all) : Begins text := by
  cases h with
  | one h => exact hspells h
  | more h _ => exact (hspells h).append _

/-- What begins is read alike behind a bracket and behind a comma. -/
theorem Begins.foldl_first {bytes : List UInt8} (h : Begins bytes) (frame : Frame)
    (outer : List Frame) :
    bytes.foldl (step false) (.reading (frame :: outer) frame.first)
      = bytes.foldl (step false) (.reading (frame :: outer) frame.later) := by
  obtain ⟨blank, b, rest, rfl, hblank, hspace, hitem, hmember⟩ := h
  have hfirst : blank.foldl (step false) (.reading (frame :: outer) frame.first)
      = .reading (frame :: outer) frame.first :=
    foldl_blank hblank fun _ => by cases frame <;> rfl
  have hlater : blank.foldl (step false) (.reading (frame :: outer) frame.later)
      = .reading (frame :: outer) frame.later :=
    foldl_blank hblank fun _ => by cases frame <;> rfl
  have hclosing : b ≠ frame.closing := by cases frame <;> assumption
  rw [List.foldl_append, List.foldl_append, hfirst, hlater, List.foldl_cons, List.foldl_cons,
    step_first_eq_later frame outer hspace hclosing]

end

theorem Quoted.begins {text : List UInt8} {s : String} (h : Quoted text s) : Begins text := by
  cases h
  exact ⟨[], 34, _, rfl, fun _ hb => (List.not_mem_nil hb).elim, rfl, by decide, by decide⟩

theorem Number.begins {text : List UInt8} {n : Numeral} (h : Number text n) : Begins text := by
  have hsign : ∀ (negative : Bool) {digits : List UInt8}, Digits digits
      → Begins (minus negative ++ digits) := by
    intro negative digits hdigits
    obtain ⟨b, rest, rfl, hb, -⟩ := hdigits.exists_cons
    cases negative with
    | true => exact ⟨[], 45, _, rfl, by simp [Blank], rfl, by decide, by decide⟩
    | false =>
      exact ⟨[], b, rest, rfl, by simp [Blank], isSpace_digit hb, ne_of_digit hb 93 (by decide),
        ne_of_digit hb 125 (by decide)⟩
  have hzero : Digits [48] := ⟨by decide, List.forall_mem_singleton.2 ⟨by decide, by decide⟩⟩
  induction h with
  | zero negative => exact hsign negative hzero
  | whole negative hdigits => exact hsign negative hdigits
  | fraction _ _ _ _ ih => exact ih.append _
  | exponent _ _ _ _ _ ih => exact ih.append _

theorem readable_scalar (depth : Nat) : Readable depth Scalar where
  begins h := by
    cases h with
    | number h _ => exact h.begins
    | string h => exact h.begins
    | _ => exact ⟨[], _, _, rfl, by simp [Blank], rfl, by decide, by decide⟩
  reads h frames _ := by
    cases h with
    | number h hvalue =>
      rw [h.foldl_step]
      exact .numeral h.isComplete hvalue
    | string h =>
      rw [h.foldl_step rfl, closeText_value]
      exact .whole
    | _ => exact .whole

section

variable {depth : Nat} {spells : List UInt8 → Json → Prop} {text : List UInt8}

/-- White space can stand around what is read. -/
theorem Readable.spaced (h : Readable depth spells) : Readable depth (Spaced spells) where
  begins hspaced := hspaced.begins h.begins
  reads hspaced frames hdepth := by
    obtain ⟨hbefore, htext, hafter⟩ := hspaced
    rw [List.foldl_append, foldl_blank hbefore fun _ => rfl, List.foldl_append]
    exact (h.reads htext hdepth).foldl_blank hafter

theorem Member.begins {p : String × Json} (h : Member spells text p) : Begins text := by
  obtain ⟨hname, -⟩ := h
  exact (hname.begins Quoted.begins).append _

/-- A name with its colon and its value is one more member. -/
theorem Member.step (hspells : Readable depth spells) {p : String × Json}
    (h : Member spells text p) {outer : List Frame} (hdepth : outer.length + (depth + 1) ≤ maxDepth)
    (members : List (String × Json)) {b : UInt8} (hb : Ends b) :
    Json.step false (text.foldl (Json.step false) (.reading (.object members :: outer) .name)) b
      = Json.step false (.reading (.object (p :: members) :: outer) .next) b := by
  cases h with
  | @intro name text s j hname htext =>
    have hcolon : name.foldl (Json.step false) (.reading (.object members :: outer) .name)
        = .reading (.member members s :: outer) .colon := by
      obtain ⟨hbefore, hquoted, hafter⟩ := hname
      rw [List.foldl_append, foldl_blank hbefore fun _ => rfl, List.foldl_append,
        hquoted.foldl_step rfl, closeText_name, foldl_blank hafter fun _ => rfl]
    have hvalue : (Frame.member members s :: outer).length + depth ≤ maxDepth := by
      rw [List.length_cons]
      omega
    rw [List.foldl_append, hcolon, List.foldl_cons]
    exact (hspells.spaced.reads htext hvalue).step hb

/-- If one thing between commas is one more in the container, then all are,
in their order. -/
theorem Listed.foldl_step {α : Type} {spells : List UInt8 → α → Prop} (frame : List α → Frame)
    {outer : List Frame}
    (hone : ∀ {text a}, spells text a → ∀ held {b}, Ends b →
      step false (text.foldl (step false) (.reading (frame held :: outer) (frame held).later)) b
        = step false (.reading (frame (a :: held) :: outer) .next) b)
    (hcomma : ∀ held, step false (.reading (frame held :: outer) .next) 44
      = .reading (frame held :: outer) (frame held).later)
    {text : List UInt8} {all : List α} (h : Listed spells text all) (held : List α) {b : UInt8}
    (hb : Ends b) :
    step false (text.foldl (step false) (.reading (frame held :: outer) (frame held).later)) b
      = step false (.reading (frame (all.reverse ++ held) :: outer) .next) b := by
  induction h generalizing held with
  | one h => exact hone h held hb
  | more h _ ih =>
    rw [List.foldl_append, List.foldl_cons, hone h held (.inr (.inl rfl)), hcomma, ih]
    simp

section

variable {frames : List Frame}

theorem foldl_array (hroom : frames.length < maxDepth) (text : List UInt8) :
    (91 :: (text ++ [93])).foldl (step false) (.reading frames .value)
      = step false (text.foldl (step false) (.reading (.array [] :: frames) .firstItem)) 93 := by
  have hopen : step false (.reading frames .value) 91
      = .reading (.array [] :: frames) .firstItem := if_pos hroom
  rw [List.foldl_cons, hopen, List.foldl_append]
  rfl

theorem foldl_object (hroom : frames.length < maxDepth) (text : List UInt8) :
    (123 :: (text ++ [125])).foldl (step false) (.reading frames .value)
      = step false (text.foldl (step false) (.reading (.object [] :: frames) .firstName)) 125 := by
  have hopen : step false (.reading frames .value) 123
      = .reading (.object [] :: frames) .firstName := if_pos hroom
  rw [List.foldl_cons, hopen, List.foldl_append]
  rfl

/-- The items of an array, up to the bracket that closes it. -/
theorem foldl_items (hspells : Readable depth spells) {items : List Json}
    (h : Listed (Spaced spells) text items) (hdepth : frames.length + (depth + 1) ≤ maxDepth) :
    (91 :: (text ++ [93])).foldl (step false) (.reading frames .value)
      = complete false frames (.array items) := by
  have hitem : ∀ held : List Json, (Frame.array held :: frames).length + depth ≤ maxDepth := by
    intro held
    rw [List.length_cons]
    omega
  calc (91 :: (text ++ [93])).foldl (step false) (.reading frames .value)
      = step false (text.foldl (step false) (.reading (.array [] :: frames) .firstItem)) 93 :=
        foldl_array (by omega) text
    _ = step false (text.foldl (step false) (.reading (.array [] :: frames) .value)) 93 :=
        congrArg (step false · 93) ((h.begins hspells.spaced.begins).foldl_first (.array []) frames)
    _ = step false (.reading (.array (items.reverse ++ []) :: frames) .next) 93 :=
        h.foldl_step .array (fun h held _ hb => (hspells.spaced.reads h (hitem held)).step hb)
          (fun _ => rfl) [] (.inr (.inr (.inl rfl)))
    _ = complete false frames (.array (items.reverse ++ []).reverse) := rfl
    _ = complete false frames (.array items) := by rw [List.append_nil, List.reverse_reverse]

/-- The members of an object, up to the bracket that closes it. -/
theorem foldl_members (hspells : Readable depth spells) {members : List (String × Json)}
    (h : Listed (Member spells) text members) (hdepth : frames.length + (depth + 1) ≤ maxDepth) :
    (123 :: (text ++ [125])).foldl (step false) (.reading frames .value)
      = complete false frames (.object members) := by
  calc (123 :: (text ++ [125])).foldl (step false) (.reading frames .value)
      = step false (text.foldl (step false) (.reading (.object [] :: frames) .firstName)) 125 :=
        foldl_object (by omega) text
    _ = step false (text.foldl (step false) (.reading (.object [] :: frames) .name)) 125 :=
        congrArg (step false · 125) ((h.begins Member.begins).foldl_first (.object []) frames)
    _ = step false (.reading (.object (members.reverse ++ []) :: frames) .next) 125 :=
        h.foldl_step .object (fun h held _ hb => h.step hspells hdepth held hb) (fun _ => rfl) []
          (.inr (.inr (.inr rfl)))
    _ = complete false frames (.object (members.reverse ++ []).reverse) := rfl
    _ = complete false frames (.object members) := by rw [List.append_nil, List.reverse_reverse]

end

/-- A container of what is read is read, if there is room for it. -/
theorem Readable.nested (h : Readable depth spells) : Readable (depth + 1) (Nested spells) where
  begins hnested := by
    cases hnested with
    | scalar htext => exact (readable_scalar depth).begins htext
    | _ => exact ⟨[], _, _, rfl, by simp [Blank], rfl, by decide, by decide⟩
  reads hnested frames hdepth := by
    have hroom : frames.length < maxDepth := by omega
    cases hnested with
    | scalar htext => exact (readable_scalar _).reads htext hdepth
    | noItems hblank =>
      rw [foldl_array hroom, foldl_blank hblank fun _ => rfl]
      exact .whole
    | items hitems =>
      rw [foldl_items h hitems hdepth]
      exact .whole
    | noMembers hblank =>
      rw [foldl_object hroom, foldl_blank hblank fun _ => rfl]
      exact .whole
    | members hmembers =>
      rw [foldl_members h hmembers hdepth]
      exact .whole

end

theorem readable_spells (depth : Nat) : Readable depth (Spells depth) := by
  induction depth with
  | zero => exact readable_scalar 0
  | succ depth ih => exact ih.nested

/-- A text that spells something else than a null is read as what it spells. -/
theorem read_of_spells {bytes : List UInt8} {j : Json} (h : Spaced (Spells maxDepth) bytes j)
    (hj : j.isNull = false) : read false bytes = .ok j :=
  ((readable_spells maxDepth).spaced.reads h (Nat.le_of_eq (Nat.zero_add _))).finish hj

end ScopeRules.Json
