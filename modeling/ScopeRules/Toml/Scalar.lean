/-
TOML scalars that are written without quotes: numbers, truth values and
dates. Each form is a test on the whole literal, so what a literal means
does not hang on what stands after it.

Dates are checked to the last digit. The value of a number is never needed,
and its literal is looked at only so far: an integer may lack the digits
after the mark of its base, and after its first underscore only the
characters next to underscores count.
-/
import ScopeRules.Files.Path
import ScopeRules.Toml.Basic
import ScopeRules.Vocabulary

namespace ScopeRules.Toml

-- ============================================================= numbers

def isHexDigit (c : Char) : Bool :=
  c.isDigit || ('a' ≤ c && c ≤ 'f') || ('A' ≤ c && c ≤ 'F')

/-- The literal without a sign in front. -/
def unsigned : List Char → List Char
  | '+' :: rest => rest
  | '-' :: rest => rest
  | cs => cs

/-- Digits that satisfy `isDigit`, with single underscores between them. -/
def isDigits (isDigit : Char → Bool) (cs : List Char) : Bool :=
  (Path.splitAt '_' cs).all fun group => group ≠ [] ∧ group.all isDigit

/-- Whether the underscores of a literal stand between digits, one at a
time. Of the groups between them, all but the first start with a digit, and
all but the last end with one. -/
def isGrouped (isDigit : Char → Bool) (cs : List Char) : Bool :=
  let groups := Path.splitAt '_' cs
  groups.all (· ≠ [])
    && (groups.drop 1).all (fun group => group.head?.any isDigit)
    && groups.dropLast.all fun group => group.getLast?.any isDigit

/-- A decimal integer: digits, then nothing or an underscore and whatever
follows it, if that is no part of a float or of a second literal. A zero in
front stands alone. -/
def isDecimal (cs : List Char) : Bool :=
  let body := unsigned cs
  let isForeign := fun c => c = '.' || c = 'e' || c = 'E' || c = ' '
  body ≠ [] && (body.head? ≠ some '0' || body = ['0']) &&
    match body.dropWhile Char.isDigit with
    | [] => true
    | '_' :: rest => !rest.any isForeign && isGrouped isHexDigit cs
    | _ => false

/-- An integer, decimal or with the mark of another base. -/
def isInteger : List Char → Bool
  | '0' :: 'x' :: digits => digits = [] || isDigits isHexDigit digits
  | '0' :: 'o' :: digits => digits = [] || isDigits (fun c => '0' ≤ c && c ≤ '7') digits
  | '0' :: 'b' :: digits => digits = [] || isDigits (fun c => c = '0' || c = '1') digits
  | cs => isDecimal cs

/-- What stands in the parts of a float. -/
def isDigitOrBreak (c : Char) : Bool := c.isDigit || c = '_'

/-- The whole part of a float: a digit, or more with no zero in front. -/
def isWhole (cs : List Char) : Bool :=
  let digits := cs.filter Char.isDigit
  digits.length = 1 || (digits ≠ [] && cs.head? ≠ some '0')

/-- What is left after digits, of which there is one at least. -/
def afterDigits? (cs : List Char) : Option (List Char) :=
  if (cs.takeWhile isDigitOrBreak).any Char.isDigit then some (cs.dropWhile isDigitOrBreak)
  else none

/-- What is left after a fraction, if there is one. -/
def afterFraction? : List Char → Option (List Char)
  | '.' :: rest => afterDigits? rest
  | cs => some cs

/-- What is left after an exponent, if there is one. -/
def afterExponent? : List Char → Option (List Char)
  | 'e' :: rest => afterDigits? (unsigned rest)
  | 'E' :: rest => afterDigits? (unsigned rest)
  | cs => some cs

/-- A float: a word, or a whole part with a fraction, an exponent or
both. -/
def isFloat (cs : List Char) : Bool :=
  let body := unsigned cs
  let rest := body.dropWhile isDigitOrBreak
  body = ['i', 'n', 'f'] || body = ['n', 'a', 'n'] ||
    (isWhole (body.takeWhile isDigitOrBreak) && rest ≠ []
      && (afterFraction? rest).bind afterExponent? = some []
      && isGrouped Char.isDigit cs)

-- =============================================================== dates

/-- The number that exactly `n` digits spell. -/
def fixed? (n : Nat) (cs : List Char) : Option Nat :=
  if cs.length = n then Vocabulary.decimal? cs else none

def daysOf (year month : Nat) : Nat :=
  if month = 2 then
    if year % 4 = 0 ∧ (year % 100 ≠ 0 ∨ year % 400 = 0) then 29 else 28
  else if month = 4 ∨ month = 6 ∨ month = 9 ∨ month = 11 then 30
  else 31

/-- A day, as year, month and day between hyphens. -/
def isDate (cs : List Char) : Bool :=
  match Path.splitAt '-' cs with
  | [y, m, d] =>
    match fixed? 4 y, fixed? 2 m, fixed? 2 d with
    | some year, some month, some day =>
      1 ≤ month && month ≤ 12 && 1 ≤ day && day ≤ daysOf year month
    | _, _, _ => false
  | _ => false

/-- Seconds, perhaps with a fraction. -/
def isSeconds (cs : List Char) : Bool :=
  let whole := cs.takeWhile (· ≠ '.')
  let fraction := cs.dropWhile (· ≠ '.')
  ((fixed? 2 whole).any (· ≤ 60))
    && (fraction = [] || (fraction.drop 1 ≠ [] && (fraction.drop 1).all Char.isDigit))

/-- A time of day, as hours, minutes and perhaps seconds. -/
def isTime (cs : List Char) : Bool :=
  match Path.splitAt ':' cs with
  | [h, m] => (fixed? 2 h).any (· ≤ 23) && (fixed? 2 m).any (· ≤ 59)
  | [h, m, s] => (fixed? 2 h).any (· ≤ 23) && (fixed? 2 m).any (· ≤ 59) && isSeconds s
  | _ => false

/-- A distance from universal time. -/
def isOffset (cs : List Char) : Bool :=
  match Path.splitAt ':' cs with
  | [h, m] => (fixed? 2 h).any (· ≤ 23) && (fixed? 2 m).any (· ≤ 59)
  | _ => false

/-- A time of day, perhaps with the distance from universal time. -/
def isZonedTime (cs : List Char) : Bool :=
  let isZone := fun c => c = 'Z' || c = 'z' || c = '+' || c = '-'
  let time := cs.takeWhile fun c => !isZone c
  isTime time &&
    match cs.dropWhile fun c => !isZone c with
    | [] | ['Z'] | ['z'] => true
    | '+' :: offset | '-' :: offset => isOffset offset
    | _ => false

/-- A day, a time of day, or both with `T` or a space between. -/
def isDatetime (cs : List Char) : Bool :=
  isDate cs || isTime cs
    || (isDate (cs.take 10) && isZonedTime (cs.drop 11)
      && (match cs.drop 10 with
        | c :: _ => c = 'T' || c = 't' || c = ' '
        | [] => false))

-- ============================================================= scalars

/-- The value of a literal. -/
def scalar? (cs : List Char) : Option Toml :=
  let literal := String.ofList cs
  if literal = "true" then some (.bool true)
  else if literal = "false" then some (.bool false)
  else if isInteger cs then some (.integer literal)
  else if isFloat cs then some (.float literal)
  else if isDatetime cs then some (.datetime literal)
  else none

end ScopeRules.Toml
