/-
Reading TOML text. Every reader takes the characters that are left and
gives back a result with what is left after it, or nothing if the text is
not well formed there. Readers that go round a loop carry fuel, one unit
per character of the text, which is never used up before the text is.

The text is read to statements, and the statements are carried out on an
empty table; a text is well formed if both succeed.
-/
import ScopeRules.Toml.Scalar

namespace ScopeRules.Toml

-- ============================================================= spacing

def isBlank (c : Char) : Bool := c = ' ' || c = '\t'

/-- Control characters, which stand nowhere but at the end of a line. -/
def isControl (c : Char) : Bool := (c.toNat < 32 && c ≠ '\t') || c.toNat = 127

/-- What is left after the end of a line. -/
def newline? : List Char → Option (List Char)
  | '\n' :: rest => some rest
  | '\r' :: '\n' :: rest => some rest
  | _ => none

/-- Passes over white space within a line. -/
def skipBlanks (cs : List Char) : List Char := cs.dropWhile isBlank

/-- Passes over white space and a comment, up to the end of the line. -/
def skipLine (cs : List Char) : List Char :=
  match skipBlanks cs with
  | '#' :: rest => rest.dropWhile fun c => !isControl c
  | rest => rest

/-- Passes over white space, comments and ends of lines. -/
def skipLines : Nat → List Char → List Char
  | 0, cs => cs
  | fuel + 1, cs =>
    match newline? (skipLine cs) with
    | some rest => skipLines fuel rest
    | none => skipLine cs

/-- Passes over white space and ends of lines. -/
def skipSpace : List Char → List Char
  | '\r' :: '\n' :: rest => skipSpace rest
  | c :: rest => if isBlank c || c = '\n' then skipSpace rest else c :: rest
  | [] => []

-- ============================================================= strings

/-- The character that a one-letter escape stands for. -/
def escaped? (letter : Char) : Option Char :=
  if letter = 'b' then some '\x08'
  else if letter = 't' then some '\t'
  else if letter = 'n' then some '\n'
  else if letter = 'f' then some '\x0c'
  else if letter = 'r' then some '\r'
  else if letter = 'e' then some '\x1b'
  else if letter = '\x22' ∨ letter = '\x5c' then some letter
  else none

def hexValue (c : Char) : Nat :=
  if c.isDigit then c.toNat - 48 else if c.toNat < 97 then c.toNat - 55 else c.toNat - 87

/-- The character with a number in `n` hexadecimal digits, and what is
left. -/
def numbered? (n : Nat) (cs : List Char) : Option (Char × List Char) :=
  let digits := cs.take n
  let code := digits.foldl (fun code c => code * 16 + hexValue c) 0
  if digits.length = n ∧ digits.all isHexDigit
      ∧ (code < 0xd800 ∨ (0xdfff < code ∧ code < 0x110000)) then
    some (Char.ofNat code, cs.drop n)
  else none

/-- The character of an escape sequence, given what follows the
backslash. -/
def escape? : List Char → Option (Char × List Char)
  | 'x' :: rest => numbered? 2 rest
  | 'u' :: rest => numbered? 4 rest
  | 'U' :: rest => numbered? 8 rest
  | letter :: rest => (escaped? letter).map fun c => (c, rest)
  | [] => none

/-- The inside of a quoted string, up to and with the closing mark. -/
def quoted? : Nat → List Char → List Char → Option (String × List Char)
  | 0, _, _ => none
  | _ + 1, _, [] => none
  | fuel + 1, read, c :: rest =>
    if c = '\x22' then some (String.ofList read.reverse, rest)
    else if c = '\x5c' then
      (escape? rest).bind fun (e, rest) => quoted? fuel (e :: read) rest
    else if isControl c then none
    else quoted? fuel (c :: read) rest

/-- The inside of a literal string, up to and with the closing mark. -/
def literal? (cs : List Char) : Option (String × List Char) :=
  let inside := cs.takeWhile fun c => c ≠ '\x27' && !isControl c
  match cs.dropWhile fun c => c ≠ '\x27' && !isControl c with
  | '\x27' :: rest => some (String.ofList inside, rest)
  | _ => none

/-- How many of the next characters are `mark`, five at most. -/
def countMarks (mark : Char) (cs : List Char) : Nat :=
  ((cs.take 5).takeWhile (· = mark)).length

/-- The inside of a string over several lines, up to and with the closing
marks, of which the last three count; `escapes` tells quoted strings from
literal ones. The end of a line belongs to the string as it is spelled, and
a backslash in front of it takes it and all white space after it away. -/
def multiline? (mark : Char) (escapes : Bool) :
    Nat → List Char → List Char → Option (String × List Char)
  | 0, _, _ => none
  | _ + 1, _, [] => none
  | fuel + 1, read, c :: rest =>
    if c = mark then
      let marks := countMarks mark (c :: rest)
      if 3 ≤ marks then
        some (String.ofList (List.replicate (marks - 3) mark ++ read).reverse,
          (c :: rest).drop marks)
      else multiline? mark escapes fuel (c :: read) rest
    else if escapes ∧ c = '\x5c' then
      match newline? (skipBlanks rest) with
      | some below => multiline? mark escapes fuel read (skipSpace below)
      | none => (escape? rest).bind fun (e, rest) => multiline? mark escapes fuel (e :: read) rest
    else if c = '\n' then multiline? mark escapes fuel (c :: read) rest
    else if c = '\r' then
      if rest.head? = some '\n' then multiline? mark escapes fuel (c :: read) rest else none
    else if isControl c then none
    else multiline? mark escapes fuel (c :: read) rest

/-- The end of a line right after the opening marks is no part of the
string. -/
def afterMarks (cs : List Char) : List Char := (newline? cs).getD cs

-- ================================================================ keys

/-- Arrays and tables nest at most this deep, and no key has more parts. -/
def maxDepth : Nat := 80

/-- A character of a key without quotes. -/
def isBare (c : Char) : Bool := c.isAlphanum || c = '_' || c = '-'

/-- One part of a key. -/
def keyPart? (fuel : Nat) (cs : List Char) : Option (String × List Char) :=
  match cs with
  | '\x22' :: rest => quoted? fuel [] rest
  | '\x27' :: rest => literal? rest
  | _ =>
    let name := cs.takeWhile isBare
    if name = [] then none else some (String.ofList name, cs.dropWhile isBare)

/-- The parts of a key, with points between them. White space after a part
is passed over. -/
def keyParts? : Nat → List Char → Option (List String × List Char)
  | 0, _ => none
  | fuel + 1, cs =>
    (keyPart? (fuel + 1) cs).bind fun (part, rest) =>
      match skipBlanks rest with
      | '.' :: more =>
        (keyParts? fuel (skipBlanks more)).map fun (parts, rest) => (part :: parts, rest)
      | rest => some ([part], rest)

def key? (fuel : Nat) (cs : List Char) : Option (List String × List Char) :=
  (keyParts? fuel cs).filter fun (parts, _) => parts.length ≤ maxDepth

-- ============================================================== values

/-- A character that ends a literal without quotes, unless it is white space
within one. -/
def isDelimiter (c : Char) : Bool :=
  isBlank c || c = '\r' || c = '\n' || c = '#' || c = ',' || c = '=' || c = '[' || c = ']'
    || c = '\x7b' || c = '\x7d'

/-- Whether a literal goes on here after white space. -/
def goesOn : List Char → Bool
  | [] => false
  | c :: _ => !isDelimiter c && c ≠ '.' && c ≠ '\x22' && c ≠ '\x27'

/-- A literal without quotes. White space that something more follows is part
of it, so a day and a time of day are one literal, and so is any row of
words. -/
def literal : List Char → List Char
  | [] => []
  | c :: rest =>
    if isBlank c then if goesOn (skipBlanks rest) then c :: literal rest else []
    else if isDelimiter c then []
    else c :: literal rest

/-- A value without quotes. -/
def bareScalar? (cs : List Char) : Option (Toml × List Char) :=
  let written := literal cs
  (scalar? written).map fun v => (v, cs.drop written.length)

mutual

/-- A value, inside `depth` more containers at most. -/
def value? (depth : Nat) : Nat → List Char → Option (Toml × List Char)
  | 0, _ => none
  | fuel + 1, cs =>
    match cs with
    | '\x22' :: '\x22' :: '\x22' :: rest =>
      (multiline? '\x22' true (fuel + 1) [] (afterMarks rest)).map fun (s, rest) =>
        (.string s, rest)
    | '\x22' :: rest => (quoted? (fuel + 1) [] rest).map fun (s, rest) => (.string s, rest)
    | '\x27' :: '\x27' :: '\x27' :: rest =>
      (multiline? '\x27' false (fuel + 1) [] (afterMarks rest)).map fun (s, rest) =>
        (.string s, rest)
    | '\x27' :: rest => (literal? rest).map fun (s, rest) => (.string s, rest)
    | '[' :: rest =>
      if depth = 0 then none
      else (items? (depth - 1) fuel [] (skipLines fuel rest)).map fun (items, rest) =>
        (.array items, rest)
    | '\x7b' :: rest =>
      if depth = 0 then none
      else (members? (depth - 1) fuel [] (skipLines fuel rest)).map fun (items, rest) =>
        (.table (Item.valuesOf items), rest)
    | _ => bareScalar? cs

/-- The items of an array from here on, after those read, last first. -/
def items? (depth : Nat) : Nat → List Toml → List Char → Option (List Toml × List Char)
  | 0, _, _ => none
  | fuel + 1, read, cs =>
    match cs with
    | ']' :: rest => some (read.reverse, rest)
    | _ =>
      (value? depth fuel cs).bind fun (v, rest) =>
        match skipLines (fuel + 1) rest with
        | ',' :: rest => items? depth fuel (v :: read) (skipLines fuel rest)
        | ']' :: rest => some ((v :: read).reverse, rest)
        | _ => none

/-- The entries of a table in braces from here on, stored into `read`. -/
def members? (depth : Nat) : Nat → Items → List Char → Option (Items × List Char)
  | 0, _, _ => none
  | fuel + 1, read, cs =>
    match cs with
    | '\x7d' :: rest => some (read, rest)
    | _ =>
      (key? (fuel + 1) cs).bind fun (key, rest) =>
        match skipLines (fuel + 1) rest with
        | '=' :: rest =>
          (value? depth fuel (skipLines fuel rest)).bind fun (v, rest) =>
            (assign v key read).bind fun read =>
              match skipLines (fuel + 1) rest with
              | ',' :: rest => members? depth fuel read (skipLines fuel rest)
              | '\x7d' :: rest => some (read, rest)
              | _ => none
        | _ => none

end

-- =========================================================== statements

/-- One statement, up to what follows it on its line. -/
def statement? (fuel : Nat) (cs : List Char) : Option (Statement × List Char) :=
  match cs with
  | '[' :: '[' :: rest =>
    (key? fuel (skipBlanks rest)).bind fun (path, rest) =>
      match rest with
      | ']' :: ']' :: rest => some (.append path, rest)
      | _ => none
  | '[' :: rest =>
    (key? fuel (skipBlanks rest)).bind fun (path, rest) =>
      match rest with
      | ']' :: rest => some (.header path, rest)
      | _ => none
  | _ =>
    (key? fuel cs).bind fun (key, rest) =>
      match rest with
      | '=' :: rest =>
        (value? maxDepth fuel (skipBlanks rest)).map fun (v, rest) => (.assign key v, rest)
      | _ => none

/-- The statements from here on, after those read, last first. -/
def statements? : Nat → List Statement → List Char → Option (List Statement)
  | 0, _, _ => none
  | fuel + 1, read, cs =>
    match skipLine cs with
    | [] => some read.reverse
    | c :: rest =>
      match newline? (c :: rest) with
      | some below => statements? fuel read below
      | none =>
        (statement? (fuel + 1) (skipBlanks cs)).bind fun (statement, rest) =>
          match skipLine rest with
          | [] => some (statement :: read).reverse
          | d :: rest =>
            (newline? (d :: rest)).bind fun below => statements? fuel (statement :: read) below

/-- The entries of the outermost table of a text. A mark of the byte order
in front is passed over. -/
def read? (text : String) : Option (List (String × Toml)) :=
  let cs := match text.toList with
    | '\ufeff' :: rest => rest
    | cs => cs
  (statements? (cs.length + 1) [] cs).bind fun statements =>
    (perform [] statements []).map Item.valuesOf

end ScopeRules.Toml
