/-
Texts in quotation marks, as they stand in the printed form of symbols,
tables and references. The mark and the backslash are escaped, four control
characters have letters of their own, hidden characters are given by their
number, and all else stands for itself.
-/
import ScopeRules.Text.Hidden

namespace ScopeRules.Text

/-- The escape sequence that gives a character by its number. -/
def numbered (c : Char) : List Char :=
  ['\x5c', 'u', '\x7b'] ++ Nat.toDigits 16 c.toNat ++ ['\x7d']

/-- A character inside quotation marks. -/
def quotedChar (c : Char) : List Char :=
  if c = '\x00' then ['\x5c', '0']
  else if c = '\t' then ['\x5c', 't']
  else if c = '\n' then ['\x5c', 'n']
  else if c = '\r' then ['\x5c', 'r']
  else if c = '\x22' ∨ c = '\x5c' then ['\x5c', c]
  else if isHidden c then numbered c
  else [c]

/-- A text in quotation marks. -/
def quoted (s : String) : String :=
  String.ofList ('\x22' :: s.toList.flatMap quotedChar ++ ['\x22'])

/-- Printed items between brackets, separated by commas. -/
def bracketed (items : List String) : String := "[" ++ ", ".intercalate items ++ "]"

/-- A name before its printed fields between braces. -/
def braced (name : String) (fields : List String) : String :=
  name ++ " \x7b " ++ ", ".intercalate fields ++ " \x7d"

end ScopeRules.Text
