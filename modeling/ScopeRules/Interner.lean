/-
Interned strings. An interner hands out one `Symbol` per text until it is
cleared, so that within a session the identity of a symbol is its text. A
symbol keeps its text for good, whatever becomes of the interner.

Identity is a stamp: every symbol that is made gets the next one. Content
is the text, and only content decides whether two symbols are equal as
strings, where they stand in an order, and what they print.
-/
import ScopeRules.Assoc

namespace ScopeRules

/-- A shared string: its text, and the stamp by which copies of one symbol
are known from other symbols with the same text. -/
structure Symbol where
  text : String
  stamp : Nat
  deriving DecidableEq, Repr, Inhabited

namespace Symbol

/-- Whether two symbols are copies of one. -/
def identical (a b : Symbol) : Bool := a.stamp = b.stamp

/-- Whether two symbols have the same content. -/
def same (a b : Symbol) : Bool := a.text = b.text

/-- The order of the texts, which is that of their UTF-8 bytes. -/
def order (a b : Symbol) : Ordering := compare a.text b.text

end Symbol

/-- The symbols of the running session by their texts, and the number of
stamps given out so far, in this session and before. -/
structure Interner where
  strings : Assoc String Nat
  stamped : Nat
  deriving Repr, Inhabited

namespace Interner

def empty : Interner := ⟨[], 0⟩

/-- The symbol for `text`, made on first use. -/
def intern (i : Interner) (text : String) : Symbol × Interner :=
  match i.strings.get? text with
  | some stamp => (⟨text, stamp⟩, i)
  | none => (⟨text, i.stamped⟩, ⟨i.strings.put text i.stamped, i.stamped + 1⟩)

/-- The symbol for a text has that text. -/
theorem text_intern (i : Interner) (text : String) : (i.intern text).1.text = text := by
  unfold intern
  split <;> rfl

/-- A symbol of its own, which no later request for `text` answers. -/
def loose (i : Interner) (text : String) : Symbol × Interner :=
  (⟨text, i.stamped⟩, { i with stamped := i.stamped + 1 })

/-- The interner after requests for all the texts, in order. -/
def internAll (i : Interner) (texts : List String) : Interner :=
  texts.foldl (fun i text => (i.intern text).2) i

/-- Ends the session. Symbols given out keep their stamps, and texts asked
for from now on get new ones. -/
def clear (i : Interner) : Interner := { i with strings := [] }

/-- The number of texts of the session. -/
def size (i : Interner) : Nat := i.strings.length

end Interner

end ScopeRules
