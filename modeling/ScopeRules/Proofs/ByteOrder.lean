/-
The order of strings is the order of their UTF-8 bytes. File names are
sorted by their bytes where a directory is read and by their characters
here, and this is what makes the two sorts one.

Of two characters the one with the smaller code point has the smaller
encoding, and it stays smaller whatever follows (`utf8EncodeChar_lt`): a
longer encoding starts with a larger byte, and encodings of one length hold
the digits of the code point from the highest down.
-/
import Mathlib.Data.List.Lex
import Mathlib.Data.String.Basic
import Mathlib.Tactic.SplitIfs

namespace ScopeRules

namespace Text

/-- The UTF-8 bytes of a text. -/
def bytes (s : String) : List UInt8 := s.toUTF8.data.toList

theorem bytes_eq (s : String) : bytes s = s.toList.flatMap String.utf8EncodeChar := by
  conv_lhs => rw [← String.ofList_toList (s := s)]
  rw [bytes, String.toUTF8_eq_toByteArray, String.toByteArray_ofList, List.utf8Encode,
    List.data_toByteArray, List.toList_toArray]

/-- Numbers are compared by what is in front of their last digit, and then
by that digit. -/
theorem div_lt_or_mod_lt {m n k : Nat} (h : m < n) :
    m / k < n / k ∨ (m / k = n / k ∧ m % k < n % k) := by
  rcases Nat.lt_or_ge (m / k) (n / k) with hlt | hge
  · exact .inl hlt
  · have heq : m / k = n / k := Nat.le_antisymm (Nat.div_le_div_right h.le) hge
    refine .inr ⟨heq, ?_⟩
    rw [← Nat.div_add_mod m k, ← Nat.div_add_mod n k, heq] at h
    omega

/-- The encoding of the smaller character comes first, whatever the two
texts go on with. -/
theorem utf8EncodeChar_lt {a b : Char} (h : a < b) (rest rest' : List UInt8) :
    String.utf8EncodeChar a ++ rest < String.utf8EncodeChar b ++ rest' := by
  have hlt : a.val.toNat < b.val.toNat := UInt32.lt_iff_toNat_lt.1 (Char.lt_def.1 h)
  have hmax : b.val.toNat < 1114112 := by
    have hvalid : b.val.toNat < 55296 ∨ _ := b.valid
    omega
  generalize hm : a.val.toNat = m at hlt
  generalize hn : b.val.toNat = n at hlt hmax
  -- the digits to the base 64, from the last one up
  have hlast := div_lt_or_mod_lt (k := 64) hlt
  have hmiddle := div_lt_or_mod_lt (m := m / 64) (n := n / 64) (k := 64)
  have hfirst := div_lt_or_mod_lt (m := m / 64 / 64) (n := n / 64 / 64) (k := 64)
  simp only [Nat.div_div_eq_div_mul, Nat.reduceMul] at hlast hmiddle hfirst
  have hbyte : ∀ x, (x % 64 + 128) % 256 = x % 64 + 128 := by omega
  have hhead : ∀ x, x < 1114112 → (x / 262144 % 8 + 240) % 256 = x / 262144 + 240 := by omega
  -- one case for each pair of lengths
  simp only [String.utf8EncodeChar, hm, hn]
  split_ifs <;>
    simp only [List.cons_append, List.nil_append, List.cons_lt_cons_iff, UInt8.lt_iff_toNat_lt,
      ← UInt8.toNat_inj, UInt8.toNat_ofNat', Nat.reducePow, hbyte, hhead m (hlt.trans hmax),
      hhead n hmax] <;>
    omega

theorem flatMap_utf8EncodeChar_lt {s t : List Char} (h : s < t) :
    s.flatMap String.utf8EncodeChar < t.flatMap String.utf8EncodeChar := by
  induction List.lex_lt.2 h with
  | @nil c rest =>
    rw [List.flatMap_nil, List.flatMap_cons]
    cases henc : String.utf8EncodeChar c with
    | nil => exact absurd henc String.utf8EncodeChar_ne_nil
    | cons byte more => exact List.nil_lt_cons ..
  | rel hlt => exact utf8EncodeChar_lt hlt _ _
  | cons hlex ih => exact List.append_left_lt (ih (List.lex_lt.1 hlex))

/-- Strings are ordered as their bytes are. -/
theorem bytes_lt_iff {s t : String} : bytes s < bytes t ↔ s < t := by
  have hmono : ∀ {s t : String}, s < t → bytes s < bytes t := by
    intro s t h
    rw [bytes_eq, bytes_eq]
    exact flatMap_utf8EncodeChar_lt (String.lt_iff_toList_lt.1 h)
  refine ⟨fun h => ?_, hmono⟩
  rcases Std.lt_trichotomy s t with hlt | rfl | hgt
  · exact hlt
  · exact absurd h (List.lt_irrefl _)
  · exact absurd h (List.lt_asymm (hmono hgt))

end Text

end ScopeRules
