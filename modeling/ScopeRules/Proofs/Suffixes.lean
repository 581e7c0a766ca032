/-
Which file names count as grammars. The name of a file is cut at a byte: as
many bytes from its end as the extension and a point have. The rule says
something simpler, that the name can be split into something, a point, and
the extension up to the case of ASCII letters, and mentions no length at
all. This file closes the gap between the two (`Config.accepts_iff`).

# From a length to a split

Two texts that differ in the case of ASCII letters only have equally many
bytes (`utf8ByteSize_eq`), so wherever the rule splits a name, the length of
the extension says where (`hasExtension?_eq_some_true_iff`). In the other
direction a cut is a split of the characters (`Text.dropBytes?_eq_some_iff`):
a cut that falls inside a character finds nothing, and then no split of the
rule's kind exists.

A point is one byte, so what follows it can always be cut off
(`isSome_hasExtension?`).
-/
import Mathlib.Data.String.Basic
import ScopeRules.Config
import ScopeRules.Proofs.ByteOrder
import ScopeRules.Proofs.SideBySide

namespace ScopeRules

-- ============================================================== letters

/-- Whether `b` is the small form of the capital ASCII letter `a`. -/
def IsSmallOf (a b : Char) : Prop := 65 ≤ a.toNat ∧ a.toNat ≤ 90 ∧ b.toNat = a.toNat + 32

/-- Whether two characters are one, but for the case of an ASCII letter. -/
def SameLetter (a b : Char) : Prop := a = b ∨ IsSmallOf a b ∨ IsSmallOf b a

theorem toNat_toLower (c : Char) :
    c.toLower.toNat = if 65 ≤ c.toNat ∧ c.toNat ≤ 90 then c.toNat + 32 else c.toNat := by
  have hcapital : (c.val ≥ 'A'.val ∧ c.val ≤ 'Z'.val) ↔ (65 ≤ c.toNat ∧ c.toNat ≤ 90) := by
    simp only [ge_iff_le, UInt32.le_iff_toNat_le]
    rfl
  unfold Char.toLower
  by_cases h : 65 ≤ c.toNat ∧ c.toNat ≤ 90
  · rw [dif_pos (hcapital.2 h), if_pos h]
    have hle : c.val.toNat ≤ 90 := h.2
    show (c.val + 32).toNat = c.val.toNat + 32
    rw [UInt32.toNat_add, show UInt32.toNat 32 = 32 from rfl]
    exact Nat.mod_eq_of_lt (by omega)
  · rw [dif_neg (fun hval => h (hcapital.1 hval)), if_neg h]

theorem toLower_eq_toLower_iff {a b : Char} : a.toLower = b.toLower ↔ SameLetter a b := by
  unfold SameLetter IsSmallOf
  rw [← Char.toNat_inj, ← Char.toNat_inj (c := a), toNat_toLower, toNat_toLower]
  constructor
  · intro h
    split at h <;> split at h <;> omega
  · intro h
    split <;> split <;> omega

/-- Two texts differ at most in the case of ASCII letters if they do so
letter by letter. -/
theorem sameUpToCase_iff {s t : String} :
    sameUpToCase s t = true ↔ List.Forall₂ SameLetter s.toList t.toList := by
  unfold sameUpToCase
  rw [decide_eq_true_eq, ← List.forall₂_eq_eq_eq, List.forall₂_map_left_iff,
    List.forall₂_map_right_iff]
  simp only [toLower_eq_toLower_iff]

/-- The two cases of a letter have one byte each. -/
theorem SameLetter.utf8Size_eq {a b : Char} (h : SameLetter a b) : a.utf8Size = b.utf8Size := by
  have hone : ∀ c : Char, c.toNat ≤ 122 → c.utf8Size = 1 := by
    intro c hc
    rw [Char.utf8Size_eq_one_iff, UInt32.le_iff_toNat_le]
    exact Nat.le_trans hc (by decide)
  rcases h with rfl | ⟨-, ha, hb⟩ | ⟨-, hb, ha⟩
  · rfl
  · rw [hone a (by omega), hone b (by omega)]
  · rw [hone a (by omega), hone b (by omega)]

theorem utf8Len_eq_of_sameLetter {as bs : List Char} (h : List.Forall₂ SameLetter as bs) :
    String.utf8Len as = String.utf8Len bs := by
  induction h with
  | nil => rfl
  | cons hab _ ih => rw [String.utf8Len_cons, String.utf8Len_cons, ih, hab.utf8Size_eq]

-- ================================================================= cuts

namespace Text

theorem utf8ByteSize_eq (s : String) : s.utf8ByteSize = String.utf8Len s.toList := by
  rw [← String.utf8ByteSize_ofList, String.ofList_toList]

/-- The bytes of whole characters can be cut off. -/
theorem dropBytes?_append (front rest : List Char) :
    dropBytes? (String.utf8Len front) (front ++ rest) = some rest := by
  induction front with
  | nil => rw [String.utf8Len_nil, List.nil_append, dropBytes?]
  | cons c front ih =>
    have hpos := c.utf8Size_pos
    have hsize := String.utf8Len_cons c front
    obtain ⟨n, hn⟩ : ∃ n, String.utf8Len (c :: front) = n + 1 :=
      Nat.exists_eq_succ_of_ne_zero (by omega)
    have hrest : n + 1 - c.utf8Size = String.utf8Len front := by omega
    rw [hn, List.cons_append, dropBytes?, if_pos (by omega), hrest, ih]

/-- Cutting off bytes is cutting off the characters that they are, and is
possible if they are whole characters. -/
theorem dropBytes?_eq_some_iff {n : Nat} {cs rest : List Char} :
    dropBytes? n cs = some rest ↔ ∃ front, cs = front ++ rest ∧ String.utf8Len front = n := by
  constructor
  · intro h
    induction cs generalizing n with
    | nil =>
      cases n with
      | zero =>
        cases h
        exact ⟨[], rfl, rfl⟩
      | succ n => cases h
    | cons c cs ih =>
      cases n with
      | zero =>
        cases h
        exact ⟨[], rfl, rfl⟩
      | succ n =>
        rw [dropBytes?] at h
        split at h
        · obtain ⟨front, rfl, hsize⟩ := ih h
          refine ⟨c :: front, rfl, ?_⟩
          rw [String.utf8Len_cons]
          omega
        · cases h
  · rintro ⟨front, rfl, rfl⟩
    exact dropBytes?_append front rest

/-- A text is what is read from its bytes, and from no others. -/
theorem fromUTF8?_eq_some_iff {bs : List UInt8} {s : String} :
    String.fromUTF8? ⟨bs.toArray⟩ = some s ↔ bytes s = bs := by
  unfold String.fromUTF8?
  constructor
  · intro h
    split at h
    · cases h
      rfl
    · cases h
  · rintro rfl
    rw [bytes, Array.toArray_toList, String.toUTF8_eq_toByteArray, dif_pos s.isValidUTF8]
    rfl

end Text

-- ============================================================ extensions

namespace Config

/-- What a length says that is subtracted is there to be subtracted. -/
theorem stemSize?_eq_some_iff {extension name : String} {n : Nat} :
    stemSize? extension name = some n
      ↔ n + (extension.utf8ByteSize + 1) = name.utf8ByteSize := by
  unfold stemSize?
  split
  · rw [Option.some.injEq]
    omega
  · constructor
    · intro h
      cases h
    · omega

/-- A point is one byte long, so the text after it can be cut off. -/
theorem dropBytes?_one_point (suffix : List Char) :
    Text.dropBytes? 1 ('.' :: suffix) = some suffix :=
  Text.dropBytes?_eq_some_iff.2 ⟨['.'], rfl, rfl⟩

/-- No cut that is made unchecked falls inside a character. -/
theorem isSome_hasExtension? (extension name : String) :
    (hasExtension? extension name).isSome = true := by
  unfold hasExtension?
  split
  · rfl
  · rfl
  · split
    · rfl
    · rename_i tail _
      split
      · rename_i hpoint
        obtain ⟨suffix, rfl⟩ := List.head?_eq_some_iff.1 hpoint
        rw [dropBytes?_one_point]
        rfl
      · rfl

/-- A name has an extension if it is something, a point, and the extension
up to the case of ASCII letters. -/
theorem hasExtension?_eq_some_true_iff {extension name : String} :
    hasExtension? extension name = some true
      ↔ ∃ stem tail, name = stem ++ "." ++ tail ∧ stem ≠ ""
        ∧ sameUpToCase tail extension = true := by
  constructor
  · intro h
    unfold hasExtension? at h
    split at h
    · cases h
    · cases h
    · rename_i n hzero hn
      split at h
      · cases h
      · rename_i tail htail
        split at h
        · rename_i hpoint
          obtain ⟨suffix, rfl⟩ := List.head?_eq_some_iff.1 hpoint
          obtain ⟨front, hname, hsize⟩ := Text.dropBytes?_eq_some_iff.1 htail
          rw [dropBytes?_one_point, Option.map_some, Option.some.injEq] at h
          refine ⟨String.ofList front, String.ofList suffix, ?_, ?_, h⟩
          · rw [← String.toList_inj, hname]
            simp
          · intro hempty
            rw [String.ofList_eq_empty_iff.1 hempty] at hsize
            exact hzero hsize.symm
        · cases h
  · rintro ⟨stem, tail, rfl, hstem, hsame⟩
    have hsize := utf8Len_eq_of_sameLetter (sameUpToCase_iff.1 hsame)
    have hpos : String.utf8Len stem.toList ≠ 0 := by
      rw [Ne, String.utf8Len_eq_zero, String.toList_eq_nil_iff]
      exact hstem
    obtain ⟨n, hn⟩ := Nat.exists_eq_succ_of_ne_zero hpos
    have hstemSize : stemSize? extension (stem ++ "." ++ tail)
        = some (String.utf8Len stem.toList) := by
      rw [stemSize?_eq_some_iff, String.utf8ByteSize_append, String.utf8ByteSize_append,
        Text.utf8ByteSize_eq extension, Text.utf8ByteSize_eq stem, Text.utf8ByteSize_eq tail,
        hsize]
      show _ = _ + 1 + _
      omega
    have hchars : (stem ++ "." ++ tail).toList = stem.toList ++ '.' :: tail.toList := by simp
    have htail := Text.dropBytes?_append stem.toList ('.' :: tail.toList)
    rw [hn] at hstemSize htail
    unfold hasExtension?
    simp only [hstemSize, hchars, htail, List.head?_cons, if_true, dropBytes?_one_point,
      Option.map_some, String.ofList_toList, hsame]

-- ============================================================== the law

/-- A name counts if it has one of the extensions. -/
theorem any_hasExtension?_iff {extensions : List String} {name : String} :
    (extensions.any fun extension => (hasExtension? extension name).getD false) = true
      ↔ ∃ stem tail, name = stem ++ "." ++ tail ∧ stem ≠ ""
        ∧ ∃ extension ∈ extensions, List.Forall₂ SameLetter tail.toList extension.toList := by
  have hgetD : ∀ extension, (hasExtension? extension name).getD false = true
      ↔ hasExtension? extension name = some true := by
    intro extension
    obtain ⟨b, hb⟩ := Option.isSome_iff_exists.1 (isSome_hasExtension? extension name)
    rw [hb, Option.getD_some, Option.some.injEq]
  simp only [List.any_eq_true, hgetD, hasExtension?_eq_some_true_iff, sameUpToCase_iff]
  constructor
  · rintro ⟨extension, hmem, stem, tail, hname, hstem, hsame⟩
    exact ⟨stem, tail, hname, hstem, extension, hmem, hsame⟩
  · rintro ⟨stem, tail, hname, hstem, extension, hmem, hsame⟩
    exact ⟨extension, hmem, stem, tail, hname, hstem, hsame⟩

/-- The text that a file is named by has the bytes of the last name. -/
theorem fileText?_eq_some_iff {path : List UInt8} {name : String} :
    ((Path.fileName? path).bind fun bs => String.fromUTF8? ⟨bs.toArray⟩) = some name
      ↔ Path.fileName? path = some (Text.bytes name) := by
  rw [Option.bind_eq_some_iff]
  constructor
  · rintro ⟨bs, hbs, htext⟩
    rw [hbs, Text.fromUTF8?_eq_some_iff.1 htext]
  · intro hbs
    exact ⟨_, hbs, Text.fromUTF8?_eq_some_iff.2 rfl⟩

/-- A path is that of a grammar file exactly if it has a last name, that name
is text, and it can be split into something that is not empty, a point, and
one of the configured extensions up to the case of ASCII letters. To decide
this, no length is subtracted from a smaller one, and every cut, whether it
is checked or not, is made between two characters. -/
theorem accepts_iff (c : Config) (path : List UInt8) :
    (c.accepts path = true
      ↔ ∃ name, Path.fileName? path = some (Text.bytes name)
        ∧ ∃ stem tail, name = stem ++ "." ++ tail ∧ stem ≠ ""
          ∧ ∃ extension ∈ c.extensions, List.Forall₂ SameLetter tail.toList extension.toList)
      ∧ ∀ extension name, (hasExtension? extension name).isSome = true
        ∧ ∀ n, stemSize? extension name = some n →
          n + (extension.utf8ByteSize + 1) = name.utf8ByteSize
          ∧ ∀ rest, Text.dropBytes? n name.toList = some rest →
            ∃ front, name = front ++ String.ofList rest ∧ front.utf8ByteSize = n := by
  refine ⟨?_, ?_⟩
  · unfold accepts
    cases htext : (Path.fileName? path).bind fun bs => String.fromUTF8? ⟨bs.toArray⟩ with
    | none =>
      constructor
      · intro h
        cases h
      · rintro ⟨name, hname, -⟩
        rw [fileText?_eq_some_iff.2 hname] at htext
        cases htext
    | some name =>
      rw [any_hasExtension?_iff]
      constructor
      · intro h
        exact ⟨name, fileText?_eq_some_iff.1 htext, h⟩
      · rintro ⟨other, hother, h⟩
        rw [fileText?_eq_some_iff.2 hother] at htext
        cases htext
        exact h
  · intro extension name
    refine ⟨isSome_hasExtension? extension name, ?_⟩
    intro n hn
    refine ⟨stemSize?_eq_some_iff.1 hn, ?_⟩
    intro rest hrest
    obtain ⟨front, hname, hsize⟩ := Text.dropBytes?_eq_some_iff.1 hrest
    refine ⟨String.ofList front, ?_, ?_⟩
    · rw [← String.ofList_append, ← hname, String.ofList_toList]
    · rw [String.utf8ByteSize_ofList, hsize]

-- two bytes from the end of `é.` is inside the `é`
example : hasExtension? "x" "é." = some false := by decide

end Config

end ScopeRules
