/-
The words of grammar documents. A rule dictionary has attribute keys, which
hold a string each, capture keys, which hold a dictionary of groups, and
three structural keys. Attribute and capture keys are spelled in one way
only; structural keys, and the two words for the enclosing grammar, in any
mixture of upper and lower case ASCII letters.
-/
namespace ScopeRules

-- ========================================================= letter case

/-- Whether two texts differ at most in the case of ASCII letters. -/
def sameUpToCase (a b : String) : Bool := a.toList.map Char.toLower = b.toList.map Char.toLower

-- ====================================================== attribute keys

/-- The keys whose strings a rule stores as they are. -/
inductive AttributeKey where
  | name | contentName | matchPattern | beginPattern | endPattern | whilePattern
  | scopeName | firstLineMatch | foldingStartMarker | foldingStopMarker | comment
  deriving DecidableEq, Repr, Inhabited

namespace AttributeKey

def all : List AttributeKey :=
  [name, contentName, matchPattern, beginPattern, endPattern, whilePattern,
    scopeName, firstLineMatch, foldingStartMarker, foldingStopMarker, comment]

def spelling : AttributeKey → String
  | name => "name"
  | contentName => "contentName"
  | matchPattern => "match"
  | beginPattern => "begin"
  | endPattern => "end"
  | whilePattern => "while"
  | scopeName => "scopeName"
  | firstLineMatch => "firstLineMatch"
  | foldingStartMarker => "foldingStartMarker"
  | foldingStopMarker => "foldingStopMarker"
  | comment => "comment"

def ofSpelling? (s : String) : Option AttributeKey := all.find? fun key => key.spelling = s

theorem mem_all (key : AttributeKey) : key ∈ all := by cases key <;> decide

theorem ofSpelling?_spelling (key : AttributeKey) : ofSpelling? key.spelling = some key := by
  cases key <;> decide

theorem spelling_of_ofSpelling? {s : String} {key : AttributeKey} (h : ofSpelling? s = some key) :
    key.spelling = s := by
  unfold ofSpelling? at h
  have hkey := List.find?_some h
  exact of_decide_eq_true hkey

end AttributeKey

-- ======================================================== capture keys

/-- The keys whose dictionaries describe match groups. -/
inductive CaptureKey where
  | captures | beginCaptures | endCaptures | whileCaptures
  deriving DecidableEq, Repr, Inhabited

namespace CaptureKey

def all : List CaptureKey := [captures, beginCaptures, endCaptures, whileCaptures]

def spelling : CaptureKey → String
  | captures => "captures"
  | beginCaptures => "beginCaptures"
  | endCaptures => "endCaptures"
  | whileCaptures => "whileCaptures"

def ofSpelling? (s : String) : Option CaptureKey := all.find? fun key => key.spelling = s

theorem mem_all (key : CaptureKey) : key ∈ all := by cases key <;> decide

theorem ofSpelling?_spelling (key : CaptureKey) : ofSpelling? key.spelling = some key := by
  cases key <;> decide

theorem spelling_of_ofSpelling? {s : String} {key : CaptureKey} (h : ofSpelling? s = some key) :
    key.spelling = s := by
  unfold ofSpelling? at h
  have hkey := List.find?_some h
  exact of_decide_eq_true hkey

end CaptureKey

-- ===================================================== structural keys

/-- The keys that nest rules in a rule. -/
inductive StructuralKey where
  | patterns | repository | injections
  deriving DecidableEq, Repr, Inhabited

namespace StructuralKey

def all : List StructuralKey := [patterns, repository, injections]

def spelling : StructuralKey → String
  | patterns => "patterns"
  | repository => "repository"
  | injections => "injections"

theorem mem_all (key : StructuralKey) : key ∈ all := by cases key <;> decide

/-- The key with this spelling, in any case. -/
def ofSpelling? (s : String) : Option StructuralKey :=
  all.find? fun key => sameUpToCase key.spelling s

theorem sameUpToCase_of_ofSpelling? {s : String} {key : StructuralKey}
    (h : ofSpelling? s = some key) : sameUpToCase key.spelling s = true := by
  unfold ofSpelling? at h
  have hkey := List.find?_some h
  exact hkey

end StructuralKey

-- ============================================================ rule keys

/-- What a key of a rule dictionary is. -/
inductive RuleKey where
  | attribute (key : AttributeKey)
  | captures (key : CaptureKey)
  | structural (key : StructuralKey)
  | unknown
  deriving DecidableEq, Repr, Inhabited

/-- What the spelling of a key says it is. No two spellings overlap: the
structural words are neither attribute nor capture keys in any case. -/
def RuleKey.ofSpelling (s : String) : RuleKey :=
  match AttributeKey.ofSpelling? s, CaptureKey.ofSpelling? s, StructuralKey.ofSpelling? s with
  | some key, _, _ => .attribute key
  | none, some key, _ => .captures key
  | none, none, some key => .structural key
  | none, none, none => .unknown

theorem RuleKey.ofSpelling_eq_attribute_iff {s : String} {key : AttributeKey} :
    RuleKey.ofSpelling s = .attribute key ↔ AttributeKey.ofSpelling? s = some key := by
  unfold RuleKey.ofSpelling
  cases AttributeKey.ofSpelling? s with
  | some other => simp
  | none => cases CaptureKey.ofSpelling? s <;> cases StructuralKey.ofSpelling? s <;> simp

/-- A capture key is known in one spelling, and nothing else is one. -/
theorem RuleKey.ofSpelling_eq_captures_iff {s : String} {key : CaptureKey} :
    RuleKey.ofSpelling s = .captures key ↔ s = key.spelling := by
  constructor
  · intro h
    unfold RuleKey.ofSpelling at h
    split at h <;> cases h
    exact (CaptureKey.spelling_of_ofSpelling? ‹_›).symm
  · rintro rfl
    cases key <;> decide

/-- A structural key is known in any case, and nothing else is one. -/
theorem RuleKey.ofSpelling_eq_structural_iff {s : String} {key : StructuralKey} :
    RuleKey.ofSpelling s = .structural key ↔ sameUpToCase key.spelling s = true := by
  constructor
  · intro h
    unfold RuleKey.ofSpelling at h
    split at h <;> cases h
    exact StructuralKey.sameUpToCase_of_ofSpelling? ‹_›
  · intro hsame
    have hattribute : AttributeKey.ofSpelling? s = none := by
      refine Option.eq_none_iff_forall_ne_some.2 fun other hother => ?_
      rw [← AttributeKey.spelling_of_ofSpelling? hother] at hsame
      revert hsame
      cases key <;> cases other <;> decide
    have hcapture : CaptureKey.ofSpelling? s = none := by
      refine Option.eq_none_iff_forall_ne_some.2 fun other hother => ?_
      rw [← CaptureKey.spelling_of_ofSpelling? hother] at hsame
      revert hsame
      cases key <;> cases other <;> decide
    have hstructural : StructuralKey.ofSpelling? s = some key := by
      have hfound : (StructuralKey.ofSpelling? s).isSome = true :=
        List.find?_isSome.2 ⟨key, key.mem_all, hsame⟩
      obtain ⟨other, hother⟩ := Option.isSome_iff_exists.1 hfound
      have hsame' := StructuralKey.sameUpToCase_of_ofSpelling? hother
      have hwords := (of_decide_eq_true hsame').trans (of_decide_eq_true hsame).symm
      have heq : other = key := by
        revert hwords
        cases other <;> cases key <;> decide
      rw [hother, heq]
    unfold RuleKey.ofSpelling
    rw [hattribute, hcapture, hstructural]

-- ========================================================== other words

namespace Vocabulary

/-- The key that makes an item or entry a reference. -/
def includeKey : String := "include"

/-- The key of a capture entry's label. -/
def labelKey : String := "name"

/-- A word for the root of the enclosing grammar. -/
def selfWord : String := "$self"

/-- The other word for the root of the enclosing grammar. -/
def baseWord : String := "$base"

/-- Whether an include string is a word for the enclosing grammar. -/
def isSelfWord (s : String) : Bool := sameUpToCase s selfWord || sameUpToCase s baseWord

/-- The largest match group that a document can describe. -/
def maxCaptureIndex : Nat := 65535

/-- The number that decimal digits spell; `none` for anything else, the
empty list included. -/
def decimal? (cs : List Char) : Option Nat :=
  if cs ≠ [] ∧ cs.all Char.isDigit then
    some (cs.foldl (fun n c => n * 10 + (c.toNat - '0'.toNat)) 0)
  else none

/-- The match group that a key of a capture dictionary denotes: decimal
digits, perhaps after one plus sign, of a number that is not too large. -/
def captureIndex? (key : String) : Option Nat :=
  let digits := match key.toList with
    | '+' :: rest => rest
    | cs => cs
  (decimal? digits).filter (· ≤ maxCaptureIndex)

end Vocabulary

end ScopeRules
