/-
Include strings. `#name` asks for an entry of an enclosing repository, the
words for the enclosing grammar ask for its root, and everything else asks
for another grammar by scope, or, after the first `#`, for one entry of
that grammar. Every string asks for something.
-/
import ScopeRules.Vocabulary

namespace ScopeRules

/-- What an include string asks for. -/
inductive Include where
  /-- The nearest entry of this name. -/
  | entry (name : String)
  /-- The root of the enclosing grammar. -/
  | root
  /-- The grammar registered for `scope`, or its entry `name`. -/
  | foreign (scope : String) (name : Option String)
  deriving DecidableEq, Repr, Inhabited

namespace Include

/-- Reads an include string. An empty name after a scope counts as none. -/
def ofText (s : String) : Include :=
  match s.toList with
  | '#' :: name => .entry (String.ofList name)
  | cs =>
    if Vocabulary.isSelfWord s then .root
    else
      let name := (cs.dropWhile (· ≠ '#')).drop 1
      .foreign (String.ofList (cs.takeWhile (· ≠ '#')))
        (if name.isEmpty then none else some (String.ofList name))

/-- A foreign include as it is written. -/
def written (scope : String) : Option String → String
  | none => scope
  | some name => scope ++ "#" ++ name

theorem ofText_hash (name : String) : ofText ("#" ++ name) = .entry name := by
  have htext : ("#" ++ name).toList = '#' :: name.toList := by
    rw [String.toList_append]
    rfl
  unfold ofText
  rw [htext]
  exact congrArg Include.entry String.ofList_toList

/-- A text that is written as a scope, alone or with a hash and a name, asks
for that; an empty name counts as none. -/
theorem ofText_written {scope : String} {name : Option String} (hscope : '#' ∉ scope.toList)
    (hstart : scope ≠ "" ∨ name = none)
    (hself : Vocabulary.isSelfWord (written scope name) = false) :
    ofText (written scope name) = .foreign scope (name.filter fun name => name ≠ "") := by
  have hbefore : ∀ c ∈ scope.toList, decide (c ≠ '#') = true := by
    intro c hc
    refine decide_eq_true ?_
    intro heq
    subst heq
    exact hscope hc
  have hchars : (written scope name).toList
      = scope.toList ++ (name.map fun name => '#' :: name.toList).getD [] := by
    cases name with
    | none => exact (List.append_nil _).symm
    | some name =>
      unfold written
      rw [String.toList_append, String.toList_append, List.append_assoc]
      rfl
  unfold ofText
  split
  · -- the text starts with a hash
    rename_i cs hs
    rw [hchars] at hs
    cases hcs : scope.toList with
    | nil =>
      rcases hstart with hne | rfl
      · exact absurd (String.toList_eq_nil_iff.1 hcs) hne
      · rw [hcs] at hs
        cases hs
    | cons c more =>
      rw [hcs] at hs
      refine absurd ?_ hscope
      rw [hcs, (List.cons.inj hs).1]
      exact List.mem_cons_self ..
  · rw [if_neg (Bool.eq_false_iff.1 hself), hchars, List.takeWhile_append_of_pos hbefore,
      List.dropWhile_append_of_pos hbefore]
    cases name with
    | none => simp
    | some name => by_cases hname : name = "" <;> simp [hname, Option.filter]

def name? : Include → Option String
  | .entry name => some name
  | .root => none
  | .foreign _ name => name

def scope? : Include → Option String
  | .foreign scope _ => some scope
  | _ => none

end Include

end ScopeRules
