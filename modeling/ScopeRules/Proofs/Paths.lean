/-
Paths that are put together from names. Going through a directory one has
its path and the names in it; the path of a file is what joining them one
after the other yields, and this is the path by which the file is opened.

The parts of such a path are the parts of the directory and then the names
(`exists_parts_below`), up to the empty part that a path has which ends in a
slash. So it leads to where the names lead from the directory
(`LeadsTo.under`), and what the path says is the same whether the place of
the whole tree is put in front of it before or after (`shown_under`).
-/
import ScopeRules.Proofs.Listing
import ScopeRules.Session

namespace ScopeRules

-- =============================================================== paths

namespace Path

theorem splitAt_ne_nil {α : Type} [DecidableEq α] (sep : α) (xs : List α) :
    splitAt sep xs ≠ [] := by
  cases xs with
  | nil => exact List.cons_ne_nil _ _
  | cons x rest =>
    rw [splitAt]
    split
    · exact List.cons_ne_nil _ _
    · split <;> exact List.cons_ne_nil _ _

theorem splitAt_append {α : Type} [DecidableEq α] (sep : α) (xs ys : List α) :
    splitAt sep (xs ++ sep :: ys) = splitAt sep xs ++ splitAt sep ys := by
  induction xs with
  | nil => simp [splitAt]
  | cons x rest ih =>
    rw [List.cons_append, splitAt, splitAt, ih]
    split
    · rfl
    · cases hrest : splitAt sep rest with
      | nil => exact absurd hrest (splitAt_ne_nil sep rest)
      | cons part parts => rfl

theorem splitAt_of_not_mem {α : Type} [DecidableEq α] {sep : α} {xs : List α} (h : sep ∉ xs) :
    splitAt sep xs = [xs] := by
  induction xs with
  | nil => rfl
  | cons x rest ih =>
    have hx : x ≠ sep := fun hx => h (by simp [hx])
    have hrest : sep ∉ rest := fun hmem => h (by simp [hmem])
    rw [splitAt, if_neg hx, ih hrest]

/-- The path of what a name stands for in the directory with a path; the
outermost directory has the empty one. -/
def below (directory name : String) : String :=
  if directory = "" then name else join directory name

/-- The path of what names lead to, one after the other. -/
def under (directory : String) (names : List String) : String := names.foldl below directory

variable {directory name : String}

theorem IsName.parts_eq (h : IsName name) : parts name = [name] := by
  rw [parts, splitAt_of_not_mem h.slash, List.map_singleton, String.ofList_toList]

theorem IsName.not_absolute (h : IsName name) : isAbsolute name = false := by
  refine decide_eq_false fun hhead => h.slash ?_
  exact List.mem_of_mem_head? hhead

/-- The characters of the path of a name in a directory: a slash stands
between the two, and one that the directory ends in is not put there
again. -/
theorem toList_join (directory : String) (h : IsName name) :
    (∃ front, directory.toList = front ++ ['/']
      ∧ (join directory name).toList = front ++ '/' :: name.toList)
    ∨ (join directory name).toList = directory.toList ++ '/' :: name.toList := by
  rw [join, h.not_absolute]
  split
  · contradiction
  · split
    · rename_i hlast
      obtain ⟨front, hfront⟩ := List.getLast?_eq_some_iff.1 hlast
      refine .inl ⟨front, hfront, ?_⟩
      rw [String.toList_append, hfront, List.append_assoc, List.singleton_append]
    · refine .inr ?_
      rw [String.toList_append, String.toList_append, List.append_assoc]
      rfl

theorem parts_eq_of_toList {path : String} {front : List Char}
    (h : path.toList = front ++ '/' :: name.toList) (hname : IsName name) :
    parts path = (splitAt '/' front).map String.ofList ++ [name] := by
  rw [parts, h, splitAt_append, List.map_append]
  exact congrArg _ hname.parts_eq

/-- The parts of such a path are those of the directory and the name; an
empty last part of the directory is gone. -/
theorem exists_parts_below (directory : String) (h : IsName name) :
    ∃ front, (parts directory = front ∨ parts directory = front ++ [""])
      ∧ parts (below directory name) = front ++ [name] := by
  rw [below]
  split
  · rename_i hempty
    subst hempty
    exact ⟨[], .inr rfl, h.parts_eq⟩
  · rcases toList_join directory h with ⟨front, hfront, hjoin⟩ | hjoin
    · refine ⟨_, .inr ?_, parts_eq_of_toList hjoin h⟩
      rw [parts, hfront, splitAt_append, List.map_append]
      rfl
    · exact ⟨_, .inl rfl, parts_eq_of_toList hjoin h⟩

theorem mem_below {c : Char} (hc : c ∈ (below directory name).toList) (h : IsName name) :
    c ∈ directory.toList ∨ c = '/' ∨ c ∈ name.toList := by
  rw [below] at hc
  split at hc
  · exact .inr (.inr hc)
  · rcases toList_join directory h with ⟨front, hfront, hjoin⟩ | hjoin
    · rw [hjoin] at hc
      rw [hfront]
      simp only [List.mem_append, List.mem_cons] at hc ⊢
      tauto
    · rw [hjoin] at hc
      simpa using hc

theorem below_not_absolute (hdirectory : isAbsolute directory = false) (h : IsName name) :
    isAbsolute (below directory name) = false := by
  rw [below]
  split
  · exact h.not_absolute
  · rename_i hempty
    have hne : directory.toList ≠ [] := fun hnil => hempty (String.toList_eq_nil_iff.1 hnil)
    have hhead : (join directory name).toList.head? = directory.toList.head? := by
      rcases toList_join directory h with ⟨front, hfront, hjoin⟩ | hjoin
      · rw [hjoin, hfront]
        cases front <;> rfl
      · rw [hjoin, List.head?_append_of_ne_nil _ hne]
    rw [isAbsolute, hhead]
    exact hdirectory

/-- A path that is not absolute can be put together in either order. -/
theorem join_join (root : String) (hdirectory : isAbsolute directory = false)
    (hempty : directory ≠ "") (h : IsName name) :
    join root (join directory name) = join (join root directory) name := by
  have habsolute := below_not_absolute hdirectory h
  rw [below, if_neg hempty] at habsolute
  have hne : directory.toList ≠ [] := fun hnil => hempty (String.toList_eq_nil_iff.1 hnil)
  have hlast : (join root directory).toList.getLast? = directory.toList.getLast? := by
    simp only [join, hdirectory]
    split
    · contradiction
    · split
      · rw [String.toList_append, List.getLast?_append_of_ne_nil _ hne]
      · rw [String.toList_append, List.getLast?_append_of_ne_nil _ hne]
  have hroot : ∀ path, isAbsolute path = false →
      join root path = if root.toList.getLast? = some '/' then root ++ path
        else root ++ "/" ++ path := by
    intro path hpath
    simp [join, hpath]
  have hjoin : ∀ d, join d name = if d.toList.getLast? = some '/' then d ++ name
        else d ++ "/" ++ name := by
    intro d
    simp [join, h.not_absolute]
  rw [hroot _ habsolute, hjoin (join root directory), hlast, hroot _ hdirectory, hjoin]
  split <;> split <;> simp [String.append_assoc]

end Path

-- ============================================================ look-ups

namespace FileTree

/-- The parts of a path are followed one after the other. -/
theorem exists_locate_append (above : List FileTree) (here : FileTree) (front : List String) :
    ∃ above', ∀ last, locate above here (front ++ last)
      = (locate above here front).bind fun t => locate above' t last := by
  induction front generalizing above here with
  | nil => exact ⟨above, fun _ => rfl⟩
  | cons part rest ih =>
    cases here with
    | file bytes => exact ⟨[], fun _ => rfl⟩
    | directory entries =>
      simp only [List.cons_append, locate]
      split
      · exact ih above _
      · split
        · cases above with
          | nil => exact ih [] _
          | cons outer further => exact ih further outer
        · split
          · exact ⟨[], fun _ => rfl⟩
          · cases Assoc.get? entries part with
            | none => exact ⟨[], fun _ => rfl⟩
            | some next => exact ih (.directory entries :: above) next

theorem locate_name {above : List FileTree} {entries : List (String × FileTree)} {name : String}
    {next : FileTree} (h : Path.IsName name) (hentry : Assoc.get? entries name = some next) :
    locate above (.directory entries) [name] = .ok next := by
  have hdot : ¬ (name = "" ∨ name = ".") := not_or.2 ⟨h.ne_empty, h.ne_dot⟩
  simp only [locate, if_neg hdot, if_neg h.ne_dots, if_neg (Nat.not_lt.2 h.short), hentry]

/-- Something in a tree has this path, as far as looking it up goes. -/
structure LeadsTo (t : FileTree) (path : String) (here : FileTree) : Prop where
  nul : '\x00' ∉ path.toList
  relative : Path.isAbsolute path = false
  located : t.locate [] (Path.parts path) = .ok here

theorem leadsTo_of_at? {t here : FileTree} {path : String} (h : t.at? path = .ok here) :
    LeadsTo t path here := by
  rw [at?, FileError.ofPath?] at h
  split at h
  · contradiction
  · rename_i hnone
    split at hnone
    · contradiction
    · rename_i hnul
      split at hnone
      · contradiction
      · split at hnone
        · contradiction
        · rename_i habsolute
          exact ⟨by simpa using hnul, Bool.eq_false_iff.2 habsolute, h⟩

theorem LeadsTo.at?_eq {t here : FileTree} {path : String} (h : LeadsTo t path here)
    (hshort : path.utf8ByteSize ≤ Path.maxPath) : t.at? path = .ok here := by
  have hnone : FileError.ofPath? path = none := by
    simp [FileError.ofPath?, h.nul, Nat.not_lt.2 hshort, h.relative]
  rw [at?, hnone]
  exact h.located

/-- From the path of a directory to that of something in it. -/
theorem LeadsTo.below {t next : FileTree} {path name : String}
    {entries : List (String × FileTree)} (h : LeadsTo t path (.directory entries))
    (hname : Path.IsName name) (hentry : Assoc.get? entries name = some next) :
    LeadsTo t (Path.below path name) next where
  nul := by
    intro hmem
    rcases Path.mem_below hmem hname with hmem | hslash | hmem
    · exact h.nul hmem
    · exact absurd hslash (by decide)
    · exact hname.nul hmem
  relative := Path.below_not_absolute h.relative hname
  located := by
    obtain ⟨front, hparts, hbelow⟩ := Path.exists_parts_below path hname
    obtain ⟨above, happend⟩ := exists_locate_append [] t front
    have hfront : t.locate [] front = .ok (.directory entries) := by
      have hlocated := h.located
      rcases hparts with hparts | hparts
      · rwa [hparts] at hlocated
      · -- the empty last part leads nowhere else
        rw [hparts, happend] at hlocated
        cases hfront : t.locate [] front with
        | error e =>
          rw [hfront] at hlocated
          cases hlocated
        | ok here =>
          rw [hfront] at hlocated
          cases here with
          | file bytes => cases hlocated
          | directory inner => exact hlocated
    rw [hbelow, happend, hfront]
    exact locate_name hname hentry

/-- From the path of a directory to that of a file anywhere in it. -/
theorem LeadsTo.under {t here : FileTree} {path : String} {names : List String}
    {bytes : List UInt8} (h : LeadsTo t path here) (hproper : here.Proper)
    (hholds : here.Holds names bytes) : LeadsTo t (Path.under path names) (.file bytes) := by
  induction hholds generalizing path with
  | file bytes => exact h
  | inside hentry _ ih =>
    obtain ⟨hdistinct, hnames, hinner⟩ := proper_directory_iff.1 hproper
    have hnext := h.below (hnames _ hentry) (Assoc.get?_of_mem hdistinct hentry)
    exact ih hnext (hinner _ hentry)

/-- Only names lead to the files of a proper tree. -/
theorem Proper.isName_of_mem {t : FileTree} (h : t.Proper) {names : List String}
    {bytes : List UInt8} (hholds : t.Holds names bytes) : ∀ name ∈ names, Path.IsName name := by
  induction hholds with
  | file bytes => exact fun name hname => nomatch hname
  | inside hentry _ ih =>
    obtain ⟨-, hnames, hinner⟩ := proper_directory_iff.1 h
    exact List.forall_mem_cons.2 ⟨hnames _ hentry, ih (hinner _ hentry)⟩

end FileTree

namespace Session

variable {s : Session} {path : String}

theorem shown_below (hpath : Path.isAbsolute path = false) {name : String}
    (h : Path.IsName name) : s.shown (Path.below path name) = Path.join (s.shown path) name := by
  by_cases hempty : path = ""
  · simp [Path.below, shown, hempty, h.ne_empty]
  · have hjoin : Path.join path name ≠ "" := by
      intro hnil
      rcases Path.toList_join path h with ⟨front, -, hchars⟩ | hchars
      · simp [hnil] at hchars
      · simp [hnil] at hchars
    simp [Path.below, shown, hempty, hjoin, Path.join_join s.filesPath hpath hempty h]

/-- A file is shown below the place at which its directory is shown. -/
theorem shown_under (hpath : Path.isAbsolute path = false) {names : List String}
    (h : ∀ name ∈ names, Path.IsName name) :
    s.shown (Path.under path names) = names.foldl Path.join (s.shown path) := by
  induction names generalizing path with
  | nil => rfl
  | cons name rest ih =>
    obtain ⟨hname, hrest⟩ := List.forall_mem_cons.1 h
    have hbelow := ih (Path.below_not_absolute hpath hname) hrest
    rw [Path.under, List.foldl_cons, List.foldl_cons, ← shown_below hpath hname]
    exact hbelow

end Session

end ScopeRules
