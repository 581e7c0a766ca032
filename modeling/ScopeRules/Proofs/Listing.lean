/-
The grammar files of a directory tree. Which files a directory contributes
is settled by a recursion that sorts at every level; here the same list is
described without it.

# A list with these members in this order

A file in a tree is known by the names that lead to it. A list of files in
which the names increase, compared name by name and each name by its bytes,
is the list of its members and nothing else (`eq_of_mem_iff`). For that
order a directory stands where its name does and everything in it stands
together, so it is the order in which a walk through the tree that takes the
entries of every directory by name comes to the files. `exists_listing` says
that the recursion yields the increasing list of the files that are to be
loaded.

# What it does not depend on

So of two trees with the same files, one that lists its directories in
another order among them (`Relisted`), the grammar files are the same; and
without some files (`delete`) a tree has the grammar files that are left, in
the order they had.
-/
import Mathlib.Data.List.Sort
import ScopeRules.Loader
import ScopeRules.Proofs.ByteOrder
import ScopeRules.Proofs.Dictionaries
import ScopeRules.Proofs.Run

namespace ScopeRules

-- ============================================================== names

namespace Path

/-- What can be the name of a file or directory. -/
structure IsName (name : String) : Prop where
  ne_empty : name ≠ ""
  ne_dot : name ≠ "."
  ne_dots : name ≠ ".."
  slash : '/' ∉ name.toList
  nul : '\x00' ∉ name.toList
  short : name.utf8ByteSize ≤ maxName

instance (name : String) : Decidable (IsName name) :=
  decidable_of_iff
    (name ≠ "" ∧ name ≠ "." ∧ name ≠ ".." ∧ '/' ∉ name.toList ∧ '\x00' ∉ name.toList
      ∧ name.utf8ByteSize ≤ maxName)
    ⟨fun ⟨h, h', h'', hslash, hnul, hshort⟩ => ⟨h, h', h'', hslash, hnul, hshort⟩,
      fun h => ⟨h.ne_empty, h.ne_dot, h.ne_dots, h.slash, h.nul, h.short⟩⟩

/-- The order of names, one below the other: each is compared by its bytes,
and what stands in a directory comes where the directory comes. -/
def Before (names names' : List String) : Prop := names.map Text.bytes < names'.map Text.bytes

instance (names names' : List String) : Decidable (Before names names') :=
  inferInstanceAs (Decidable (names.map Text.bytes < names'.map Text.bytes))

theorem Before.asymm {names names' : List String} (h : Before names names') :
    ¬ Before names' names := List.lt_asymm h

theorem before_cons_self {name : String} {names names' : List String}
    (h : Before names names') : Before (name :: names) (name :: names') :=
  List.cons_lt_cons_iff.2 (.inr ⟨rfl, h⟩)

theorem before_of_lt {name name' : String} (h : name < name') (names names' : List String) :
    Before (name :: names) (name' :: names') :=
  List.cons_lt_cons_iff.2 (.inl (Text.bytes_lt_iff.2 h))

end Path

namespace FileTree

-- ============================================================== trees

/-- A tree as a disk can hold it: the names in a directory are names, and
none of them stands for two things. -/
inductive Proper : FileTree → Prop
  | file (bytes : List UInt8) : Proper (.file bytes)
  | directory {entries : List (String × FileTree)} (distinct : Assoc.Distinct entries)
      (names : ∀ p ∈ entries, Path.IsName p.1) (inner : ∀ p ∈ entries, Proper p.2) :
      Proper (.directory entries)

theorem proper_directory_iff {entries : List (String × FileTree)} :
    (directory entries).Proper
      ↔ Assoc.Distinct entries ∧ (∀ p ∈ entries, Path.IsName p.1) ∧ ∀ p ∈ entries, p.2.Proper := by
  constructor
  · rintro ⟨⟩
    rename_i hdistinct hnames hinner
    exact ⟨hdistinct, hnames, hinner⟩
  · rintro ⟨hdistinct, hnames, hinner⟩
    exact .directory hdistinct hnames hinner

/-- The names lead from a tree to a file in it. -/
inductive Holds : FileTree → List String → List UInt8 → Prop
  | file (bytes : List UInt8) : Holds (.file bytes) [] bytes
  | inside {entries : List (String × FileTree)} {name : String} {inner : FileTree}
      {names : List String} {bytes : List UInt8} (entry : (name, inner) ∈ entries)
      (rest : Holds inner names bytes) : Holds (.directory entries) (name :: names) bytes

theorem holds_file_iff {bytes bytes' : List UInt8} {names : List String} :
    (file bytes).Holds names bytes' ↔ names = [] ∧ bytes' = bytes := by
  constructor
  · rintro ⟨⟩
    exact ⟨rfl, rfl⟩
  · rintro ⟨rfl, rfl⟩
    exact .file _

theorem holds_directory_iff {entries : List (String × FileTree)} {names : List String}
    {bytes : List UInt8} :
    (directory entries).Holds names bytes
      ↔ ∃ p ∈ entries, ∃ rest, names = p.1 :: rest ∧ p.2.Holds rest bytes := by
  constructor
  · rintro ⟨⟩
    rename_i name inner names hentry hrest
    exact ⟨(name, inner), hentry, names, rfl, hrest⟩
  · rintro ⟨p, hp, rest, rfl, hrest⟩
    exact .inside hp hrest

-- ============================================================ listings

variable {c : Config}

/-- A file with the names that lead to it, by its path below `shown`. -/
def reported (shown : String) (f : List String × List UInt8) : GrammarFile :=
  ⟨f.1.foldl Path.join shown, f.2⟩

/-- Whether the file to which the names lead is one to be loaded. -/
def Wanted (c : Config) (shown : String) (names : List String) : Prop :=
  (names.length = 1 ∨ c.recursive = true) ∧ c.acceptsText (names.foldl Path.join shown) = true

/-- The files of a tree that are to be loaded, in the order of their
names. -/
structure Listing (c : Config) (shown : String) (t : FileTree)
    (files : List (List String × List UInt8)) : Prop where
  sorted : (files.map Prod.fst).Pairwise Path.Before
  mem : ∀ names bytes, (names, bytes) ∈ files ↔ t.Holds names bytes ∧ Wanted c shown names

/-- There is one such list only. -/
theorem Listing.unique {shown : String} {t : FileTree}
    {files files' : List (List String × List UInt8)} (h : Listing c shown t files)
    (h' : Listing c shown t files') : files = files' := by
  have hirrefl : ∀ {x : List String}, ¬ Path.Before x x := fun hx => hx.asymm hx
  have : Std.Irrefl fun a b : List String × List UInt8 => Path.Before a.1 b.1 := ⟨fun _ => hirrefl⟩
  have : Std.Antisymm fun a b : List String × List UInt8 => Path.Before a.1 b.1 :=
    ⟨fun _ _ hab hba => absurd hba hab.asymm⟩
  refine List.Pairwise.eq_of_mem_iff (List.pairwise_map.1 h.sorted) (List.pairwise_map.1 h'.sorted)
    fun f => ?_
  rw [h.mem, h'.mem]

/-- The grammar files that one entry of a directory contributes. -/
def entryFiles (c : Config) (shown : String) : String × FileTree → List GrammarFile
  | (name, .file bytes) =>
    if c.acceptsText (Path.join shown name) then [⟨Path.join shown name, bytes⟩] else []
  | (name, .directory entries) =>
    if c.recursive then grammarFiles c (Path.join shown name) (.directory entries) else []

theorem grammarFilesByName_eq_map (c : Config) (shown : String)
    (entries : List (String × FileTree)) :
    grammarFilesByName c shown entries = entries.map fun p => (p.1, entryFiles c shown p) := by
  induction entries with
  | nil => rw [grammarFilesByName, List.map_nil]
  | cons p rest ih =>
    obtain ⟨name, t⟩ := p
    cases t <;> rw [grammarFilesByName, ih] <;> rfl

theorem grammarFiles_directory (c : Config) (shown : String)
    (entries : List (String × FileTree)) :
    grammarFiles c shown (.directory entries)
      = (Assoc.sorted Registry.before entries).flatMap (entryFiles c shown) := by
  rw [grammarFiles, grammarFilesByName_eq_map]
  refine (congrArg (List.flatMap Prod.snd) (Assoc.sorted_map (entryFiles c shown) entries)).trans ?_
  rw [List.flatMap_map]
  rfl

/-- The files of one entry of a directory that are to be loaded. -/
structure EntryListing (c : Config) (shown : String) (p : String × FileTree)
    (files : List (List String × List UInt8)) : Prop where
  sorted : (files.map Prod.fst).Pairwise Path.Before
  mem : ∀ names bytes, (names, bytes) ∈ files
    ↔ ∃ rest, names = p.1 :: rest ∧ p.2.Holds rest bytes ∧ Wanted c shown names
  files : entryFiles c shown p = files.map (reported shown)

theorem exists_entryListing_file (c : Config) (shown name : String) (bytes : List UInt8) :
    ∃ files, EntryListing c shown (name, .file bytes) files := by
  by_cases haccepts : c.acceptsText (Path.join shown name) = true
  · refine ⟨[([name], bytes)], List.pairwise_singleton _ _, fun names content => ?_,
      if_pos haccepts⟩
    simp only [List.mem_singleton, Prod.mk.injEq, holds_file_iff, Wanted]
    constructor
    · rintro ⟨rfl, rfl⟩
      exact ⟨[], rfl, ⟨rfl, rfl⟩, .inl rfl, haccepts⟩
    · rintro ⟨_, rfl, ⟨rfl, rfl⟩, -, -⟩
      exact ⟨rfl, rfl⟩
  · refine ⟨[], List.Pairwise.nil, fun names content => ?_, if_neg haccepts⟩
    simp only [List.not_mem_nil, false_iff, holds_file_iff, Wanted]
    rintro ⟨_, rfl, ⟨rfl, -⟩, -, h⟩
    exact haccepts h

theorem exists_entryListing_directory (c : Config) (shown name : String)
    (entries : List (String × FileTree))
    (h : ∃ files, Listing c (Path.join shown name) (.directory entries) files
      ∧ grammarFiles c (Path.join shown name) (.directory entries)
        = files.map (reported (Path.join shown name))) :
    ∃ files, EntryListing c shown (name, .directory entries) files := by
  by_cases hrecursive : c.recursive = true
  · obtain ⟨files, hfiles, hgrammar⟩ := h
    refine ⟨files.map fun f => (name :: f.1, f.2), ?_, fun names bytes => ?_, ?_⟩
    · have hsorted := List.pairwise_map.1 hfiles.sorted
      rw [List.map_map]
      exact List.pairwise_map.2 (hsorted.imp Path.before_cons_self)
    · constructor
      · rintro hmem
        obtain ⟨⟨rest, content⟩, hf, heq⟩ := List.mem_map.1 hmem
        obtain ⟨rfl, rfl⟩ := Prod.mk.inj heq
        obtain ⟨hholds, -, haccepts⟩ := (hfiles.mem _ _).1 hf
        exact ⟨rest, rfl, hholds, .inr hrecursive, haccepts⟩
      · rintro ⟨rest, rfl, hholds, -, haccepts⟩
        exact List.mem_map.2
          ⟨(rest, bytes), (hfiles.mem _ _).2 ⟨hholds, .inr hrecursive, haccepts⟩, rfl⟩
    · rw [List.map_map]
      exact (if_pos hrecursive).trans hgrammar
  · refine ⟨[], List.Pairwise.nil, fun names bytes => ?_, if_neg hrecursive⟩
    simp only [List.not_mem_nil, false_iff, Wanted]
    rintro ⟨rest, rfl, hholds, hlength | hrec, -⟩
    · obtain rfl : rest = [] := List.eq_nil_of_length_eq_zero (by simpa using hlength)
      cases hholds
    · exact hrecursive hrec

/-- The recursion through a directory yields the files that are to be
loaded, in the order of their names. -/
theorem exists_listing {entries : List (String × FileTree)} (h : (directory entries).Proper)
    (c : Config) (shown : String) :
    ∃ files, Listing c shown (.directory entries) files
      ∧ grammarFiles c shown (.directory entries) = files.map (reported shown) := by
  generalize ht : directory entries = t at h
  induction h generalizing entries shown with
  | file bytes => cases ht
  | directory hdistinct _ _ ih =>
    obtain rfl := FileTree.directory.inj ht
    have hentry : ∀ p : String × FileTree, ∃ files, p ∈ entries → EntryListing c shown p files := by
      intro p
      by_cases hp : p ∈ entries
      · have : ∃ files, EntryListing c shown p files := by
          obtain ⟨name, t⟩ := p
          cases t with
          | file bytes => exact exists_entryListing_file c shown name bytes
          | directory inner =>
            exact exists_entryListing_directory c shown name inner (ih _ hp _ rfl)
        exact this.imp fun files h _ => h
      · exact ⟨[], fun h => absurd h hp⟩
    choose listed hlisted using hentry
    have hmem : ∀ p, p ∈ Assoc.sorted Registry.before entries ↔ p ∈ entries := fun p =>
      Assoc.mem_sorted_iff Registry.before_strictOrder hdistinct
    have hlisted' : ∀ p ∈ Assoc.sorted Registry.before entries, EntryListing c shown p (listed p) :=
      fun p hp => hlisted p ((hmem p).1 hp)
    refine ⟨(Assoc.sorted Registry.before entries).flatMap listed, ⟨?_, fun names bytes => ?_⟩, ?_⟩
    · rw [List.map_flatMap]
      refine List.pairwise_flatMap.2 ⟨fun p hp => (hlisted' p hp).sorted, ?_⟩
      have hkeys := List.pairwise_map.1 (Assoc.sorted_sorted Registry.before_strictOrder entries)
      refine List.Pairwise.imp_of_mem (fun {p q} hp hq hlt names hnames names' hnames' => ?_) hkeys
      obtain ⟨⟨_, bytes⟩, hf, rfl⟩ := List.mem_map.1 hnames
      obtain ⟨⟨_, bytes'⟩, hf', rfl⟩ := List.mem_map.1 hnames'
      obtain ⟨rest, rfl, -⟩ := ((hlisted' p hp).mem _ _).1 hf
      obtain ⟨rest', rfl, -⟩ := ((hlisted' q hq).mem _ _).1 hf'
      exact Path.before_of_lt (of_decide_eq_true hlt) rest rest'
    · rw [List.mem_flatMap, holds_directory_iff]
      constructor
      · rintro ⟨p, hp, hf⟩
        obtain ⟨rest, rfl, hholds, hwanted⟩ := ((hlisted' p hp).mem _ _).1 hf
        exact ⟨⟨p, (hmem p).1 hp, rest, rfl, hholds⟩, hwanted⟩
      · rintro ⟨⟨p, hp, rest, rfl, hholds⟩, hwanted⟩
        exact ⟨p, (hmem p).2 hp, ((hlisted p hp).mem _ _).2 ⟨rest, rfl, hholds, hwanted⟩⟩
    · rw [grammarFiles_directory, List.map_flatMap]
      exact List.flatMap_congr fun p hp => (hlisted' p hp).files

-- ================================================= the same files

/-- The same tree with the entries of some directories listed in another
order. -/
inductive Relisted : FileTree → FileTree → Prop
  | refl (t : FileTree) : Relisted t t
  | trans {t t' t'' : FileTree} (first : Relisted t t') (next : Relisted t' t'') : Relisted t t''
  | perm {entries entries' : List (String × FileTree)} (order : entries.Perm entries') :
      Relisted (.directory entries) (.directory entries')
  | inside {t t' : FileTree} (front back : List (String × FileTree)) (name : String)
      (inner : Relisted t t') :
      Relisted (.directory (front ++ (name, t) :: back)) (.directory (front ++ (name, t') :: back))

theorem Relisted.holds_iff {t t' : FileTree} (h : Relisted t t') {names : List String}
    {bytes : List UInt8} : t.Holds names bytes ↔ t'.Holds names bytes := by
  induction h generalizing names with
  | refl t => rfl
  | trans _ _ ih ih' => exact ih.trans ih'
  | perm order => simp only [holds_directory_iff, order.mem_iff]
  | inside front back name _ ih =>
    simp only [holds_directory_iff, List.mem_append, List.mem_cons, or_and_right, exists_or,
      exists_eq_left, ih]

theorem Relisted.proper {t t' : FileTree} (h : Relisted t t') (ht : t.Proper) : t'.Proper := by
  induction h with
  | refl t => exact ht
  | trans _ _ ih ih' => exact ih' (ih ht)
  | perm order =>
    obtain ⟨hdistinct, hnames, hinner⟩ := proper_directory_iff.1 ht
    exact .directory ((order.map Prod.fst).nodup hdistinct)
      (fun p hp => hnames p (order.mem_iff.2 hp)) (fun p hp => hinner p (order.mem_iff.2 hp))
  | inside front back name _ ih =>
    simp only [proper_directory_iff, Assoc.Distinct, Assoc.keys, List.map_append, List.map_cons,
      List.forall_mem_append, List.forall_mem_cons] at ht ⊢
    obtain ⟨hdistinct, hnames, hfront, ht, hback⟩ := ht
    exact ⟨hdistinct, hnames, hfront, ih ht, hback⟩

/-- A directory that is listed in another order is still a directory. -/
theorem Relisted.exists_directory {t t' : FileTree} (h : Relisted t t')
    (ht : ∃ entries, t = .directory entries) : ∃ entries, t' = .directory entries := by
  induction h with
  | refl t => exact ht
  | trans _ _ ih ih' => exact ih' (ih ht)
  | perm order => exact ⟨_, rfl⟩
  | inside front back name _ _ => exact ⟨_, rfl⟩

/-- The grammar files do not depend on how directories are listed. -/
theorem Relisted.grammarFiles_eq {entries : List (String × FileTree)} {t : FileTree}
    (h : Relisted (.directory entries) t) (hproper : (directory entries).Proper) (c : Config)
    (shown : String) : t.grammarFiles c shown = grammarFiles c shown (.directory entries) := by
  obtain ⟨entries', rfl⟩ := h.exists_directory ⟨entries, rfl⟩
  obtain ⟨files, hfiles, hgrammar⟩ := exists_listing hproper c shown
  obtain ⟨files', hfiles', hgrammar'⟩ := exists_listing (h.proper hproper) c shown
  have heq : files' = files := by
    refine Listing.unique hfiles' ⟨hfiles.sorted, fun names bytes => ?_⟩
    rw [hfiles.mem, h.holds_iff]
  rw [hgrammar, hgrammar', heq]

-- ================================================ without some files

mutual

/-- The tree without the files to which some names lead. Directories
stay. -/
def delete (gone : List String → Bool) : FileTree → FileTree
  | .file bytes => .file bytes
  | .directory entries => .directory (deleteFrom gone entries)

/-- The entries of a directory without such files. -/
def deleteFrom (gone : List String → Bool) :
    List (String × FileTree) → List (String × FileTree)
  | [] => []
  | (name, .file bytes) :: rest =>
    if gone [name] then deleteFrom gone rest
    else (name, .file bytes) :: deleteFrom gone rest
  | (name, .directory entries) :: rest =>
    (name, delete (fun names => gone (name :: names)) (.directory entries))
      :: deleteFrom gone rest

end

/-- What is left of an entry of a directory. -/
def kept (gone : List String → Bool) : String × FileTree → Option (String × FileTree)
  | (name, .file bytes) => if gone [name] then none else some (name, .file bytes)
  | (name, .directory entries) =>
    some (name, delete (fun names => gone (name :: names)) (.directory entries))

theorem deleteFrom_eq_filterMap (gone : List String → Bool) (entries : List (String × FileTree)) :
    deleteFrom gone entries = entries.filterMap (kept gone) := by
  induction entries with
  | nil => rw [deleteFrom, List.filterMap_nil]
  | cons p rest ih =>
    obtain ⟨name, t⟩ := p
    cases t with
    | file bytes =>
      rw [deleteFrom, List.filterMap_cons, kept, ih]
      split <;> rfl
    | directory inner => rw [deleteFrom, List.filterMap_cons, kept, ih]

/-- An entry of which something is left keeps its name. -/
theorem fst_of_kept {gone : List String → Bool} {p q : String × FileTree}
    (h : kept gone p = some q) : q.1 = p.1 := by
  obtain ⟨name, t⟩ := p
  cases t with
  | file bytes =>
    rw [kept] at h
    split at h
    · cases h
    · cases h
      rfl
  | directory inner =>
    cases h
    rfl

/-- A tree holds the files that were not taken out of it. -/
theorem holds_delete_iff {gone : List String → Bool} {entries : List (String × FileTree)}
    {names : List String} {bytes : List UInt8} :
    (delete gone (.directory entries)).Holds names bytes
      ↔ (directory entries).Holds names bytes ∧ gone names = false := by
  induction names generalizing gone entries with
  | nil =>
    rw [delete, holds_directory_iff, holds_directory_iff]
    simp
  | cons name rest ih =>
    rw [delete, holds_directory_iff, holds_directory_iff, deleteFrom_eq_filterMap]
    constructor
    · rintro ⟨q, hq, _, heq, hholds⟩
      obtain ⟨rfl, rfl⟩ := List.cons.inj heq
      obtain ⟨⟨name, t⟩, hp, hkept⟩ := List.mem_filterMap.1 hq
      cases t with
      | file content =>
        rw [kept] at hkept
        split at hkept
        · cases hkept
        · rename_i hgone
          cases hkept
          obtain ⟨rfl, -⟩ := holds_file_iff.1 hholds
          exact ⟨⟨_, hp, [], rfl, hholds⟩, Bool.eq_false_iff.2 hgone⟩
      | directory inner =>
        cases hkept
        obtain ⟨hholds, hgone⟩ := ih.1 hholds
        exact ⟨⟨_, hp, _, rfl, hholds⟩, hgone⟩
    · rintro ⟨⟨⟨name', t⟩, hp, _, heq, hholds⟩, hgone⟩
      obtain ⟨rfl, rfl⟩ := List.cons.inj heq
      cases t with
      | file content =>
        obtain ⟨rfl, -⟩ := holds_file_iff.1 hholds
        have hkept : kept gone (name, .file content) = some (name, .file content) :=
          if_neg (Bool.eq_false_iff.1 hgone)
        exact ⟨_, List.mem_filterMap.2 ⟨_, hp, hkept⟩, _, rfl, hholds⟩
      | directory inner =>
        exact ⟨_, List.mem_filterMap.2 ⟨_, hp, rfl⟩, _, rfl, ih.2 ⟨hholds, hgone⟩⟩

theorem Proper.delete {t : FileTree} (h : t.Proper) (gone : List String → Bool) :
    (t.delete gone).Proper := by
  induction h generalizing gone with
  | file bytes =>
    rw [FileTree.delete]
    exact .file bytes
  | directory hdistinct hnames hinner ih =>
    rw [FileTree.delete, deleteFrom_eq_filterMap]
    refine .directory ?_ (fun q hq => ?_) (fun q hq => ?_)
    · refine List.pairwise_map.2 (List.Pairwise.filterMap _ (fun p p' hne q hq q' hq' => ?_)
        (List.pairwise_map.1 hdistinct))
      rw [fst_of_kept hq, fst_of_kept hq']
      exact hne
    · obtain ⟨p, hp, hkept⟩ := List.mem_filterMap.1 hq
      rw [fst_of_kept hkept]
      exact hnames p hp
    · obtain ⟨⟨name, t⟩, hp, hkept⟩ := List.mem_filterMap.1 hq
      cases t with
      | file bytes =>
        rw [kept] at hkept
        split at hkept
        · cases hkept
        · cases hkept
          exact .file bytes
      | directory inner =>
        cases hkept
        exact ih _ hp _

/-- Without some files the others are still to be loaded, in their order. -/
theorem Listing.delete {shown : String} {entries : List (String × FileTree)}
    {files : List (List String × List UInt8)} (h : Listing c shown (.directory entries) files)
    (gone : List String → Bool) :
    Listing c shown (delete gone (.directory entries)) (files.filter fun f => !gone f.1) where
  sorted := List.Pairwise.sublist (List.filter_sublist.map Prod.fst) h.sorted
  mem names bytes := by
    rw [List.mem_filter, h.mem, holds_delete_iff, Bool.not_eq_true']
    exact and_right_comm

/-- The grammar files of a tree without some files are the others. -/
theorem grammarFiles_delete {shown : String} {entries : List (String × FileTree)}
    {files : List (List String × List UInt8)} (hproper : (directory entries).Proper)
    (h : Listing c shown (.directory entries) files) (gone : List String → Bool) :
    grammarFiles c shown (delete gone (.directory entries))
      = (files.filter fun f => !gone f.1).map (reported shown) := by
  have hproper' := hproper.delete gone
  have h' := h.delete gone
  rw [FileTree.delete] at hproper' h' ⊢
  obtain ⟨left, hleft, hgrammar⟩ := exists_listing hproper' c shown
  rw [hgrammar, hleft.unique h']

end FileTree

end ScopeRules
