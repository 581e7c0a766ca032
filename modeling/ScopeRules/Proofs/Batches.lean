/-
Loading a directory is loading its grammar files one by one, each as a file
of its own. The batch goes through the tree and has the bytes at hand; a
file that is loaded by itself is opened by its path, and Paths.lean says
that the path leads to those bytes. What is left is that the two ways of
loading have the same outcomes, and that the report of the batch is these
outcomes, each in the list where it belongs (`Reported.foldl`).

# Failures

A file that fails leaves table and interner as they were, so what comes
after it is loaded as if the file were not there. That is all there is to
the files that fail: taking them out of the tree takes their outcomes out of
the list and changes nothing else (`inTurn_filter`).
-/
import ScopeRules.Proofs.Paths

namespace ScopeRules

/-- What became of the file at a path. -/
abbrev Outcome := String × Except LoadError (Option Symbol)

namespace Outcome

/-- The scope of the root that was loaded. -/
def scope? : Outcome → Option Symbol
  | (_, .ok (some scope)) => some scope
  | _ => none

/-- The file, if its root declares no scope. -/
def unnamed? : Outcome → Option String
  | (path, .ok none) => some path
  | _ => none

/-- The file with its failure. -/
def error? : Outcome → Option (String × LoadError)
  | (path, .error e) => some (path, e)
  | _ => none

/-- Every outcome is one of the three. -/
theorem length_filterMap (outcomes : List Outcome) :
    (outcomes.filterMap scope?).length + (outcomes.filterMap unnamed?).length
      + (outcomes.filterMap error?).length = outcomes.length := by
  induction outcomes with
  | nil => rfl
  | cons outcome rest ih =>
    obtain ⟨path, (e | (_ | scope))⟩ := outcome <;>
      simp only [List.filterMap_cons, scope?, unnamed?, error?, List.length_cons] <;>
      omega

end Outcome

namespace Loading

variable {α β : Type}

/-- Loads one after the other; every one has a path and a way in which it is
loaded. -/
def inTurn (path : α → String)
    (load : α → Loading → Except LoadError (Option Symbol) × Loading) :
    List α → Loading → List Outcome × Loading
  | [], l => ([], l)
  | x :: rest, l =>
    let (outcome, l) := load x l
    let (outcomes, l) := inTurn path load rest l
    ((path x, outcome) :: outcomes, l)

/-- Loads the files at the paths, one after the other. -/
def loadEach (files : FileTree) (shown : String → String) (paths : List String) (l : Loading) :
    List Outcome × Loading :=
  inTurn shown (fun path l => loadFile files (shown path) path l) paths l

/-- Loads the files whose bytes are at hand, one after the other. -/
def loadFiles (fs : List GrammarFile) (l : Loading) : List Outcome × Loading :=
  inTurn GrammarFile.path (fun f l => l.load f) fs l

variable {path : α → String} {load : α → Loading → Except LoadError (Option Symbol) × Loading}

theorem length_inTurn (xs : List α) (l : Loading) :
    (inTurn path load xs l).1.length = xs.length := by
  induction xs generalizing l with
  | nil => rfl
  | cons x rest ih => exact congrArg Nat.succ (ih _)

/-- Loading the one list is loading the other, if every member of the one is
loaded as the member of the other is. -/
theorem inTurn_map {path' : β → String}
    {load' : β → Loading → Except LoadError (Option Symbol) × Loading} {f : α → β} {xs : List α}
    (hpath : ∀ x ∈ xs, path' (f x) = path x) (hload : ∀ x ∈ xs, load' (f x) = load x)
    (l : Loading) : inTurn path' load' (xs.map f) l = inTurn path load xs l := by
  induction xs generalizing l with
  | nil => rfl
  | cons x rest ih =>
    obtain ⟨hx, hrest⟩ := List.forall_mem_cons.1 hpath
    obtain ⟨hx', hrest'⟩ := List.forall_mem_cons.1 hload
    simp only [List.map_cons, inTurn, hx, hx', ih hrest hrest']

/-- What fails and changes nothing can be left out. -/
theorem inTurn_filter {keep : α → Bool} {xs : List α}
    (h : ∀ x ∈ xs, keep x = false → ∀ l, ∃ e, load x l = (.error e, l)) (l : Loading) :
    (inTurn path load (xs.filter keep) l).2 = (inTurn path load xs l).2
      ∧ (inTurn path load (xs.filter keep) l).1.filterMap Outcome.scope?
        = (inTurn path load xs l).1.filterMap Outcome.scope?
      ∧ (inTurn path load (xs.filter keep) l).1.filterMap Outcome.unnamed?
        = (inTurn path load xs l).1.filterMap Outcome.unnamed? := by
  induction xs generalizing l with
  | nil => exact ⟨rfl, rfl, rfl⟩
  | cons x rest ih =>
    obtain ⟨hx, hrest⟩ := List.forall_mem_cons.1 h
    cases hkeep : keep x with
    | true =>
      obtain ⟨hstate, hscopes, hunnamed⟩ := ih hrest (load x l).2
      rw [List.filter_cons_of_pos hkeep]
      simp only [inTurn, List.filterMap_cons, hstate, hscopes, hunnamed, and_self]
    | false =>
      obtain ⟨e, he⟩ := hx hkeep l
      rw [List.filter_cons_of_neg (Bool.eq_false_iff.1 hkeep)]
      simp only [inTurn, he, List.filterMap_cons, Outcome.scope?, Outcome.unnamed?]
      exact ih hrest l

-- ============================================================= reports

/-- What a batch has come to after these outcomes: the report has each of
them in its place, and the table and the interner are those that loading
one after the other leaves. -/
structure Reported (r : Report) (batch : Report × Loading) (each : List Outcome × Loading) :
    Prop where
  table : batch.2.table = each.2.table
  interner : batch.2.interner = each.2.interner
  scopes : batch.1.scopes = r.scopes ++ each.1.filterMap Outcome.scope?
  unnamed : batch.1.unnamed = r.unnamed ++ each.1.filterMap Outcome.unnamed?
  errors : batch.1.errors = r.errors ++ each.1.filterMap Outcome.error?

/-- What becomes of a file depends on the table and the interner, and not on
what was reported before. -/
theorem load_congr {l l' : Loading} (htable : l.table = l'.table)
    (hinterner : l.interner = l'.interner) (f : GrammarFile) :
    (l.load f).1 = (l'.load f).1 ∧ (l.load f).2.table = (l'.load f).2.table
      ∧ (l.load f).2.interner = (l'.load f).2.interner := by
  unfold load
  cases f.document with
  | error e => exact ⟨rfl, htable, hinterner⟩
  | ok d => simp only [htable, hinterner, and_self]

/-- Recording changes the report and nothing that is loaded. -/
theorem record_loaded (path : String) (outcome : Except LoadError (Option Symbol))
    (r : Report) (l : Loading) :
    (record path outcome (r, l)).1 = r.record path outcome
      ∧ (record path outcome (r, l)).2.table = l.table
      ∧ (record path outcome (r, l)).2.interner = l.interner := by
  cases outcome <;> exact ⟨rfl, rfl, rfl⟩

/-- A report to which an outcome was added at its front has it in its
place. -/
theorem Reported.cons {r : Report} {batch : Report × Loading} {outcomes : List Outcome}
    {l : Loading} (outcome : Outcome)
    (h : Reported (r.record outcome.1 outcome.2) batch (outcomes, l)) :
    Reported r batch (outcome :: outcomes, l) := by
  obtain ⟨htable, hinterner, hscopes, hunnamed, herrors⟩ := h
  obtain ⟨path, (e | (_ | scope))⟩ := outcome <;>
    exact ⟨htable, hinterner,
      by simpa [Report.record, List.filterMap_cons, Outcome.scope?] using hscopes,
      by simpa [Report.record, List.filterMap_cons, Outcome.unnamed?] using hunnamed,
      by simpa [Report.record, List.filterMap_cons, Outcome.error?] using herrors⟩

/-- A batch reports what loading its files one after the other yields. -/
theorem Reported.foldl (fs : List GrammarFile) {r : Report} {l l' : Loading}
    (htable : l.table = l'.table) (hinterner : l.interner = l'.interner) :
    Reported r (fs.foldl loadRecorded (r, l)) (loadFiles fs l') := by
  induction fs generalizing r l l' with
  | nil =>
    exact ⟨htable, hinterner, by simp [loadFiles, inTurn], by simp [loadFiles, inTurn],
      by simp [loadFiles, inTurn]⟩
  | cons f rest ih =>
    obtain ⟨houtcome, htable', hinterner'⟩ := load_congr htable hinterner f
    obtain ⟨hreport, hrecordTable, hrecordInterner⟩ :=
      record_loaded f.path (l.load f).1 r (l.load f).2
    refine Reported.cons (f.path, (l'.load f).1) ?_
    have hrest := ih (r := r.record f.path (l.load f).1)
      (l := (record f.path (l.load f).1 (r, (l.load f).2)).2) (hrecordTable.trans htable')
      (hrecordInterner.trans hinterner')
    rw [← hreport] at hrest
    rw [← houtcome, ← hreport]
    exact hrest

/-- A batch that starts with an empty report puts every outcome into one of
the three lists. -/
theorem Reported.length {batch : Report × Loading} {each : List Outcome × Loading}
    (h : Reported .empty batch each) :
    batch.1.scopes.length + batch.1.unnamed.length + batch.1.errors.length = each.1.length := by
  rw [h.scopes, h.unnamed, h.errors]
  exact Outcome.length_filterMap each.1

/-- Whether a file can be loaded is a matter of its bytes. -/
theorem load_of_fails {f : GrammarFile} {l : Loading} {e : LoadError}
    (h : (l.load f).1 = .error e) (l' : Loading) : l'.load f = (.error e, l') := by
  unfold load at h ⊢
  cases hdocument : f.document with
  | error e' =>
    rw [hdocument] at h
    rw [show e' = e from Except.error.inj h]
  | ok d =>
    rw [hdocument] at h
    cases h

variable {s : Session} {path : String} {entries : List (String × FileTree)}

/-- A file in a directory is loaded by its path as it is loaded in a
batch. -/
theorem loadFile_under {names : List String} {bytes : List UInt8}
    (hdirectory : s.files.at? path = .ok (.directory entries))
    (hproper : (FileTree.directory entries).Proper)
    (hholds : (FileTree.directory entries).Holds names bytes)
    (hshort : (Path.under path names).utf8ByteSize ≤ Path.maxPath) (l : Loading) :
    loadFile s.files (s.shown (Path.under path names)) (Path.under path names) l
      = l.load (FileTree.reported (s.shown path) (names, bytes)) := by
  have hleads := FileTree.leadsTo_of_at? hdirectory
  have hat := (hleads.under hproper hholds).at?_eq hshort
  rw [loadFile, hat]
  show l.load ⟨s.shown (Path.under path names), bytes⟩ = _
  rw [Session.shown_under hleads.relative (hproper.isName_of_mem hholds)]
  rfl

/-- The files of a listing are loaded by their paths as their bytes are. -/
theorem loadEach_listing {c : Config} {files : List (List String × List UInt8)}
    (hdirectory : s.files.at? path = .ok (.directory entries))
    (hproper : (FileTree.directory entries).Proper)
    (hshort : ∀ names bytes, (FileTree.directory entries).Holds names bytes →
      (Path.under path names).utf8ByteSize ≤ Path.maxPath)
    (hfiles : FileTree.Listing c (s.shown path) (.directory entries) files) (l : Loading) :
    loadEach s.files s.shown ((files.map Prod.fst).map (Path.under path)) l
      = loadFiles (files.map (FileTree.reported (s.shown path))) l := by
  have hholds : ∀ f ∈ files, (FileTree.directory entries).Holds f.1 f.2 := fun f hf =>
    ((hfiles.mem f.1 f.2).1 hf).1
  have hleads := FileTree.leadsTo_of_at? hdirectory
  -- both load the members of the listing, each in its own way
  have hpaths : loadEach s.files s.shown (files.map fun f => Path.under path f.1) l
      = inTurn (fun f => s.shown (Path.under path f.1))
          (fun f l => l.load (FileTree.reported (s.shown path) f)) files l :=
    inTurn_map (fun _ _ => rfl)
      (fun f hf => funext fun l => loadFile_under hdirectory hproper (hholds f hf)
        (hshort _ _ (hholds f hf)) l) l
  have hbytes : loadFiles (files.map (FileTree.reported (s.shown path))) l
      = inTurn (fun f => s.shown (Path.under path f.1))
          (fun f l => l.load (FileTree.reported (s.shown path) f)) files l := by
    rw [loadFiles]
    refine inTurn_map (fun f hf => ?_) (fun _ _ => rfl) l
    exact (Session.shown_under hleads.relative (hproper.isName_of_mem (hholds f hf))).symm
  rw [List.map_map, hbytes]
  exact hpaths

/-- Without files that fail, the others are loaded as before. -/
theorem loadFiles_filter {shown : String} {keep : List String × List UInt8 → Bool}
    {files : List (List String × List UInt8)}
    (h : ∀ f ∈ files, keep f = false → ∀ l : Loading, ∃ e,
      l.load (FileTree.reported shown f) = (Except.error e, l)) (l : Loading) :
    let without := loadFiles ((files.filter keep).map (FileTree.reported shown)) l
    let all := loadFiles (files.map (FileTree.reported shown)) l
    without.2 = all.2
      ∧ without.1.filterMap Outcome.scope? = all.1.filterMap Outcome.scope?
      ∧ without.1.filterMap Outcome.unnamed? = all.1.filterMap Outcome.unnamed? := by
  have hload : ∀ files : List (List String × List UInt8),
      loadFiles (files.map (FileTree.reported shown)) l
        = inTurn (fun f => (FileTree.reported shown f).path)
            (fun f l => l.load (FileTree.reported shown f)) files l := fun files =>
    inTurn_map (fun _ _ => rfl) (fun _ _ => rfl) l
  intro without all
  rw [show without = _ from hload _, show all = _ from hload _]
  exact inTurn_filter h l

theorem reported_loadDirectory {c : Config} {tree : FileTree} {shown : String}
    {fs : List GrammarFile} (htree : tree.at? path = .ok (.directory entries))
    (hfs : FileTree.grammarFiles c shown (.directory entries) = fs) (l : Loading) :
    Reported .empty (loadDirectory c tree shown path (.empty, l)) (loadFiles fs l) := by
  rw [loadDirectory, htree, ← hfs]
  exact Reported.foldl _ rfl rfl

/-- Loading a directory is loading one by one the files in it that are to be
loaded, in the order of their names. How the directories list their entries
does not matter, and neither does any file that cannot be loaded. -/
theorem loadDirectory_eq_loadEach
    (hdirectory : s.files.at? path = .ok (.directory entries))
    (hproper : (FileTree.directory entries).Proper)
    (hshort : ∀ names bytes, (FileTree.directory entries).Holds names bytes →
      (Path.under path names).utf8ByteSize ≤ Path.maxPath)
    (c : Config) (l : Loading) :
    ∃ listed : List (List String),
      listed.Pairwise Path.Before
      ∧ (∀ names, names ∈ listed ↔
          (∃ bytes, (FileTree.directory entries).Holds names bytes)
          ∧ (names.length = 1 ∨ c.recursive = true)
          ∧ c.acceptsText (s.shown (Path.under path names)) = true)
      ∧ Reported .empty (loadDirectory c s.files (s.shown path) path (.empty, l))
          (loadEach s.files s.shown (listed.map (Path.under path)) l)
      ∧ (let report := (loadDirectory c s.files (s.shown path) path (.empty, l)).1
        report.scopes.length + report.unnamed.length + report.errors.length = listed.length)
      ∧ (∀ files' t, files'.at? path = .ok t → (FileTree.directory entries).Relisted t →
          loadDirectory c files' (s.shown path) path (.empty, l)
            = loadDirectory c s.files (s.shown path) path (.empty, l))
      ∧ ∀ files' gone,
          files'.at? path = .ok ((FileTree.directory entries).delete gone) →
          (∀ names bytes, (FileTree.directory entries).Holds names bytes → gone names = true →
            ∃ e, (loadFile s.files (s.shown (Path.under path names)) (Path.under path names) l).1
              = .error e) →
          let without := loadDirectory c files' (s.shown path) path (.empty, l)
          let all := loadDirectory c s.files (s.shown path) path (.empty, l)
          without.2.table = all.2.table ∧ without.2.interner = all.2.interner
            ∧ without.1.scopes = all.1.scopes ∧ without.1.unnamed = all.1.unnamed := by
  have hleads := FileTree.leadsTo_of_at? hdirectory
  obtain ⟨files, hfiles, hgrammar⟩ := FileTree.exists_listing hproper c (s.shown path)
  have hreported := reported_loadDirectory hdirectory hgrammar l
  have hshown : ∀ {names : List String} {bytes : List UInt8},
      (FileTree.directory entries).Holds names bytes →
      s.shown (Path.under path names) = names.foldl Path.join (s.shown path) := fun hholds =>
    Session.shown_under hleads.relative (hproper.isName_of_mem hholds)
  refine ⟨files.map Prod.fst, hfiles.sorted, fun names => ?_, ?_, ?_, ?_, ?_⟩
  · constructor
    · intro hnames
      obtain ⟨⟨_, bytes⟩, hf, rfl⟩ := List.mem_map.1 hnames
      obtain ⟨hholds, hwanted⟩ := (hfiles.mem _ _).1 hf
      rw [hshown hholds]
      exact ⟨⟨bytes, hholds⟩, hwanted⟩
    · rintro ⟨⟨bytes, hholds⟩, hwanted⟩
      rw [hshown hholds] at hwanted
      exact List.mem_map.2 ⟨(names, bytes), (hfiles.mem _ _).2 ⟨hholds, hwanted⟩, rfl⟩
  · rw [loadEach_listing hdirectory hproper hshort hfiles]
    exact hreported
  · have hlength := hreported.length
    rw [loadFiles, length_inTurn, List.length_map] at hlength
    rw [List.length_map]
    exact hlength
  · intro files' t ht hrelisted
    obtain ⟨entries', rfl⟩ := hrelisted.exists_directory ⟨entries, rfl⟩
    rw [loadDirectory, ht, loadDirectory, hdirectory]
    show (FileTree.grammarFiles c _ _).foldl _ _ = (FileTree.grammarFiles c _ _).foldl _ _
    rw [hrelisted.grammarFiles_eq hproper]
  · intro files' gone ht hgone
    rw [FileTree.delete] at ht
    have hwithout := reported_loadDirectory ht (FileTree.grammarFiles_delete hproper hfiles gone) l
    have hfails : ∀ f ∈ files, (!gone f.1) = false → ∀ l : Loading, ∃ e,
        l.load (FileTree.reported (s.shown path) f) = (Except.error e, l) := by
      intro f hf hkeep l'
      obtain ⟨hholds, -⟩ := (hfiles.mem f.1 f.2).1 hf
      obtain ⟨e, he⟩ := hgone f.1 f.2 hholds (by simpa using hkeep)
      rw [loadFile_under hdirectory hproper hholds (hshort _ _ hholds)] at he
      exact ⟨e, load_of_fails he l'⟩
    obtain ⟨hstate, hscopes, hunnamed⟩ := loadFiles_filter hfails l
    intro without all
    refine ⟨?_, ?_, ?_, ?_⟩
    · rw [show without.2.table = _ from hwithout.table, hstate]
      exact hreported.table.symm
    · rw [show without.2.interner = _ from hwithout.interner, hstate]
      exact hreported.interner.symm
    · rw [show without.1.scopes = _ from hwithout.scopes, hscopes]
      exact hreported.scopes.symm
    · rw [show without.1.unnamed = _ from hwithout.unnamed, hunnamed]
      exact hreported.unnamed.symm

/-- A file that is no grammar, and one in a directory below. -/
theorem loadDirectory_eq_loadEach_nested :
    let entries := [("sub", FileTree.directory [("b.json", .file [123, 125])]),
      ("a.json", FileTree.file [])]
    let s : Session := ⟨.empty, [], 0, [], [], .directory [("g", .directory entries)], "/tmp"⟩
    let c : Config := ⟨[], ["json"], true, false⟩
    let l : Loading := ⟨.new ⟨0⟩, .empty, []⟩
    (∃ listed : List (List String), listed.Pairwise Path.Before
      ∧ Reported .empty (loadDirectory c s.files (s.shown "g") "g" (.empty, l))
          (loadEach s.files s.shown (listed.map (Path.under "g")) l))
    ∧ (loadDirectory c (.directory [("g", .directory (entries.take 1))]) (s.shown "g") "g"
          (.empty, l)).2.table
        = (loadDirectory c s.files (s.shown "g") "g" (.empty, l)).2.table := by
  intro entries s c l
  have hproper : (FileTree.directory entries).Proper := by
    refine .directory (by decide) (by decide) ?_
    simp only [entries, List.forall_mem_cons]
    refine ⟨.directory (by decide) (by decide) ?_, .file _, by simp⟩
    simp only [List.forall_mem_cons]
    exact ⟨.file _, by simp⟩
  have hholds : ∀ names bytes, (FileTree.directory entries).Holds names bytes →
      names = ["sub", "b.json"] ∨ names = ["a.json"] := by
    intro names bytes h
    simp [entries, FileTree.holds_directory_iff, FileTree.holds_file_iff] at h
    tauto
  have hshort : ∀ names bytes, (FileTree.directory entries).Holds names bytes →
      (Path.under "g" names).utf8ByteSize ≤ Path.maxPath := by
    intro names bytes h
    rcases hholds names bytes h with rfl | rfl <;> decide
  have hdirectory : s.files.at? "g" = .ok (.directory entries) := rfl
  obtain ⟨listed, hsorted, -, hreported, -, -, hwithout⟩ :=
    loadDirectory_eq_loadEach hdirectory hproper hshort c l
  refine ⟨⟨listed, hsorted, hreported⟩, (hwithout _ (fun names => names = ["a.json"]) rfl
    fun names bytes h hgone => ?_).1⟩
  obtain rfl : names = ["a.json"] := of_decide_eq_true hgone
  exact ⟨_, rfl⟩

end Loading

end ScopeRules
