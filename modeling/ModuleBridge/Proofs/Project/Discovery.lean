import ModuleBridge.Project.Discovery
import ModuleBridge.Proofs.Disk.Listing

/-!
# Discovery as a set

A search through folders finds the files to which names lead through entered folders, as deep as
they may lie. What is found in a tree is the strictly increasing list of a set of paths. The set is
the union of those of the inclusions, grows with them and shrinks with the exclusions; of the tree
it needs only what is a folder and what is a file.
-/

namespace ModuleBridge

open DiskPath List

variable {path root : String} {inclusions exclusions more : List String} {place : Location}
  {pattern : FilePattern}

theorem eraseRepsBy_loop {a : String} {l : List String} (h : (a :: l).Pairwise (· ≤ ·))
    (kept : List String) :
    ∃ rest, eraseRepsBy.loop (· == ·) a l kept = kept.reverse ++ a :: rest ∧
      (a :: rest).Pairwise (· < ·) ∧ ∀ x, x ∈ a :: rest ↔ x ∈ a :: l := by
  induction l generalizing a kept with
  | nil => exact ⟨[], by simp [eraseRepsBy.loop], pairwise_singleton _ _, fun _ => Iff.rfl⟩
  | cons b l ih =>
    rw [pairwise_cons_cons_iff_of_trans] at h
    rw [eraseRepsBy.loop]
    cases hab : a == b with
    | true =>
      obtain rfl := beq_iff_eq.mp hab
      obtain ⟨rest, hloop, hrest, hmem⟩ := ih h.2 kept
      exact ⟨rest, hloop, hrest, fun x => by rw [hmem]; simp⟩
    | false =>
      obtain ⟨rest, hloop, hrest, hmem⟩ := ih h.2 (a :: kept)
      have hlt : a < b := lt_of_le_of_ne h.1 (beq_eq_false_iff_ne.mp hab)
      refine ⟨b :: rest, by rw [hloop]; simp, ?_, fun x => ?_⟩
      · exact pairwise_cons_cons_iff_of_trans.mpr ⟨hlt, hrest⟩
      · rw [mem_cons, hmem, ← mem_cons]

/-- Sorting paths keeps which there are and puts them in their one increasing order. -/
theorem sortedPaths_spec (paths : List String) :
    (sortedPaths paths).Pairwise (· < ·) ∧ ∀ x, x ∈ sortedPaths paths ↔ x ∈ paths := by
  have hle : ∀ a b : String, (!decide (b < a)) = true ↔ a ≤ b := fun a b => by
    rw [Bool.not_eq_true', decide_eq_false_iff_not, not_lt]
  have hsorted : (paths.mergeSort fun a b => !decide (b < a)).Pairwise (· ≤ ·) := by
    refine (pairwise_mergeSort (fun a b c hab hbc => ?_) (fun a b => ?_) paths).imp (hle _ _).mp
    · exact (hle a c).mpr (le_trans ((hle a b).mp hab) ((hle b c).mp hbc))
    · rw [Bool.or_eq_true, hle, hle]
      exact le_total a b
  have hmem : ∀ x, x ∈ paths.mergeSort (fun a b => !decide (b < a)) ↔ x ∈ paths :=
    fun x => mem_mergeSort
  unfold sortedPaths eraseReps eraseRepsBy
  split
  · rename_i heq
    rw [heq] at hmem
    exact ⟨Pairwise.nil, hmem⟩
  · rename_i a l heq
    rw [heq] at hmem hsorted
    obtain ⟨rest, hloop, hrest, hsame⟩ := eraseRepsBy_loop hsorted []
    rw [hloop]
    exact ⟨hrest, fun x => (hsame x).trans (hmem x)⟩

theorem isExcluded_of_subset (h : exclusions ⊆ more) (hkept : isExcluded more path = false) :
    isExcluded exclusions path = false := by
  rw [isExcluded, any_eq_false] at *
  exact fun text htext => hkept text (h htext)

/-! ## Files of a tree -/

def pathAlong (folder : String) (names : List String) : String :=
  names.foldl join folder

namespace FileTree

variable {t u : FileTree} {folder name namePattern : String} {names rest : List String}
  {admits inner : Location → Bool}

/-- The files that the patterns find in a tree. -/
def discovered (t : FileTree) (root : String) (inclusions exclusions : List String) :
    List String :=
  ((discoverFiles root inclusions exclusions : StateM FileTree (List String)).run t).1

/-- From the folder at a path, names lead through admitted folders to a file that matches. -/
@[mk_iff reaches_iff] structure Reaches (t : FileTree) (path namePattern : String)
    (admits : Location → Bool) (names : List String) : Prop where
  matched : names.getLast?.any (matchesName namePattern) = true
  plain : ∀ name ∈ names, isName name = true
  admitted : ∀ outer ∈ (ancestors names).tail, admits outer = true
  isFile : ∃ folder, t.locate path = .ok folder ∧
    (∀ outer ∈ ancestors names, t.isFolderAt (folder ++ outer) = true) ∧
      t.isFileAt (folder ++ names) = true

theorem Reaches.ne_nil (h : t.Reaches path namePattern admits names) : names ≠ [] := by
  rintro rfl
  cases h.matched

theorem Reaches.length_le (h : t.Reaches path namePattern admits names) :
    names.length ≤ t.depth := by
  obtain ⟨folder, _, _, hfile⟩ := h.isFile
  have hdepth := length_le_depth hfile
  rw [length_append] at hdepth
  omega

theorem ancestors_cons (name : String) (rest : List String) :
    ancestors (name :: rest) = [] :: (ancestors rest).map (name :: ·) := by
  simp [ancestors, range_succ_eq_map, Function.comp_def]

theorem reaches_singleton : t.Reaches path namePattern admits [name] ↔
    name ∈ t.filesIn path ∧ matchesName namePattern name = true := by
  simp [reaches_iff, mem_filesIn, ancestors, and_comm]

/-- More than one name leads through a folder that the first of them names. -/
theorem reaches_cons (hrest : rest ≠ [])
    (hinner : ∀ outer, outer ≠ [] → admits (name :: outer) = inner outer) :
    t.Reaches path namePattern admits (name :: rest) ↔
      name ∈ t.foldersIn path ∧ admits [name] = true ∧
        t.Reaches (join path name) namePattern inner rest := by
  obtain ⟨next, more, rfl⟩ := exists_cons_of_ne_nil hrest
  constructor
  · rintro ⟨hmatch, hplain, hadmitted, folder, hpath, hfolders, hfile⟩
    obtain ⟨hname, hplain⟩ := forall_mem_cons.mp hplain
    rw [ancestors_cons, ancestors_cons] at hadmitted hfolders
    simp only [map_cons, tail_cons, forall_mem_cons, forall_mem_map, append_nil] at hadmitted hfolders
    obtain ⟨hhere, hnext, hfolders⟩ := hfolders
    refine ⟨mem_foldersIn.mpr ⟨hname, folder, hpath, hhere, hnext⟩, hadmitted.1, hmatch, hplain, ?_,
      folder ++ [name], locate_join_name hpath hhere hname, ?_, ?_⟩
    · rw [ancestors_cons, tail_cons, forall_mem_map]
      exact fun outer houter => (hinner _ (cons_ne_nil _ _)).symm.trans (hadmitted.2 outer houter)
    · rw [ancestors_cons, forall_mem_cons, forall_mem_map]
      exact ⟨by simpa using hnext, fun outer houter => by simpa using hfolders outer houter⟩
    · simpa using hfile
  · rintro ⟨hentry, hadmits, hreach⟩
    obtain ⟨hname, folder, hpath, hhere, hnext⟩ := mem_foldersIn.mp hentry
    obtain ⟨place, hplace, hfolders, hfile⟩ := hreach.isFile
    rw [locate_join_name hpath hhere hname] at hplace
    obtain rfl := Except.ok.inj hplace
    refine ⟨hreach.matched, forall_mem_cons.mpr ⟨hname, hreach.plain⟩, ?_, folder, hpath, ?_, ?_⟩
    · have hadmitted := hreach.admitted
      rw [ancestors_cons, tail_cons, forall_mem_map] at hadmitted
      rw [ancestors_cons, ancestors_cons, tail_cons, map_cons, forall_mem_cons, forall_mem_map,
        forall_mem_map]
      exact ⟨hadmits, fun outer houter => (hinner _ (cons_ne_nil _ _)).trans (hadmitted outer houter)⟩
    · rw [ancestors_cons, forall_mem_cons, forall_mem_map]
      exact ⟨by simpa using hhere, fun outer houter => by simpa using hfolders outer houter⟩
    · simpa using hfile

/-- Names lead to a file of the folder itself, or on from an admitted folder in it. -/
theorem Reaches.split {inner : String → Location → Bool}
    (h : t.Reaches path namePattern admits names)
    (hinner : ∀ name outer, outer ≠ [] → admits (name :: outer) = inner name outer) :
    (∃ name, names = [name] ∧ name ∈ t.filesIn path ∧ matchesName namePattern name = true) ∨
    ∃ name rest, names = name :: rest ∧ name ∈ t.foldersIn path ∧ admits [name] = true ∧
      t.Reaches (join path name) namePattern (inner name) rest := by
  obtain ⟨name, rest, rfl⟩ := exists_cons_of_ne_nil h.ne_nil
  by_cases hrest : rest = []
  · subst hrest
    exact .inl ⟨name, rfl, reaches_singleton.mp h⟩
  · exact .inr ⟨name, rest, rfl, (reaches_cons hrest (hinner name)).mp h⟩

/-- The folders that a pattern enters below a folder. -/
def enters (exclusions : List String) (folder : String) (names : List String) : Bool :=
  !names.getLast?.any isSetAside && !isExcluded exclusions (pathAlong folder names)

theorem enters_cons {outer : List String} (h : outer ≠ []) :
    enters exclusions folder (name :: outer) = enters exclusions (join folder name) outer := by
  obtain ⟨next, more, rfl⟩ := exists_cons_of_ne_nil h
  rfl

/-- A path along which a file below a folder is reached. -/
def Offers (t : FileTree) (folder namePattern : String) (admits : Location → Bool)
    (path : String) : Prop :=
  ∃ names, path = pathAlong folder names ∧ t.Reaches folder namePattern admits names

/-- What a pattern names in a tree, but for the exclusion of single files. -/
def Names (t : FileTree) (root : String) (exclusions : List String) : FilePattern → String → Prop
  | .exact name, path => path = join root name ∧ t.isFile path = true
  | .within folder namePattern, path =>
    t.Offers (join root folder) namePattern (fun _ => false) path
  | .below folder namePattern, path =>
    t.Offers (join root folder) namePattern
      (enters exclusions (join root folder)) path

/-! ## Searching folders -/

theorem mapM_run {f : String → StateM FileTree (List String)} {g : String → List String}
    (h : ∀ a, (f a).run t = (g a, t)) (l : List String) : (l.mapM f).run t = (l.map g, t) := by
  induction l with
  | nil => rfl
  | cons a l ih =>
    have hstep : ((a :: l).mapM f).run t =
        (fun p : List (List String) × FileTree => (g a :: p.1, p.2)) ((l.mapM f).run t) := by
      rw [mapM_cons, StateT.run_bind, h]
      rfl
    rw [hstep, ih, map_cons]

theorem matchingIn_run (t : FileTree) (exclusions : List String) (namePattern folder : String) :
    ∃ found, (matchingIn exclusions namePattern folder : StateM FileTree _).run t = (found, t) ∧
      ∀ path, path ∈ found ↔
        (∃ name, path = join folder name ∧ name ∈ t.filesIn folder ∧
          matchesName namePattern name = true) ∧ isExcluded exclusions path = false := by
  refine ⟨_, rfl, fun path => ?_⟩
  simp only [mem_filter, mem_map, Bool.not_eq_true']
  exact and_congr_left fun _ => exists_congr fun name => and_comm.trans (and_congr_left' eq_comm)

/-- A search of some depth finds what at most so many names lead to. -/
theorem matchingBelow_run (t : FileTree) (exclusions : List String) (namePattern : String)
    (depth : Nat) (folder : String) :
    ∃ found,
      (matchingBelow exclusions namePattern depth folder : StateM FileTree _).run t = (found, t) ∧
      ∀ path, path ∈ found ↔
        (∃ names, path = pathAlong folder names ∧ names.length ≤ depth ∧
          t.Reaches folder namePattern (enters exclusions folder) names) ∧
        isExcluded exclusions path = false := by
  induction depth generalizing folder with
  | zero =>
    refine ⟨[], rfl, fun path => iff_of_false not_mem_nil ?_⟩
    rintro ⟨⟨names, _, hlength, hreach⟩, _⟩
    exact hreach.ne_nil (length_eq_zero_iff.mp (Nat.le_zero.mp hlength))
  | succ depth ih =>
    obtain ⟨here, hhere, hmem⟩ := matchingIn_run t exclusions namePattern folder
    choose found hrun hfound using fun name => ih (join folder name)
    let entered := (t.foldersIn folder).filter (isEntered exclusions folder)
    refine ⟨here ++ (entered.map found).flatten, ?_, fun path => ?_⟩
    · rw [matchingBelow, StateT.run_bind, hhere]
      change (((entered.mapM fun name => matchingBelow exclusions namePattern depth
        (join folder name)) >>= fun found => pure (here ++ found.flatten) :
          StateM FileTree _)).run t = _
      rw [StateT.run_bind, mapM_run hrun]
      rfl
    · rw [mem_append, hmem, mem_flatten]
      constructor
      · rintro (⟨⟨name, rfl, hname⟩, hspared⟩ | ⟨_, hdeeper, hpath⟩)
        · exact ⟨⟨[name], rfl, Nat.le_add_left _ _, reaches_singleton.mpr hname⟩, hspared⟩
        · obtain ⟨name, hname, rfl⟩ := mem_map.mp hdeeper
          obtain ⟨hentry, hentered⟩ := mem_filter.mp hname
          obtain ⟨⟨names, rfl, hlength, hreach⟩, hspared⟩ := (hfound name path).mp hpath
          refine ⟨⟨name :: names, rfl, Nat.succ_le_succ hlength, ?_⟩, hspared⟩
          exact (reaches_cons hreach.ne_nil fun _ => enters_cons).mpr ⟨hentry, hentered, hreach⟩
      · rintro ⟨⟨names, rfl, hlength, hreach⟩, hspared⟩
        rcases hreach.split fun _ _ => enters_cons with ⟨name, rfl, hname⟩ |
          ⟨name, rest, rfl, hentry, hentered, hdeeper⟩
        · exact .inl ⟨⟨name, rfl, hname⟩, hspared⟩
        · refine .inr ⟨_, mem_map.mpr ⟨name, mem_filter.mpr ⟨hentry, hentered⟩, rfl⟩, ?_⟩
          exact (hfound name _).mpr
            ⟨⟨rest, rfl, Nat.le_of_succ_le_succ hlength, hdeeper⟩, hspared⟩

theorem filesMatching_run (t : FileTree) (root : String) (exclusions : List String)
    (pattern : FilePattern) :
    ∃ found, (filesMatching root exclusions pattern : StateM FileTree _).run t = (found, t) ∧
      ∀ path, path ∈ found ↔
        t.Names root exclusions pattern path ∧ isExcluded exclusions path = false := by
  cases pattern with
  | exact name =>
    refine ⟨[join root name].filter fun path =>
      t.isFile path && !isExcluded exclusions path, ?_, fun path => ?_⟩
    · change (if (t.isFile (join root name) &&
        !isExcluded exclusions (join root name)) = true
        then pure [join root name] else pure [] : StateM FileTree _) t = _
      rw [filter_singleton, cond_eq_ite]
      split <;> rfl
    · rw [mem_filter, mem_singleton, Bool.and_eq_true, Bool.not_eq_true', ← and_assoc]
      exact Iff.rfl
  | within folder namePattern =>
    obtain ⟨found, hrun, hfound⟩ := matchingIn_run t exclusions namePattern (join root folder)
    refine ⟨found, hrun, fun path => (hfound path).trans (and_congr_left fun _ => ?_)⟩
    constructor
    · rintro ⟨name, hpath, hname⟩
      exact ⟨[name], hpath, reaches_singleton.mpr hname⟩
    · rintro ⟨names, hpath, hreach⟩
      rcases hreach.split fun _ _ _ => rfl with ⟨name, rfl, hname⟩ | ⟨_, _, _, _, hentered, _⟩
      · exact ⟨name, hpath, hname⟩
      · cases hentered
  | below folder namePattern =>
    obtain ⟨found, hrun, hfound⟩ :=
      matchingBelow_run t exclusions namePattern t.depth (join root folder)
    refine ⟨found, hrun, fun path => (hfound path).trans (and_congr_left fun _ => ?_)⟩
    exact exists_congr fun names => and_congr_right fun _ => and_iff_right_of_imp Reaches.length_le

/-- Discovery leaves the tree alone and finds, in increasing order, what its patterns name and its
exclusions spare. -/
theorem discovered_spec (t : FileTree) (root : String) (inclusions exclusions : List String) :
    (discoverFiles root inclusions exclusions : StateM FileTree _).run t =
        (t.discovered root inclusions exclusions, t) ∧
      (t.discovered root inclusions exclusions).Pairwise (· < ·) ∧
      ∀ path, path ∈ t.discovered root inclusions exclusions ↔
        ∃ text ∈ inclusions, t.Names root exclusions (.ofText text) path ∧
          isExcluded exclusions path = false := by
  choose found hrun hfound using fun text => filesMatching_run t root exclusions (.ofText text)
  have hall : (discoverFiles root inclusions exclusions : StateM FileTree _).run t =
      (sortedPaths (inclusions.map found).flatten, t) := by
    rw [discoverFiles, StateT.run_bind, mapM_run hrun]
    rfl
  obtain ⟨hsorted, hmem⟩ := sortedPaths_spec (inclusions.map found).flatten
  rw [discovered, hall]
  refine ⟨rfl, hsorted, fun path => ?_⟩
  simp [hmem, hfound]

/-- Two trees with the same folders and files, listed in any order. -/
structure SameEntries (t u : FileTree) : Prop where
  workingFolder : t.workingFolder = u.workingFolder
  isFolderAt : ∀ place, t.isFolderAt place = u.isFolderAt place
  isFileAt : ∀ place, t.isFileAt place = u.isFileAt place

namespace SameEntries

variable (h : t.SameEntries u)

include h

theorem follow (place : Location) (names : List String) :
    t.follow place names = u.follow place names := by
  induction names generalizing place with
  | nil => rfl
  | cons name names ih => rw [FileTree.follow, FileTree.follow, h.isFolderAt, h.isFileAt, ih]

theorem locate (path : String) : t.locate path = u.locate path := by
  simp only [FileTree.locate, startOf, h.workingFolder, h.follow]

theorem names_iff :
    t.Names root exclusions pattern path ↔ u.Names root exclusions pattern path := by
  have hfile : t.isFile path = u.isFile path := by
    simp only [isFile, h.locate, h.isFileAt]
  have hreach : ∀ folder namePattern admits names,
      t.Reaches folder namePattern admits names ↔ u.Reaches folder namePattern admits names := by
    simp only [reaches_iff, h.locate, h.isFolderAt, h.isFileAt, implies_true]
  cases pattern with
  | exact name => rw [Names, Names, hfile]
  | within folder namePattern => simp only [Names, Offers, hreach]
  | below folder namePattern => simp only [Names, Offers, hreach]

end SameEntries

theorem enters_of_subset (h : exclusions ⊆ more)
    (henters : enters more folder names = true) : enters exclusions folder names = true := by
  rw [enters, Bool.and_eq_true, Bool.not_eq_true'] at *
  exact ⟨henters.1, by simpa using isExcluded_of_subset h (by simpa using henters.2)⟩

/-- More exclusions leave fewer folders to search and fewer files in them. -/
theorem names_of_subset (h : exclusions ⊆ more)
    (hnames : t.Names root more pattern path ∧ isExcluded more path = false) :
    t.Names root exclusions pattern path ∧ isExcluded exclusions path = false := by
  refine ⟨?_, isExcluded_of_subset h hnames.2⟩
  cases pattern with
  | exact name => exact hnames.1
  | within folder namePattern => exact hnames.1
  | below folder namePattern =>
    obtain ⟨⟨names, hpath, hreach⟩, _⟩ := hnames
    have hadmitted := fun outer houter => enters_of_subset h (hreach.admitted outer houter)
    exact ⟨names, hpath, hreach.matched, hreach.plain, hadmitted, hreach.isFile⟩

/-- Discovery in a tree leaves the tree as it is and finds, in strictly increasing order, what its
inclusions name and its exclusions spare. It depends only on the sets of inclusions and exclusions
and on which folders and files there are, however they are listed. It finds what the inclusions find
one by one; an inclusion more loses nothing, and an exclusion more adds nothing. -/
theorem discoverFiles_set_semantics (t : FileTree) (root : String)
    (inclusions exclusions : List String) :
    (discoverFiles root inclusions exclusions : StateM FileTree _).run t =
        (t.discovered root inclusions exclusions, t) ∧
      (t.discovered root inclusions exclusions).Pairwise (· < ·) ∧
      (∀ path, path ∈ t.discovered root inclusions exclusions ↔
        ∃ text ∈ inclusions, t.Names root exclusions (.ofText text) path ∧
          isExcluded exclusions path = false) ∧
      (∀ (u : FileTree) (inclusions' exclusions' : List String), t.SameEntries u →
        (∀ text, text ∈ inclusions ↔ text ∈ inclusions') →
        (∀ text, text ∈ exclusions ↔ text ∈ exclusions') →
        u.discovered root inclusions' exclusions' = t.discovered root inclusions exclusions) ∧
      (∀ path, path ∈ t.discovered root inclusions exclusions ↔
        ∃ text ∈ inclusions, path ∈ t.discovered root [text] exclusions) ∧
      (∀ text, t.discovered root inclusions exclusions ⊆
        t.discovered root (text :: inclusions) exclusions) ∧
      ∀ text, t.discovered root inclusions (text :: exclusions) ⊆
        t.discovered root inclusions exclusions := by
  obtain ⟨hrun, hsorted, hmem⟩ := discovered_spec t root inclusions exclusions
  refine ⟨hrun, hsorted, hmem, fun u inclusions' exclusions' hu hinc hexc => ?_, fun path => ?_,
    fun text path hpath => ?_, fun text path hpath => ?_⟩
  · obtain ⟨_, hsorted', hmem'⟩ := discovered_spec u root inclusions' exclusions'
    refine hsorted'.eq_of_mem_iff hsorted fun path => ?_
    rw [hmem, hmem']
    refine exists_congr fun text => and_congr (hinc text).symm ?_
    rw [← hu.names_iff]
    exact ⟨names_of_subset fun x hx => (hexc x).mp hx, names_of_subset fun x hx => (hexc x).mpr hx⟩
  · simp only [hmem, (discovered_spec t root [_] exclusions).2.2, mem_singleton, exists_eq_left]
  · obtain ⟨found, hfound, hnames⟩ := (hmem path).mp hpath
    exact ((discovered_spec t root _ exclusions).2.2 path).mpr
      ⟨found, mem_cons_of_mem _ hfound, hnames⟩
  · obtain ⟨found, hfound, hnames⟩ := ((discovered_spec t root _ _).2.2 path).mp hpath
    exact (hmem path).mpr ⟨found, hfound, names_of_subset (subset_cons_self text _) hnames⟩

end FileTree

end ModuleBridge
