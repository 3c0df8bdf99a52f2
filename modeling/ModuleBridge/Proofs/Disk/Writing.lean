import ModuleBridge.Project.Batch
import ModuleBridge.Proofs.Disk.Folders
import ModuleBridge.Proofs.Disk.Names

/-!
# Writing files

The place that a path leads to and the folders on the way to it depend on the path and the working
folder alone. Writing one output makes these folders and puts the text at the place; writing several
succeeds exactly if they fit together, which does not depend on their order.
-/

namespace ModuleBridge

open List

variable {content : ByteArray} {folder : String} {output : String × String}

namespace FileTree

variable {t t' : FileTree} {place x : Location} {name last path code : String} {names : List String}

/-! ## Places of paths -/

/-- All names on a path, between any two slashes. -/
def wayOf (path : String) : List String :=
  (splitAtAll (· == '/') path.toList).map String.ofList

/-- Whether a name leads away from where it is looked up. -/
def leads (name : String) : Bool :=
  name ≠ "" && name ≠ "."

def placeOf (t : FileTree) (path : String) : Location :=
  ((wayOf path).filter leads).foldl enter (t.startOf path).1

/-- The places on the way to a file at a path, which have to be folders. -/
def foldersFor (t : FileTree) (path : String) : List Location :=
  stops (t.startOf path).1 ((wayOf path).filter leads).dropLast

/-- A path ends in a name, not in a slash or a point. -/
def EndsInName (path : String) : Prop :=
  ∃ names last, wayOf path = names ++ [last] ∧ leads last = true

theorem enter_of_idle (h : leads name = false) : enter place name = place := by
  have hidle : (name = "" || name = ".") = true := by
    rw [← Bool.not_eq_false', ← h, leads]
    simp
  rw [enter, if_pos hidle]

theorem foldl_enter_filter (place : Location) (names : List String) :
    (names.filter leads).foldl enter place = names.foldl enter place := by
  induction names generalizing place with
  | nil => rfl
  | cons name names ih =>
    cases hname : leads name with
    | true => rw [filter_cons_of_pos hname, foldl_cons, foldl_cons, ih]
    | false =>
      rw [filter_cons_of_neg (by simp [hname]), foldl_cons, enter_of_idle hname, ih]

theorem mem_stops_filter :
    x = place ∨ x ∈ stops place (names.filter leads) ↔ x = place ∨ x ∈ stops place names := by
  induction names generalizing place with
  | nil => rfl
  | cons name names ih =>
    rw [stops, mem_cons, ← ih]
    cases hname : leads name with
    | true => rw [filter_cons_of_pos hname, stops, mem_cons]
    | false =>
      rw [filter_cons_of_neg (by simp [hname]), enter_of_idle hname, ← or_assoc, or_self]

theorem foldl_mem_trail : names.foldl enter place ∈ trail place (names ++ [last]) := by
  induction names generalizing place with
  | nil => exact mem_cons_self
  | cons name names ih => exact mem_cons_of_mem _ ih

theorem mem_trail_wayOf (h : EndsInName path) :
    x ∈ trail (t.startOf path).1 (wayOf path) ↔ x = (t.startOf path).1 ∨ x ∈ t.foldersFor path := by
  obtain ⟨names, last, hway, hlast⟩ := h
  rw [foldersFor, hway, mem_trail_concat, ← mem_stops_filter, filter_append,
    filter_cons_of_pos hlast, filter_nil, dropLast_concat]

theorem locate_eq_ok : t.locate path = .ok place ↔ path ≠ "" ∧
    (∀ x ∈ trail (t.startOf path).1 (wayOf path), t.isFolderAt x = true) ∧ t.placeOf path = place := by
  have hway : (t.startOf path).2 = wayOf path := rfl
  unfold locate
  split
  · rename_i hempty
    refine iff_of_false (fun h => by cases h) fun ⟨hne, _⟩ => hne (by simpa using hempty)
  · rename_i hne
    rw [hway, follow_eq_ok, placeOf, foldl_enter_filter]
    exact (and_iff_right (by simpa using hne)).symm

theorem content?_put (t : FileTree) (place x : Location) (content : ByteArray) :
    (t.put place content).content? x = if x = place then some content else t.content? x := by
  by_cases hx : x = place
  · rw [if_pos hx, hx]
    exact lookup_cons_self
  · have hother : ∀ files : List (Location × ByteArray),
        (files.filter fun f => f.1 ≠ place).lookup x = files.lookup x := by
      intro files
      induction files with
      | nil => rfl
      | cons f files ih =>
        by_cases hf : f.1 = place
        · have hne : (x == f.1) = false := by rwa [hf, beq_eq_false_iff_ne]
          rw [filter_cons_of_neg (by simp [hf]), ih, lookup_cons, hne]
        · rw [filter_cons_of_pos (by simp [hf]), lookup_cons, lookup_cons, ih]
    have hne : (x == place) = false := beq_eq_false_iff_ne.mpr hx
    rw [if_neg hx, content?, put, lookup_cons, hne]
    exact hother t.files

theorem wayOf_concat (path : String) : ∃ names last, wayOf path = names ++ [last] := by
  have hne : wayOf path ≠ [] := by
    rw [wayOf, splitAtAll_eq_splitOnP, ne_eq, map_eq_nil_iff]
    exact splitOnP_ne_nil _ _
  exact ⟨_, _, (dropLast_append_getLast hne).symm⟩

/-- Where all folders are there, a path that ends in a name leads to its place. -/
theorem locate_of_folders (hname : EndsInName path)
    (hstart : t.isFolderAt (t.startOf path).1 = true)
    (hfolders : ∀ x ∈ t.foldersFor path, t.isFolderAt x = true) :
    t.locate path = .ok (t.placeOf path) := by
  refine locate_eq_ok.mpr ⟨?_, fun x hx => ?_, rfl⟩
  · rintro rfl
    obtain ⟨names, last, hway, hlast⟩ := hname
    have hempty : some "" = (names ++ [last]).getLast? := congrArg List.getLast? hway
    rw [getLast?_concat] at hempty
    cases hempty
    cases hlast
  · rcases (mem_trail_wayOf hname).mp hx with rfl | hx
    · exact hstart
    · exact hfolders x hx

theorem write_eq_ok : t.write path content = .ok t' ↔
    EndsInName path ∧ t.isFolderAt (t.startOf path).1 = true ∧
      (∀ x ∈ t.foldersFor path, t.isFolderAt x = true) ∧ t.isFolderAt (t.placeOf path) = false ∧
      t' = t.put (t.placeOf path) content := by
  constructor
  · intro h
    unfold write at h
    split at h
    · cases h
    · rename_i place hlocate
      obtain ⟨_, htrail, rfl⟩ := locate_eq_ok.mp hlocate
      split at h
      · cases h
      · rename_i hplace
        cases h
        rw [Bool.not_eq_true] at hplace
        have hname : EndsInName path := by
          obtain ⟨names, last, hway⟩ := wayOf_concat path
          refine ⟨names, last, hway, eq_true_of_ne_false fun hidle => ?_⟩
          -- Otherwise the file would be looked up in its own place.
          have hsame : t.placeOf path = names.foldl enter (t.startOf path).1 := by
            rw [placeOf, foldl_enter_filter, hway, foldl_append, foldl_cons,
              enter_of_idle hidle]
            rfl
          rw [hsame, htrail _ (hway ▸ foldl_mem_trail)] at hplace
          cases hplace
        refine ⟨hname, ?_, fun x hx => ?_, hplace, rfl⟩
        · exact htrail _ ((mem_trail_wayOf hname).mpr (.inl rfl))
        · exact htrail _ ((mem_trail_wayOf hname).mpr (.inr hx))
  · rintro ⟨hname, hstart, hfolders, hplace, rfl⟩
    rw [write, locate_of_folders hname hstart hfolders]
    dsimp only
    rw [hplace, if_neg Bool.false_ne_true]

/-! ## Writing one output -/

theorem filter_leads_wayOf (path : String) :
    (wayOf path).filter leads = (DiskPath.names path.toList).map String.ofList := by
  rw [wayOf, filter_map, DiskPath.names]
  congr 1
  refine filter_congr fun part _ => ?_
  simp [leads, ← String.toList_inj]

def makeAround (t : FileTree) (path : String) : Except FileFault FileTree :=
  t.makeFoldersAlong (t.startOf path).1 ((wayOf path).filter leads).dropLast.reverse

theorem makeAround_eq_ok {t' : FileTree} (h : t.makeAround path = .ok t') :
    t.Laid (t.startOf path).1 ((wayOf path).filter leads).dropLast t' := by
  have hlaid := laid_of_makeFoldersAlong h
  rwa [reverse_reverse] at hlaid

theorem makeFolders_of_parent (hrooted : DiskPath.isRooted folder = DiskPath.isRooted path)
    (hnames : DiskPath.names folder.toList = (DiskPath.names path.toList).dropLast) :
    t.makeFolders folder = t.makeAround path := by
  have hstart : (t.startOf folder).1 = (t.startOf path).1 := by
    rw [startOf, startOf, hrooted]
  have hway : (wayOf folder).filter leads = ((wayOf path).filter leads).dropLast := by
    rw [filter_leads_wayOf, filter_leads_wayOf, hnames, map_dropLast]
  rw [makeAround, ← hstart, ← hway]
  rfl

def writeAfter (path code : String) : Except FileFault Unit → StateM FileTree (Except FileFault Unit)
  | .error fault => pure (.error fault)
  | .ok () => Disk.writeText path code

theorem writeOutput_of_parent (hparent : DiskPath.parent? path = some folder) (hne : folder ≠ "")
    (code : String) :
    (writeOutput path code : StateM FileTree _) =
      Disk.makeFolders folder >>= writeAfter path code := by
  rw [writeOutput, hparent]
  split
  · cases ‹some folder = none›
  · exact absurd (Option.some.inj ‹_›) hne
  · cases ‹some folder = some _›
    rfl

theorem writeOutput_eq (path code : String) (t : FileTree) :
    (writeOutput path code : StateM FileTree _) t =
      match t.makeAround path with
      | .error fault => (.error fault, t)
      | .ok around => changeTree (·.write path code.toUTF8) around := by
  rcases DiskPath.parent?_cases path with ⟨hparent, hnames⟩ |
    ⟨folder, hparent, hne, hrooted, hnames⟩
  · have hhere : t.makeAround path = .ok t := by
      rw [makeAround, filter_leads_wayOf, ← map_dropLast, hnames]
      rfl
    rw [hhere, writeOutput]
    rcases hparent with hparent | hparent
    · rw [hparent]
      rfl
    · rw [hparent]
      rfl
  · rw [writeOutput_of_parent hparent hne, ← makeFolders_of_parent hrooted hnames]
    cases hmade : t.makeFolders folder with
    | error fault =>
      simp only [bind, StateT.bind, Disk.makeFolders, changeTree, hmade]
      rfl
    | ok around =>
      simp only [bind, StateT.bind, Disk.makeFolders, changeTree, hmade]
      rfl

/-- A file can stand at a path: no folder is at its place, and no file at one of its folders. -/
structure Fits (t : FileTree) (path : String) : Prop where
  named : EndsInName path
  fromFolder : t.isFolderAt (t.startOf path).1 = true
  free : ∀ x ∈ t.foldersFor path, t.isFolderAt x = true ∨ t.isFileAt x = false
  noFolder : t.isFolderAt (t.placeOf path) = false

/-- The tree `t'` is `t` with a content at the place of a path, and the folders around it. -/
structure Holds (t : FileTree) (path : String) (content : ByteArray) (t' : FileTree) : Prop where
  workingFolder : t'.workingFolder = t.workingFolder
  isFolderAt : ∀ x, t'.isFolderAt x = true ↔ t.isFolderAt x = true ∨ x ∈ t.foldersFor path
  content? : ∀ x, t'.content? x = if x = t.placeOf path then some content else t.content? x

section

variable (h : t'.workingFolder = t.workingFolder)

include h

theorem startOf_congr (path : String) : t'.startOf path = t.startOf path := by
  rw [startOf, startOf, h]

theorem placeOf_congr (path : String) : t'.placeOf path = t.placeOf path := by
  rw [placeOf, placeOf, startOf_congr h]

theorem foldersFor_congr (path : String) : t'.foldersFor path = t.foldersFor path := by
  rw [foldersFor, foldersFor, startOf_congr h]

end

theorem Holds.isFileAt (h : t.Holds path content t') (x : Location) :
    t'.isFileAt x = true ↔ x = t.placeOf path ∨ t.isFileAt x = true := by
  rw [FileTree.isFileAt, h.content?]
  split
  · rename_i hx
    simp [hx]
  · rename_i hx
    simp [hx, FileTree.isFileAt]

theorem changeTree_eq_ok {change : FileTree → Except FileFault FileTree} :
    changeTree change t = (.ok (), t') ↔ change t = .ok t' := by
  unfold changeTree
  split
  · rename_i changed h
    rw [h]
    constructor
    · intro hrun
      cases hrun
      rfl
    · intro hrun
      cases hrun
      rfl
  · rename_i fault h
    rw [h]
    exact iff_of_false (fun hrun => by cases hrun) fun hrun => by cases hrun

theorem writeOutput_eq_ok : (writeOutput path code : StateM FileTree _) t = (.ok (), t') ↔
    ∃ around, t.makeAround path = .ok around ∧ around.write path code.toUTF8 = .ok t' := by
  rw [writeOutput_eq]
  cases t.makeAround path with
  | error fault =>
    refine iff_of_false (fun hrun => by cases hrun) fun ⟨around, haround, _⟩ => ?_
    cases haround
  | ok around => simp [changeTree_eq_ok]

theorem fits_of_writeOutput (h : (writeOutput path code : StateM FileTree _) t = (.ok (), t')) :
    t.Fits path ∧ t.placeOf path ∉ t.foldersFor path ∧ t.Holds path code.toUTF8 t' := by
  obtain ⟨around, haround, hwrite⟩ := writeOutput_eq_ok.mp h
  have hlaid := makeAround_eq_ok haround
  have hworking := hlaid.grows.workingFolder
  obtain ⟨hname, hstart, hfolders, hplace, rfl⟩ := write_eq_ok.mp hwrite
  rw [startOf_congr hworking] at hstart
  rw [placeOf_congr hworking] at hplace ⊢
  have hfree := not_or.mp (mt (hlaid.grows.isFolderAt _).mpr (Bool.eq_false_iff.mp hplace))
  refine ⟨⟨hname, hlaid.fromFolder hstart, hlaid.clear.free, Bool.eq_false_iff.mpr hfree.1⟩,
    hfree.2, hworking, hlaid.grows.isFolderAt, fun x => ?_⟩
  rw [content?_put, FileTree.content?, hlaid.grows.files]
  rfl

theorem exists_writeOutput (h : t.Fits path) (hapart : t.placeOf path ∉ t.foldersFor path)
    (code : String) : ∃ t', (writeOutput path code : StateM FileTree _) t = (.ok (), t') := by
  have hclear : t.IsClear (t.startOf path).1 ((wayOf path).filter leads).dropLast.reverse.reverse := by
    rw [reverse_reverse]
    exact ⟨fun _ => h.fromFolder, h.free⟩
  obtain ⟨around, haround⟩ := exists_makeFoldersAlong hclear
  have hlaid := makeAround_eq_ok haround
  have hworking := hlaid.grows.workingFolder
  refine ⟨_, writeOutput_eq_ok.mpr ⟨around, haround, write_eq_ok.mpr ⟨h.named, ?_, ?_, ?_, rfl⟩⟩⟩
  · rw [startOf_congr hworking, hlaid.grows.isFolderAt]
    exact .inl h.fromFolder
  · rw [foldersFor_congr hworking]
    exact fun x hx => (hlaid.grows.isFolderAt x).mpr (.inr hx)
  · rw [placeOf_congr hworking, Bool.eq_false_iff, ne_eq, hlaid.grows.isFolderAt, not_or]
    exact ⟨Bool.eq_false_iff.mp h.noFolder, hapart⟩

/-! ## Writing several outputs -/

variable {outputs : List (String × String)}

theorem writeEach_cons :
    (writeEach (output :: outputs) : StateM FileTree _) t = (.ok (), t') ↔
      ∃ next, (writeOutput output.1 output.2 : StateM FileTree _) t = (.ok (), next) ∧
        (writeEach outputs : StateM FileTree _) next = (.ok (), t') := by
  rcases hone : (writeOutput output.1 output.2 : StateM FileTree _) t with ⟨answer, next⟩
  rw [writeEach]
  simp only [bind, StateT.bind, hone]
  cases answer with
  | error fault =>
    refine iff_of_false (fun hrun => by cases hrun) fun ⟨_, hok, _⟩ => ?_
    cases hok
  | ok _ =>
    constructor
    · intro hrun
      exact ⟨next, rfl, hrun⟩
    · rintro ⟨_, hok, hrun⟩
      cases hok
      exact hrun

/-- The tree `t'` is `t` with files at the places of all outputs, each with the text of an output
for that place, and the folders around them. -/
structure HoldsAll (t : FileTree) (outputs : List (String × String)) (t' : FileTree) : Prop where
  workingFolder : t'.workingFolder = t.workingFolder
  isFolderAt : ∀ x, t'.isFolderAt x = true ↔
    t.isFolderAt x = true ∨ ∃ o ∈ outputs, x ∈ t.foldersFor o.1
  kept : ∀ x, (∀ o ∈ outputs, x ≠ t.placeOf o.1) → t'.content? x = t.content? x
  written : ∀ o ∈ outputs, ∃ o' ∈ outputs, t.placeOf o'.1 = t.placeOf o.1 ∧
    t'.content? (t.placeOf o.1) = some o'.2.toUTF8
  located : ∀ o ∈ outputs, t'.locate o.1 = .ok (t.placeOf o.1)

namespace HoldsAll

theorem nil (t : FileTree) : t.HoldsAll [] t := by
  refine ⟨rfl, fun x => ?_, fun x _ => rfl, ?_, ?_⟩
  · simp
  · simp
  · simp

theorem cons {next : FileTree} (hfits : t.Fits output.1)
    (hone : t.Holds output.1 output.2.toUTF8 next) (hrest : next.HoldsAll outputs t') :
    t.HoldsAll (output :: outputs) t' := by
  have hplace := placeOf_congr hone.workingFolder
  have hfolders := foldersFor_congr hone.workingFolder
  have hfolder : ∀ x, t'.isFolderAt x = true ↔
      t.isFolderAt x = true ∨ ∃ o ∈ output :: outputs, x ∈ t.foldersFor o.1 := by
    intro x
    rw [hrest.isFolderAt, hone.isFolderAt, or_assoc]
    simp [hfolders]
  refine ⟨hrest.workingFolder.trans hone.workingFolder, hfolder, fun x hx => ?_, fun o ho => ?_,
    fun o ho => ?_⟩
  · obtain ⟨hx, hothers⟩ := forall_mem_cons.mp hx
    rw [hrest.kept x fun o ho => hplace o.1 ▸ hothers o ho, hone.content?, if_neg hx]
  · by_cases hlater : ∃ o' ∈ outputs, t.placeOf o'.1 = t.placeOf o.1
    · obtain ⟨o', ho', hsame⟩ := hlater
      obtain ⟨o'', ho'', hother, hcontent⟩ := hrest.written o' ho'
      rw [hplace, hplace, hsame] at hother
      rw [hplace, hsame] at hcontent
      exact ⟨o'', mem_cons_of_mem _ ho'', hother, hcontent⟩
    · rcases mem_cons.mp ho with rfl | ho
      · refine ⟨o, mem_cons_self, rfl, ?_⟩
        rw [hrest.kept _ fun o' ho' hsame => hlater ⟨o', ho', (hsame.trans (hplace o'.1)).symm⟩,
          hone.content?, if_pos rfl]
      · exact absurd ⟨o, ho, rfl⟩ hlater
  · rcases mem_cons.mp ho with rfl | ho
    · have hworking := hrest.workingFolder.trans hone.workingFolder
      rw [← placeOf_congr hworking]
      refine locate_of_folders hfits.named ?_ ?_
      · rw [startOf_congr hworking]
        exact (hfolder _).mpr (.inl hfits.fromFolder)
      · rw [foldersFor_congr hworking]
        exact fun x hx => (hfolder x).mpr (.inr ⟨o, mem_cons_self, hx⟩)
    · rw [hrest.located o ho, hplace]

end HoldsAll

theorem holdsAll_of_writeEach (h : (writeEach outputs : StateM FileTree _) t = (.ok (), t')) :
    t.HoldsAll outputs t' := by
  induction outputs generalizing t with
  | nil =>
    cases h
    exact .nil _
  | cons output outputs ih =>
    obtain ⟨next, hone, hrest⟩ := writeEach_cons.mp h
    obtain ⟨hfits, _, hone⟩ := fits_of_writeOutput hone
    exact .cons hfits hone (ih hrest)

/-- Each output fits, and none stands where another needs a folder. -/
structure FitTogether (t : FileTree) (outputs : List (String × String)) : Prop where
  fits : ∀ o ∈ outputs, t.Fits o.1
  apart : ∀ o ∈ outputs, ∀ o' ∈ outputs, t.placeOf o.1 ∉ t.foldersFor o'.1

namespace FitTogether

theorem perm {others : List (String × String)} (h : t.FitTogether outputs)
    (hperm : others.Perm outputs) : t.FitTogether others :=
  ⟨fun o ho => h.fits o (hperm.mem_iff.mp ho),
    fun o ho o' ho' => h.apart o (hperm.mem_iff.mp ho) o' (hperm.mem_iff.mp ho')⟩

variable {output : String × String} {next : FileTree}

/-- What fits after an output was written fits together with it. -/
theorem cons (hfits : t.Fits output.1) (hself : t.placeOf output.1 ∉ t.foldersFor output.1)
    (hone : t.Holds output.1 output.2.toUTF8 next)
    (hstart : ∀ o ∈ outputs, t.isFolderAt (t.startOf o.1).1 = true) (h : next.FitTogether outputs) :
    t.FitTogether (output :: outputs) := by
  have hplace := placeOf_congr hone.workingFolder
  have hfolders := foldersFor_congr hone.workingFolder
  have hbefore : ∀ o ∈ outputs, t.Fits o.1 ∧ t.placeOf o.1 ∉ t.foldersFor output.1 ∧
      t.placeOf output.1 ∉ t.foldersFor o.1 := by
    intro o ho
    obtain ⟨hnamed, _, hfree, hnone⟩ := h.fits o ho
    rw [hfolders] at hfree
    rw [hplace, Bool.eq_false_iff, ne_eq, hone.isFolderAt, not_or] at hnone
    refine ⟨⟨hnamed, hstart o ho, fun x hx => ?_, Bool.eq_false_iff.mpr hnone.1⟩, hnone.2,
      fun hmem => ?_⟩
    · rcases hfree x hx with hfolder | hfile
      · rcases (hone.isFolderAt x).mp hfolder with hfolder | hmade
        · exact .inl hfolder
        · exact hfits.free x hmade
      · rw [Bool.eq_false_iff, ne_eq, hone.isFileAt, not_or] at hfile
        exact .inr (Bool.eq_false_iff.mpr hfile.2)
    · -- The file stands there already, and no folder does.
      rcases hfree _ hmem with hfolder | hfile
      · rcases (hone.isFolderAt _).mp hfolder with hfolder | hmade
        · rw [hfits.noFolder] at hfolder
          cases hfolder
        · exact hself hmade
      · rw [(hone.isFileAt _).mpr (.inl rfl)] at hfile
        cases hfile
  refine ⟨forall_mem_cons.mpr ⟨hfits, fun o ho => (hbefore o ho).1⟩, ?_⟩
  intro o ho o' ho'
  rcases mem_cons.mp ho with rfl | hmem
  · rcases mem_cons.mp ho' with rfl | hmem'
    · exact hself
    · exact (hbefore o' hmem').2.2
  · rcases mem_cons.mp ho' with rfl | hmem'
    · exact (hbefore o hmem).2.1
    · have hapart := h.apart o hmem o' hmem'
      rwa [hplace, hfolders] at hapart

theorem tail (h : t.FitTogether (output :: outputs))
    (hone : t.Holds output.1 output.2.toUTF8 next) : next.FitTogether outputs := by
  have hplace := placeOf_congr hone.workingFolder
  have hfolders := foldersFor_congr hone.workingFolder
  refine ⟨fun o ho => ?_, fun o ho o' ho' => ?_⟩
  · have hmem := mem_cons_of_mem output ho
    obtain ⟨hnamed, hstart, hfree, hnone⟩ := h.fits o hmem
    refine ⟨hnamed, ?_, fun x hx => ?_, ?_⟩
    · rw [startOf_congr hone.workingFolder]
      exact (hone.isFolderAt _).mpr (.inl hstart)
    · rw [hfolders] at hx
      refine (hfree x hx).imp (fun hfolder => (hone.isFolderAt x).mpr (.inl hfolder)) fun hfile => ?_
      rw [Bool.eq_false_iff, ne_eq, hone.isFileAt, not_or]
      refine ⟨?_, Bool.eq_false_iff.mp hfile⟩
      rintro rfl
      exact h.apart output mem_cons_self o hmem hx
    · rw [hplace, Bool.eq_false_iff, ne_eq, hone.isFolderAt, not_or]
      exact ⟨Bool.eq_false_iff.mp hnone, h.apart o hmem output mem_cons_self⟩
  · rw [hplace, hfolders]
    exact h.apart o (mem_cons_of_mem _ ho) o' (mem_cons_of_mem _ ho')

end FitTogether

theorem fitTogether_of_writeEach (hstart : ∀ o ∈ outputs, t.isFolderAt (t.startOf o.1).1 = true)
    (h : (writeEach outputs : StateM FileTree _) t = (.ok (), t')) : t.FitTogether outputs := by
  induction outputs generalizing t with
  | nil => exact ⟨by simp, by simp⟩
  | cons output outputs ih =>
    obtain ⟨next, hone, hrest⟩ := writeEach_cons.mp h
    obtain ⟨hfits, hself, hone⟩ := fits_of_writeOutput hone
    have hothers := fun o ho => hstart o (mem_cons_of_mem _ ho)
    refine .cons hfits hself hone hothers (ih (fun o ho => ?_) hrest)
    rw [startOf_congr hone.workingFolder]
    exact (hone.isFolderAt _).mpr (.inl (hothers o ho))

theorem exists_writeEach (h : t.FitTogether outputs) :
    ∃ t', (writeEach outputs : StateM FileTree _) t = (.ok (), t') := by
  induction outputs generalizing t with
  | nil => exact ⟨t, rfl⟩
  | cons output outputs ih =>
    obtain ⟨next, hone⟩ := exists_writeOutput (h.fits output mem_cons_self)
      (h.apart output mem_cons_self output mem_cons_self) output.2
    obtain ⟨t', hrest⟩ := ih (h.tail (fits_of_writeOutput hone).2.2)
    exact ⟨t', writeEach_cons.mpr ⟨next, hone, hrest⟩⟩

end FileTree

end ModuleBridge
