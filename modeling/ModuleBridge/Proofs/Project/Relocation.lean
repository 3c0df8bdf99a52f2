import ModuleBridge.Proofs.Project.Discovery

/-!
# Discovery and the place of a project

The same tree below two roots has the same files for every pattern that does not lead out of it. It
is the exclusions that look at the root: the files found are the same, as seen from the root, where
no exclusion treats the two roots differently.
-/

namespace ModuleBridge

open List

namespace DiskPath

variable {root folder name a b : String} {names : List String}

/-- The path of a folder with a slash at its end. -/
def slashed (folder : String) : String :=
  if folder.endsWith "/" then folder else folder ++ "/"

theorem endsWith_slash (folder : String) :
    folder.endsWith "/" = (folder.toList.getLast? == some '/') := by
  rw [Bool.eq_iff_iff, String.endsWith_eq_endsWith_toSlice, String.Slice.endsWith_string_iff,
    String.copy_toSlice, beq_iff_eq, getLast?_eq_some_iff]
  exact exists_congr fun front => eq_comm

theorem slashed_append (hb : b ≠ "") : slashed (a ++ b) = a ++ slashed b := by
  have hne : b.toList ≠ [] := by simpa using hb
  simp only [slashed, endsWith_slash, String.toList_append, getLast?_append_of_ne_nil _ hne]
  split
  · rfl
  · exact String.append_assoc ..

theorem slashed_slashed (a : String) : slashed (slashed a) = slashed a := by
  refine if_pos ?_
  unfold slashed
  split
  · assumption
  · simp [endsWith_slash]

theorem join_eq_slashed (hname : isRooted name = false) (hne : folder ≠ "") :
    join folder name = slashed folder ++ name := by
  rw [join, hname, slashed, Bool.false_or, if_neg (by simpa using hne)]
  split <;> rfl

theorem join_join (hne : root ≠ "") (ha : isRooted a = false) (hb : isRooted b = false) :
    join (join root a) b = join root (join a b) := by
  rw [join_eq_slashed hb (join_ne_empty ha hne), join_eq_slashed ha hne]
  by_cases hempty : a = ""
  · rw [hempty, join_empty, String.append_empty, slashed_slashed, join_eq_slashed hb hne]
  · rw [slashed_append hempty, String.append_assoc, ← join_eq_slashed hb hempty,
      join_eq_slashed (by rw [isRooted_join hb, ha]) hne]

theorem join_inj (hne : root ≠ "") (ha : isRooted a = false) (hb : isRooted b = false) :
    join root a = join root b ↔ a = b := by
  rw [join_eq_slashed ha hne, join_eq_slashed hb hne]
  exact String.append_right_inj _

/-- Names lead to the same path whether the root is put before them or before the folder. -/
theorem pathAlong_join (hne : root ≠ "") (hfolder : isRooted folder = false)
    (hnames : ∀ name ∈ names, isRooted name = false) :
    pathAlong (join root folder) names = join root (pathAlong folder names) ∧
      isRooted (pathAlong folder names) = false := by
  induction names generalizing folder with
  | nil => exact ⟨rfl, hfolder⟩
  | cons name names ih =>
    obtain ⟨hname, hnames⟩ := forall_mem_cons.mp hnames
    rw [pathAlong, foldl_cons, join_join hne hfolder hname]
    exact ih (by rw [isRooted_join hname, hfolder]) hnames

end DiskPath

namespace FilePattern

/-- The path in a pattern that leads to where it looks for files. -/
def way : FilePattern → String
  | exact path => path
  | within folder _ => folder
  | below folder _ => folder

end FilePattern

namespace FileTree

open DiskPath (join isRooted)

variable {t u : FileTree} {root other rel folder namePattern path : String}
  {here there place inner : Location} {way names exclusions inclusions : List String}
  {pattern : FilePattern} {admits admits' : Location → Bool}

/-! ## Ways below a folder -/

/-- Whether a way that starts at `inner` below a folder never leaves that folder. -/
def staysBelow : Location → List String → Bool
  | _, [] => true
  | inner, name :: rest => (name ≠ ".." || inner ≠ []) && staysBelow (enter inner name) rest

/-- A relative path that does not lead out of the folder it starts from. -/
def IsInner (rel : String) : Prop :=
  isRooted rel = false ∧ staysBelow [] (wayOf rel) = true

theorem enter_append {name : String} (h : (name ≠ ".." || inner ≠ []) = true) :
    enter (here ++ inner) name = here ++ enter inner name := by
  unfold enter
  split
  · rfl
  · split
    · rename_i hup
      rw [dropLast_append_of_ne_nil (by simpa [hup] using h)]
    · rw [append_assoc]

theorem follow_below (h : staysBelow inner way = true) :
    t.follow (here ++ inner) way = .ok place ↔
      (∀ x ∈ trail inner way, t.isFolderAt (here ++ x) = true) ∧
        here ++ way.foldl enter inner = place := by
  rw [follow_eq_ok]
  induction way generalizing inner with
  | nil => simp [trail]
  | cons name way ih =>
    rw [staysBelow, Bool.and_eq_true] at h
    rw [trail, trail, forall_mem_cons, forall_mem_cons, foldl_cons, foldl_cons, enter_append h.1,
      and_assoc, ih h.2, and_assoc]

theorem locate_inner (hroot : t.locate root = .ok here) (hrel : IsInner rel) :
    t.locate (join root rel) = .ok place ↔
      (∀ x ∈ trail [] (wayOf rel), t.isFolderAt (here ++ x) = true) ∧
        here ++ (wayOf rel).foldl enter [] = place := by
  rw [locate_join hroot hrel.1, ← follow_below hrel.2, append_nil]

/-! ## One tree below two roots -/

/-- The same tree stands at the places of two roots. -/
structure SameBelow (t u : FileTree) (root other : String) (here there : Location) : Prop where
  root : t.locate root = .ok here
  other : u.locate other = .ok there
  isFolderAt : ∀ names, t.isFolderAt (here ++ names) = u.isFolderAt (there ++ names)
  isFileAt : ∀ names, t.isFileAt (here ++ names) = u.isFileAt (there ++ names)

/-- No exclusion treats a relative path differently below two roots. -/
def Agree (exclusions : List String) (root other : String) : Prop :=
  ∀ rel, isRooted rel = false →
    isExcluded exclusions (join root rel) = isExcluded exclusions (join other rel)

namespace SameBelow

theorem symm (h : t.SameBelow u root other here there) : u.SameBelow t other root there here where
  root := h.other
  other := h.root
  isFolderAt names := (h.isFolderAt names).symm
  isFileAt names := (h.isFileAt names).symm

variable (h : t.SameBelow u root other here there)

include h

theorem ne_empty : root ≠ "" :=
  (locate_eq_ok.mp h.root).1

theorem isFile_join (hrel : IsInner rel) :
    t.isFile (join root rel) = true ↔ u.isFile (join other rel) = true := by
  have hisFile : ∀ (s : FileTree) (path : String),
      s.isFile path = true ↔ ∃ place, s.locate path = .ok place ∧ s.isFileAt place = true := by
    intro s path
    unfold isFile
    split <;> simp [*]
  simp only [hisFile, locate_inner h.root hrel, locate_inner h.other hrel, h.isFolderAt, and_assoc,
    exists_and_left, exists_eq_left', h.isFileAt]

theorem reaches_join (hfolder : IsInner folder) :
    t.Reaches (join root folder) namePattern admits names ↔
      u.Reaches (join other folder) namePattern admits names := by
  simp only [reaches_iff, locate_inner h.root hfolder, locate_inner h.other hfolder, h.isFolderAt,
    and_assoc, exists_and_left, exists_eq_left', h.isFileAt, append_assoc]

theorem offers_join (hfolder : IsInner folder)
    (hadmits : ∀ outer, (∀ name ∈ outer, isRooted name = false) → admits outer = admits' outer)
    (hoffers : t.Offers (join root folder) namePattern admits path) :
    ∃ rel, isRooted rel = false ∧ path = join root rel ∧
      u.Offers (join other folder) namePattern admits' (join other rel) := by
  obtain ⟨names, rfl, hreach⟩ := hoffers
  have hplain : ∀ name ∈ names, isRooted name = false :=
    fun name hname => isRooted_of_isName (hreach.plain name hname)
  have hhere := DiskPath.pathAlong_join h.ne_empty hfolder.1 hplain
  have hthere := DiskPath.pathAlong_join h.symm.ne_empty hfolder.1 hplain
  have hreach' := (h.reaches_join hfolder).mp hreach
  refine ⟨_, hhere.2, hhere.1, names, hthere.1.symm, hreach.matched, hreach.plain, ?_,
    hreach'.isFile⟩
  intro outer houter
  obtain ⟨n, -, rfl⟩ := mem_map.mp (mem_of_mem_tail houter)
  rw [← hadmits _ fun name hname => hplain name (mem_of_mem_take hname)]
  exact hreach'.admitted _ houter

/-- What a pattern names below one root, it names below the other. -/
theorem names_join (hagree : Agree exclusions root other) (hinner : IsInner pattern.way)
    (hnames : t.Names root exclusions pattern path) :
    ∃ rel, isRooted rel = false ∧ path = join root rel ∧
      u.Names other exclusions pattern (join other rel) := by
  cases pattern with
  | exact name =>
    obtain ⟨rfl, hfile⟩ := hnames
    exact ⟨name, hinner.1, rfl, rfl, (h.isFile_join hinner).mp hfile⟩
  | within folder namePattern => exact h.offers_join hinner (fun _ _ => rfl) hnames
  | below folder namePattern =>
    refine h.offers_join hinner (fun outer houter => ?_) hnames
    have hhere := DiskPath.pathAlong_join h.ne_empty hinner.1 houter
    have hthere := DiskPath.pathAlong_join h.symm.ne_empty hinner.1 houter
    rw [FilePattern.way] at hhere hthere
    rw [enters, enters, hhere.1, hthere.1, hagree _ hhere.2]

theorem mem_discovered_join (hagree : Agree exclusions root other)
    (hinner : ∀ text ∈ inclusions, IsInner (FilePattern.ofText text).way)
    (hpath : path ∈ t.discovered root inclusions exclusions) :
    ∃ rel, isRooted rel = false ∧ path = join root rel ∧
      join other rel ∈ u.discovered other inclusions exclusions := by
  obtain ⟨text, htext, hnames, hspared⟩ := ((discovered_spec t root _ _).2.2 path).mp hpath
  obtain ⟨rel, hrel, rfl, hothers⟩ := h.names_join hagree (hinner text htext) hnames
  refine ⟨rel, hrel, rfl, ((discovered_spec u other _ _).2.2 _).mpr ⟨text, htext, hothers, ?_⟩⟩
  rw [← hagree rel hrel, hspared]

end SameBelow

/-- Where exclusions agree on two roots, discovery finds the same files below them, as seen from the
roots, with any inclusions that do not lead out. A file that an inclusion names alone is found below
both or neither exactly if the exclusions agree on it. -/
theorem discovered_below_iff (h : t.SameBelow u root other here there) (exclusions : List String) :
    (Agree exclusions root other → ∀ inclusions,
      (∀ text ∈ inclusions, IsInner (FilePattern.ofText text).way) →
        (∀ path ∈ t.discovered root inclusions exclusions,
          ∃ rel, isRooted rel = false ∧ path = join root rel) ∧
        ∀ rel, isRooted rel = false →
          (join root rel ∈ t.discovered root inclusions exclusions ↔
            join other rel ∈ u.discovered other inclusions exclusions)) ∧
      ∀ rel, IsInner rel → FilePattern.ofText rel = .exact rel → t.isFile (join root rel) = true →
        ((join root rel ∈ t.discovered root [rel] exclusions ↔
            join other rel ∈ u.discovered other [rel] exclusions) ↔
          isExcluded exclusions (join root rel) = isExcluded exclusions (join other rel)) := by
  refine ⟨fun hagree inclusions hinner => ⟨fun path hpath => ?_, fun rel hrel => ⟨fun hmem => ?_,
    fun hmem => ?_⟩⟩, fun rel hrel hexact hfile => ?_⟩
  · obtain ⟨rel, hrel, hpath, -⟩ := h.mem_discovered_join hagree hinner hpath
    exact ⟨rel, hrel, hpath⟩
  · obtain ⟨rel', hrel', heq, hmem⟩ := h.mem_discovered_join hagree hinner hmem
    rwa [(DiskPath.join_inj h.ne_empty hrel hrel').mp heq]
  · have hback : Agree exclusions other root := fun rel hrel => (hagree rel hrel).symm
    obtain ⟨rel', hrel', heq, hmem⟩ := h.symm.mem_discovered_join hback hinner hmem
    rwa [(DiskPath.join_inj h.symm.ne_empty hrel hrel').mp heq]
  · have hfile' := (h.isFile_join hrel).mp hfile
    simp only [(discovered_spec _ _ _ _).2.2, mem_singleton, exists_eq_left, hexact, Names, hfile,
      hfile', true_and]
    cases isExcluded exclusions (join root rel) <;>
      cases isExcluded exclusions (join other rel) <;> decide

/-- Two folders with one script each. -/
def twinFolders : FileTree :=
  ⟨[], [["dist"], ["app"]], [(["dist", "a.js"], .empty), (["app", "a.js"], .empty)]⟩

/-- A script that is found in any other folder is excluded with the name of its own. -/
theorem twinFolders_found :
    ¬(join "dist" "a.js" ∈ twinFolders.discovered "dist" ["a.js"] ["dist"] ↔
      join "app" "a.js" ∈ twinFolders.discovered "app" ["a.js"] ["dist"]) := by
  have hplain : isRooted "a.js" = false := by simp [isRooted]
  have hsame : twinFolders.SameBelow twinFolders "dist" "app" ["dist"] ["app"] := by
    refine ⟨by cbv, by cbv, fun names => ?_, fun names => ?_⟩
    · simp [isFolderAt, twinFolders]
    · simp [isFileAt, content?, twinFolders, lookup]
  rw [(discovered_below_iff hsame ["dist"]).2 "a.js" ⟨hplain, by cbv⟩ rfl (by cbv)]
  have hdist : isExcluded ["dist"] (join "dist" "a.js") = true := by cbv
  have happ : isExcluded ["dist"] (join "app" "a.js") = false := by cbv
  rw [hdist, happ]
  decide

end FileTree

end ModuleBridge
