import Mathlib
import ModuleBridge.Disk.Tree

/-!
# Folders along a way

Following names needs a folder at every place where a name is looked up, and leads to a place that
the names alone determine. Making folders along a way succeeds exactly if it starts in a folder and
no place on it is taken by a file; it changes nothing but the folders on the way.
-/

namespace ModuleBridge

open List

variable {fault : FileFault}

namespace FileTree

variable {t around made : FileTree} {start place x : Location} {names : List String} {last : String}

theorem isFolderAt_iff : t.isFolderAt x = true ↔ x = [] ∨ x ∈ t.folders := by
  simp [isFolderAt]

/-! ## Ways -/

/-- The places in which the names of a way are looked up. -/
def trail : Location → List String → List Location
  | _, [] => []
  | place, name :: rest => place :: trail (enter place name) rest

/-- The places to which the names of a way lead, one after the other. -/
def stops : Location → List String → List Location
  | _, [] => []
  | place, name :: rest => enter place name :: stops (enter place name) rest

theorem mem_trail_concat :
    x ∈ trail place (names ++ [last]) ↔ x = place ∨ x ∈ stops place names := by
  induction names generalizing place with
  | nil => simp [trail, stops]
  | cons name names ih => simp [trail, stops, ih]

theorem mem_stops_concat :
    x ∈ stops place (names ++ [last]) ↔
      x ∈ stops place names ∨ x = (names ++ [last]).foldl enter place := by
  induction names generalizing place with
  | nil => simp [stops]
  | cons name names ih => simp [stops, ih, or_assoc]

theorem follow_eq_ok {e : Location} :
    t.follow place names = .ok e ↔
      (∀ x ∈ trail place names, t.isFolderAt x = true) ∧ names.foldl enter place = e := by
  induction names generalizing place with
  | nil => simp [follow, trail]
  | cons name names ih =>
    rw [follow, trail, forall_mem_cons, foldl_cons]
    cases hplace : t.isFolderAt place with
    | true => simp [ih]
    | false =>
      simp only [Bool.false_eq_true, if_false, false_and, iff_false]
      split <;> simp

theorem follow_eq_error (h : t.follow place names = .error fault) :
    ∃ x ∈ trail place names, t.isFolderAt x = false ∧
      (fault = .missing ∨ fault = .notFolder ∧ t.isFileAt x = true) := by
  induction names generalizing place with
  | nil => cases h
  | cons name names ih =>
    rw [follow] at h
    cases hplace : t.isFolderAt place with
    | true =>
      rw [hplace, if_pos rfl] at h
      obtain ⟨x, hx, hfault⟩ := ih h
      exact ⟨x, mem_cons_of_mem _ hx, hfault⟩
    | false =>
      rw [hplace, if_neg Bool.false_ne_true] at h
      refine ⟨place, mem_cons_self, hplace, ?_⟩
      split at h
      · rename_i hfile
        cases h
        exact .inr ⟨rfl, hfile⟩
      · cases h
        exact .inl rfl

theorem leadsToFolder_iff : t.leadsToFolder place names = true ↔
    (∀ x ∈ trail place names, t.isFolderAt x = true) ∧
      t.isFolderAt (names.foldl enter place) = true := by
  unfold leadsToFolder
  split
  · rename_i e h
    obtain ⟨htrail, rfl⟩ := follow_eq_ok.mp h
    exact (and_iff_right htrail).symm
  · rename_i h
    refine iff_of_false Bool.false_ne_true fun ⟨htrail, _⟩ => ?_
    rw [follow_eq_ok.mpr ⟨htrail, rfl⟩] at h
    cases h

theorem makeFolder_eq_ok : t.makeFolder place names = .ok made ↔
    (∀ x ∈ trail place names, t.isFolderAt x = true) ∧
      t.isFolderAt (names.foldl enter place) = false ∧
      t.isFileAt (names.foldl enter place) = false ∧
      made = { t with folders := names.foldl enter place :: t.folders } := by
  unfold makeFolder
  split
  · rename_i h
    refine iff_of_false (fun hok => by cases hok) fun ⟨htrail, _⟩ => ?_
    rw [follow_eq_ok.mpr ⟨htrail, rfl⟩] at h
    cases h
  · rename_i e h
    obtain ⟨htrail, rfl⟩ := follow_eq_ok.mp h
    rw [and_iff_right htrail]
    split
    · rename_i htaken
      refine iff_of_false (fun hok => by cases hok) fun ⟨hfolder, hfile, _⟩ => ?_
      rw [hfolder, hfile] at htaken
      cases htaken
    · rename_i hfree
      rw [Bool.not_eq_true, Bool.or_eq_false_iff] at hfree
      rw [and_iff_right hfree.1, and_iff_right hfree.2, Except.ok.injEq, eq_comm]

/-- Making a folder is refused where the way breaks off or something is there already. -/
theorem makeFolder_eq_error (h : t.makeFolder place names = .error fault) :
    t.follow place names = .error fault ∨
      fault = .alreadyThere ∧ (∀ x ∈ trail place names, t.isFolderAt x = true) ∧
        (t.isFolderAt (names.foldl enter place) = true ∨
          t.isFileAt (names.foldl enter place) = true) := by
  unfold makeFolder at h
  split at h
  · rename_i hfollow
    cases h
    exact .inl hfollow
  · rename_i e hfollow
    obtain ⟨htrail, rfl⟩ := follow_eq_ok.mp hfollow
    split at h
    · rename_i htaken
      cases h
      exact .inr ⟨rfl, htrail, by simpa using htaken⟩
    · cases h

/-! ## Making folders -/

/-- Nothing but folders was added: those at the places `made`. -/
structure Grows (t : FileTree) (made : List Location) (t' : FileTree) : Prop where
  workingFolder : t'.workingFolder = t.workingFolder
  files : t'.files = t.files
  isFolderAt : ∀ x, t'.isFolderAt x = true ↔ t.isFolderAt x = true ∨ x ∈ made

theorem Grows.isFileAt {places : List Location} (h : t.Grows places made) (x : Location) :
    made.isFileAt x = t.isFileAt x := by
  rw [FileTree.isFileAt, content?, h.files]
  rfl

/-- A way starts in a folder, and no place that it leads to is taken by a file. -/
structure IsClear (t : FileTree) (start : Location) (way : List String) : Prop where
  fromFolder : way ≠ [] → t.isFolderAt start = true
  free : ∀ x ∈ stops start way, t.isFolderAt x = true ∨ t.isFileAt x = false

theorem isClear_concat : t.IsClear start (names ++ [last]) ↔
    t.IsClear start names ∧ t.isFolderAt start = true ∧
      (t.isFolderAt ((names ++ [last]).foldl enter start) = true ∨
        t.isFileAt ((names ++ [last]).foldl enter start) = false) := by
  constructor
  · intro h
    have hstart := h.fromFolder (by simp)
    refine ⟨⟨fun _ => hstart, fun x hx => ?_⟩, hstart, ?_⟩
    · exact h.free x (mem_stops_concat.mpr (.inl hx))
    · exact h.free _ (mem_stops_concat.mpr (.inr rfl))
  · intro ⟨h, hstart, hlast⟩
    refine ⟨fun _ => hstart, fun x hx => ?_⟩
    rcases mem_stops_concat.mp hx with hx | rfl
    · exact h.free x hx
    · exact hlast

/-- The folders of a clear way were made. -/
structure Laid (t : FileTree) (start : Location) (way : List String) (t' : FileTree) : Prop where
  clear : t.IsClear start way
  grows : t.Grows (stops start way) t'

namespace Laid

theorem of_trail (h : ∀ x ∈ trail start (names ++ [last]), t.isFolderAt x = true) :
    t.Laid start names t := by
  have hstart := h start (mem_trail_concat.mpr (.inl rfl))
  have hstops := fun x hx => h x (mem_trail_concat.mpr (.inr hx))
  refine ⟨⟨fun _ => hstart, fun x hx => .inl (hstops x hx)⟩, rfl, rfl, fun x => ?_⟩
  exact (or_iff_left_of_imp (hstops x)).symm

section

variable (h : t.Laid start names around)

include h

theorem trail (hstart : t.isFolderAt start = true) :
    ∀ x ∈ FileTree.trail start (names ++ [last]), around.isFolderAt x = true := by
  intro x hx
  rw [h.grows.isFolderAt]
  rcases mem_trail_concat.mp hx with rfl | hx
  · exact .inl hstart
  · exact .inr hx

theorem fromFolder (hstart : around.isFolderAt start = true) : t.isFolderAt start = true := by
  cases names with
  | nil => exact ((h.grows.isFolderAt start).mp hstart).resolve_right not_mem_nil
  | cons name names => exact h.clear.fromFolder (cons_ne_nil _ _)

theorem make (hmade : around.makeFolder start (names ++ [last]) = .ok made) :
    t.Laid start (names ++ [last]) made := by
  obtain ⟨htrail, _, hfile, rfl⟩ := makeFolder_eq_ok.mp hmade
  have hstart := h.fromFolder (htrail start (mem_trail_concat.mpr (.inl rfl)))
  rw [h.grows.isFileAt] at hfile
  refine ⟨isClear_concat.mpr ⟨h.clear, hstart, .inr hfile⟩,
    h.grows.workingFolder, h.grows.files, fun x => ?_⟩
  have hmore : ({ around with folders := (names ++ [last]).foldl enter start :: around.folders } :
      FileTree).isFolderAt x = true ↔
        around.isFolderAt x = true ∨ x = (names ++ [last]).foldl enter start := by
    rw [isFolderAt_iff, isFolderAt_iff, mem_cons, or_assoc]
    exact or_congr_right or_comm
  rw [hmore, h.grows.isFolderAt, mem_stops_concat, or_assoc]

theorem keep (hleads : around.leadsToFolder start (names ++ [last]) = true) :
    t.Laid start (names ++ [last]) around := by
  obtain ⟨htrail, hlast⟩ := leadsToFolder_iff.mp hleads
  have hstart := h.fromFolder (htrail start (mem_trail_concat.mpr (.inl rfl)))
  have hthere := (h.grows.isFolderAt _).mp hlast
  refine ⟨isClear_concat.mpr ⟨h.clear, hstart, ?_⟩,
    h.grows.workingFolder, h.grows.files, fun x => ?_⟩
  · rcases hthere with hthere | hthere
    · exact .inl hthere
    · exact h.clear.free _ hthere
  · rw [h.grows.isFolderAt, mem_stops_concat]
    constructor
    · rintro (hx | hx)
      · exact .inl hx
      · exact .inr (.inl hx)
    · rintro (hx | hx | rfl)
      · exact .inl hx
      · exact .inr hx
      · exact hthere

end

end Laid

theorem laid_of_makeFoldersAlong {inward : List String}
    (h : t.makeFoldersAlong start inward = .ok made) : t.Laid start inward.reverse made := by
  induction inward generalizing made with
  | nil =>
    cases h
    refine ⟨⟨fun hne => absurd rfl hne, fun x hx => ?_⟩, rfl, rfl, fun x => ?_⟩
    · cases hx
    · exact (or_iff_left not_mem_nil).symm
  | cons last outer ih =>
    rw [reverse_cons]
    rw [makeFoldersAlong, reverse_cons] at h
    dsimp only at h
    split at h
    · rename_i hmade
      cases h
      exact (Laid.of_trail (makeFolder_eq_ok.mp hmade).1).make hmade
    · split at h
      · cases h
      · rename_i around haround
        split at h
        · rename_i hmade
          cases h
          exact (ih haround).make hmade
        · split at h
          · rename_i hleads
            cases h
            exact (ih haround).keep hleads
          · cases h
    · split at h
      · rename_i hleads
        cases h
        exact (Laid.of_trail (leadsToFolder_iff.mp hleads).1).keep hleads
      · cases h

/-- On a clear way no file is in the way, so that only something missing stops it. -/
theorem IsClear.fault_eq_missing (h : t.IsClear start (names ++ [last]))
    (hfollow : t.follow start (names ++ [last]) = .error fault) : fault = .missing := by
  obtain ⟨hinner, hstart, _⟩ := isClear_concat.mp h
  obtain ⟨x, hx, hfolder, hfault⟩ := follow_eq_error hfollow
  refine hfault.resolve_right fun ⟨_, hfile⟩ => ?_
  rcases mem_trail_concat.mp hx with rfl | hx
  · rw [hstart] at hfolder
    cases hfolder
  · rcases hinner.free x hx with hthere | hfree
    · rw [hthere] at hfolder
      cases hfolder
    · rw [hfile] at hfree
      cases hfree

theorem Laid.ends (h : t.Laid start names around) (hclear : t.IsClear start (names ++ [last]))
    (hfault : around.makeFolder start (names ++ [last]) = .error fault) :
    around.leadsToFolder start (names ++ [last]) = true := by
  obtain ⟨_, hstart, hlast⟩ := isClear_concat.mp hclear
  have htrail : ∀ x ∈ FileTree.trail start (names ++ [last]), around.isFolderAt x = true :=
    h.trail hstart
  rcases makeFolder_eq_error hfault with hfollow | ⟨_, _, htaken⟩
  · rw [follow_eq_ok.mpr ⟨htrail, rfl⟩] at hfollow
    cases hfollow
  · refine leadsToFolder_iff.mpr ⟨htrail, ?_⟩
    rcases htaken with hthere | hfile
    · exact hthere
    · rw [h.grows.isFileAt] at hfile
      refine (h.grows.isFolderAt _).mpr (.inl (hlast.resolve_right fun hfree => ?_))
      rw [hfile] at hfree
      cases hfree

theorem exists_makeFoldersAlong {inward : List String} (h : t.IsClear start inward.reverse) :
    ∃ made, t.makeFoldersAlong start inward = .ok made := by
  induction inward with
  | nil => exact ⟨t, rfl⟩
  | cons last outer ih =>
    rw [reverse_cons] at h
    rw [makeFoldersAlong, reverse_cons]
    dsimp only
    obtain ⟨around, haround⟩ := ih (isClear_concat.mp h).1
    have hlaid := laid_of_makeFoldersAlong haround
    rw [haround]
    split
    · exact ⟨_, rfl⟩
    · dsimp only
      split
      · exact ⟨_, rfl⟩
      · rename_i hfault
        exact ⟨_, if_pos (hlaid.ends h hfault)⟩
    · rename_i fault hother hfault
      rcases makeFolder_eq_error hfault with hfollow | ⟨_, htrail, _⟩
      · exact absurd (h.fault_eq_missing hfollow) hother
      · exact ⟨_, if_pos ((Laid.of_trail htrail).ends h hfault)⟩

end FileTree

end ModuleBridge
