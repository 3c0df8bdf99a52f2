import ModuleBridge.Proofs.Disk.Writing

/-!
# Listing folders

A folder is listed by the names that lead one step down from it. Joined to the path of the folder,
such a name leads to what was listed, so that folders can be searched one after the other by their
paths alone.
-/

namespace ModuleBridge

open List

namespace DiskPath

theorem join_ne_empty {folder name : String} (hname : isRooted name = false) (hne : folder ≠ "") :
    join folder name ≠ "" := by
  intro hempty
  rcases join_cases hname hne with ⟨front, _, hjoin⟩ | hjoin <;> simp [hempty] at hjoin

end DiskPath

namespace FileTree

open DiskPath (join isRooted)

variable {t : FileTree} {root rel path name : String} {here place folder : Location}
  {places : List Location} {names : List String}

/-! ## Paths below a folder -/

theorem follow_append (t : FileTree) (place : Location) (way rest : List String) :
    t.follow place (way ++ rest) = (t.follow place way).bind (t.follow · rest) := by
  induction way generalizing place with
  | nil => rfl
  | cons name way ih =>
    rw [cons_append, follow, follow, ih]
    split
    · rfl
    · split <;> rfl

/-- From a root, a relative path leads on from the place of the root. -/
theorem locate_join (hroot : t.locate root = .ok here) (hrel : isRooted rel = false) :
    t.locate (join root rel) = t.follow here (wayOf rel) := by
  have hne : root ≠ "" := (locate_eq_ok.mp hroot).1
  rw [locate, if_neg (by simpa using hne)] at hroot
  rw [locate, if_neg (by simpa using DiskPath.join_ne_empty hrel hne)]
  -- A slash at the end of the root leads nowhere, so the names before it lead to the same place.
  obtain ⟨front, hjoin, hfront⟩ : ∃ front, (join root rel).toList = front ++ '/' :: rel.toList ∧
      t.follow (t.startOf root).1 ((splitAtAll (· == '/') front).map String.ofList) = .ok here := by
    rcases DiskPath.join_cases hrel hne with ⟨front, hslash, hjoin⟩ | hjoin
    · refine ⟨front, hjoin, ?_⟩
      have hway : (t.startOf root).2 = (splitAtAll (· == '/') front).map String.ofList ++ [""] := by
        rw [startOf, hslash, splitAtAll_cut rfl, map_append]
        rfl
      rw [hway, follow_append] at hroot
      cases hfollow : t.follow (t.startOf root).1 ((splitAtAll _ front).map _) with
      | error fault =>
        rw [hfollow] at hroot
        cases hroot
      | ok place =>
        rw [hfollow] at hroot
        exact (follow_eq_ok.mp hroot).2 ▸ rfl
    · exact ⟨root.toList, hjoin, hroot⟩
  have hway : (t.startOf (join root rel)).2 =
      (splitAtAll (· == '/') front).map String.ofList ++ wayOf rel := by
    rw [startOf, hjoin, splitAtAll_cut rfl, map_append]
    rfl
  have hstart : (t.startOf (join root rel)).1 = (t.startOf root).1 := by
    rw [startOf, startOf, DiskPath.isRooted_join hrel]
  rw [hstart, hway, follow_append, hfront]
  rfl

/-! ## Names in a folder -/

theorem isName_iff : isName name = true ↔ leads name = true ∧ name ≠ ".." ∧ '/' ∉ name.toList := by
  simp [isName, leads, and_assoc]

theorem isRooted_of_isName (h : isName name = true) : isRooted name = false := by
  have hslash := (isName_iff.mp h).2.2
  rw [← String.ofList_toList (s := name), DiskPath.isRooted_ofList]
  cases hchars : name.toList with
  | nil => rfl
  | cons c rest =>
    rw [hchars, mem_cons, not_or] at hslash
    simpa using Ne.symm hslash.1

theorem wayOf_of_isName (h : isName name = true) : wayOf name = [name] := by
  have hclean : ∀ c ∈ name.toList, (c == '/') = false := by
    intro c hc
    rw [beq_eq_false_iff_ne]
    rintro rfl
    exact (isName_iff.mp h).2.2 hc
  rw [wayOf, splitAtAll_last hclean, map_singleton, String.ofList_toList]

theorem enter_of_isName (h : isName name = true) (place : Location) :
    enter place name = place ++ [name] := by
  simp only [isName, Bool.and_eq_true, decide_eq_true_eq] at h
  simp [enter, h]

/-- The name of an entry leads one step down from the folder that holds it. -/
theorem locate_join_name (hpath : t.locate path = .ok folder) (hfolder : t.isFolderAt folder = true)
    (hname : isName name = true) : t.locate (join path name) = .ok (folder ++ [name]) := by
  rw [locate_join hpath (isRooted_of_isName hname), wayOf_of_isName hname, follow, if_pos hfolder,
    enter_of_isName hname]
  rfl

theorem isFileAt_iff : t.isFileAt place = true ↔ ∃ file ∈ t.files, file.1 = place := by
  rw [isFileAt, content?, lookup_isSome_iff]
  exact exists_congr fun file => and_congr_right fun _ => beq_iff_eq.trans eq_comm

theorem below?_eq_some :
    below? folder place = some names ↔ names ≠ [] ∧ place = folder ++ names := by
  rw [below?, Option.ite_none_right_eq_some, Bool.and_eq_true, isPrefixOf_iff_prefix,
    decide_eq_true_iff]
  constructor
  · rintro ⟨⟨⟨rest, rfl⟩, hlength⟩, hnames⟩
    rw [drop_left] at hnames
    obtain rfl := Option.some.inj hnames
    exact ⟨by rintro rfl; simp at hlength, rfl⟩
  · rintro ⟨hne, rfl⟩
    have := length_pos_iff.mpr hne
    exact ⟨⟨prefix_append _ _, by rw [length_append]; omega⟩, by rw [drop_left]⟩

theorem nameIn?_eq_some :
    nameIn? folder place = some name ↔ isName name = true ∧ place = folder ++ [name] := by
  unfold nameIn?
  constructor
  · intro h
    split at h
    · rename_i only hbelow
      obtain ⟨hname, hsome⟩ := Option.ite_none_right_eq_some.mp h
      cases hsome
      exact ⟨hname, (below?_eq_some.mp hbelow).2⟩
    · cases h
  · rintro ⟨hname, rfl⟩
    rw [below?_eq_some.mpr ⟨cons_ne_nil name [], rfl⟩]
    exact if_pos hname

theorem mem_namesIn : name ∈ t.namesIn places path ↔ isName name = true ∧
    ∃ folder, t.locate path = .ok folder ∧ t.isFolderAt folder = true ∧
      folder ++ [name] ∈ places := by
  unfold namesIn
  cases t.locate path with
  | error fault => simp
  | ok folder => cases hfolder : t.isFolderAt folder <;> simp [nameIn?_eq_some, hfolder, and_comm]

theorem mem_filesIn : name ∈ t.filesIn path ↔ isName name = true ∧
    ∃ folder, t.locate path = .ok folder ∧ t.isFolderAt folder = true ∧
      t.isFileAt (folder ++ [name]) = true := by
  simp only [filesIn, mem_namesIn, isFileAt_iff, mem_map]

theorem mem_foldersIn : name ∈ t.foldersIn path ↔ isName name = true ∧
    ∃ folder, t.locate path = .ok folder ∧ t.isFolderAt folder = true ∧
      t.isFolderAt (folder ++ [name]) = true := by
  simp only [foldersIn, mem_namesIn, isFolderAt_iff (x := _ ++ [name]), append_eq_nil_iff,
    cons_ne_nil, and_false, false_or]

theorem length_le_depth (h : t.isFileAt place = true) : place.length ≤ t.depth := by
  obtain ⟨file, hfile, rfl⟩ := isFileAt_iff.mp h
  exact le_max?_getD_of_mem (mem_map.mpr ⟨file, hfile, rfl⟩)

end FileTree

end ModuleBridge
