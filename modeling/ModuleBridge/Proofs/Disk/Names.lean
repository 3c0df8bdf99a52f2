import ModuleBridge.Disk.Path
import ModuleBridge.Proofs.Text.Split

/-!
# Names on a path

Only the names of a path lead somewhere; slashes and points between them do not. The folder that
holds what a path names has all names of the path but the last, and a path seen from a folder has
the names of the folder before its own.
-/

namespace ModuleBridge

open List

variable {path front : List Char} {name : String}

namespace DiskPath

theorem names_cut (front rest : List Char) :
    names (front ++ '/' :: rest) = names front ++ names rest := by
  rw [names, splitAtAll_cut (by rfl), filter_append]
  rfl

theorem names_slash (rest : List Char) : names ('/' :: rest) = names rest :=
  names_cut [] rest

theorem names_slash_end (front : List Char) : names (front ++ ['/']) = names front := by
  rw [names_cut]
  exact append_nil _

theorem names_part {part : List Char} (hslash : '/' ∉ part) (hne : part ≠ [])
    (hpoint : part ≠ ['.']) : names part = [part] := by
  have hclean : ∀ c ∈ part, (c == '/') = false := by
    intro c hc
    rw [beq_eq_false_iff_ne]
    rintro rfl
    exact hslash hc
  rw [names, splitAtAll_last hclean]
  simp [hne, hpoint]

/-! ## Idle ends -/

theorem names_dropIdle_reverse (path : List Char) :
    names (dropIdle path).reverse = names path.reverse := by
  fun_induction dropIdle path with
  | case1 rest ih => rw [ih, reverse_cons, names_slash_end]
  | case2 rest ih =>
    rw [ih, reverse_cons, reverse_cons, append_assoc, singleton_append, names_cut]
    exact (append_nil _).symm
  | case3 => rfl
  | case4 => rfl

theorem names_dropIdleEnd (path : List Char) : names (dropIdleEnd path) = names path := by
  rw [dropIdleEnd, names_dropIdle_reverse, reverse_reverse]

theorem dropIdle_suffix (path : List Char) : dropIdle path <:+ path := by
  fun_induction dropIdle path with
  | case1 rest ih => exact ih.trans (suffix_cons _ _)
  | case2 rest ih => exact ih.trans ⟨['.', '/'], rfl⟩
  | case3 => exact nil_suffix
  | case4 => exact suffix_refl _

theorem dropIdleEnd_front (path : List Char) : dropIdleEnd path <+: path := by
  rw [dropIdleEnd, ← reverse_suffix, reverse_reverse]
  exact dropIdle_suffix _

theorem name_of_dropIdle (h : dropIdle path ≠ []) :
    (dropIdle path).takeWhile (· != '/') ≠ [] ∧ (dropIdle path).takeWhile (· != '/') ≠ ['.'] := by
  fun_induction dropIdle path with
  | case1 rest ih => exact ih h
  | case2 rest ih => exact ih h
  | case3 => exact absurd rfl h
  | case4 path hslash hpoint hlast =>
    cases path with
    | nil => exact absurd rfl h
    | cons c rest =>
      have hc : (c != '/') = true := by
        rw [bne_iff_ne]
        rintro rfl
        exact hslash rest rfl
      rw [takeWhile_cons_of_pos (p := (· != '/')) hc]
      refine ⟨cons_ne_nil _ _, fun heq => ?_⟩
      obtain ⟨rfl, hrest⟩ := List.cons.inj heq
      cases rest with
      | nil => exact hlast rfl
      | cons d rest =>
        by_cases hd : d = '/'
        · exact hpoint rest (by rw [hd])
        · rw [takeWhile_cons_of_pos (p := (· != '/')) (bne_iff_ne.mpr hd)] at hrest
          cases hrest

/-- Without its last part a path has one name less. The path is given last character first. -/
theorem names_dropWhile_reverse (hname : path.takeWhile (· != '/') ≠ [])
    (hpoint : path.takeWhile (· != '/') ≠ ['.']) :
    names (path.dropWhile (· != '/')).reverse = (names path.reverse).dropLast := by
  have hclean : '/' ∉ path.takeWhile (· != '/') := fun hmem =>
    absurd (mem_takeWhile_imp hmem) (by decide)
  have hpart : names (path.takeWhile (· != '/')).reverse =
      [(path.takeWhile (· != '/')).reverse] := by
    refine names_part (by simpa using hclean) (by simpa using hname) fun h => hpoint ?_
    rw [← reverse_reverse (path.takeWhile _), h]
    rfl
  have hsplit := takeWhile_append_dropWhile (p := (· != '/')) (l := path)
  have hhead := head?_dropWhile_not (· != '/') path
  conv_rhs => rw [← hsplit]
  cases hrest : path.dropWhile (· != '/') with
  | nil =>
    rw [append_nil, hpart]
    rfl
  | cons c rest =>
    rw [hrest] at hhead
    obtain rfl : c = '/' := by simpa using hhead
    rw [reverse_append, reverse_cons, names_slash_end, append_assoc,
      singleton_append, names_cut, hpart, dropLast_concat]

/-! ## Folders of paths -/

theorem splitHead_append (path : List Char) : (splitHead path).1 ++ (splitHead path).2 = path := by
  unfold splitHead
  split <;> rfl

/-- The head of a path is not one of its names, and what follows it has them all. -/
theorem names_head_append (h : front <+: (splitHead path).2) :
    names ((splitHead path).1 ++ front) = names front := by
  unfold splitHead at h ⊢
  split at h
  · exact names_slash front
  · rw [prefix_nil.mp h]
    rfl
  · rcases prefix_cons_iff.mp h with rfl | ⟨rest, rfl, _⟩
    · rfl
    · rw [names_slash]
      exact names_cut ['.'] rest
  · rfl

theorem isRooted_ofList (path : List Char) :
    isRooted (String.ofList path) = (path.head? == some '/') := by
  rw [Bool.eq_iff_iff, isRooted, String.startsWith_string_iff, String.toList_ofList, beq_iff_eq]
  cases path with
  | nil => simp
  | cons c rest => simp [cons_prefix_cons, eq_comm]

theorem isRooted_of_front (h : front <+: path) (hne : front ≠ []) :
    isRooted (String.ofList front) = isRooted (String.ofList path) := by
  obtain ⟨rest, rfl⟩ := h
  rw [isRooted_ofList, isRooted_ofList, head?_append_of_ne_nil _ hne]

def folderOf (body : List Char) : List Char :=
  dropIdleEnd ((dropIdleEnd body).reverse.dropWhile (· != '/')).reverse

theorem folderOf_front (body : List Char) : folderOf body <+: body := by
  have houter : ((dropIdleEnd body).reverse.dropWhile (· != '/')).reverse <+: dropIdleEnd body := by
    rw [← reverse_suffix, reverse_reverse]
    exact dropWhile_suffix _
  exact (dropIdleEnd_front _).trans (houter.trans (dropIdleEnd_front body))

theorem names_folderOf {body : List Char} (h : dropIdleEnd body ≠ []) :
    names (folderOf body) = (names body).dropLast := by
  have hreverse : (dropIdleEnd body).reverse = dropIdle body.reverse := reverse_reverse _
  have hne : dropIdle body.reverse ≠ [] := hreverse ▸ reverse_ne_nil_iff.mpr h
  obtain ⟨hname, hpoint⟩ := name_of_dropIdle hne
  rw [folderOf, names_dropIdleEnd, hreverse, names_dropWhile_reverse hname hpoint,
    names_dropIdle_reverse, reverse_reverse]

/-- The folder of a path starts where the path starts and has its names but the last. Where there is
no such folder or it is not named, the path has at most one name. -/
theorem parent?_cases (path : String) :
    (parent? path = none ∨ parent? path = some "") ∧ (names path.toList).dropLast = [] ∨
    ∃ folder, parent? path = some folder ∧ folder ≠ "" ∧ isRooted folder = isRooted path ∧
      names folder.toList = (names path.toList).dropLast := by
  have hbody : names (splitHead path.toList).2 = names path.toList := by
    rw [← names_head_append (prefix_refl _), splitHead_append]
  by_cases hidle : dropIdleEnd (splitHead path.toList).2 = []
  · left
    have hnone : names path.toList = [] := by
      rw [← hbody, ← names_dropIdleEnd, hidle]
      rfl
    refine ⟨?_, by rw [hnone]; rfl⟩
    unfold parent?
    dsimp only
    rw [hidle]
    dsimp only
    split <;> simp
  · have hparent : parent? path = some (String.ofList ((splitHead path.toList).1 ++
        folderOf (splitHead path.toList).2)) := by
      unfold parent? folderOf
      dsimp only
      split
      · exact absurd ‹_› hidle
      · rfl
    have hfront : (splitHead path.toList).1 ++ folderOf (splitHead path.toList).2 <+: path.toList := by
      conv_rhs => rw [← splitHead_append path.toList]
      exact (prefix_append_right_inj _).mpr (folderOf_front _)
    have hnames : names ((splitHead path.toList).1 ++ folderOf (splitHead path.toList).2) =
        (names path.toList).dropLast := by
      rw [names_head_append (folderOf_front _), names_folderOf hidle, hbody]
    generalize (splitHead path.toList).1 ++ folderOf (splitHead path.toList).2 = folder at *
    by_cases hne : folder = []
    · subst hne
      exact .inl ⟨.inr hparent, hnames.symm⟩
    · refine .inr ⟨String.ofList folder, hparent, by simpa using hne, ?_, by simpa using hnames⟩
      rw [isRooted_of_front hfront hne, String.ofList_toList]

theorem join_empty (name : String) : join "" name = name := by
  simp [join]

theorem join_cases {folder : String} (hname : isRooted name = false) (hne : folder ≠ "") :
    (∃ front, folder.toList = front ++ ['/'] ∧
      (join folder name).toList = front ++ '/' :: name.toList) ∨
      (join folder name).toList = folder.toList ++ '/' :: name.toList := by
  have hempty : folder.isEmpty = false := by simpa using hne
  rw [join, hname, hempty, Bool.or_false, if_neg Bool.false_ne_true]
  split
  · rename_i hend
    rw [String.endsWith_eq_endsWith_toSlice, String.Slice.endsWith_string_iff,
      String.copy_toSlice] at hend
    obtain ⟨front, hfront⟩ := hend
    refine .inl ⟨front, hfront.symm, ?_⟩
    rw [String.toList_append, ← hfront]
    simp
  · right
    simp

theorem isRooted_join (hname : isRooted name = false) (folder : String) :
    isRooted (join folder name) = isRooted folder := by
  by_cases hne : folder = ""
  · rw [hne, join_empty, hname]
    rfl
  · have hfront : folder.toList <+: (join folder name).toList := by
      rcases join_cases hname hne with ⟨front, hfolder, hjoin⟩ | hjoin
      · rw [hfolder, hjoin]
        exact ⟨name.toList, by simp⟩
      · rw [hjoin]
        exact prefix_append _ _
    have hrooted := isRooted_of_front hfront (by simpa using hne)
    rw [String.ofList_toList, String.ofList_toList] at hrooted
    exact hrooted.symm

theorem names_join (hname : isRooted name = false) (folder : String) :
    names (join folder name).toList = names folder.toList ++ names name.toList := by
  by_cases hne : folder = ""
  · rw [hne, join_empty]
    rfl
  · rcases join_cases hname hne with ⟨front, hfolder, hjoin⟩ | hjoin
    · rw [hjoin, hfolder, names_cut, names_slash_end]
    · rw [hjoin, names_cut]

end DiskPath

end ModuleBridge
