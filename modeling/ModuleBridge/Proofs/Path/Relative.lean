import ModuleBridge.Proofs.Path.Canonical
import ModuleBridge.Specifier

/-!
# Relative specifiers

A relative specifier is followed from the folder of a path that is no URL: the two texts are put
together and normalised. The specifier that leads from one file to another, up as often as there are
folders left and then down, resolves to the other file. Main statement: `resolve_specifierTo`.
-/

namespace ModuleBridge

open List ModuleBridge.Path

variable {path specifier text : String} {name file : List Char} {folders : List (List Char)}

theorem exists_cons_rdropWhile {α : Type} {p : α → Bool} {a : α} (ha : p a = false)
    (rest : List α) : ∃ others, (a :: rest).rdropWhile p = a :: others := by
  have hne : (a :: rest).rdropWhile p ≠ [] := by
    intro hnil
    have hall := rdropWhile_eq_nil_iff.mp hnil a mem_cons_self
    rw [ha] at hall
    cases hall
  obtain ⟨front, hfront⟩ := rdropWhile_prefix (p := p) (a :: rest)
  obtain ⟨first, others, hcons⟩ := exists_cons_of_ne_nil hne
  rw [hcons, cons_append] at hfront
  exact ⟨others, by rw [hcons, (cons.inj hfront).1]⟩

theorem Reference.exists_ofText_slash (h : text.toList.head? = some '/') :
    ∃ rest, (Reference.ofText text).text = '/' :: rest := by
  obtain ⟨rest, hrest⟩ := head?_eq_some_iff.mp h
  obtain ⟨others, hothers⟩ :=
    @exists_cons_rdropWhile Char (fun c => decide (c ≤ ' ')) '/' (by decide) rest
  have hchars : Reference.ofText text = Reference.ofChars ('/' :: others) := by
    rw [← hothers, Reference.ofText, hrest]
    rfl
  rw [hchars]
  exact ⟨_, rfl⟩

theorem readScheme?_of_slash (rest : List Char) : readScheme? ('/' :: rest) = none := rfl

/-- A text that begins with a slash has no scheme, and is no URL. -/
def UrlReader.NeedsScheme (urls : UrlReader) : Prop :=
  ∀ text : String, text.toList.head? = some '/' → urls.parse? text = none

theorem Url.reader_needsScheme : Url.reader.NeedsScheme := by
  intro text h
  obtain ⟨rest, hrest⟩ := Reference.exists_ofText_slash h
  change Url.parse? text = none
  rw [Url.parse?, hrest, readScheme?_of_slash]
  rfl

theorem startsWith_iff_head? {mark : String} {c : Char} (hmark : mark.toList = [c]) :
    text.startsWith mark = true ↔ text.toList.head? = some c := by
  rw [String.startsWith_string_iff, hmark]
  cases text.toList with
  | nil => simp
  | cons d rest => simp [cons_prefix_cons, eq_comm]

theorem Specifier.isRelative_iff :
    isRelative specifier = true ↔ specifier.toList.head? = some '.' :=
  startsWith_iff_head? rfl

namespace Path

theorem toList_directory (path : String) :
    (directory path).toList = (withSlashes path.toList).rdropWhile (· != '/') := by
  rw [directory, String.toList_ofList]
  rfl

theorem endsWithSeparator_directory (h : (directory path).toList ≠ []) :
    endsWithSeparator (directory path) = true := by
  rw [toList_directory] at h
  have hlast := rdropWhile_last_not _ _ h
  rw [endsWithSeparator, toList_directory, getLast?_eq_some_getLast h]
  simp_all

theorem toList_combine_directory (hrelative : Specifier.isRelative specifier = true) :
    (combine (directory path) specifier).toList =
      (directory path).toList ++ specifier.toList := by
  have hstart : specifier.startsWith "/" = false := by
    have hpoint := Specifier.isRelative_iff.mp hrelative
    obtain ⟨rest, hrest⟩ := head?_eq_some_iff.mp hpoint
    rw [Bool.eq_false_iff, Ne, String.startsWith_string_iff, hrest]
    simp
  rw [combine, hstart, Bool.false_or]
  by_cases hempty : (directory path).toList = []
  · have hnil : (directory path).isEmpty = true := by
      simpa using hempty
    rw [if_pos hnil, hempty, nil_append]
  · have hnil : (directory path).isEmpty = false := by
      simpa using hempty
    rw [hnil, if_neg Bool.false_ne_true, ensureTrailingSlash, endsWithSeparator_directory hempty,
      if_pos rfl, String.toList_append]

theorem backslash_not_mem_directory (path : String) : '\\' ∉ (directory path).toList := by
  rw [toList_directory]
  intro hmem
  exact backslash_not_mem_withSlashes _ ((List.rdropWhile_prefix _ _).subset hmem)

/-- Up to a slash with no slash behind it, a path is its own folder. -/
theorem toList_directory_of_cut {front : List Char} (hpath : path.toList = front ++ '/' :: name)
    (hname : '/' ∉ name) (hback : '\\' ∉ path.toList) :
    (directory path).toList = front ++ ['/'] := by
  have hkeep : ∀ c ∈ name.reverse, (c != '/') = true := by
    intro c hc
    rw [bne_iff_ne]
    rintro rfl
    exact hname (mem_reverse.mp hc)
  have hreverse : (front ++ '/' :: name).reverse = name.reverse ++ '/' :: front.reverse := by simp
  rw [toList_directory, withSlashes_eq_self hback, hpath, rdropWhile, hreverse,
    dropWhile_append_of_pos hkeep, dropWhile_cons_of_neg (by simp), reverse_cons,
    reverse_reverse]

def names (path : String) : List (List Char) :=
  (parts path.toList).tail

/-- A rooted path to a file, in normal form. -/
structure IsFilePath (path : String) : Prop where
  rooted : path.toList.head? = some '/'
  slashes : '\\' ∉ path.toList
  plain : ∀ name ∈ names path, IsPlainName name

namespace IsFilePath

variable {path : String}

section

variable (h : IsFilePath path)

include h

theorem parts_eq : parts path.toList = [] :: names path := by
  obtain ⟨rest, hrest⟩ := head?_eq_some_iff.mp h.rooted
  rw [names, hrest, parts_slash_cons, tail_cons]

theorem toList_eq : path.toList = joinSegments ([] :: names path) := by
  rw [← h.parts_eq, joinSegments_parts]

theorem clean (hname : name ∈ names path) : '/' ∉ name ∧ '\\' ∉ name := by
  have hpart : name ∈ parts path.toList := by
    rw [h.parts_eq]
    exact mem_cons_of_mem _ hname
  exact ⟨slash_not_mem_of_mem_parts hpart, fun hmem => h.slashes (mem_of_mem_parts hpart hmem)⟩

/-- The parts of the folder of a file, with a specifier behind it. -/
theorem exists_directory (hnames : names path = folders ++ [file]) :
    ∃ front, (directory path).toList = front ++ ['/'] ∧ parts front = [] :: folders ∧
      (front ++ ['/']).head? = some '/' := by
  have hpath : path.toList = joinSegments ([] :: folders) ++ '/' :: file := by
    rw [h.toList_eq, hnames, ← cons_append, joinSegments_concat (cons_ne_nil _ _)]
  refine ⟨joinSegments ([] :: folders), ?_, ?_, ?_⟩
  · exact toList_directory_of_cut hpath (h.clean (by simp [hnames])).1 h.slashes
  · refine parts_joinSegments ?_ (cons_ne_nil _ _)
    rw [forall_mem_cons]
    exact ⟨not_mem_nil, fun name hname => (h.clean (by simp [hnames, hname])).1⟩
  · have hroot := h.rooted
    rw [hpath] at hroot
    cases hfront : joinSegments ([] :: folders) with
    | nil => rfl
    | cons c front =>
      rw [hfront] at hroot
      exact hroot

end

end IsFilePath

/-! ## Going up and down -/

section Fold

variable {rooted : Bool} {segments : List (List Char)}

theorem foldl_enter_plain {names : List (List Char)} (h : ∀ name ∈ names, IsPlainName name) :
    names.foldl (enter rooted) segments = names.reverse ++ segments := by
  induction names generalizing segments with
  | nil => rfl
  | cons name names ih =>
    obtain ⟨hname, hnames⟩ := forall_mem_cons.mp h
    rw [foldl_cons, enter_plain hname, ih hnames, reverse_cons, append_assoc,
      singleton_append]

theorem foldl_enter_ups {names : List (List Char)} (h : ∀ name ∈ names, IsPlainName name) :
    (replicate names.length ['.', '.']).foldl (enter rooted) (names ++ segments) =
      segments := by
  induction names with
  | nil => rfl
  | cons name names ih =>
    obtain ⟨hname, hnames⟩ := forall_mem_cons.mp h
    rw [length_cons, replicate_succ, foldl_cons, cons_append,
      enter_up_plain hname, ih hnames]

end Fold

end Path

namespace Specifier

/-- The specifier that goes up `ups` folders, and then down along names. -/
def specifierTo (ups : Nat) (names : List (List Char)) : String :=
  let start := if ups = 0 then ['.', '/'] else (replicate ups ['.', '.', '/']).flatten
  String.ofList (start ++ joinSegments names)

theorem parts_ups (ups : Nat) (rest : List Char) :
    parts ((replicate ups ['.', '.', '/']).flatten ++ rest) =
      replicate ups ['.', '.'] ++ parts rest := by
  induction ups with
  | zero => rfl
  | succ ups ih =>
    have hcut :=
      parts_cut ['.', '.'] ((replicate ups ['.', '.', '/']).flatten ++ rest)
    rw [ih] at hcut
    exact hcut

theorem parts_specifierTo (ups : Nat) {names : List (List Char)}
    (hclean : ∀ name ∈ names, '/' ∉ name) (hne : names ≠ []) :
    parts (specifierTo ups names).toList =
      (if ups = 0 then [['.']] else replicate ups ['.', '.']) ++ names := by
  have hnames := parts_joinSegments hclean hne
  rw [specifierTo, String.toList_ofList]
  by_cases hups : ups = 0
  · have hcut := parts_cut ['.'] (joinSegments names)
    rw [hnames] at hcut
    rw [if_pos hups, if_pos hups]
    exact hcut
  · rw [if_neg hups, if_neg hups, parts_ups, hnames]

theorem backslash_not_mem_specifierTo {ups : Nat} {names : List (List Char)}
    (hclean : ∀ name ∈ names, '\\' ∉ name) : '\\' ∉ (specifierTo ups names).toList := by
  have hnames : '\\' ∉ joinSegments names := by
    rw [mem_joinSegments_iff (by decide)]
    rintro ⟨name, hname, hmem⟩
    exact hclean name hname hmem
  rw [specifierTo, String.toList_ofList]
  by_cases hups : ups = 0
  · simp [hups, hnames]
  · simp [hups, hnames]

theorem isRelative_specifierTo (ups : Nat) (names : List (List Char)) :
    isRelative (specifierTo ups names) = true := by
  rw [isRelative_iff, specifierTo, String.toList_ofList]
  cases ups with
  | zero => rfl
  | succ ups => rfl

/-- Against a path that is no URL, a relative specifier is followed from the folder of the path. -/
theorem toList_resolve {urls : UrlReader} (hpath : path ≠ "") (hurl : urls.urlOf? path = none)
    (hrelative : isRelative specifier = true) :
    (urls.resolve specifier (some path)).toList =
      (Path.target ((directory path).toList ++ specifier.toList)).text := by
  have hnonempty : path.isEmpty = false := by
    simpa using hpath
  rw [UrlReader.resolve, hnonempty, if_neg Bool.false_ne_true, hrelative, if_pos rfl,
    UrlReader.resolveRelative?, hurl]
  change (Path.normalize _).toList = _
  rw [toList_normalize, toList_combine_directory hrelative]

/-- Going up from a file as often as there are folders left, and then down. -/
theorem stackOf_specifierTo {f : String} (hf : IsFilePath f) {common rest : List (List Char)}
    (hfrom : names f = common ++ folders ++ [file])
    (hplain : ∀ name ∈ rest, IsPlainName name)
    (hclean : ∀ name ∈ rest, '/' ∉ name ∧ '\\' ∉ name) (hrest : rest ≠ []) {whole : List Char}
    (hwhole : whole = (directory f).toList ++ (specifierTo folders.length rest).toList) :
    isRooted whole = true ∧ isOpen whole = false ∧
      stackOf whole = (common ++ rest).reverse := by
  obtain ⟨front, hdirectory, hparts, hroot⟩ := hf.exists_directory hfrom
  have hfolders : ∀ name ∈ common ++ folders, IsPlainName name := by
    intro name hname
    exact hf.plain name (by rw [hfrom]; exact mem_append_left _ hname)
  have hslashes : withSlashes whole = whole := by
    refine withSlashes_eq_self ?_
    rw [hwhole, mem_append, not_or]
    exact ⟨backslash_not_mem_directory f,
      backslash_not_mem_specifierTo fun name hname => (hclean name hname).2⟩
  have hspecifier :=
    parts_specifierTo folders.length (fun name hname => (hclean name hname).1) hrest
  have hall : parts whole = ([] :: (common ++ folders)) ++
      ((if folders.length = 0 then [['.']] else replicate folders.length ['.', '.']) ++
        rest) := by
    rw [hwhole, hdirectory, append_assoc, singleton_append, parts_cut, hparts,
      hspecifier]
  have hrooted : isRooted whole = true := by
    rw [isRooted, hslashes, hwhole, hdirectory, head?_append_of_ne_nil _ (by simp), hroot]
    rfl
  refine ⟨hrooted, ?_, ?_⟩
  · rw [isOpen, hslashes, beq_eq_false_iff_ne]
    intro hslash
    have hlast := getLast?_parts_of_slash hslash
    rw [hall, ← append_assoc, getLast?_append_of_ne_nil _ hrest] at hlast
    exact (hplain [] (mem_of_getLast? hlast)).1 rfl
  · have hdown : (common ++ folders).foldl (enter true) [] =
        folders.reverse ++ common.reverse := by
      rw [foldl_enter_plain hfolders, append_nil, reverse_append]
    have hup : (if folders.length = 0 then [['.']] else
        replicate folders.length ['.', '.']).foldl (enter true)
          (folders.reverse ++ common.reverse) = common.reverse := by
      by_cases hnone : folders = []
      · rw [hnone]
        rfl
      · rw [if_neg (by simpa using hnone), ← length_reverse]
        refine foldl_enter_ups fun name hname => hfolders name ?_
        exact mem_append_right _ (mem_reverse.mp hname)
    rw [stackOf, hslashes, hrooted, hall, foldl_append, foldl_cons,
      enter_blank (.inl rfl), hdown, foldl_append, hup, foldl_enter_plain hplain,
      reverse_append]

/-- With any reader that takes no text with a slash in front for a URL, the specifier from one file
to another leads there. -/
theorem resolve_between {urls : UrlReader} (hurls : urls.NeedsScheme) {f g : String}
    (hf : IsFilePath f) (hg : IsFilePath g)
    {common folders rest : List (List Char)} {file : List Char}
    (hfrom : names f = common ++ folders ++ [file]) (hto : names g = common ++ rest)
    (hrest : rest ≠ []) : urls.resolve (specifierTo folders.length rest) (some f) = g := by
  have hmem : ∀ name ∈ rest, name ∈ names g := by
    intro name hname
    rw [hto]
    exact mem_append_right _ hname
  have hurl : urls.urlOf? f = none := by
    rw [UrlReader.urlOf?, hurls f hf.rooted]
    rfl
  have hpath : f ≠ "" := by
    rintro rfl
    exact absurd hf.rooted (by decide)
  obtain ⟨hroot, hopen, hstack⟩ := stackOf_specifierTo hf hfrom
    (fun name hname => hg.plain name (hmem name hname))
    (fun name hname => hg.clean (hmem name hname)) hrest rfl
  have hsegments : (common ++ rest) ≠ [] := by simp [hrest]
  rw [← String.toList_inj, toList_resolve hpath hurl (isRelative_specifierTo _ _), Path.Target.text,
    segments_target, rooted_target, trailing_target, hroot, hopen, hstack,
    reverse_reverse, if_neg hsegments, if_pos rfl, if_neg Bool.false_ne_true, append_nil,
    hg.toList_eq, hto, joinSegments_cons [] hsegments, nil_append, singleton_append]

/-- From one file to another: the specifier leaves the folders that are not shared, and goes on
along the names that are not shared. -/
theorem resolve_specifierTo {f g : String} (hf : Path.IsFilePath f) (hg : Path.IsFilePath g)
    {common folders rest : List (List Char)} {file : List Char}
    (hfrom : Path.names f = common ++ folders ++ [file]) (hto : Path.names g = common ++ rest)
    (hrest : rest ≠ []) : resolve (specifierTo folders.length rest) (some f) = g :=
  resolve_between Url.reader_needsScheme hf hg hfrom hto hrest

theorem resolve_specifierTo_sibling :
    Path.IsFilePath "/src/app/main.js" ∧ Path.IsFilePath "/src/lib/x.js" ∧
      specifierTo 1 [['l', 'i', 'b'], ['x', '.', 'j', 's']] = "../lib/x.js" ∧
      resolve "../lib/x.js" (some "/src/app/main.js") = "/src/lib/x.js" := by
  have hspecifier : specifierTo 1 [['l', 'i', 'b'], ['x', '.', 'j', 's']] = "../lib/x.js" := by
    decide
  have hfrom : Path.IsFilePath "/src/app/main.js" := ⟨by decide, by decide, by decide⟩
  have hto : Path.IsFilePath "/src/lib/x.js" := ⟨by decide, by decide, by decide⟩
  have hresolve := @resolve_specifierTo _ _ hfrom hto [['s', 'r', 'c']] [['a', 'p', 'p']]
    [['l', 'i', 'b'], ['x', '.', 'j', 's']] ['m', 'a', 'i', 'n', '.', 'j', 's'] (by decide)
    (by decide) (List.cons_ne_nil _ _)
  rw [← hspecifier]
  exact ⟨hfrom, hto, rfl, hresolve⟩

end Specifier

end ModuleBridge
