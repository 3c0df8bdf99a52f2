import ModuleBridge.Path
import ModuleBridge.Proofs.Text.Split

/-!
# The canonical form of a path

Following a path keeps a stack of segments: names, and below them the steps up for which no name
was left. What a path comes to is told by its stack, whether it is rooted and whether it ends with a
slash; its normal text is written from these three and read back as the same three. Main statement:
`normalize_canonical`.
-/

namespace ModuleBridge

open List

variable {c : Char} {segment : List Char} {folder : List (List Char)}

namespace Path

variable {rooted trailing : Bool} {path part : List Char} {segments : List (List Char)}

/-! ## Parts -/

theorem parts_eq_splitOn (path : List Char) : parts path = path.splitOn '/' := by
  rw [parts, splitAtAll_eq_splitOnP, splitOn_eq_splitOnP]

theorem slash_not_mem_of_mem_parts (h : part ∈ parts path) : '/' ∉ part := by
  intro hmem
  cases isCut_of_mem_splitAtAll h hmem

theorem joinSegments_parts (path : List Char) : joinSegments (parts path) = path := by
  rw [parts_eq_splitOn]
  exact intercalate_splitOn '/'

theorem parts_joinSegments (h : ∀ segment ∈ segments, '/' ∉ segment) (hne : segments ≠ []) :
    parts (joinSegments segments) = segments := by
  rw [parts_eq_splitOn]
  exact splitOn_intercalate '/' h hne

theorem parts_cut (front rest : List Char) :
    parts (front ++ '/' :: rest) = parts front ++ parts rest :=
  splitAtAll_cut (by rfl) front rest

theorem parts_slash_cons (rest : List Char) : parts ('/' :: rest) = [] :: parts rest :=
  parts_cut [] rest

theorem getLast?_parts_of_slash (h : path.getLast? = some '/') :
    (parts path).getLast? = some [] := by
  obtain ⟨front, rfl⟩ := getLast?_eq_some_iff.mp h
  rw [parts_cut]
  exact getLast?_concat

theorem joinSegments_singleton (segment : List Char) : joinSegments [segment] = segment :=
  intercalate_singleton

theorem joinSegments_cons (segment : List Char) (hne : segments ≠ []) :
    joinSegments (segment :: segments) = segment ++ '/' :: joinSegments segments := by
  rw [joinSegments, intercalate_cons_of_ne_nil hne, append_assoc, singleton_append]
  rfl

theorem joinSegments_append {others : List (List Char)} (hne : segments ≠ [])
    (hothers : others ≠ []) :
    joinSegments (segments ++ others) = joinSegments segments ++ '/' :: joinSegments others := by
  induction segments with
  | nil => exact absurd rfl hne
  | cons first segments ih =>
    by_cases hlast : segments = []
    · rw [hlast, singleton_append, joinSegments_cons first hothers, joinSegments_singleton]
    · rw [cons_append, joinSegments_cons first (by simp [hlast]), ih hlast,
        joinSegments_cons first hlast, append_assoc, cons_append]

theorem joinSegments_concat (hne : segments ≠ []) (segment : List Char) :
    joinSegments (segments ++ [segment]) = joinSegments segments ++ '/' :: segment := by
  rw [joinSegments_append hne (cons_ne_nil _ _), joinSegments_singleton]

theorem mem_joinSegments_iff (hne : c ≠ '/') :
    c ∈ joinSegments segments ↔ ∃ segment ∈ segments, c ∈ segment := by
  induction segments with
  | nil => simp [joinSegments]
  | cons segment segments ih =>
    by_cases hlast : segments = []
    · simp [hlast, joinSegments_singleton]
    · simp [joinSegments_cons segment hlast, ih, hne]

theorem mem_of_mem_parts (hpart : part ∈ parts path) (hc : c ∈ part) : c ∈ path := by
  have hne : c ≠ '/' := by
    rintro rfl
    exact slash_not_mem_of_mem_parts hpart hc
  rw [← joinSegments_parts path, mem_joinSegments_iff hne]
  exact ⟨part, hpart, hc⟩

theorem backslash_not_mem_withSlashes (path : List Char) : '\\' ∉ withSlashes path := by
  intro hmem
  obtain ⟨c, -, hc⟩ := mem_map.mp hmem
  by_cases hslash : c = '\\'
  · simp [hslash] at hc
  · simp [hslash] at hc

theorem withSlashes_eq_self (h : '\\' ∉ path) : withSlashes path = path := by
  have hkeep : ∀ c ∈ path, (if c == '\\' then '/' else c) = c := by
    intro c hc
    have hne : c ≠ '\\' := fun heq => h (heq ▸ hc)
    simp [hne]
  exact (map_congr_left hkeep).trans (map_id' path)

/-! ## Following one part -/

/-- A name is plain if it leads on to something below. -/
def IsPlainName (name : List Char) : Prop :=
  name ≠ [] ∧ name ≠ ['.'] ∧ name ≠ ['.', '.']

instance (name : List Char) : Decidable (IsPlainName name) :=
  inferInstanceAs (Decidable (_ ∧ _ ∧ _))

theorem part_cases (part : List Char) :
    (part = [] ∨ part = ['.']) ∨ part = ['.', '.'] ∨ IsPlainName part := by
  by_cases hblank : part = [] ∨ part = ['.']
  · exact .inl hblank
  · by_cases hup : part = ['.', '.']
    · exact .inr (.inl hup)
    · exact .inr (.inr ⟨fun h => hblank (.inl h), fun h => hblank (.inr h), hup⟩)

theorem enter_blank (h : part = [] ∨ part = ['.']) : enter rooted segments part = segments := by
  rcases h with rfl | rfl
  · rfl
  · rfl

theorem enter_plain (h : IsPlainName part) : enter rooted segments part = part :: segments := by
  simp [enter, h.1, h.2.1, h.2.2]

theorem enter_up_plain {name : List Char} (h : IsPlainName name) :
    enter rooted (name :: segments) ['.', '.'] = segments := by
  simp [enter, h.2.2]

theorem enter_up_ups (n : Nat) :
    enter false (replicate n ['.', '.']) ['.', '.'] = replicate (n + 1) ['.', '.'] := by
  cases n with
  | zero => rfl
  | succ n => simp [enter, replicate_succ]

/-- Segments, last first, as they are kept along a path: names, and below them steps up, of which a
rooted path has none. -/
inductive IsStack (rooted : Bool) : List (List Char) → Prop where
  | ups (n : Nat) (h : rooted = true → n = 0) : IsStack rooted (replicate n ['.', '.'])
  | name {name : List Char} {outer : List (List Char)} (h : IsPlainName name)
      (houter : IsStack rooted outer) : IsStack rooted (name :: outer)

section

variable (h : IsStack rooted segments)

include h

theorem IsStack.enter (part : List Char) : IsStack rooted (enter rooted segments part) := by
  rcases part_cases part with hblank | rfl | hplain
  · rw [enter_blank hblank]
    exact h
  · cases h with
    | name hname houter =>
      rw [enter_up_plain hname]
      exact houter
    | ups n hn =>
      cases rooted with
      | true =>
        rw [hn rfl]
        exact .ups 0 fun _ => rfl
      | false =>
        rw [enter_up_ups]
        exact .ups (n + 1) fun hroot => absurd hroot Bool.false_ne_true
  · rw [enter_plain hplain]
    exact .name hplain h

theorem IsStack.foldl (parts : List (List Char)) :
    IsStack rooted (parts.foldl (Path.enter rooted) segments) := by
  induction parts generalizing segments with
  | nil => exact h
  | cons part parts ih => exact ih (h.enter part)

/-- Following the segments of a stack from its bottom builds it up again. -/
theorem IsStack.foldl_reverse : segments.reverse.foldl (Path.enter rooted) [] = segments := by
  induction h with
  | ups n hn =>
    cases rooted with
    | true =>
      rw [hn rfl]
      rfl
    | false =>
      clear hn
      rw [reverse_replicate]
      induction n with
      | zero => rfl
      | succ n ih =>
        rw [replicate_succ', foldl_append, ih, foldl_cons, foldl_nil,
          enter_up_ups, replicate_succ']
  | name hname houter ih =>
    rw [reverse_cons, foldl_append, ih, foldl_cons, foldl_nil,
      enter_plain hname]

theorem IsStack.ne_blank : ∀ segment ∈ segments, segment ≠ [] ∧ segment ≠ ['.'] := by
  induction h with
  | ups n hn =>
    intro segment hsegment
    rw [eq_of_mem_replicate hsegment]
    exact ⟨by simp, by simp⟩
  | name hname houter ih => exact forall_mem_cons.mpr ⟨⟨hname.1, hname.2.1⟩, ih⟩

/-- Below a step up there are only steps up. -/
theorem IsStack.pairwise :
    segments.Pairwise fun later earlier => later = ['.', '.'] → earlier = ['.', '.'] := by
  induction h with
  | ups n hn => exact pairwise_replicate.mpr (.inr fun h => h)
  | name hname houter ih =>
    exact pairwise_cons.mpr ⟨fun _ _ hup => absurd hup hname.2.2, ih⟩

end

theorem IsStack.up_not_mem (h : IsStack true segments) : ['.', '.'] ∉ segments := by
  induction h with
  | ups n hn =>
    rw [hn rfl]
    exact not_mem_nil
  | name hname houter ih =>
    intro hmem
    rcases mem_cons.mp hmem with hup | hbelow
    · exact hname.2.2 hup.symm
    · exact ih hbelow

/-! ## What a path comes to -/

/-- What a path comes to, first segment first. -/
structure Target where
  rooted : Bool
  trailing : Bool
  segments : List (List Char)
  stack : IsStack rooted segments.reverse
  clean : ∀ segment ∈ segments, '/' ∉ segment ∧ '\\' ∉ segment

theorem mem_parts_of_mem_foldl {parts : List (List Char)}
    (h : segment ∈ parts.foldl (enter rooted) segments) : segment ∈ segments ∨ segment ∈ parts := by
  induction parts generalizing segments with
  | nil => exact .inl h
  | cons part parts ih =>
    rcases ih h with hbefore | hlater
    · have hstep : segment ∈ segments ∨ segment = part := by
        unfold enter at hbefore
        grind
      rcases hstep with hmem | rfl
      · exact .inl hmem
      · exact .inr mem_cons_self
    · exact .inr (mem_cons_of_mem _ hlater)

def isRooted (path : List Char) : Bool :=
  (withSlashes path).head? == some '/'

def isOpen (path : List Char) : Bool :=
  (withSlashes path).getLast? == some '/'

def stackOf (path : List Char) : List (List Char) :=
  (parts (withSlashes path)).foldl (enter (isRooted path)) []

theorem stackOf_isStack (path : List Char) : IsStack (isRooted path) (stackOf path) :=
  IsStack.foldl (.ups 0 fun _ => rfl) _

theorem stackOf_clean (path : List Char) :
    ∀ segment ∈ stackOf path, '/' ∉ segment ∧ '\\' ∉ segment := by
  intro segment hsegment
  rcases mem_parts_of_mem_foldl hsegment with hnone | hpart
  · cases hnone
  · refine ⟨slash_not_mem_of_mem_parts hpart, fun hmem => ?_⟩
    exact backslash_not_mem_withSlashes path (mem_of_mem_parts hpart hmem)

def target (path : List Char) : Target where
  rooted := isRooted path
  trailing := isOpen path
  segments := (stackOf path).reverse
  stack := by
    rw [List.reverse_reverse]
    exact stackOf_isStack path
  clean := fun segment hsegment => stackOf_clean path segment (List.mem_reverse.mp hsegment)

@[simp] theorem rooted_target (path : List Char) : (target path).rooted = isRooted path := rfl

@[simp] theorem trailing_target (path : List Char) : (target path).trailing = isOpen path := rfl

@[simp] theorem segments_target (path : List Char) :
    (target path).segments = (stackOf path).reverse := rfl

namespace Target

variable (t : Target)

/-- The text of a target: a slash or a point when there is no segment. -/
def text : List Char :=
  if t.segments = [] then if t.rooted then ['/'] else ['.']
  else (if t.rooted then ['/'] else []) ++ joinSegments t.segments ++
    if t.trailing then ['/'] else []

theorem ne_blank (h : segment ∈ t.segments) : segment ≠ [] ∧ segment ≠ ['.'] :=
  t.stack.ne_blank segment (mem_reverse.mpr h)

theorem parts_text (hne : t.segments ≠ []) :
    parts t.text = (if t.rooted then [[]] else []) ++ t.segments ++
      if t.trailing then [[]] else [] := by
  have hjoin : parts (joinSegments t.segments) = t.segments :=
    parts_joinSegments (fun segment h => (t.clean segment h).1) hne
  have hroot : parts ((if t.rooted then ['/'] else []) ++ joinSegments t.segments) =
      (if t.rooted then [[]] else []) ++ t.segments := by
    cases t.rooted with
    | true => exact (parts_slash_cons _).trans (congrArg _ hjoin)
    | false => exact hjoin
  rw [text, if_neg hne]
  cases t.trailing with
  | true =>
    rw [if_pos rfl, if_pos rfl, parts_cut, hroot]
    rfl
  | false => rw [if_neg Bool.false_ne_true, if_neg Bool.false_ne_true, append_nil, hroot,
      append_nil]

/-- Whatever passes empty parts and points sees only the segments of the text. -/
theorem foldl_parts_text {α : Type} {f : α → List Char → α} (hempty : ∀ a, f a [] = a)
    (hpoint : ∀ a, f a ['.'] = a) (start : α) :
    (parts t.text).foldl f start = t.segments.foldl f start := by
  by_cases hne : t.segments = []
  · rw [text, if_pos hne, hne]
    cases t.rooted with
    | true => exact (hempty _).trans (hempty _)
    | false => exact hpoint _
  · rw [t.parts_text hne]
    cases t.rooted <;> cases t.trailing <;> simp [hempty]

theorem backslash_not_mem_text : '\\' ∉ t.text := by
  by_cases hne : t.segments = []
  · rw [text, if_pos hne]
    cases t.rooted <;> decide
  · have hjoin : '\\' ∉ joinSegments t.segments := by
      rw [mem_joinSegments_iff (by decide)]
      rintro ⟨segment, hsegment, hmem⟩
      exact (t.clean segment hsegment).2 hmem
    rw [text, if_neg hne]
    cases t.rooted <;> cases t.trailing <;> simp [hjoin]

theorem withSlashes_text : withSlashes t.text = t.text :=
  withSlashes_eq_self t.backslash_not_mem_text

theorem isRooted_text : isRooted t.text = t.rooted := by
  rw [isRooted, t.withSlashes_text]
  by_cases hne : t.segments = []
  · rw [text, if_pos hne]
    cases t.rooted <;> rfl
  · cases hroot : t.rooted with
    | true =>
      rw [text, if_neg hne, hroot]
      rfl
    | false =>
      -- A slash at the front would make the first segment empty.
      rw [beq_eq_false_iff_ne]
      intro hslash
      obtain ⟨rest, hrest⟩ := head?_eq_some_iff.mp hslash
      have hparts := t.parts_text hne
      rw [hrest, parts_slash_cons, hroot] at hparts
      obtain ⟨first, others, hsegments⟩ := exists_cons_of_ne_nil hne
      rw [hsegments] at hparts
      have hfirst : first = [] := (List.cons.inj hparts).1.symm
      exact (t.ne_blank (hsegments ▸ mem_cons_self)).1 hfirst

theorem isOpen_text (hne : t.segments ≠ []) : isOpen t.text = t.trailing := by
  rw [isOpen, t.withSlashes_text]
  cases hend : t.trailing with
  | true =>
    rw [text, if_neg hne, hend, if_pos rfl, getLast?_concat]
    rfl
  | false =>
    -- A slash at the end would make the last segment empty.
    rw [beq_eq_false_iff_ne]
    intro hslash
    have hlast := getLast?_parts_of_slash hslash
    rw [t.parts_text hne, hend, if_neg Bool.false_ne_true, append_nil,
      getLast?_append_of_ne_nil _ hne] at hlast
    exact (t.ne_blank (mem_of_getLast? hlast)).1 rfl

theorem stackOf_text : stackOf t.text = t.segments.reverse := by
  have hstack := t.stack.foldl_reverse
  rw [reverse_reverse] at hstack
  rw [stackOf, t.isRooted_text, t.withSlashes_text,
    t.foldl_parts_text (fun _ => enter_blank (.inl rfl)) (fun _ => enter_blank (.inr rfl)), hstack]

end Target

/-- The pieces of the normal text in terms of what the path comes to. -/
theorem normalizeChars_eq_ite (path : List Char) {result : List Char}
    (hresult : result = (if isRooted path then ['/'] else []) ++
      joinSegments (stackOf path).reverse ++
      if isOpen path && !(stackOf path).reverse.isEmpty then ['/'] else []) :
    normalizeChars path = if result = [] then ['.'] else result := by
  rw [hresult]
  unfold normalizeChars
  dsimp only
  split
  · rename_i hnil
    exact (if_pos hnil).symm
  · rename_i hne
    exact (if_neg hne).symm

theorem normalizeChars_eq_text (path : List Char) : normalizeChars path = (target path).text := by
  rw [normalizeChars_eq_ite path rfl, Target.text, segments_target, rooted_target, trailing_target]
  by_cases hne : (stackOf path).reverse = []
  · rw [if_pos hne, hne]
    cases isRooted path <;> simp [joinSegments]
  · have hfirst : joinSegments (stackOf path).reverse ≠ [] := by
      intro hnil
      have hparts := parts_joinSegments (fun s hs => ((target path).clean s hs).1) hne
      rw [show joinSegments (target path).segments = [] from hnil] at hparts
      have hmem : [] ∈ (target path).segments := hparts ▸ mem_cons_self
      exact ((target path).ne_blank hmem).1 rfl
    have hfull : (stackOf path).reverse.isEmpty = false := isEmpty_eq_false_iff.mpr hne
    rw [if_neg hne, hfull, Bool.not_false, Bool.and_true, if_neg]
    simp [hfirst]

theorem toList_normalize (path : String) : (normalize path).toList = (target path.toList).text := by
  rw [normalize, String.toList_ofList, normalizeChars_eq_text]

/-! ## The canonical form -/

/-- A path that says where it leads in the shortest way. -/
structure IsCanonical (path : List Char) : Prop where
  nonempty : path ≠ []
  slashes : '\\' ∉ path
  /-- Only the root leaves an empty first part, and only a trailing slash an empty last one. -/
  inner : [] ∉ (parts path).tail.dropLast
  points : ['.'] ∈ parts path → path = ['.']
  /-- Steps up come before everything else. -/
  ups : (parts path).Pairwise fun earlier later => later = ['.', '.'] → earlier = ['.', '.']
  rooted : path.head? = some '/' → ['.', '.'] ∉ parts path

namespace Target

variable (t : Target)

theorem text_ne_nil : t.text ≠ [] := by
  by_cases hne : t.segments = []
  · rw [text, if_pos hne]
    cases t.rooted <;> simp
  · intro hnil
    have hparts := t.parts_text hne
    obtain ⟨first, others, hsegments⟩ := exists_cons_of_ne_nil hne
    have hfirst := (t.ne_blank (hsegments ▸ mem_cons_self)).1
    rw [hnil, hsegments] at hparts
    cases hroot : t.rooted <;> simp_all [parts, splitAtAll]

theorem inner_text : [] ∉ (parts t.text).tail.dropLast := by
  by_cases hne : t.segments = []
  · rw [text, if_pos hne]
    cases t.rooted <;> decide
  · intro hmem
    rw [t.parts_text hne] at hmem
    obtain ⟨first, others, hsegments⟩ := exists_cons_of_ne_nil hne
    -- Without the first part what is left holds segments, and perhaps an empty last part.
    obtain ⟨front, hfront, htail⟩ : ∃ front, front ⊆ t.segments ∧
        ((if t.rooted then [[]] else []) ++ t.segments ++ if t.trailing then [[]] else []).tail =
          front ++ if t.trailing then [[]] else [] := by
      rw [hsegments]
      cases t.rooted with
      | true => exact ⟨first :: others, List.Subset.refl _, rfl⟩
      | false => exact ⟨others, subset_cons_self _ _, rfl⟩
    rw [htail] at hmem
    have hinner : [] ∈ t.segments := by
      refine hfront ?_
      cases hend : t.trailing with
      | true =>
        rw [hend, if_pos rfl, dropLast_concat] at hmem
        exact hmem
      | false =>
        rw [hend, if_neg Bool.false_ne_true, append_nil] at hmem
        exact mem_of_mem_dropLast hmem
    exact (t.ne_blank hinner).1 rfl

theorem points_text (h : ['.'] ∈ parts t.text) : t.text = ['.'] := by
  by_cases hne : t.segments = []
  · rw [text, if_pos hne] at h ⊢
    cases hroot : t.rooted with
    | true =>
      rw [hroot] at h
      exact absurd h (by decide)
    | false => rfl
  · rw [t.parts_text hne] at h
    have hmem : ['.'] ∈ t.segments := by
      cases hroot : t.rooted <;> cases hend : t.trailing <;> simpa [hroot, hend] using h
    exact absurd rfl (t.ne_blank hmem).2

theorem up_not_mem (hroot : t.rooted = true) : ['.', '.'] ∉ t.segments := by
  have hstack := t.stack
  rw [hroot] at hstack
  exact fun hmem => hstack.up_not_mem (mem_reverse.mpr hmem)

theorem ups_text :
    (parts t.text).Pairwise fun earlier later => later = ['.', '.'] → earlier = ['.', '.'] := by
  by_cases hne : t.segments = []
  · rw [text, if_pos hne]
    cases t.rooted <;> decide
  · have hsegments := pairwise_reverse.mp t.stack.pairwise
    have hfront : ((if t.rooted then [[]] else []) ++ t.segments).Pairwise
        fun earlier later => later = ['.', '.'] → earlier = ['.', '.'] := by
      cases hroot : t.rooted with
      | false => exact hsegments
      | true =>
        refine pairwise_cons.mpr ⟨fun later hlater hup => ?_, hsegments⟩
        exact absurd (hup ▸ hlater) (t.up_not_mem hroot)
    rw [t.parts_text hne, pairwise_append]
    refine ⟨hfront, ?_, fun earlier _ later hlater hup => ?_⟩
    · cases t.trailing <;> simp
    · cases hend : t.trailing <;> simp_all

theorem rooted_text (h : t.text.head? = some '/') : ['.', '.'] ∉ parts t.text := by
  have hroot : t.rooted = true := by
    rw [← t.isRooted_text, isRooted, t.withSlashes_text, h]
    rfl
  by_cases hne : t.segments = []
  · rw [text, if_pos hne, hroot]
    decide
  · have hup := t.up_not_mem hroot
    rw [t.parts_text hne, hroot]
    cases t.trailing <;> simp [hup]

theorem isCanonical_text : IsCanonical t.text :=
  ⟨t.text_ne_nil, t.backslash_not_mem_text, t.inner_text, t.points_text, t.ups_text, t.rooted_text⟩

theorem text_target_text : (target t.text).text = t.text := by
  rw [text.eq_def (target t.text), segments_target, rooted_target, trailing_target, t.stackOf_text,
    reverse_reverse, t.isRooted_text]
  by_cases hne : t.segments = []
  · rw [if_pos hne, text, if_pos hne]
  · rw [if_neg hne, t.isOpen_text hne, text, if_neg hne]

end Target

/-! ## Walking -/

def isSeparator (c : Char) : Bool :=
  c == '/' || c == '\\'

/-- Take one step from a folder that is given by its names, innermost first. Above the root is the
root. -/
def visit (folder : List (List Char)) (part : List Char) : List (List Char) :=
  if part = [] ∨ part = ['.'] then folder
  else if part = ['.', '.'] then folder.tail
  else part :: folder

/-- Walk along a path, from the root if the path is rooted. -/
def walk (folder : List (List Char)) (path : List Char) : List (List Char) :=
  (splitAtAll isSeparator path).foldl visit (if path.head?.any isSeparator then [] else folder)

theorem visit_blank (h : part = [] ∨ part = ['.']) : visit folder part = folder :=
  if_pos h

theorem visit_plain (h : IsPlainName part) : visit folder part = part :: folder := by
  simp [visit, h.1, h.2.1, h.2.2]

theorem splitAtAll_isSeparator (path : List Char) :
    splitAtAll isSeparator path = parts (withSlashes path) := by
  induction path with
  | nil => rfl
  | cons c path ih =>
    by_cases hslash : c = '/'
    · subst hslash
      exact congrArg _ ih
    · by_cases hback : c = '\\'
      · subst hback
        exact congrArg _ ih
      · have hkeep : withSlashes (c :: path) = c :: withSlashes path := by
          simp [withSlashes, hback]
        rw [hkeep, parts, splitAtAll, splitAtAll, ih]
        simp [isSeparator, hslash, hback, parts]

theorem any_isSeparator (path : List Char) : path.head?.any isSeparator = isRooted path := by
  cases path with
  | nil => rfl
  | cons c path =>
    by_cases hback : c = '\\'
    · subst hback
      rfl
    · simp [isRooted, withSlashes, isSeparator, hback]

theorem walk_eq (folder : List (List Char)) (path : List Char) :
    walk folder path =
      (parts (withSlashes path)).foldl visit (if isRooted path then [] else folder) := by
  rw [walk, splitAtAll_isSeparator, any_isSeparator]

section Run

variable {start : List (List Char)}

/-- Entering a part and then walking is walking and then taking the part as a step. -/
theorem IsStack.foldl_visit_enter (h : IsStack rooted segments)
    (hstart : rooted = true → start = []) (part : List Char) :
    (Path.enter rooted segments part).reverse.foldl visit start =
      visit (segments.reverse.foldl visit start) part := by
  have hpush : (part :: segments).reverse.foldl visit start =
      visit (segments.reverse.foldl visit start) part := by
    rw [reverse_cons, foldl_append, foldl_cons, foldl_nil]
  rcases part_cases part with hblank | rfl | hplain
  · rw [enter_blank hblank, visit_blank hblank]
  · cases h with
    | name hname houter =>
      rw [enter_up_plain hname, reverse_cons, foldl_append, foldl_cons,
        foldl_nil, visit_plain hname]
      rfl
    | ups n hn =>
      cases rooted with
      | true =>
        rw [hn rfl, hstart rfl]
        rfl
      | false => rw [enter_up_ups, replicate_succ, hpush]
  · rw [enter_plain hplain, hpush]

theorem IsStack.foldl_visit_foldl (h : IsStack rooted segments)
    (hstart : rooted = true → start = []) (parts : List (List Char)) :
    (parts.foldl (Path.enter rooted) segments).reverse.foldl visit start =
      parts.foldl visit (segments.reverse.foldl visit start) := by
  induction parts generalizing segments with
  | nil => rfl
  | cons part parts ih =>
    rw [foldl_cons, foldl_cons, ih (h.enter part), h.foldl_visit_enter hstart]

end Run

theorem walk_target (folder : List (List Char)) (path : List Char) :
    walk folder path =
      (target path).segments.foldl visit (if isRooted path then [] else folder) := by
  have hstart : isRooted path = true → (if isRooted path then [] else folder) = [] :=
    fun hroot => if_pos hroot
  rw [walk_eq]
  exact (IsStack.foldl_visit_foldl (.ups 0 fun _ => rfl) hstart _).symm

theorem Target.walk_text (t : Target) (folder : List (List Char)) :
    walk folder t.text = t.segments.foldl visit (if t.rooted then [] else folder) := by
  rw [walk_eq, t.isRooted_text, t.withSlashes_text,
    t.foldl_parts_text (fun _ => visit_blank (.inl rfl)) (fun _ => visit_blank (.inr rfl))]

/-- Normalising a path gives its canonical form, once and for all, and the canonical form leads from
every folder to where the path leads. -/
theorem normalize_canonical (path : String) :
    IsCanonical (normalize path).toList ∧ normalize (normalize path) = normalize path ∧
      ∀ folder, walk folder (normalize path).toList = walk folder path.toList := by
  refine ⟨?_, ?_, fun folder => ?_⟩
  · rw [toList_normalize]
    exact Target.isCanonical_text _
  · rw [← String.toList_inj, toList_normalize, toList_normalize, Target.text_target_text]
  · rw [toList_normalize, Target.walk_text, walk_target]
    rfl

end Path

end ModuleBridge
