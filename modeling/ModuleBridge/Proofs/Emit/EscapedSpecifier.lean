import ModuleBridge.Proofs.Emit.LiteralValue
import ModuleBridge.Proofs.Path.Relative

/-!
# Escaped quotes in a relative specifier

A specifier is resolved as it is written, and resolving takes every backslash for a slash. So a
backslash before a quote cuts the name that the quote stands in, and another module is asked for,
unless the name begins with the quote anyway. Main statement: `resolve_escaped`.
-/

namespace ModuleBridge

open List ModuleBridge.Path

variable {others : List (List Char)} {other first name raw : List Char} {last : Char}
  {rooted : Bool} {mark : QuoteMark}

namespace Path

variable {front rest : List Char}

theorem withSlashes_append (front rest : List Char) :
    withSlashes (front ++ rest) = withSlashes front ++ withSlashes rest :=
  map_append

theorem withSlashes_cons {ch : Char} (hch : ch ≠ '\\') (rest : List Char) :
    withSlashes (ch :: rest) = ch :: withSlashes rest := by
  simp [withSlashes, hch]

theorem withSlashes_backslash (rest : List Char) :
    withSlashes ('\\' :: rest) = '/' :: withSlashes rest :=
  rfl

theorem isRooted_append (hne : front ≠ []) (rest : List Char) :
    isRooted (front ++ rest) = isRooted front := by
  have hslashes : withSlashes front ≠ [] := by simpa [withSlashes] using hne
  rw [isRooted, withSlashes_append, head?_append_of_ne_nil _ hslashes, isRooted]

theorem text_target_congr {path : List Char} (hroot : isRooted path = isRooted other)
    (hopen : isOpen path = isOpen other) (hstack : stackOf path = stackOf other) :
    (target path).text = (target other).text := by
  rw [Target.text, Target.text, segments_target, segments_target, rooted_target, rooted_target,
    trailing_target, trailing_target, hroot, hopen, hstack]

theorem stackOf_eq_of_text_target {path : List Char} (h : (target path).text = (target other).text) :
    stackOf path = stackOf other := by
  have hstack := (target path).stackOf_text
  rw [h, Target.stackOf_text, segments_target, segments_target, reverse_reverse,
    reverse_reverse] at hstack
  exact hstack.symm

/-- Where two texts meet, the last part of the first and the first part of the second are one. -/
theorem parts_append {inner : List (List Char)} {last : List Char}
    (hfront : parts front = inner ++ [last]) (hrest : parts rest = first :: others) :
    parts (front ++ rest) = inner ++ (last ++ first) :: others := by
  have hclean : ∀ part ∈ inner ++ [last], '/' ∉ part := by
    intro part hpart
    rw [← hfront] at hpart
    exact slash_not_mem_of_mem_parts hpart
  have hmeet : parts (last ++ rest) = (last ++ first) :: others := by
    obtain ⟨part, more, hparts, hlonger⟩ := exists_splitAtAll_front (· == '/') rest
    obtain ⟨rfl, rfl⟩ := cons.inj (hparts.symm.trans hrest)
    refine hlonger last fun c hc => beq_eq_false_iff_ne.mpr ?_
    rintro rfl
    exact hclean last (by simp) hc
  have hjoin := joinSegments_parts front
  rw [hfront] at hjoin
  by_cases hinner : inner = []
  · rw [hinner, nil_append, joinSegments_singleton] at hjoin
    rw [hinner, ← hjoin, hmeet, nil_append]
  · rw [joinSegments_concat hinner] at hjoin
    rw [← hjoin, append_assoc, cons_append, parts_cut, hmeet,
      parts_joinSegments (fun part hpart => hclean part (mem_append_left _ hpart)) hinner]

theorem exists_parts_concat (hne : front ≠ []) (hslash : front.getLast? ≠ some '/') :
    ∃ inner last, parts front = inner ++ [last] ∧ last ≠ [] := by
  have hsome : parts front ≠ [] := by
    rw [parts_eq_splitOn]
    exact splitOnP_ne_nil _ _
  obtain ⟨inner, last, hparts⟩ := (eq_nil_or_concat' _).resolve_left hsome
  refine ⟨inner, last, hparts, ?_⟩
  rintro rfl
  have hjoin := joinSegments_parts front
  rw [hparts] at hjoin
  by_cases hinner : inner = []
  · rw [hinner, nil_append, joinSegments_singleton] at hjoin
    exact hne hjoin.symm
  · rw [joinSegments_concat hinner] at hjoin
    exact hslash (by rw [← hjoin, getLast?_concat])

/-! ## Parts that are not empty -/

def filled (segments : List (List Char)) : List (List Char) :=
  segments.filter fun part => !part.isEmpty

theorem filled_append (segments more : List (List Char)) :
    filled (segments ++ more) = filled segments ++ filled more :=
  filter_append _ _

theorem filled_cons (hne : name ≠ []) (segments : List (List Char)) :
    filled (name :: segments) = name :: filled segments :=
  filter_cons_of_pos (by simpa using hne)

theorem stackOf_eq_filled (path : List Char) :
    stackOf path = (filled (parts (withSlashes path))).foldl (enter (isRooted path)) [] := by
  rw [stackOf, filled, foldl_filter]
  congr 1
  funext segments part
  cases part with
  | nil => rfl
  | cons c part => rfl

theorem filled_parts_slash (front rest : List Char) :
    filled (parts (front ++ '/' :: '/' :: rest)) = filled (parts (front ++ '/' :: rest)) := by
  rw [parts_cut, parts_cut, parts_slash_cons, filled_append, filled_append]
  rfl

theorem foldl_enter_append {parts segments : List (List Char)} (h : ['.', '.'] ∉ parts) :
    parts.foldl (enter rooted) segments = parts.foldl (enter rooted) [] ++ segments := by
  induction parts generalizing segments with
  | nil => rfl
  | cons part parts ih =>
    have hrest : ['.', '.'] ∉ parts := fun hmem => h (mem_cons_of_mem _ hmem)
    rw [foldl_cons, foldl_cons]
    rcases part_cases part with hblank | rfl | hplain
    · rw [enter_blank hblank, enter_blank hblank, ih hrest]
    · exact absurd mem_cons_self h
    · rw [enter_plain hplain, enter_plain hplain, ih hrest, @ih [part] hrest, append_assoc,
        singleton_append]

theorem foldl_enter_name (hname : IsPlainName name) (hup : ['.', '.'] ∉ others)
    (outer : List (List Char)) :
    (outer ++ name :: others).foldl (enter rooted) [] =
      others.foldl (enter rooted) [] ++ name :: outer.foldl (enter rooted) [] := by
  rw [foldl_append, foldl_cons, enter_plain hname, foldl_enter_append hup]

theorem parts_mark (mark : QuoteMark) (h : parts rest = first :: others) :
    parts (mark.char :: rest) = (mark.char :: first) :: others := by
  have hmark : parts [mark.char] = [] ++ [[mark.char]] := by cases mark <;> rfl
  exact parts_append hmark h

theorem isPlainName_of_mark {part : List Char} (h : mark.char ∈ part) : IsPlainName part := by
  have hpoint : mark.char ≠ '.' := by cases mark <;> decide
  refine ⟨?_, ?_, ?_⟩ <;> rintro rfl <;> simp [hpoint] at h

end Path

/-! ## Backslashes and names -/

/-- No backslash cuts a name: each stands right behind a slash. -/
def KeepsNames (raw : List Char) : Prop :=
  raw.IsChain fun last next => next = '\\' → last = '/'

instance (raw : List Char) : Decidable (KeepsNames raw) :=
  inferInstanceAs (Decidable (List.IsChain _ raw))

theorem keepsNames_cons_cons {next : Char} :
    KeepsNames (last :: next :: raw) ↔ (next = '\\' → last = '/') ∧ KeepsNames (next :: raw) :=
  isChain_cons_cons

/-- No step up stands behind a quote. -/
def NoUpBehindQuote (text : List Char) : Prop :=
  ∀ (front back : List Char) (mark : QuoteMark), text = front ++ mark.char :: back →
    ['.', '.'] ∉ (parts back).tail

theorem QuoteMark.char_ne_backslash (mark : QuoteMark) : mark.char ≠ '\\' := by
  cases mark <;> decide

namespace Spells

variable {raw text : List Char}

theorem getLast?_withSlashes (h : Spells raw text) (hplain : '\\' ∉ text) (last : Char) :
    (last :: withSlashes raw).getLast? = (last :: text).getLast? := by
  induction h generalizing last with
  | nil => rfl
  | plain ch h ih =>
    rw [mem_cons, not_or] at hplain
    rw [withSlashes_cons (Ne.symm hplain.1), getLast?_cons_cons, ih hplain.2,
      getLast?_cons_cons]
  | escaped mark h ih =>
    rw [mem_cons, not_or] at hplain
    rw [withSlashes_backslash, withSlashes_cons mark.char_ne_backslash,
      getLast?_cons_cons, getLast?_cons_cons, ih hplain.2, getLast?_cons_cons]

/-- While no name is cut, the backslashes only double slashes. -/
theorem filled_parts_withSlashes (h : Spells raw text) (hplain : '\\' ∉ text) (front : List Char)
    (hkeeps : KeepsNames (last :: raw)) :
    filled (parts (front ++ last :: withSlashes raw)) =
      filled (parts (front ++ last :: text)) := by
  induction h generalizing front last with
  | nil => rfl
  | plain ch h ih =>
    rw [mem_cons, not_or] at hplain
    have hrest := ih hplain.2 (front ++ [last]) (keepsNames_cons_cons.mp hkeeps).2
    rw [append_assoc, append_assoc] at hrest
    rw [withSlashes_cons (Ne.symm hplain.1)]
    exact hrest
  | escaped mark h ih =>
    rw [mem_cons, not_or] at hplain
    obtain ⟨hslash, hmark⟩ := keepsNames_cons_cons.mp hkeeps
    obtain rfl := hslash rfl
    have hrest := ih hplain.2 (front ++ ['/']) (keepsNames_cons_cons.mp hmark).2
    rw [append_assoc, append_assoc] at hrest
    rw [withSlashes_backslash, withSlashes_cons mark.char_ne_backslash,
      filled_parts_slash]
    exact hrest

theorem keepsNames_or (h : Spells raw text) (hplain : '\\' ∉ text) (last : Char) :
    KeepsNames (last :: raw) ∨
      ∃ front front' back back' : List Char, ∃ mark : QuoteMark,
        raw = front ++ '\\' :: mark.char :: back ∧ text = front' ++ mark.char :: back' ∧
          (last :: front').getLast? ≠ some '/' ∧ Spells back back' ∧
            KeepsNames (mark.char :: back) := by
  induction h generalizing last with
  | nil => exact .inl (isChain_singleton _)
  | plain ch h ih =>
    rw [mem_cons, not_or] at hplain
    rcases ih hplain.2 ch with hkeeps | ⟨front, front', back, back', mark, rfl, rfl, hcut⟩
    · refine .inl (keepsNames_cons_cons.mpr ⟨fun heq => ?_, hkeeps⟩)
      exact absurd heq.symm hplain.1
    · refine .inr ⟨ch :: front, ch :: front', back, back', mark, rfl, rfl, ?_⟩
      rw [getLast?_cons_cons]
      exact hcut
  | @escaped mark raw text h ih =>
    rw [mem_cons, not_or] at hplain
    rcases ih hplain.2 mark.char with hkeeps | ⟨front, front', back, back', other, rfl, rfl, hcut⟩
    · by_cases hlast : last = '/'
      · have hmark : KeepsNames ('\\' :: mark.char :: raw) :=
          keepsNames_cons_cons.mpr ⟨fun heq => absurd heq mark.char_ne_backslash, hkeeps⟩
        exact .inl (keepsNames_cons_cons.mpr ⟨fun _ => hlast, hmark⟩)
      · refine .inr ⟨[], [], raw, text, mark, rfl, rfl, ?_, h, hkeeps⟩
        simpa using hlast
    · refine .inr ⟨'\\' :: mark.char :: front, mark.char :: front', back, back', other, rfl, rfl,
        ?_⟩
      rw [getLast?_cons_cons]
      exact hcut

end Spells

/-! ## Resolving -/

section Behind

variable {folder raw text : List Char}

theorem withSlashes_behind (hfolder : '\\' ∉ folder) (rest : List Char) :
    withSlashes (folder ++ '.' :: rest) = folder ++ '.' :: withSlashes rest := by
  rw [withSlashes_append, withSlashes_eq_self hfolder, withSlashes_cons (by decide)]

theorem isRooted_behind (folder rest more : List Char) :
    isRooted (folder ++ '.' :: rest) = isRooted (folder ++ '.' :: more) := by
  have hne : folder ++ ['.'] ≠ [] := by simp
  rw [← singleton_append, ← append_assoc, isRooted_append hne,
    ← isRooted_append hne more, append_assoc, singleton_append]

theorem text_target_of_keepsNames (hfolder : '\\' ∉ folder) (h : Spells raw text)
    (hplain : '\\' ∉ text) (hkeeps : KeepsNames ('.' :: raw)) :
    (Path.target (folder ++ '.' :: raw)).text = (Path.target (folder ++ '.' :: text)).text := by
  have hslashes := withSlashes_behind hfolder raw
  have hsame := withSlashes_behind hfolder text
  rw [withSlashes_eq_self hplain] at hsame
  have hroot := isRooted_behind folder raw text
  refine text_target_congr hroot ?_ ?_
  · rw [isOpen, isOpen, hslashes, hsame,
      getLast?_append_of_ne_nil _ (cons_ne_nil _ _), h.getLast?_withSlashes hplain,
      getLast?_append_of_ne_nil _ (cons_ne_nil _ _)]
  · rw [stackOf_eq_filled, stackOf_eq_filled, hroot, hslashes, hsame,
      h.filled_parts_withSlashes hplain folder hkeeps]

/-- Behind a backslash that cuts a name, the part with the quote is a name of its own. -/
theorem filled_parts_cut (hfolder : '\\' ∉ folder) {front back back' : List Char}
    (hraw : raw = front ++ '\\' :: mark.char :: back) (hback : Spells back back')
    (hplain : '\\' ∉ back') (hkeeps : KeepsNames (mark.char :: back))
    (hparts : parts back' = first :: others) :
    filled (parts (withSlashes (folder ++ '.' :: raw))) =
      filled (parts (folder ++ '.' :: withSlashes front)) ++
        (mark.char :: first) :: filled others := by
  have hrest := hback.filled_parts_withSlashes hplain [] hkeeps
  rw [nil_append, nil_append, parts_mark mark hparts,
    filled_cons (cons_ne_nil _ _)] at hrest
  rw [withSlashes_behind hfolder, hraw, withSlashes_append, withSlashes_backslash,
    withSlashes_cons mark.char_ne_backslash, ← cons_append, ← append_assoc,
    parts_cut, filled_append, hrest]

/-- A name that was cut stays cut, if nothing behind it leads up to it again. -/
theorem keepsNames_of_stackOf_eq (hfolder : '\\' ∉ folder) (h : Spells raw text)
    (hplain : '\\' ∉ text) (hups : NoUpBehindQuote text)
    (hstack : stackOf (folder ++ '.' :: raw) = stackOf (folder ++ '.' :: text)) :
    KeepsNames ('.' :: raw) := by
  rcases h.keepsNames_or hplain '.' with hkeeps | ⟨front, front', back, back', mark, hraw, htext,
    hlast, hback, hkeeps⟩
  · exact hkeeps
  · have hclean : '\\' ∉ back' := fun hmem => hplain (by rw [htext]; simp [hmem])
    obtain ⟨first, others, hparts, -⟩ := exists_splitAtAll_front (· == '/') back'
    have hup : ['.', '.'] ∉ filled others := by
      intro hmem
      refine hups front' back' mark htext ?_
      rw [parts, hparts]
      exact mem_of_mem_filter hmem
    obtain ⟨inner, last, hinner, hne⟩ : ∃ inner last,
        parts (folder ++ '.' :: front') = inner ++ [last] ∧ last ≠ [] := by
      refine exists_parts_concat (by simp) ?_
      rwa [getLast?_append_of_ne_nil _ (cons_ne_nil _ _)]
    have hwhole : filled (parts (withSlashes (folder ++ '.' :: text))) =
        filled inner ++ (last ++ mark.char :: first) :: filled others := by
      rw [withSlashes_behind hfolder, withSlashes_eq_self hplain, htext, ← cons_append,
        ← append_assoc, parts_append hinner (parts_mark mark hparts),
        filled_append, filled_cons (by simp)]
    -- On both stacks the name with the quote lies under the same parts.
    rw [stackOf_eq_filled, stackOf_eq_filled, isRooted_behind folder raw text,
      filled_parts_cut hfolder hraw hback hclean hkeeps hparts, hwhole,
      foldl_enter_name (isPlainName_of_mark mem_cons_self) hup,
      foldl_enter_name (isPlainName_of_mark (mem_append_right _ mem_cons_self))
        hup] at hstack
    have hname := (cons.inj (append_cancel_left hstack)).1
    exact absurd (self_eq_append_left.mp hname) hne

end Behind

theorem Spells.exists_point {text : List Char} (h : Spells raw text)
    (hpoint : text.head? = some '.') :
    ∃ raw' text', raw = '.' :: raw' ∧ text = '.' :: text' ∧ Spells raw' text' := by
  cases h with
  | nil => cases hpoint
  | plain ch h =>
    obtain rfl := Option.some.inj hpoint
    exact ⟨_, _, rfl, rfl, h⟩
  | escaped mark h => cases mark <;> cases hpoint

namespace Specifier

section Resolve

variable {path specifier : String}

theorem backslash_not_mem_resolve (hpath : path ≠ "") (hurl : urlOf? path = none)
    (hrelative : isRelative specifier = true) :
    '\\' ∉ (resolve specifier (some path)).toList := by
  rw [toList_resolve hpath hurl hrelative]
  exact Path.Target.backslash_not_mem_text _

theorem resolve_slashes (hpath : path ≠ "") (hurl : urlOf? path = none)
    (hrelative : isRelative specifier = true) :
    resolve (slashes specifier) (some path) = resolve specifier (some path) := by
  obtain ⟨rest, hrest⟩ := head?_eq_some_iff.mp (isRelative_iff.mp hrelative)
  have hslashes : (slashes specifier).toList = '.' :: withSlashes rest := by
    rw [slashes, String.toList_ofList, hrest, withSlashes_cons (by decide)]
  have hpoint : isRelative (slashes specifier) = true := by
    rw [isRelative_iff, hslashes, head?_cons]
  have hfolder := backslash_not_mem_directory path
  have hsame : withSlashes ((directory path).toList ++ '.' :: withSlashes rest) =
      withSlashes ((directory path).toList ++ '.' :: rest) := by
    rw [withSlashes_behind hfolder, withSlashes_behind hfolder,
      withSlashes_eq_self (backslash_not_mem_withSlashes rest)]
  rw [← String.toList_inj, toList_resolve hpath hurl hpoint, toList_resolve hpath hurl hrelative,
    hslashes, hrest]
  refine text_target_congr (isRooted_behind _ _ _) ?_ ?_
  · rw [isOpen, hsame, isOpen]
  · rw [stackOf, hsame, isRooted_behind, stackOf]

end Resolve

/-- The string that a relative specifier denotes is not what is resolved when quotes in it are
escaped: each backslash is taken for a slash. The module that is asked for is the same if no name is
cut, and only then, steps up behind a quote apart. -/
theorem resolve_escaped {w v path : String} (hpath : path ≠ "") (hurl : urlOf? path = none)
    (hrelative : isRelative w = true) (hplain : '\\' ∉ w.toList)
    (hspells : Spells v.toList w.toList) :
    stringValue? v.toList = some (textUnits w.toList) ∧
      resolve v (some path) = resolve (Path.slashes v) (some path) ∧
      ((∃ units, Denotes (quote (resolve v (some path))) units ∧
          Denotes (quote (resolve w (some path))) units) ↔
        resolve v (some path) = resolve w (some path) ∧
          '\n' ∉ (resolve w (some path)).toList ∧ '\r' ∉ (resolve w (some path)).toList) ∧
      (KeepsNames v.toList → resolve v (some path) = resolve w (some path)) ∧
      (NoUpBehindQuote w.toList → resolve v (some path) = resolve w (some path) →
        KeepsNames v.toList) := by
  obtain ⟨raw, text, hraw, htext, hrest⟩ := hspells.exists_point (isRelative_iff.mp hrelative)
  have hpoint : isRelative v = true := by
    rw [isRelative_iff, hraw, List.head?_cons]
  have hfolder := Path.backslash_not_mem_directory path
  have hclean : '\\' ∉ text := fun hmem => hplain (htext ▸ List.mem_cons_of_mem _ hmem)
  have hsame : resolve v (some path) = resolve w (some path) ↔
      (Path.target ((Path.directory path).toList ++ '.' :: raw)).text =
        (Path.target ((Path.directory path).toList ++ '.' :: text)).text := by
    rw [← String.toList_inj, toList_resolve hpath hurl hpoint, toList_resolve hpath hurl hrelative,
      hraw, htext]
  refine ⟨hspells.stringValue?_eq hplain, (resolve_slashes hpath hurl hpoint).symm,
    denotes_quote_both_iff (backslash_not_mem_resolve hpath hurl hpoint)
      (backslash_not_mem_resolve hpath hurl hrelative), ?_, ?_⟩
  · intro hkeeps
    rw [hraw] at hkeeps
    exact hsame.mpr (text_target_of_keepsNames hfolder hrest hclean hkeeps)
  · intro hups heq
    have hbehind : NoUpBehindQuote text := by
      intro front back mark hcut
      exact hups ('.' :: front) back mark (by rw [htext, hcut, List.cons_append])
    rw [hraw]
    exact keepsNames_of_stackOf_eq hfolder hrest hclean hbehind
      (Path.stackOf_eq_of_text_target (hsame.mp heq))

/-- An apostrophe that is escaped cuts the name of the file. -/
theorem resolve_escaped_apostrophe :
    urlOf? "/src/main.js" = none ∧ Spells "./it\\'s.js".toList "./it's.js".toList ∧
      ¬KeepsNames "./it\\'s.js".toList ∧
      stringValue? "./it\\'s.js".toList = some (textUnits "./it's.js".toList) ∧
      resolve "./it\\'s.js" (some "/src/main.js") = "/src/it/'s.js" ∧
      resolve "./it's.js" (some "/src/main.js") = "/src/it's.js" ∧
      ¬∃ units, Denotes (quote (resolve "./it\\'s.js" (some "/src/main.js"))) units ∧
        Denotes (quote (resolve "./it's.js" (some "/src/main.js"))) units := by
  have hurl : urlOf? "/src/main.js" = none := by cbv
  have hspells : Spells "./it\\'s.js".toList "./it's.js".toList :=
    .plain '.' (.plain '/' (.plain 'i' (.plain 't' (.escaped .single
      (.plain 's' (.plain '.' (.plain 'j' (.plain 's' .nil))))))))
  have hcut : resolve "./it\\'s.js" (some "/src/main.js") = "/src/it/'s.js" := by cbv
  have hwhole : resolve "./it's.js" (some "/src/main.js") = "/src/it's.js" := by cbv
  obtain ⟨hvalue, -, hdenotes, -, -⟩ :=
    resolve_escaped (by decide) hurl (isRelative_iff.mpr rfl) (by decide) hspells
  refine ⟨hurl, hspells, by decide, hvalue, hcut, hwhole, fun hboth => ?_⟩
  have hsame := (hdenotes.mp hboth).1
  rw [hcut, hwhole] at hsame
  exact absurd hsame (by decide)

end Specifier

end ModuleBridge
