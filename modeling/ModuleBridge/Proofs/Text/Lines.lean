import ModuleBridge.Text.Line

/-!
# Lines of a text

A text that is written line by line falls into the same lines again, but for a carriage return at
the end of a line, which counts as part of the line end.
-/

namespace ModuleBridge

open List

variable {line front text : List Char} {feed : Bool} {lines : List (List Char)}

def dropReturn (line : List Char) : List Char :=
  if line.getLast? = some '\r' then line.dropLast else line

theorem dropReturn_append_return (line : List Char) : dropReturn (line ++ ['\r']) = line := by
  simp [dropReturn]

theorem dropReturn_of_getLast? (h : line.getLast? ≠ some '\r') : dropReturn line = line := by
  simp [dropReturn, h]

theorem dropReturn_cases (line : List Char) :
    dropReturn line = line ∨ line = dropReturn line ++ ['\r'] := by
  by_cases h : line.getLast? = some '\r'
  · obtain ⟨front, rfl⟩ := getLast?_eq_some_iff.mp h
    rw [dropReturn_append_return]
    exact .inr rfl
  · exact .inl (dropReturn_of_getLast? h)

theorem splitLinesAux_feed (rest line : List Char) :
    splitLinesAux ('\n' :: rest) line = dropReturn line.reverse :: splitLines rest := by
  cases line with
  | nil => rfl
  | cons c line =>
    by_cases hc : c = '\r'
    · subst hc
      simp [splitLinesAux, splitLines, dropReturn_append_return]
    · have hlast : (c :: line).reverse.getLast? ≠ some '\r' := by simpa using hc
      rw [dropReturn_of_getLast? hlast, splitLinesAux]
      · rfl
      · intro line' heq
        exact hc (List.cons.inj heq).1

theorem splitLinesAux_append (h : '\n' ∉ front) (rest line : List Char) :
    splitLinesAux (front ++ rest) line = splitLinesAux rest (front.reverse ++ line) := by
  induction front generalizing line with
  | nil => rfl
  | cons c front ih =>
    have hc : c ≠ '\n' := fun heq => h (heq ▸ mem_cons_self)
    have hfront : '\n' ∉ front := fun hmem => h (mem_cons_of_mem c hmem)
    simp [splitLinesAux, hc, ih hfront]

theorem splitLines_line (h : '\n' ∉ line) (rest : List Char) :
    splitLines (line ++ '\n' :: rest) = dropReturn line :: splitLines rest := by
  rw [splitLines, splitLinesAux_append h, splitLinesAux_feed]
  simp

theorem splitLines_last (h : '\n' ∉ line) (hne : line ≠ []) : splitLines line = [line] := by
  have hend := splitLinesAux_append h [] []
  rw [append_nil, append_nil] at hend
  rw [splitLines, hend, splitLinesAux, reverse_reverse]
  simpa using hne

/-! ## All lines -/

/-- A text is followed line by line: it is empty, or a last line without a line feed, or a line with
one and the rest of the text. -/
@[elab_as_elim]
theorem lines_induction {motive : List Char → Prop} (nil : motive [])
    (last : ∀ line, '\n' ∉ line → line ≠ [] → motive line)
    (line : ∀ line rest, '\n' ∉ line → motive rest → motive (line ++ '\n' :: rest))
    (text : List Char) : motive text := by
  -- The characters before the first line feed are the line; what the induction adds in front of a
  -- text belongs to its first line.
  have hfront : ∀ front, '\n' ∉ front → motive (front ++ text) := by
    induction text with
    | nil =>
      intro front hfeed
      rw [append_nil]
      by_cases hne : front = []
      · rwa [hne]
      · exact last front hfeed hne
    | cons c rest ih =>
      intro front hfeed
      by_cases hc : c = '\n'
      · rw [hc]
        exact line front rest hfeed (ih [] not_mem_nil)
      · rw [append_cons]
        exact ih _ (by simp [hfeed, eq_comm, hc])
  exact hfront [] not_mem_nil

/-- Lines that are written with their line feeds fall apart again. -/
theorem splitLines_lines (h : ∀ line ∈ lines, '\n' ∉ line) (rest : List Char) :
    splitLines (lines.flatMap (· ++ ['\n']) ++ rest) = lines.map dropReturn ++ splitLines rest := by
  induction lines with
  | nil => rfl
  | cons line lines ih =>
    have hlines : ∀ other ∈ lines, '\n' ∉ other :=
      fun other hmem => h other (mem_cons_of_mem line hmem)
    simp only [flatMap_cons, append_assoc, cons_append, nil_append]
    rw [splitLines_line (h line mem_cons_self), ih hlines]
    rfl

theorem feed_not_mem_splitLinesAux (hfront : '\n' ∉ front) (h : line ∈ splitLinesAux text front) :
    '\n' ∉ line := by
  fun_induction splitLinesAux text front with
  | case1 => cases h
  | case2 front =>
    obtain rfl := mem_singleton.mp h
    simpa using hfront
  | case3 rest front ih =>
    have hinner : '\n' ∉ front := fun hmem => hfront (mem_cons_of_mem _ hmem)
    simp only [mem_cons] at h
    cases h with
    | inl heq => simpa [heq] using hinner
    | inr hmem => exact ih (not_mem_nil) hmem
  | case4 rest front _ ih =>
    simp only [mem_cons] at h
    cases h with
    | inl heq => simpa [heq] using hfront
    | inr hmem => exact ih (not_mem_nil) hmem
  | case5 c rest front hreturn hfeed ih =>
    apply ih _ h
    have hc : '\n' ≠ c := by
      intro heq
      exact hfeed heq.symm
    simp [hc, hfront]

theorem feed_not_mem_of_mem_splitLines (h : line ∈ splitLines text) : '\n' ∉ line :=
  feed_not_mem_splitLinesAux not_mem_nil h

/-! ## Joined lines -/

/-- The text of some lines; `feed` says whether the last of them has a line feed too. -/
def joinLines (feed : Bool) : List (List Char) → List Char
  | [] => []
  | [line] => if feed then line ++ ['\n'] else line
  | line :: next :: rest => line ++ '\n' :: joinLines feed (next :: rest)

theorem joinLines_cons {rest : List (List Char)} (h : rest ≠ []) (line : List Char) :
    joinLines feed (line :: rest) = line ++ '\n' :: joinLines feed rest := by
  obtain ⟨next, more, rfl⟩ := exists_cons_of_ne_nil h
  rfl

theorem joinLines_true (lines : List (List Char)) :
    joinLines true lines = lines.flatMap (· ++ ['\n']) := by
  fun_induction joinLines true lines with
  | case1 => rfl
  | case2 line => simp
  | case3 line => contradiction
  | case4 line next rest ih =>
    rw [ih]
    simp

theorem joinLines_false (lines : List (List Char)) :
    joinLines false lines = ['\n'].intercalate lines := by
  fun_induction joinLines false lines with
  | case1 => rfl
  | case2 line => contradiction
  | case3 line => simp
  | case4 line next rest ih =>
    rw [ih]
    simp

theorem joinLines_true_eq (h : lines ≠ []) :
    joinLines true lines = joinLines false lines ++ ['\n'] := by
  fun_induction joinLines true lines with
  | case1 => contradiction
  | case2 line => rfl
  | case3 line => contradiction
  | case4 line next rest ih =>
    rw [ih (by simp)]
    simp [joinLines]

theorem joinLines_append {back : List (List Char)} (h : back ≠ []) (front : List (List Char)) :
    joinLines feed (front ++ back) = joinLines true front ++ joinLines feed back := by
  induction front with
  | nil => rfl
  | cons line front ih =>
    rw [cons_append, joinLines_cons (by simp [h]), ih, joinLines_true, joinLines_true,
      flatMap_cons]
    simp

/-- A line with something on it that does not end with a carriage return comes back unchanged. -/
theorem splitLines_joinLines
    (h : ∀ line ∈ lines, '\n' ∉ line ∧ line ≠ [] ∧ line.getLast? ≠ some '\r') :
    splitLines (joinLines feed lines) = lines := by
  induction lines with
  | nil => rfl
  | cons line rest ih =>
    obtain ⟨hfeed, hne, hreturn⟩ := h line mem_cons_self
    have hrest := ih fun other hmem => h other (mem_cons_of_mem line hmem)
    have hfirst : ∀ text, splitLines (line ++ '\n' :: text) = line :: splitLines text := by
      intro text
      rw [splitLines_line hfeed, dropReturn_of_getLast? hreturn]
    cases rest with
    | nil =>
      cases feed with
      | true => exact hfirst []
      | false => exact splitLines_last hfeed hne
    | cons next rest => rw [joinLines_cons (by simp), hfirst, hrest]

end ModuleBridge
