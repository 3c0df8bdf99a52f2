import ModuleBridge.Project.Discovery
import ModuleBridge.Proofs.Path.Canonical

/-!
# Exclusions and segments

An exclusion without a star holds of a path in which its text stands anywhere. In terms of segments,
it lies in consecutive segments of the path, but the first of them may have more in front and the
last more behind.
-/

namespace ModuleBridge

open List

variable {needle path mark list : List Char} {segments window : List (List Char)}

namespace Path

theorem joinSegments_window (h : window <:+: segments) :
    joinSegments window <:+: joinSegments segments := by
  obtain ⟨front, back, rfl⟩ := h
  by_cases hne : window = []
  · rw [hne]
    exact nil_infix
  have hbegins : joinSegments window <+: joinSegments (window ++ back) := by
    by_cases hback : back = []
    · rw [hback, append_nil]
    · rw [joinSegments_append hne hback]
      exact prefix_append _ _
  have hends : joinSegments (window ++ back) <:+ joinSegments (front ++ (window ++ back)) := by
    by_cases hfront : front = []
    · rw [hfront, nil_append]
    · rw [joinSegments_append hfront (by simp [hne]), append_cons]
      exact suffix_append _ _
  rw [append_assoc]
  exact hbegins.isInfix.trans hends.isInfix

/-- The end of a text behind its last slash begins the segments of what is put behind it. -/
theorem exists_parts_back (text : List Char) :
    ∃ front, '/' ∉ front ∧ ∀ rest, parts (front ++ rest) <:+ parts (text ++ rest) := by
  by_cases hslash : '/' ∈ text
  · obtain ⟨front, back, heq, hfront⟩ := eq_append_cons_of_mem (mem_reverse.mpr hslash)
    have htext : text = back.reverse ++ '/' :: front.reverse := by
      simpa using congrArg reverse heq
    refine ⟨front.reverse, by simpa using hfront, fun rest => ?_⟩
    rw [htext, append_assoc, cons_append, parts_cut]
    exact suffix_append _ _
  · exact ⟨text, hslash, fun rest => suffix_rfl⟩

/-- The front of a text up to its first slash ends the segments of what is put before it. -/
theorem exists_parts_front (text : List Char) :
    ∃ back, '/' ∉ back ∧ ∀ rest, parts (rest ++ back) <+: parts (rest ++ text) := by
  by_cases hslash : '/' ∈ text
  · obtain ⟨front, back, rfl, hfront⟩ := eq_append_cons_of_mem hslash
    refine ⟨front, hfront, fun rest => ?_⟩
    rw [← append_assoc, parts_cut]
    exact prefix_append _ _
  · exact ⟨text, hslash, fun rest => prefix_rfl⟩

theorem occurs_iff_window : needle <:+: path ↔
    ∃ window front back, window <:+: parts path ∧ '/' ∉ front ∧ '/' ∉ back ∧
      joinSegments window = front ++ needle ++ back := by
  constructor
  · rintro ⟨outer, rest, rfl⟩
    obtain ⟨front, hfront, hends⟩ := exists_parts_back outer
    obtain ⟨back, hback, hbegins⟩ := exists_parts_front rest
    refine ⟨parts (front ++ needle ++ back), front, back, ?_, hfront, hback, joinSegments_parts _⟩
    have hinner := (hends (needle ++ back)).isInfix
    have houter := (hbegins (outer ++ needle)).isInfix
    rw [append_assoc outer needle back] at houter
    rw [append_assoc front]
    exact hinner.trans houter
  · rintro ⟨window, front, back, hwindow, -, -, hjoin⟩
    have hpath := joinSegments_window hwindow
    rw [joinSegments_parts, hjoin] at hpath
    exact IsInfix.trans ⟨front, back, rfl⟩ hpath

end Path

theorem dropRepeatedAux_replicate (hlist : ¬mark <+: list) {count fuel : Nat} (h : count ≤ fuel) :
    dropRepeatedAux mark fuel ((replicate count mark).flatten ++ list) = list := by
  induction fuel generalizing count with
  | zero =>
    rw [Nat.le_zero.mp h]
    rfl
  | succ fuel ih =>
    cases count with
    | zero =>
      rw [← isPrefixOf_iff_prefix] at hlist
      exact if_neg hlist
    | succ count =>
      rw [replicate_succ, flatten_cons, append_assoc, dropRepeatedAux,
        if_pos (List.isPrefixOf_iff_prefix.mpr (prefix_append _ _)), drop_left,
        ih (Nat.le_of_succ_le_succ h)]

theorem occursIn_iff : occursIn needle path = true ↔ needle <:+: path := by
  induction path with
  | nil => simp [occursIn, splitBefore?]
  | cons c path ih =>
    rw [infix_cons_iff, ← ih, occursIn, splitBefore?, ← isPrefixOf_iff_prefix]
    split
    · rename_i h
      simp [h]
    · rename_i h
      simp [h, occursIn]

/-- Without a star, only the points and slashes in front of an exclusion are not looked for. -/
theorem exclusionNeedle_eq {pattern : String} {count : Nat}
    (hpattern : pattern.toList = (replicate count ['.', '/']).flatten ++ needle)
    (hpoint : ¬['.', '/'] <+: needle) (hstar : '*' ∉ needle) :
    exclusionNeedle pattern = needle := by
  have hkeep : ∀ l : List Char, '*' ∉ l → dropRepeated ['*', '*', '/'] l = l := by
    refine fun l hl => @dropRepeatedAux_replicate _ l (fun h => hl ?_) 0 _ (Nat.zero_le _)
    exact h.subset mem_cons_self
  have hpoints : dropRepeated ['.', '/'] pattern.toList = needle := by
    rw [hpattern]
    exact dropRepeatedAux_replicate hpoint (by simp; omega)
  rw [exclusionNeedle, hpoints, hkeep _ hstar, dropRepeatedEnd]
  change (dropRepeated ['*', '*', '/'] needle.reverse).reverse = needle
  rw [hkeep _ (by simpa using hstar), reverse_reverse]

/-- An exclusion without a star and without empty segments holds of a path exactly if its text is
that of consecutive segments, less something in front within the first and something behind within
the last. Where nothing has to be left out, its segments are whole segments of the path. -/
theorem isExcluded_iff_window (path : String) {pattern : String} {count : Nat}
    (hpattern : pattern.toList = (replicate count ['.', '/']).flatten ++ needle)
    (hpoint : ¬['.', '/'] <+: needle) (hstar : '*' ∉ needle) (hfull : [] ∉ Path.parts needle) :
    (isExcluded [pattern] path = true ↔
      ∃ window front back, window <:+: Path.parts (Path.withSlashes path.toList) ∧
        '/' ∉ front ∧ '/' ∉ back ∧ Path.joinSegments window = front ++ needle ++ back) ∧
      (Path.parts needle <:+: Path.parts (Path.withSlashes path.toList) →
        isExcluded [pattern] path = true) := by
  have hexcluded : isExcluded [pattern] path = true ↔
      needle <:+: Path.withSlashes path.toList := by
    rw [← occursIn_iff, isExcluded, any_cons, any_nil, Bool.or_false, excludes,
      exclusionNeedle_eq hpattern hpoint hstar]
    cases needle with
    | nil => exact absurd mem_cons_self hfull
    | cons c rest =>
      have hc : c ≠ '*' := fun heq => hstar (heq ▸ mem_cons_self)
      split
      · contradiction
      · rename_i heq
        exact absurd (cons.inj heq).1 hc
      · rfl
  refine ⟨hexcluded.trans Path.occurs_iff_window, fun hwhole => hexcluded.mpr ?_⟩
  rw [← Path.joinSegments_parts needle, ← Path.joinSegments_parts (Path.withSlashes path.toList)]
  exact Path.joinSegments_window hwhole

/-- An exclusion drops a file whose name only begins with its text. -/
theorem distance_excluded :
    isExcluded ["dist"] "src/distance.js" = true ∧
      ¬Path.parts "dist".toList <:+: Path.parts "src/distance.js".toList := by
  have hpattern : "dist".toList = (replicate 0 ['.', '/']).flatten ++ "dist".toList := rfl
  refine ⟨((isExcluded_iff_window "src/distance.js" hpattern (by decide) (by decide)
    (by decide)).1).mpr ⟨["distance.js".toList], [], "ance.js".toList, ?_⟩, by decide⟩
  exact ⟨⟨["src".toList], [], by decide⟩, by decide, by decide, by decide⟩

end ModuleBridge
