import Mathlib
import ModuleBridge.Text.Substitute

/-!
# Filled templates

The arguments of a message are put in one after the other. Whatever they are, this fills all places
at once exactly if the template has places of the last argument only: a place that another argument
brings in is filled again. Arguments without an opening brace bring in none, if the template has no
other such braces than those of its places.
-/

namespace ModuleBridge

open List

variable {index other : Nat} {w pattern replacement rest text out : List Char}
  {args more : List (List Char)}

/-- A text is the template with every place that has an argument filled and all else kept. -/
inductive Filled (args : List (List Char)) : List Char → List Char → Prop
  | done : Filled args [] []
  | place {index : Nat} {arg rest out : List Char} :
    args[index]? = some arg → Filled args rest out →
      Filled args (placeholder index ++ rest) (arg ++ out)
  | keep {c : Char} {rest out : List Char} :
    (∀ index < args.length, ¬placeholder index <+: c :: rest) → Filled args rest out →
      Filled args (c :: rest) (c :: out)

/-- Every opening brace of the text begins a place. -/
inductive IsTemplate : List Char → Prop
  | done : IsTemplate []
  | place (index : Nat) {rest : List Char} :
    IsTemplate rest → IsTemplate (placeholder index ++ rest)
  | keep {c : Char} {rest : List Char} : c ≠ '\x7b' → IsTemplate rest → IsTemplate (c :: rest)

/-! ## Places -/

theorem brace_not_mem_tail (index : Nat) : '\x7b' ∉ (placeholder index).tail := by
  intro hmem
  rcases mem_append.mp hmem with hmem | hmem
  · exact absurd (Nat.isDigit_of_mem_toDigits (by decide) (by decide) hmem) (by decide)
  · exact absurd hmem (by decide)

theorem eq_of_placeholder (h : placeholder index <+: placeholder other ++ rest) :
    index = other := by
  have htake : ∀ n back, takeWhile (· != '\x7d') (Nat.toDigits 10 n ++ ['\x7d'] ++ back) =
      Nat.toDigits 10 n := by
    intro n back
    rw [append_assoc, takeWhile_append_of_pos, singleton_append, takeWhile_cons_of_neg (by decide),
      append_nil]
    intro c hc
    have hdigit := Nat.isDigit_of_mem_toDigits (by decide) (by decide) hc
    rw [bne_iff_ne]
    rintro rfl
    exact absurd hdigit (by decide)
  obtain ⟨back, hback⟩ := h
  have hdigits := congrArg (takeWhile (· != '\x7d')) (cons.inj hback).2
  change takeWhile _ (_ ++ _ ++ _) = takeWhile _ (_ ++ _ ++ _) at hdigits
  rw [htake, htake] at hdigits
  rw [← @Nat.ofDigitChars_ten_toDigits index, hdigits, Nat.ofDigitChars_ten_toDigits]

theorem occurs_behind_plain (hw : '\x7b' ∉ w) (h : placeholder index <:+: w ++ rest) :
    placeholder index <:+: rest := by
  induction w with
  | nil => exact h
  | cons c w ih =>
    rw [mem_cons, not_or] at hw
    rcases infix_cons_iff.mp h with hfront | hback
    · exact absurd (cons_prefix_cons.mp hfront).1 hw.1
    · exact ih hw.2 hback

/-- A place does not overlap another one. -/
theorem occurs_behind_place (hne : index ≠ other)
    (h : placeholder index <:+: placeholder other ++ rest) : placeholder index <:+: rest := by
  change placeholder index <:+: _ :: ((placeholder other).tail ++ rest) at h
  rcases infix_cons_iff.mp h with hfront | hback
  · exact absurd (eq_of_placeholder hfront) hne
  · exact occurs_behind_plain (brace_not_mem_tail other) hback

/-- A text is read place by place, and character by character between them. -/
theorem place_induction {P : List Char → Prop} (index : Nat) (nil : P [])
    (place : ∀ rest, P rest → P (placeholder index ++ rest))
    (keep : ∀ c rest, ¬placeholder index <+: c :: rest → P rest → P (c :: rest))
    (text : List Char) : P text := by
  induction hsize : text.length using Nat.strongRecOn generalizing text with
  | ind size ih =>
    subst hsize
    cases text with
    | nil => exact nil
    | cons c rest =>
      by_cases hplace : placeholder index <+: c :: rest
      · obtain ⟨back, hback⟩ := hplace
        rw [← hback] at ih ⊢
        refine place back (ih back.length ?_ back rfl)
        rw [length_append]
        exact Nat.lt_add_of_pos_left (Nat.zero_lt_succ _)
      · exact keep c rest hplace (ih rest.length (Nat.lt_succ_self _) rest rfl)

/-! ## Replacing -/

theorem replaceAllAux_skip (front : List Char) :
    replaceAllAux pattern replacement front.length (front ++ rest) =
      replaceAll pattern replacement rest := by
  induction front with
  | nil => rfl
  | cons c front ih => exact ih

theorem replaceAll_place :
    replaceAll (placeholder index) replacement (placeholder index ++ rest) =
      replacement ++ replaceAll (placeholder index) replacement rest := by
  have hfront : (placeholder index).isPrefixOf (placeholder index ++ rest) = true :=
    isPrefixOf_iff_prefix.mpr (prefix_append _ rest)
  exact (if_pos hfront).trans (congrArg _ (replaceAllAux_skip (placeholder index).tail))

theorem replaceAll_cons {c : Char} (h : ¬pattern <+: c :: rest) :
    replaceAll pattern replacement (c :: rest) = c :: replaceAll pattern replacement rest := by
  rw [← isPrefixOf_iff_prefix] at h
  exact if_neg h

theorem replaceAll_eq_self (h : ¬pattern <:+: text) :
    replaceAll pattern replacement text = text := by
  induction text with
  | nil => rfl
  | cons c rest ih =>
    rw [infix_cons_iff, not_or] at h
    rw [replaceAll_cons h.1, ih h.2]

/-- What has no opening brace begins a text if it does after places were put for places. -/
theorem begins_of_replaceAll (hw : '\x7b' ∉ w)
    (h : w <+: replaceAll (placeholder index) (placeholder other) text) : w <+: text := by
  induction text using place_induction index generalizing w with
  | nil => exact h
  | place rest ih =>
    rw [replaceAll_place] at h
    cases w with
    | nil => exact nil_prefix
    | cons d w => exact absurd (by rw [(cons_prefix_cons.mp h).1]; exact mem_cons_self) hw
  | keep c rest hplace ih =>
    cases w with
    | nil => exact nil_prefix
    | cons d w =>
      rw [replaceAll_cons hplace, cons_prefix_cons] at h
      exact cons_prefix_cons.mpr ⟨h.1, ih (fun hmem => hw (mem_cons_of_mem d hmem)) h.2⟩

/-- No place is left where other places were put for it. -/
theorem not_occurs_replaceAll (hne : index ≠ other) :
    ¬placeholder index <:+: replaceAll (placeholder index) (placeholder other) text := by
  induction text using place_induction index with
  | nil => exact fun h => absurd (infix_nil.mp h) (cons_ne_nil _ _)
  | place rest ih =>
    rw [replaceAll_place]
    exact fun h => ih (occurs_behind_place hne h)
  | keep c rest hplace ih =>
    rw [replaceAll_cons hplace, infix_cons_iff]
    rintro (hfront | hback)
    · obtain ⟨hc, hrest⟩ := cons_prefix_cons.mp hfront
      exact hplace (cons_prefix_cons.mpr
        ⟨hc, begins_of_replaceAll (brace_not_mem_tail index) hrest⟩)
    · exact ih hback

/-! ## Filling -/

/-- Replacing the places of the last argument fills a template that has no others. -/
theorem filled_replaceAll {last : List Char}
    (hnone : ∀ index < args.length, ¬placeholder index <:+: text) :
    Filled (args ++ [last]) text (replaceAll (placeholder args.length) last text) := by
  induction text using place_induction args.length with
  | nil => exact .done
  | place rest ih =>
    rw [replaceAll_place]
    exact .place getElem?_concat_length
      (ih fun i hi h => hnone i hi (h.trans (suffix_append _ _).isInfix))
  | keep c rest hplace ih =>
    rw [replaceAll_cons hplace]
    refine .keep (fun index hindex hfront => ?_)
      (ih fun i hi h => hnone i hi (h.trans (suffix_cons _ _).isInfix))
    rw [length_append, length_singleton, Nat.lt_succ_iff_lt_or_eq] at hindex
    rcases hindex with hlt | rfl
    · exact hnone index hlt hfront.isInfix
    · exact hplace hfront

/-- A place that has a place as its argument leaves that place in a filled template. -/
theorem Filled.occurs (h : Filled args text out)
    (harg : args[index]? = some (placeholder other)) (hmem : placeholder index <:+: text) :
    placeholder other <:+: out := by
  induction h with
  | done => exact absurd (infix_nil.mp hmem) (cons_ne_nil _ _)
  | @place i arg rest out hi _ ih =>
    by_cases heq : index = i
    · subst heq
      obtain rfl := Option.some.inj (harg.symm.trans hi)
      exact (prefix_append _ _).isInfix
    · exact (ih (occurs_behind_place heq hmem)).trans (suffix_append _ _).isInfix
  | keep hkeep _ ih =>
    rcases infix_cons_iff.mp hmem with hfront | hback
    · exact absurd hfront (hkeep index (List.getElem?_eq_some_iff.mp harg).1)
    · exact (ih hback).trans (suffix_cons _ _).isInfix

/-- Arguments without a place in the template change nothing. -/
theorem fillFrom_append {first : Nat}
    (hnone : ∀ i < args.length, ¬placeholder (first + i) <:+: text) :
    fillFrom text first (args ++ more) = fillFrom text (first + args.length) more := by
  induction args generalizing first with
  | nil => rfl
  | cons arg args ih =>
    have hself : replaceAll (placeholder first) arg text = text :=
      replaceAll_eq_self (hnone 0 (Nat.zero_lt_succ _))
    rw [cons_append, fillFrom, hself, ih, length_cons, Nat.add_assoc, Nat.add_comm 1]
    intro i hi
    rw [Nat.add_assoc, Nat.add_comm 1]
    exact hnone (i + 1) (Nat.succ_lt_succ hi)

/-! ## Arguments without braces -/

theorem replaceAll_plain (hw : '\x7b' ∉ w) :
    replaceAll (placeholder index) replacement (w ++ rest) =
      w ++ replaceAll (placeholder index) replacement rest := by
  induction w with
  | nil => rfl
  | cons c w ih =>
    rw [mem_cons, not_or] at hw
    have hplace : ¬placeholder index <+: c :: (w ++ rest) := fun h =>
      hw.1 (cons_prefix_cons.mp h).1
    rw [cons_append, replaceAll_cons hplace, ih hw.2, cons_append]

theorem replaceAll_other (hne : index ≠ other) :
    replaceAll (placeholder index) replacement (placeholder other ++ rest) =
      placeholder other ++ replaceAll (placeholder index) replacement rest := by
  have hplace : ¬placeholder index <+: placeholder other ++ rest := fun h =>
    hne (eq_of_placeholder h)
  exact (replaceAll_cons hplace).trans (congrArg _ (replaceAll_plain (brace_not_mem_tail other)))

theorem fillFrom_plain (hw : '\x7b' ∉ w) (first : Nat) :
    fillFrom (w ++ text) first args = w ++ fillFrom text first args := by
  induction args generalizing first text with
  | nil => rfl
  | cons arg args ih => rw [fillFrom, replaceAll_plain hw, ih, fillFrom]

/-- A place is filled by its argument, which no later one changes, or kept if it has none. -/
theorem fillFrom_place (hargs : ∀ arg ∈ args, '\x7b' ∉ arg) (first index : Nat) :
    fillFrom (placeholder index ++ text) first args =
      (if first ≤ index then args[index - first]? else none).getD (placeholder index) ++
        fillFrom text first args := by
  induction args generalizing first text with
  | nil => simp [fillFrom]
  | cons arg args ih =>
    obtain ⟨harg, hargs⟩ := forall_mem_cons.mp hargs
    rw [fillFrom, fillFrom]
    by_cases hfirst : first = index
    · rw [hfirst, replaceAll_place, fillFrom_plain harg]
      simp
    · rw [replaceAll_other hfirst, ih hargs]
      grind

theorem Filled.plain (hw : '\x7b' ∉ w) (h : Filled args text out) :
    Filled args (w ++ text) (w ++ out) := by
  induction w with
  | nil => exact h
  | cons c w ih =>
    rw [mem_cons, not_or] at hw
    exact .keep (fun index _ hplace => hw.1 (cons_prefix_cons.mp hplace).1) (ih hw.2)

theorem IsTemplate.filled (h : IsTemplate text) (hargs : ∀ arg ∈ args, '\x7b' ∉ arg) :
    Filled args text (fillFrom text 0 args) := by
  induction h with
  | done =>
    have hempty : ∀ first, fillFrom [] first args = [] := by
      induction args with
      | nil => exact fun _ => rfl
      | cons arg args ih => exact fun first => ih (forall_mem_cons.mp hargs).2 (first + 1)
    rw [hempty]
    exact .done
  | place index _ ih =>
    rw [fillFrom_place hargs, if_pos (Nat.zero_le _), Nat.sub_zero]
    cases harg : args[index]? with
    | some arg => exact .place harg ih
    | none =>
      have hlength := List.getElem?_eq_none_iff.mp harg
      refine .keep (fun i hi hplace => ?_) (ih.plain (brace_not_mem_tail index))
      exact absurd (eq_of_placeholder hplace) (by omega)
  | @keep c rest hc _ ih =>
    have hplain : '\x7b' ∉ [c] := fun hmem => hc (mem_singleton.mp hmem).symm
    rw [← singleton_append, fillFrom_plain hplain]
    exact ih.plain hplain

/-- A template is filled at once with any `n` arguments or fewer exactly if it has no place for one
that another one can follow. With arguments that have no opening brace it always is, unless it has
such braces beside its places. -/
theorem fillTemplate_filled_iff (template : String) (n : Nat) :
    ((∀ args : List String, args.length ≤ n →
        Filled (args.map String.toList) template.toList (fillTemplate template args).toList) ↔
      ∀ index, index + 1 < n → ¬placeholder index <:+: template.toList) ∧
    (IsTemplate template.toList → ∀ args : List String, (∀ arg ∈ args, '\x7b' ∉ arg.toList) →
      Filled (args.map String.toList) template.toList (fillTemplate template args).toList) := by
  simp only [fillTemplate, String.toList_ofList]
  refine ⟨⟨?_, ?_⟩, fun h args hargs => h.filled (by simpa using hargs)⟩
  · -- At the first place that occurs, two arguments that are each other's places are not swapped.
    intro hall index
    induction index using Nat.strongRecOn with
    | ind index ih =>
      intro hindex hplace
      have hfilled := hall (replicate index "" ++
        [String.ofList (placeholder (index + 1)), String.ofList (placeholder index)])
        (by simp; omega)
      simp only [map_append, map_replicate, map_cons, map_nil, String.toList_ofList] at hfilled
      rw [fillFrom_append (by simpa using fun i hi => ih i hi (by omega))] at hfilled
      have hleft : placeholder (index + 1) <:+: _ := hfilled.occurs (by simp) hplace
      rw [length_replicate, Nat.zero_add] at hleft
      exact not_occurs_replaceAll (Nat.succ_ne_self index) hleft
  · intro hnone args hlength
    rcases eq_nil_or_concat' args with rfl | ⟨front, last, rfl⟩
    · exact template.toList.rec .done fun c rest ih =>
        .keep (fun index hindex => absurd hindex (Nat.not_lt_zero index)) ih
    · have hfront : ∀ i < (front.map String.toList).length,
          ¬placeholder i <:+: template.toList := by
        intro i hi
        rw [length_map] at hi
        rw [length_append, length_singleton] at hlength
        exact hnone i (by omega)
      rw [map_append, fillFrom_append (by simpa using hfront), Nat.zero_add]
      exact filled_replaceAll hfront

end ModuleBridge
