import Mathlib
import ModuleBridge.Text.Split

/-!
# Parts of split lists

Cutting a list is the library's `List.splitOnP`, whose lemmas carry over. What has no cut stays
within one part, in front of a cut or at the end.
-/

namespace ModuleBridge

open List

variable {α : Type} {isCut : α → Bool} {part : List α}

theorem splitAtAll_eq_splitOnP (isCut : α → Bool) (l : List α) :
    splitAtAll isCut l = l.splitOnP isCut := by
  induction l with
  | nil => rfl
  | cons a rest ih =>
    rw [splitAtAll, splitOnP_cons_eq_if_modifyHead, ih]
    cases h : rest.splitOnP isCut with
    | nil => exact absurd h (splitOnP_ne_nil _ _)
    | cons first parts => rfl

theorem splitAtAll_cut {cut : α} (hcut : isCut cut = true) (front rest : List α) :
    splitAtAll isCut (front ++ cut :: rest) = splitAtAll isCut front ++ splitAtAll isCut rest := by
  simp only [splitAtAll_eq_splitOnP]
  exact splitOnP_append_cons front rest hcut

theorem splitAtAll_last (h : ∀ a ∈ part, isCut a = false) : splitAtAll isCut part = [part] := by
  rw [splitAtAll_eq_splitOnP]
  exact splitOnP_eq_singleton h

theorem splitAtAll_part (h : ∀ a ∈ part, isCut a = false) {cut : α} (hcut : isCut cut = true)
    (rest : List α) :
    splitAtAll isCut (part ++ cut :: rest) = part :: splitAtAll isCut rest := by
  rw [splitAtAll_cut hcut, splitAtAll_last h, singleton_append]

/-- What has no cut only makes the first part longer. -/
theorem exists_splitAtAll_front (isCut : α → Bool) (back : List α) :
    ∃ first others, splitAtAll isCut back = first :: others ∧
      ∀ front, (∀ a ∈ front, isCut a = false) →
        splitAtAll isCut (front ++ back) = (front ++ first) :: others := by
  cases hback : splitAtAll isCut back with
  | nil =>
    rw [splitAtAll_eq_splitOnP] at hback
    exact absurd hback (splitOnP_ne_nil _ _)
  | cons first others =>
    refine ⟨first, others, rfl, fun front hfront => ?_⟩
    induction front with
    | nil => exact hback
    | cons a front ih =>
      obtain ⟨ha, hrest⟩ := forall_mem_cons.mp hfront
      rw [cons_append, splitAtAll, ha, ih hrest]
      rfl

/-- What has no cut only makes the last part longer. -/
theorem exists_splitAtAll_append (isCut : α → Bool) (front : List α) :
    ∃ inner last, ∀ back, (∀ a ∈ back, isCut a = false) →
      splitAtAll isCut (front ++ back) = inner ++ [last ++ back] := by
  induction front with
  | nil => exact ⟨[], [], fun back hback => splitAtAll_last hback⟩
  | cons a front ih =>
    obtain ⟨inner, last, ih⟩ := ih
    cases ha : isCut a with
    | true =>
      refine ⟨[] :: inner, last, fun back hback => ?_⟩
      simp [splitAtAll, ha, ih back hback]
    | false =>
      cases inner with
      | nil =>
        refine ⟨[], a :: last, fun back hback => ?_⟩
        simp [splitAtAll, ha, ih back hback]
      | cons first inner =>
        refine ⟨(a :: first) :: inner, last, fun back hback => ?_⟩
        simp [splitAtAll, ha, ih back hback]

theorem isCut_of_mem_splitAtAll {l : List α} (hpart : part ∈ splitAtAll isCut l) {a : α}
    (ha : a ∈ part) : isCut a = false := by
  fun_induction splitAtAll isCut l generalizing part with
  | case1 => simp_all
  | case2 b rest hb ih =>
    rcases mem_cons.mp hpart with rfl | hpart
    · cases ha
    · exact ih hpart ha
  | case3 b rest hb hnone ih =>
    rw [splitAtAll_eq_splitOnP] at hnone
    exact absurd hnone (splitOnP_ne_nil _ _)
  | case4 b rest hb first parts hrest ih =>
    rw [hrest] at ih
    rcases mem_cons.mp hpart with rfl | hpart
    · rcases mem_cons.mp ha with rfl | ha
      · exact Bool.eq_false_iff.mpr hb
      · exact ih mem_cons_self ha
    · exact ih (mem_cons_of_mem _ hpart) ha

end ModuleBridge
