import Mathlib
import ModuleBridge.Project.Batch

/-!
# The report of a batch

A report holds the diagnostics of all results, ordered by their places, and those at one place in
the order in which they came. This settles the report, so it does not depend on the order of results
that have no place in common.
-/

namespace ModuleBridge

open Diagnostic List

variable {a b : Diagnostic} {ds es : List Diagnostic}

namespace Diagnostic

/-- What a report is ordered by: the file, where none comes before all, and the start of the span,
or zero. -/
def place (d : Diagnostic) : WithBot String ×ₗ Nat :=
  toLex (d.file, d.startOf)

theorem fileLe_iff (f g : Option String) :
    fileLe f g = true ↔ @LE.le (WithBot String) _ f g := by
  cases f with
  | none => exact iff_of_true rfl bot_le
  | some f =>
    cases g with
    | none => exact iff_of_false Bool.false_ne_true (WithBot.not_coe_le_bot f)
    | some g =>
      rw [fileLe, Bool.not_eq_true', decide_eq_false_iff_not, not_lt]
      exact WithBot.coe_le_coe.symm

theorem le_iff : a.le b = true ↔ a.place ≤ b.place := by
  rw [place, place, Prod.Lex.toLex_le_toLex, le]
  split
  · rename_i hfile
    rw [decide_eq_true_iff, hfile]
    exact ⟨fun h => .inr ⟨rfl, h⟩, fun h => h.elim (absurd · (lt_irrefl _)) And.right⟩
  · rename_i hfile
    rw [fileLe_iff]
    exact ⟨fun h => .inl (lt_of_le_of_ne h hfile), fun h => h.elim le_of_lt (absurd ·.1 hfile)⟩

theorem le_trans' (a b c : Diagnostic) (hab : a.le b = true) (hbc : b.le c = true) :
    a.le c = true :=
  le_iff.mpr ((le_iff.mp hab).trans (le_iff.mp hbc))

theorem le_total' (a b : Diagnostic) : (a.le b || b.le a) = true := by
  rw [Bool.or_eq_true, le_iff, le_iff]
  exact le_total _ _

end Diagnostic

/-- Diagnostics in the order of their places. -/
def ReportOrder (ds : List Diagnostic) : Prop :=
  ds.Pairwise fun a b => a.place ≤ b.place

theorem sortDiagnostics_reportOrder (ds : List Diagnostic) : ReportOrder (sortDiagnostics ds) :=
  (pairwise_mergeSort Diagnostic.le_trans' le_total' ds).imp le_iff.mp

/-- Sorting keeps the order of the diagnostics at one place. -/
theorem filter_sortDiagnostics (ds : List Diagnostic) (p : WithBot String ×ₗ Nat) :
    (sortDiagnostics ds).filter (·.place = p) = ds.filter (·.place = p) := by
  have hall : ∀ d ∈ ds.filter (·.place = p), d.place = p := by simp
  have hsorted : (ds.filter (·.place = p)).Pairwise (le · ·) :=
    pairwise_of_forall_mem_list fun a ha b hb =>
      le_iff.mpr (by rw [hall a ha, hall b hb])
  have hsublist := (sublist_mergeSort Diagnostic.le_trans' le_total' hsorted
    filter_sublist).filter (·.place = p)
  simp only [filter_filter, Bool.and_self] at hsublist
  refine (hsublist.eq_of_length ?_).symm
  exact ((mergeSort_perm ds le).filter _).length_eq.symm

/-- Diagnostics in order are settled by those at each place. -/
theorem ReportOrder.eq_of_filter (hds : ReportOrder ds) (hes : ReportOrder es)
    (h : ∀ p, ds.filter (·.place = p) = es.filter (·.place = p)) : ds = es := by
  have hmem : ∀ d, d ∈ ds ↔ d ∈ es := fun d => by
    simpa using congrArg (d ∈ ·) (h d.place)
  induction ds generalizing es with
  | nil => exact (eq_nil_iff_forall_not_mem.mpr fun d hd => not_mem_nil ((hmem d).mpr hd)).symm
  | cons a ds ih =>
    cases es with
    | nil => exact absurd ((hmem a).mp mem_cons_self) not_mem_nil
    | cons b es =>
      obtain ⟨ha, hds'⟩ := pairwise_cons.mp hds
      obtain ⟨hb, hes'⟩ := pairwise_cons.mp hes
      have hab : a.place = b.place := by
        apply le_antisymm
        · rcases mem_cons.mp ((hmem b).mpr mem_cons_self) with rfl | hmem
          · exact le_rfl
          · exact ha b hmem
        · rcases mem_cons.mp ((hmem a).mp mem_cons_self) with rfl | hmem
          · exact le_rfl
          · exact hb a hmem
      have hhead := h b.place
      simp only [filter_cons, hab, decide_true, if_true, cons.injEq] at hhead
      obtain ⟨rfl, _⟩ := hhead
      have hrest : ∀ p, ds.filter (·.place = p) = es.filter (·.place = p) := fun p => by
        have hp := h p
        simp only [filter_cons] at hp
        split at hp
        · exact (cons.inj hp).2
        · exact hp
      rw [ih hds' hes' hrest fun d => by simpa using congrArg (d ∈ ·) (hrest d.place)]

/-- No diagnostic of one result is at the place of one of the other. -/
def BatchResult.Apart (r s : BatchResult) : Prop :=
  ∀ d ∈ r.output.diagnostics, ∀ e ∈ s.output.diagnostics, d.place ≠ e.place

theorem BatchResult.Apart.symm {r s : BatchResult} (h : r.Apart s) : s.Apart r :=
  fun d hd e he heq => h e he d hd heq.symm

theorem filter_diagnostics_perm {results others : List BatchResult} (hperm : results.Perm others)
    (hapart : results.Pairwise BatchResult.Apart) (p : WithBot String ×ₗ Nat) :
    (results.flatMap fun r => r.output.diagnostics).filter (·.place = p) =
      (others.flatMap fun r => r.output.diagnostics).filter (·.place = p) := by
  induction hperm with
  | nil => rfl
  | cons r _ ih => rw [flatMap_cons, flatMap_cons, filter_append, filter_append, ih hapart.of_cons]
  | swap r s rest =>
    have hnone : s.output.diagnostics.filter (·.place = p) = [] ∨
        r.output.diagnostics.filter (·.place = p) = [] := by
      by_contra! hboth
      obtain ⟨d, hd⟩ := exists_mem_of_ne_nil _ hboth.1
      obtain ⟨e, he⟩ := exists_mem_of_ne_nil _ hboth.2
      simp only [mem_filter, decide_eq_true_eq] at hd he
      exact rel_of_pairwise_cons hapart mem_cons_self d hd.1 e he.1 (hd.2.trans he.2.symm)
    simp only [flatMap_cons, filter_append, ← append_assoc]
    rcases hnone with hnone | hnone <;> simp [hnone]
  | trans hfirst _ ih₁ ih₂ =>
    rw [ih₁ hapart, ih₂ ((hfirst.pairwise_iff BatchResult.Apart.symm).mp hapart)]

end ModuleBridge
