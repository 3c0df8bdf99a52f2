import Mathlib
import ModuleBridge.Proofs.Grammar.Stretches
import ModuleBridge.Proofs.Source.CopyStretch

/-!
# Expressions over several lines

An expression goes on over a line break where one side asks for it. The marks below can go on with
an expression and begin no statement, so that a line that starts with one of them ought to belong to
the expression before it. All do but the colon, before which an expression ends as it does before a
word. Main statement: `expression_cut_before_mark`.
-/

namespace ModuleBridge

open Cursor Scan

variable {b : UInt8} {start : Cursor} {crosses : Bool}

/-- Marks that go on with an expression and begin no statement. -/
def continuationMarks : List Char :=
  ['.', '?', ':', ',', '=', '*', '%', '&', '|', '^', '<', '>']

/-- After a line break that follows the place `p`, the mark `b` is the next token; a comma apart,
which separates expressions wherever it stands. -/
structure MarkLine (p q : Cursor) (b : UInt8) : Prop where
  lineBreak : trivia p = .ok true q
  next : q.after.head? = some b
  mark : isAnyOf continuationMarks b = true
  separates : b ≠ byte ','

theorem continuationMark_cases : isAnyOf continuationMarks b = true →
    continuesExpression b = true ∨ b = byte ':' := by
  apply forall_byte _ b
  decide +kernel

theorem continuationMark_open : isAnyOf continuationMarks b = true → isTerminator b = false := by
  apply forall_byte _ b
  decide +kernel

theorem isPlain_colon : IsPlain (byte ':') := ⟨by decide, by decide, by decide⟩

/-! ## Where expressions end -/

theorem StretchRun.boundary_at_stop {c d q : Cursor} {n : Nat} {rest : List UInt8}
    (h : StretchRun .expression start c n d) (hspace : trivia d = .ok crosses q)
    (hq : q.after = b :: rest) : StretchKind.expression.boundary start d crosses b = .before := by
  induction h with
  | atEnd hspace' hend =>
    cases hspace.symm.trans hspace'
    rw [hq] at hend
    cases hend
  | before hspace' hq' hb =>
    cases hspace.symm.trans hspace'
    cases hq.symm.trans hq'
    exact hb
  | after _ _ hb => cases boundary_after_kind hb
  | block _ _ hkind => cases hkind
  | token _ _ _ _ _ _ ih => exact ih hspace

theorem boundary_before_open {last : Cursor}
    (h : StretchKind.expression.boundary start last crosses b = .before)
    (hopen : isTerminator b = false) (hcomma : b ≠ byte ',') :
    start.pos < last.pos ∧ last.last?.any expectsContinuation = false ∧
      continuesExpression b = false := by
  rw [isTerminator, Bool.or_eq_false_iff] at hopen
  have hcomma : (b == byte ',') = false := beq_eq_false_iff_ne.mpr hcomma
  unfold StretchKind.boundary at h
  rw [hopen.1, hopen.2, hcomma] at h
  split at h
  · rename_i hline
    rw [Bool.and_eq_true, Bool.and_eq_true, decide_eq_true_eq, endsAtLineBreak, Bool.and_eq_true,
      Bool.not_eq_true', Bool.not_eq_true'] at hline
    exact ⟨hline.1.2, hline.2⟩
  · cases h

namespace MarkLine

variable {c d p q : Cursor} {b : UInt8}

theorem exists_after (hline : MarkLine p q b) : ∃ rest, q.after = b :: rest :=
  List.head?_eq_some_iff.mp hline.next

theorem eq_colon (hline : MarkLine p q b) (hrun : StretchRun .expression c c 0 p) :
    b = byte ':' ∧ p ≠ c ∧ p.last?.any expectsContinuation = false := by
  obtain ⟨rest, hq⟩ := hline.exists_after
  have hbefore := hrun.boundary_at_stop hline.lineBreak hq
  have hopen := continuationMark_open hline.mark
  obtain ⟨hpos, hlast, hgoes⟩ := boundary_before_open hbefore hopen hline.separates
  refine ⟨?_, ?_, hlast⟩
  · refine (continuationMark_cases hline.mark).resolve_left fun hcontinues => ?_
    rw [hgoes] at hcontinues
    cases hcontinues
  · rintro rfl
    exact Nat.lt_irrefl _ hpos

/-- Before a colon at the start of a line an expression that has come so far ends, unless the code
before the line break asks for a continuation. -/
theorem stop_eq (hline : MarkLine p q (byte ':')) (hrun : StretchRun .expression c c 0 d)
    (hwalk : CodeWalk c 0 p 0) (hle : p.pos ≤ d.pos) (hpc : p ≠ c)
    (hlast : p.last?.any expectsContinuation = false) : d = p := by
  obtain ⟨rest, hq⟩ := hline.exists_after
  have hbefore : StretchKind.expression.boundary c p true (byte ':') = .before := by
    rw [boundary_after_lineBreak isPlain_colon]
    refine if_pos ⟨?_, hlast⟩
    exact Nat.lt_of_not_le fun hpos => hpc (hwalk.eq_of_pos_le hpos).1
  rcases StretchRun.visits hwalk hrun hle with hgoes | ⟨rfl, _⟩
  · cases hgoes with
    | atEnd | before => rfl
    | after _ _ hb => cases boundary_after_kind hb
    | token hspace hq' hb =>
      cases hline.lineBreak.symm.trans hspace
      cases hq.symm.trans hq'
      cases hbefore.symm.trans (hb rfl)
  · rfl

theorem stop_eq_iff (hline : MarkLine p q b) (hrun : StretchRun .expression c c 0 d)
    (hwalk : CodeWalk c 0 p 0) (hle : p.pos ≤ d.pos) :
    d = p ↔ b = byte ':' ∧ p ≠ c ∧ p.last?.any expectsContinuation = false := by
  constructor
  · rintro rfl
    exact hline.eq_colon hrun
  · rintro ⟨rfl, hpc, hlast⟩
    exact hline.stop_eq hrun hwalk hle hpc hlast

theorem ne_start (hline : MarkLine p q b) (hclear : triviaReach c.after = .clear 0 false) :
    p ≠ c := by
  rintro rfl
  cases (trivia_of_clear hclear).symm.trans hline.lineBreak

end MarkLine

/-! ## Values -/

/-- An expression never ends before a line that starts with a mark, except that it always ends
before a colon: whenever it comes there and the code before the line break does not ask for a
continuation. So do the initial values and the default-exported expressions of a module. -/
theorem expression_cut_before_mark {p q : Cursor} {b : UInt8} (hline : MarkLine p q b) :
    (∀ {c : Cursor} {r : Range}, expression c = .ok r p →
      b = byte ':' ∧ p ≠ c ∧ p.last?.any expectsContinuation = false) ∧
    (∀ {c d : Cursor} {r : Range}, expression c = .ok r d → CodeWalk c 0 p 0 → p.pos ≤ d.pos →
      (d = p ↔ b = byte ':' ∧ p ≠ c ∧ p.last?.any expectsContinuation = false)) ∧
    ∀ {text : String} {m : Module}, parseModule text = .ok m → ∀ s ∈ m.body,
      s.stretchKind = .expression → ∀ r ∈ s.stretches,
        (p = (ofText text).moveTo r.stop →
          b = byte ':' ∧ p.last?.any expectsContinuation = false) ∧
        (CodeWalk ((ofText text).moveTo r.pos) 0 p 0 → p.pos ≤ r.stop →
          (r.stop = p.pos ↔ b = byte ':' ∧ p.last?.any expectsContinuation = false)) := by
  refine ⟨?_, ?_, ?_⟩
  · intro c r h
    obtain ⟨hrun, _⟩ := run_of_stretchFrom h
    exact hline.eq_colon hrun
  · intro c d r h hwalk hle
    obtain ⟨hrun, _⟩ := run_of_stretchFrom h
    exact hline.stop_eq_iff hrun hwalk hle
  · intro text m hread s hs hkind r hr
    have hstretch := parseModule_stretchesOf hread s hs r hr
    rw [hkind] at hstretch
    obtain ⟨c, d, hbytes, rfl, hrun, hclear⟩ := hstretch
    have hd : d.bytes = bytesOf text := hrun.onward.bytes_eq.trans hbytes
    rw [pos_rangeTo, stop_rangeTo, moveTo_pos hbytes, moveTo_pos hd]
    constructor
    · rintro rfl
      obtain ⟨hcolon, _, hlast⟩ := hline.eq_colon hrun
      exact ⟨hcolon, hlast⟩
    · intro hwalk hle
      have hsame : d.pos = p.pos ↔ d = p :=
        ⟨hrun.onward.eq_of_pos_eq hwalk.onward, congrArg pos⟩
      rw [hsame, hline.stop_eq_iff hrun hwalk hle]
      exact and_congr_right fun _ => and_iff_right (hline.ne_start hclear)

def conditionalLines : String := "export default a\n? b\n: c"

theorem conditionalLines_colon :
    MarkLine ((ofText conditionalLines).moveTo 20)
      ((ofText conditionalLines).moveTo 21) (byte ':') :=
  ⟨by cbv, by decide, by decide, by decide⟩

theorem conditionalLines_walk :
    CodeWalk ((ofText conditionalLines).moveTo 15) 0
      ((ofText conditionalLines).moveTo 20) 0 := by
  have htest : token 0 ((ofText conditionalLines).moveTo 15) =
      .ok 0 ((ofText conditionalLines).moveTo 16) := by cbv
  have hmark : token 0 ((ofText conditionalLines).moveTo 17) =
      .ok 0 ((ofText conditionalLines).moveTo 18) := by cbv
  have hbranch : token 0 ((ofText conditionalLines).moveTo 19) =
      .ok 0 ((ofText conditionalLines).moveTo 20) := by cbv
  exact .step (by cbv) (by decide) htest (.step (by cbv) (by decide) hmark
    (.step (by cbv) (by decide) hbranch .refl))

/-- The conditional is cut before its colon, and the last branch is a statement of its own. -/
theorem conditional_cut_before_colon :
    ∃ m s t c p q, parseModule conditionalLines = .ok m ∧ m.body = [s, t] ∧
      s.stretchKind = .expression ∧ s.stretches = [⟨15, 20⟩] ∧ t.stretches = [⟨21, 24⟩] ∧
      expression c = .ok ⟨15, 20⟩ p ∧ MarkLine p q (byte ':') ∧ CodeWalk c 0 p 0 ∧ p ≠ c ∧
      p.last?.any expectsContinuation = false := by
  obtain ⟨m, s, t, hread, hbody, hkind, hs, ht⟩ : ∃ m s t, parseModule conditionalLines = .ok m ∧
      m.body = [s, t] ∧ s.stretchKind = .expression ∧ s.stretches = [⟨15, 20⟩] ∧
      t.stretches = [⟨21, 24⟩] := by
    refine ⟨_, _, _, by cbv, rfl, rfl, rfl, rfl⟩
  have hvalue : expression ((ofText conditionalLines).moveTo 15) =
      .ok ⟨15, 20⟩ ((ofText conditionalLines).moveTo 20) := by cbv
  have hwalk := conditionalLines_walk
  have hline := conditionalLines_colon
  obtain ⟨_, hne, _⟩ := ((expression_cut_before_mark hline).2.1 hvalue hwalk (by decide)).mp rfl
  have hcut := (expression_cut_before_mark hline).2.2 hread s (by simp [hbody]) hkind ⟨15, 20⟩
    (by simp [hs])
  obtain ⟨_, hlast⟩ := (hcut.2 hwalk (by decide)).mp (by decide)
  exact ⟨m, s, t, _, _, _, hread, hbody, hkind, hs, ht, hvalue, hline, hwalk, hne, hlast⟩

end ModuleBridge
