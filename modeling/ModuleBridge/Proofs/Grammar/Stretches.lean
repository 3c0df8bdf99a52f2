import Mathlib
import ModuleBridge.Proofs.Grammar.Statements
import ModuleBridge.Proofs.Source.Walk

/-!
# Code that is not taken apart

The stretches that a module keeps as they are: its verbatim statements, the initial values of its
variables and its default-exported expressions. None of them starts with trivia, and a word `export`
that follows a line break outside all brackets is part of one exactly when the code before the line
break ends in a byte that asks for a continuation. Main statement:
`stretch_takes_export_iff`.
-/

namespace ModuleBridge

open Cursor List

variable {c d : Cursor} {s : Statement} {text : String} {m : Module}

def valueRanges (all : List Declarator) : List Range :=
  all.filterMap (·.value.map Expression.range)

theorem valueRanges_cons (first : Declarator) (rest : List Declarator) :
    valueRanges (first :: rest) = valueRanges [first] ++ valueRanges rest :=
  filterMap_append (l := [first])

def Declaration.stretches : Declaration → List Range
  | .variable d => valueRanges d.declarators
  | .function _ => []
  | .classOf _ => []

def Statement.stretches : Statement → List Range
  | .verbatim _ range => [range]
  | .declaration d => d.stretches
  | .exportDeclaration d _ => d.stretches
  | .exportDefault (.expression value) _ => [value.range]
  | _ => []

/-- How the stretches of a statement were passed. -/
def Statement.stretchKind : Statement → StretchKind
  | .verbatim _ _ => .statement
  | _ => .expression

/-- A range that was passed as a stretch of one kind, from a place without trivia. -/
def IsStretchOf (kind : StretchKind) (text : String) (r : Range) : Prop :=
  ∃ c d, c.bytes = bytesOf text ∧ r = c.rangeTo d ∧ StretchRun kind c c 0 d ∧
    triviaReach c.after = .clear 0 false

/-- A range that was passed as a stretch, from a place without trivia. -/
def IsStretch (text : String) (r : Range) : Prop :=
  ∃ kind c d, c.bytes = bytesOf text ∧ r = c.rangeTo d ∧ StretchRun kind c c 0 d ∧
    triviaReach c.after = .clear 0 false

namespace Scan

open Cursor

variable {text : String}

theorem coversTo_name {stop : Nat} {n : Name} (h : coversTo name c stop = some n) :
    n.range = ⟨c.pos, stop⟩ := by
  unfold coversTo name at h
  split at h
  · rename_i a d hname
    split at h
    · rename_i hstop
      cases h
      split at hname
      · cases hname
        rw [← hstop]
        rfl
      · cases hname
    · cases h
  · cases h

theorem classifyExpression_range (c : Cursor) (stop : Nat) :
    (classifyExpression c stop).range = ⟨c.pos, stop⟩ := by
  unfold classifyExpression
  dsimp only
  split
  · rfl
  · split
    · split <;> rfl
    · split
      · split <;> rfl
      · split
        · split
          · rename_i hname
            exact coversTo_name hname
          · rfl
        · rfl

theorem value_isStretch {e : Expression} (hbytes : c.bytes = bytesOf text)
    (hclear : triviaReach c.after = .clear 0 false) (h : value c = .ok e d) :
    IsStretchOf .expression text e.range := by
  obtain ⟨r, hexpression, _, rfl⟩ := classified_eq_ok.mp h
  obtain ⟨hrun, rfl⟩ := run_of_stretchFrom hexpression
  exact ⟨c, d, hbytes, classifyExpression_range _ _, hrun, hclear⟩

variable {kind : StretchKind}

/-- Every range of `ranges` was passed as a stretch. -/
def AreStretches (kind : StretchKind) (text : String) (ranges : List Range) : Prop :=
  ∀ r ∈ ranges, IsStretchOf kind text r

theorem AreStretches.nil : AreStretches kind text [] := by
  intro r hr
  cases hr

theorem AreStretches.append {front back : List Range} (hfront : AreStretches kind text front)
    (hback : AreStretches kind text back) : AreStretches kind text (front ++ back) := by
  intro r hr
  rcases mem_append.mp hr with hr | hr
  · exact hfront r hr
  · exact hback r hr

theorem declarator_stretches {x : Declarator} (hbytes : c.bytes = bytesOf text)
    (h : declarator c = .ok x d) : AreStretches .expression text (valueRanges [x]) := by
  obtain ⟨target, e, v, htarget, hvalue, rfl⟩ := declarator_eq_ok.mp h
  cases v with
  | none => exact .nil
  | some v =>
    obtain ⟨q, f, hspace, hread, -⟩ := afterSpace_eq_ok.mp hvalue
    obtain ⟨y, z, hy, hz, hread⟩ := initialValue_run hread
    have honward := (((bindingTarget_inText c).onward htarget).trans (space_onward hspace)).trans
      (hy.trans (space_onward hz))
    intro r hr
    rw [mem_singleton.mp hr]
    exact value_isStretch (honward.bytes_eq.trans hbytes) (clear_of_space hz) hread

theorem declarators_stretches {fuel : Nat} {c d : Cursor} {all : List Declarator}
    (hbytes : c.bytes = bytesOf text) (h : declarators fuel c = .ok all d) :
    AreStretches .expression text (valueRanges all) := by
  induction fuel generalizing c all with
  | zero => exact absurd h failHere_ne_ok
  | succ fuel ih =>
    obtain ⟨y, first, z, hspace, hfirst, hrest⟩ := declarators_cases h
    have hy := (space_onward hspace).bytes_eq.trans hbytes
    have hvalues := declarator_stretches hy hfirst
    rcases hrest with ⟨-, rfl, -⟩ | ⟨w, rest, hcomma, hmore, rfl⟩
    · exact hvalues
    · have honward := (declarator_inText.onward hfirst).trans
        (afterSpace_onward (mark_inText _).onward hcomma)
      rw [valueRanges_cons]
      exact hvalues.append (ih (honward.bytes_eq.trans hy) hmore)

theorem variableDeclaration_stretches {kind : VariableKind} (hbytes : c.bytes = bytesOf text) :
    RunsTo c (fun a _ => AreStretches .expression text (valueRanges a.declarators))
      (variableDeclaration kind) :=
  .get <| .bind fun _ _ hword => .get <| .bind fun _ _ hall => .bind fun _ _ _ => .peek <|
    .pure (declarators_stretches ((expectWord_onward _ hword).bytes_eq.trans hbytes) hall)

/-! ## Statements -/

/-- What a statement keeps as stretches was passed as such. -/
def KeepsStretches (text : String) (s : Statement) : Prop :=
  AreStretches s.stretchKind text s.stretches

theorem DefaultRun.stretches {v : DefaultExport} {r : Range} (h : DefaultRun c v d)
    (hbytes : c.bytes = bytesOf text) (hclear : triviaReach c.after = .clear 0 false) :
    KeepsStretches text (.exportDefault v r) := by
  cases h with
  | function => exact .nil
  | classOf => exact .nil
  | expression hread =>
    intro s hs
    rw [mem_singleton.mp hs]
    exact value_isStretch hbytes hclear hread

theorem DeclarationRun.stretches {a : Declaration} (h : DeclarationRun c a d)
    (hbytes : c.bytes = bytesOf text) : AreStretches .expression text a.stretches := by
  cases h with
  | «variable» hread => exact variableDeclaration_stretches hbytes hread
  | function => exact .nil
  | classOf => exact .nil

theorem ExportRun.stretches (h : ExportRun c s d) (hbytes : c.bytes = bytesOf text) :
    KeepsStretches text s := by
  cases h with
  | default hx hspace hread =>
    have hy := (hx.trans (space_onward hspace)).bytes_eq.trans hbytes
    exact hread.stretches hy (clear_of_space hspace)
  | all => exact .nil
  | «namespace» => exact .nil
  | list => exact .nil
  | declaration hq hread => exact hread.stretches (hq.bytes_eq.trans hbytes)

theorem topLevelStatement_stretches (hbytes : c.bytes = bytesOf text)
    (hclear : triviaReach c.after = .clear 0 false) (h : topLevelStatement c = .ok s d) :
    KeepsStretches text s := by
  cases topLevelStatement_run h with
  | importing hread =>
    obtain ⟨_, _, rfl⟩ := importStatement_run hread
    exact .nil
  | exporting hread => exact (exportStatement_run hread).stretches hbytes
  | declaration hread => exact hread.stretches hbytes
  | verbatim hread =>
    obtain ⟨hrun, rfl⟩ := run_of_stretchFrom hread
    intro r hr
    rw [mem_singleton.mp hr]
    exact ⟨c, d, hbytes, rfl, hrun, hclear⟩

end Scan

/-! ## Exports after line breaks -/

open Scan

/-- A word `export` at `q`, the first token after a line break that follows the place `p` outside
all brackets of the code from `c` on. -/
structure ExportLine (c p q : Cursor) : Prop where
  walk : CodeWalk c 0 p 0
  lineBreak : trivia p = .ok true q
  word : q.startsWithWord "export" = true

theorem ExportLine.taken_iff {kind : StretchKind} {p q : Cursor} (h : ExportLine c p q)
    (hrun : StretchRun kind c c 0 d) (hle : p.pos ≤ d.pos) :
    q.pos < d.pos ↔ p = c ∨ p.last?.any expectsContinuation = true := by
  obtain ⟨rest, hq⟩ := exists_cons_of_startsWithWord (b := byte 'e') rfl h.word
  exact hrun.lineBreak_iff h.walk hle h.lineBreak hq ⟨by decide, by decide, by decide⟩

theorem parseModule_stretchesOf (h : parseModule text = .ok m) :
    ∀ s ∈ m.body, ∀ r ∈ s.stretches, IsStretchOf s.stretchKind text r := by
  obtain ⟨e, hrun⟩ := parseModule_eq_ok.mp h
  intro s hs
  obtain ⟨q, d, hq, hclear, hread⟩ := hrun.exists_read hs
  exact topLevelStatement_stretches (hq.bytes_eq.trans (bytes_advance _ _)) hclear hread

theorem parseModule_stretches (h : parseModule text = .ok m) :
    ∀ s ∈ m.body, ∀ r ∈ s.stretches, IsStretch text r := by
  intro s hs r hr
  exact ⟨_, parseModule_stretchesOf h s hs r hr⟩

/-- A stretch takes an export line along exactly when nothing comes before the line break, or a byte
that asks for a continuation. The stretches of a module start without trivia, so that only the byte
decides for them. -/
theorem stretch_takes_export_iff {c p q : Cursor} (hline : ExportLine c p q) :
    (∀ {r : Range} {d : Cursor}, statement c = .ok r d ∨ expression c = .ok r d → p.pos ≤ r.stop →
      (q.pos < r.stop ↔ p = c ∨ p.last?.any expectsContinuation = true)) ∧
    ∀ {text : String} {m : Module}, parseModule text = .ok m → ∀ s ∈ m.body, ∀ r ∈ s.stretches,
      c = (ofText text).moveTo r.pos → p.pos ≤ r.stop →
        (q.pos < r.stop ↔ p.last?.any expectsContinuation = true) := by
  constructor
  · intro r d hstretch hle
    rcases hstretch with h | h
    · obtain ⟨hrun, rfl⟩ := run_of_stretchFrom h
      exact hline.taken_iff hrun hle
    · obtain ⟨hrun, rfl⟩ := run_of_stretchFrom h
      exact hline.taken_iff hrun hle
  · intro text m hread s hs r hr hc hle
    obtain ⟨kind, start, d, hbytes, rfl, hrun, hclear⟩ := parseModule_stretches hread s hs r hr
    rw [pos_rangeTo, moveTo_pos hbytes] at hc
    subst hc
    rw [stop_rangeTo, hline.taken_iff hrun hle]
    refine or_iff_right ?_
    rintro rfl
    -- Where no trivia stands, none can break a line.
    have hspace : trivia p = .ok false p := trivia_eq_ok.mpr ⟨0, hclear, by simp⟩
    cases hspace.symm.trans hline.lineBreak

theorem exportLine_after_postfix :
    ExportLine (.ofText "a++\nexport \x7b\x7d") ((ofText "a++\nexport \x7b\x7d").advance 3)
      ((ofText "a++\nexport \x7b\x7d").advance 4) := by
  refine ⟨?_, by cbv, by decide⟩
  have hstep : ∀ n < 3, ∀ d k,
      CodeWalk ((ofText "a++\nexport \x7b\x7d").advance (n + 1)) 0 d k →
        CodeWalk ((ofText "a++\nexport \x7b\x7d").advance n) 0 d k := by
    intro n hn d k hrest
    obtain rfl | rfl | rfl : n = 0 ∨ n = 1 ∨ n = 2 := by omega
    all_goals exact .step (by cbv) (by decide) (by cbv) hrest
  exact hstep 0 (by decide) _ _ (hstep 1 (by decide) _ _ (hstep 2 (by decide) _ _ .refl))

/-- After `a++` the export of the next line is taken along, and read as part of the statement. -/
theorem postfix_takes_export :
    ∃ d p q m s, statement (.ofText "a++\nexport \x7b\x7d") = .ok ⟨0, 13⟩ d ∧
      ExportLine (.ofText "a++\nexport \x7b\x7d") p q ∧ q.pos = 4 ∧ q.pos < (⟨0, 13⟩ : Range).stop ∧
      parseModule "a++\nexport \x7b\x7d" = .ok m ∧ m.body = [s] ∧ s.stretches = [⟨0, 13⟩] ∧
      (q.pos < (⟨0, 13⟩ : Range).stop ↔ p.last?.any expectsContinuation = true) := by
  have hstatement : statement (.ofText "a++\nexport \x7b\x7d") =
      .ok ⟨0, 13⟩ ((ofText "a++\nexport \x7b\x7d").advance 13) := by cbv
  obtain ⟨m, s, hread, hbody, hs⟩ : ∃ m s, parseModule "a++\nexport \x7b\x7d" = .ok m ∧
      m.body = [s] ∧ s.stretches = [⟨0, 13⟩] := by
    refine ⟨_, _, by cbv, rfl, rfl⟩
  have hline := exportLine_after_postfix
  refine ⟨_, _, _, m, s, hstatement, hline, by decide, ?_, hread, hbody, hs, ?_⟩
  · have hiff := (stretch_takes_export_iff hline).1 (.inl hstatement) (by decide)
    exact hiff.mpr (.inr (by decide))
  · exact (stretch_takes_export_iff hline).2 hread s (by simp [hbody]) ⟨0, 13⟩ (by simp [hs])
      (by decide) (by decide)

end ModuleBridge
