import Mathlib
import ModuleBridge.Conversion
import ModuleBridge.Proofs.Grammar.Onward
import ModuleBridge.Proofs.Text.LineMap

/-!
# Places of faults

The reading of a module stays in its text, so the fault of a text that is no module lies there: its
place ends at the end of the text at the latest, both ends stand between two characters, and the
line and column of each count the lines and bytes before it.
-/

namespace ModuleBridge

namespace Scan

instance verbatimStatement_inText : StaysInText verbatimStatement := by
  unfold verbatimStatement
  infer_instance

instance topLevelStatement_inText : StaysInText topLevelStatement := by
  refine .after fun form => ?_
  split <;> infer_instance

instance statements_inText (fuel : Nat) : StaysInText (statements fuel) := by
  induction fuel with
  | zero => exact .failHere _ _
  | succ fuel ih =>
    unfold statements
    infer_instance

theorem wholeModule_inText : StaysInText wholeModule := by
  unfold wholeModule
  infer_instance

end Scan

theorem Fault.liesIn_of_parseModule {text : String} {fault : Fault}
    (h : parseModule text = .error fault) : fault.LiesIn text := by
  unfold parseModule at h
  split at h
  · cases h
  · rename_i hread
    cases h
    exact (Scan.wholeModule_inText.fails hread).lies text rfl (Cursor.isBoundary_ofText text)

/-- The place of a fault lies in the text between characters, the line map tells where, and it is
the only place that the diagnostics of the lossy conversion give. -/
theorem parseModule_fault_located {text : String} {fault : Fault}
    (h : parseModule text = .error fault) :
    fault.range.pos ≤ fault.range.stop ∧ fault.range.stop ≤ text.utf8ByteSize ∧
      String.Pos.Raw.IsValid text ⟨fault.range.pos⟩ ∧
      String.Pos.Raw.IsValid text ⟨fault.range.stop⟩ ∧
      (∀ pos ∈ [fault.range.pos, fault.range.stop],
        ((LineMap.ofText text).lineColumnOf pos).Denotes text pos) ∧
      ∀ options specifier path,
        (convertModule options text specifier path).diagnostics.map (·.span) =
          [some fault.range.toSpan, none] := by
  obtain ⟨hpos, hstop⟩ := Fault.liesIn_of_parseModule h
  refine ⟨Nat.le_add_right _ _, hstop.le_utf8ByteSize, hpos, hstop, fun pos hmem => ?_,
    fun options specifier path => ?_⟩
  · apply LineMap.lineColumnOf_denotes
    rcases List.mem_pair.mp hmem with rfl | rfl
    · exact hpos.le_utf8ByteSize
    · exact hstop.le_utf8ByteSize
  · have hspan : fault.range.toSpan = fault.span := by
      simp [Fault.range, Range.toSpan, Span.toRange]
    rw [convertModule, convertStrictly, h, hspan]
    rfl

/-- A string in the second line that a backslash at the end of the text breaks off. -/
theorem parseModule_fault_located_string :
    parseModule "import a from\n 'é\\" = .error ⟨.unterminatedString, [], ⟨15, 4⟩⟩ ∧
      19 ≤ "import a from\n 'é\\".utf8ByteSize ∧
      String.Pos.Raw.IsValid "import a from\n 'é\\" ⟨15⟩ ∧
      String.Pos.Raw.IsValid "import a from\n 'é\\" ⟨19⟩ ∧
      (LineColumn.mk 1 1).Denotes "import a from\n 'é\\" 15 ∧
      (LineColumn.mk 1 5).Denotes "import a from\n 'é\\" 19 := by
  have hread : parseModule "import a from\n 'é\\" =
      .error ⟨.unterminatedString, [], ⟨15, 4⟩⟩ := by cbv
  have hlines : (LineMap.ofText "import a from\n 'é\\").lineColumnOf 15 = ⟨1, 1⟩ ∧
      (LineMap.ofText "import a from\n 'é\\").lineColumnOf 19 = ⟨1, 5⟩ := by constructor <;> cbv
  obtain ⟨-, hle, hpos, hstop, hplaces, -⟩ := parseModule_fault_located hread
  rw [← hlines.1, ← hlines.2]
  exact ⟨hread, hle, hpos, hstop, hplaces 15 (by decide), hplaces 19 (by decide)⟩

end ModuleBridge
