import ModuleBridge.Proofs.Grammar.Statements
import ModuleBridge.Proofs.Source.Seam

/-!
# Statements end at seams

Whatever is read as a statement ends at a seam: with a name that is read as far as it goes, with a
quote, a closing bracket or a semicolon, or where a stretch of code ends. So the next statement
starts at a seam too, and no word of it could have been read with the statement before.
-/

namespace ModuleBridge

namespace Scan

variable {α : Type}

/-! ## Patterns and declarations -/

theorem patternRest_seals {more : Scan (List Name)} {closer : String} (hmore : Seals more)
    (hcloser : EndsLoose closer) (names : List Name) : Seals (patternRest more closer names) :=
  .rest fun _ => .rest fun _ => .ite (.first hmore) (.first (.expect hcloser))

theorem patterns_seal (fuel : Nat) :
    Seals (bindingNames fuel) ∧ Seals (objectNames fuel) ∧ Seals (arrayNames fuel) := by
  refine patterns_induction ⟨.failHere _ _, .failHere _ _, .failHere _ _⟩
    (fun object array hobject harray => ?_) (fun binding object _ hobject => ?_)
    (fun binding array _ harray => ?_) fuel
  · exact .rest fun _ => .ite hobject <| .rest fun _ => .ite harray <| .first name_seals
  · have hbrace : EndsLoose "\x7d" := by decide
    have hrest := patternRest_seals hobject hbrace
    refine .rest fun _ => .accept hbrace (.pure _) <| .rest fun _ =>
      .ite (.rest fun _ => .rest hrest) <| .rest fun key => .rest fun _ => .rest fun _ =>
        .ite (.rest fun _ => .rest fun _ => .rest fun _ => hrest _) ?_
    cases key with
    | some n => exact .rest fun _ => hrest _
    | none => exact .failHere _ _
  · have hbracket : EndsLoose "]" := by decide
    have hrest := patternRest_seals harray hbracket
    exact .rest fun _ => .accept hbracket (.pure _) <| .rest fun _ => .ite harray <| .rest fun _ =>
      .ite (.rest fun _ => .rest fun _ => .rest fun _ => hrest _)
        (.rest fun _ => .rest fun _ => hrest _)

instance rangeFrom_keepsSeam (start : Cursor) : KeepsSeam (rangeFrom start) :=
  .peek _

theorem bindingTarget_seals (start : Cursor) : Seals (bindingTarget start) :=
  .ite (.first (.rest fun _ => (patterns_seal _).1)) (.first name_seals)

theorem value_seals : Seals value := by
  intro c e d hrun
  obtain ⟨r, hstretch, _⟩ := classified_eq_ok.mp hrun
  exact expression_seals hstretch

theorem afterSpace_keepsSeam {op : Scan (Option α)}
    (h : ∀ c a d, op c = .ok (some a) d → d.IsSeam) : KeepsSeam (afterSpace op) := by
  refine ⟨fun c answer d hc hrun => ?_⟩
  obtain ⟨q, e, _, hop, rfl⟩ := afterSpace_eq_ok.mp hrun
  cases answer with
  | some a => exact h q a e hop
  | none => exact hc

theorem mark_keepsSeam {text : String} (hmark : EndsLoose text) :
    KeepsSeam (afterSpace (mark text)) := by
  refine afterSpace_keepsSeam fun c a d hrun => ?_
  rcases mark_cases hrun with ⟨_, hstarts, rfl⟩ | ⟨hnone, _⟩
  · exact hmark.isSeam hstarts
  · cases hnone

instance initialValue_keepsSeam : KeepsSeam (afterSpace initialValue) := by
  refine afterSpace_keepsSeam fun c a d hrun => ?_
  obtain ⟨assigned, _, _, hread⟩ := bind_eq_ok.mp hrun
  cases assigned with
  | true => exact (Seals.rest fun _ => .rest fun _ => .first value_seals) hread
  | false => cases hread

instance optionalSemicolon_keepsSeam : KeepsSeam optionalSemicolon := by
  have : KeepsSeam (afterSpace (mark ";")) := mark_keepsSeam (by decide)
  change KeepsSeam (do let _ ← afterSpace (mark ";"))
  infer_instance

theorem declarator_seals : Seals declarator := by
  rw [declarator_eq]
  exact .rest fun _ => .first (bindingTarget_seals _)

theorem declarators_seal (fuel : Nat) : Seals (declarators fuel) := by
  induction fuel with
  | zero => exact .failHere _ _
  | succ fuel ih =>
    intro c all e hrun
    obtain ⟨y, first, z, _, hfirst, hrest⟩ := declarators_cases hrun
    rcases hrest with ⟨_, _, rfl⟩ | ⟨w, rest, _, hmore, _⟩
    · exact declarator_seals hfirst
    · exact ih hmore

theorem variableDeclaration_seals (kind : VariableKind) : Seals (variableDeclaration kind) :=
  .rest fun _ => .rest fun _ => .rest fun _ => .first (declarators_seal _)

theorem braces_seals : Seals braces :=
  block_seals (by decide)

theorem functionDeclaration_seals (nameRequired : Bool) :
    Seals (functionDeclaration nameRequired) := by
  intro c a d hrun
  obtain ⟨-, -, q, body, hbody⟩ := functionDeclaration_run hrun
  exact braces_seals hbody

theorem classDeclaration_seals (nameRequired : Bool) : Seals (classDeclaration nameRequired) := by
  intro c a d hrun
  obtain ⟨-, -, q, body, hbody⟩ := classDeclaration_run hrun
  exact braces_seals hbody

/-! ## Imports and exports -/

theorem namePairs_seal (fuel : Nat) : Seals (namePairs fuel) := by
  have hbrace : EndsLoose "\x7d" := by decide
  induction fuel with
  | zero => exact .failHere _ _
  | succ fuel ih =>
    rw [namePairs_succ]
    exact .rest fun _ => .accept hbrace (.pure _) <| .rest fun _ => .rest fun _ => .rest fun _ =>
      .rest fun _ => .rest fun _ => .ite (.first ih) (.first (.expect hbrace))

theorem fromClause_seals : Seals fromClause :=
  .rest fun _ => .rest fun _ => quoted_seals

instance listSource_keepsSeam : KeepsSeam (afterSpace listSource) := by
  refine afterSpace_keepsSeam fun c a d hrun => ?_
  obtain ⟨atFrom, _, _, hread⟩ := bind_eq_ok.mp hrun
  cases atFrom with
  | true => exact (Seals.first fromClause_seals) hread
  | false => cases hread

theorem importStatement_seals : Seals importStatement := by
  rw [importStatement_eq]
  exact .rest fun _ => .rest fun _ => .rest fun _ => .rest fun _ => .ite (.first quoted_seals)
    (.rest fun _ => .rest fun _ => .first fromClause_seals)

theorem DefaultRun.isSeam {c d : Cursor} {v : DefaultExport} (h : DefaultRun c v d) : d.IsSeam := by
  cases h with
  | function hread => exact functionDeclaration_seals _ hread
  | classOf hread => exact classDeclaration_seals _ hread
  | expression hread hend => exact optionalSemicolon_keepsSeam.isSeam (value_seals hread) hend

theorem DeclarationRun.isSeam {c d : Cursor} {a : Declaration} (h : DeclarationRun c a d) :
    d.IsSeam := by
  cases h with
  | «variable» hread => exact variableDeclaration_seals _ hread
  | function hread => exact functionDeclaration_seals _ hread
  | classOf hread => exact classDeclaration_seals _ hread

theorem exportStatement_seals : Seals exportStatement := by
  have hdefault : Seals defaultExport := fun _ _ _ hrun => (defaultExport_run hrun).isSeam
  have hdeclaration : ∀ form, Seals (declarationOf form) := fun form _ _ _ hrun =>
    (declarationOf_run form hrun).isSeam
  rw [exportStatement_eq]
  refine .rest fun _ => .rest fun _ => .rest fun _ => .rest fun _ => .ite ?_ <|
    .rest fun _ => .ite ?_ <| .rest fun _ => .ite ?_ <| .rest fun form =>
      .first (hdeclaration form)
  · exact .rest fun _ => .first hdefault
  · exact .rest fun _ => .rest fun _ => .first fromClause_seals
  · exact .first (.rest fun _ => .rest fun _ => namePairs_seal _)

theorem topLevelStatement_seals : Seals topLevelStatement := by
  intro c s d hrun
  cases topLevelStatement_run hrun with
  | importing hread => exact importStatement_seals hread
  | exporting hread => exact exportStatement_seals hread
  | declaration hread => exact hread.isSeam
  | verbatim hread => exact statement_seals hread

end Scan

end ModuleBridge
