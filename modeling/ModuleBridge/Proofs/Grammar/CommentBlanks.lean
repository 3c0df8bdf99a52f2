import Mathlib
import ModuleBridge.Proofs.Grammar.GapModule

/-!
# A comment reads like blanks

A module with a block comment is read as the module with blanks in place of the comment: the same
statements at the same ranges, or the same fault. Three places are exceptions. A slash after the
comment may be a division where it opens a regular expression after blanks. A semicolon after the
comment does not end the statement of the block before it. Parameters that cannot be read are skipped
up to the next parenthesis that closes, which may stand in the comment.
-/

namespace ModuleBridge

open Scan Cursor List

theorem Scan.wholeModule_eq (text : String) :
    wholeModule (.ofText text) =
      match trivia (.pastShebang text) with
      | .ok _ q => (Module.mk <$> statements (q.after.length + 1)) q
      | .error fault q => .error fault q := by
  unfold wholeModule
  change EStateM.bind skipShebang _ _ = _
  rw [EStateM.bind, skipShebang_eq]
  change EStateM.bind (EStateM.bind trivia _) _ _ = _
  unfold EStateM.bind
  cases trivia (.pastShebang text) with
  | error fault q => rfl
  | ok crosses q =>
    change EStateM.bind (statements (q.after.length + 1)) _ q = EStateM.map _ _ q
    unfold EStateM.bind EStateM.map
    cases statements (q.after.length + 1) q <;> rfl

namespace Gap

variable {g : Gap}

theorem comment_within_line (g : Gap) : ∀ b ∈ bytesOf g.comment, (!isLineEndByte b) = true := by
  intro b hb
  rw [bytes_comment, mem_cons, mem_cons, mem_append, mem_cons,
    mem_singleton] at hb
  rcases hb with rfl | rfl | hbody | rfl | rfl
  · decide
  · decide
  · rw [isSingleLine_iff_bytes.mp g.single b hbody, Bool.not_false]
  · decide
  · decide

/-- A first line that starts with `#!` ends at one place in both texts, since the comment is within
a line. -/
theorem aligned_pastShebang (g : Gap) :
    g.Aligned (.pastShebang g.commented) (.pastShebang g.blanked) := by
  have hstart := Aligned.start g
  unfold pastShebang shebangLength
  rw [hstart.startsWith_eq (by decide)]
  split
  · change g.Aligned ((ofText g.commented).advance
        ((ofText g.commented).after.takeWhile (!isLineEndByte ·)).length)
      ((ofText g.blanked).advance
        ((ofText g.blanked).after.takeWhile (!isLineEndByte ·)).length)
    cases hstart with
    | before hbefore =>
      obtain ⟨n, here, there, hn⟩ := hbefore.run_over (by decide) fun _ => g.comment_within_line
      rw [here, there]
      exact (hbefore.advance_over hn).1
    | beyond hbeyond =>
      rw [hbeyond.after_here, hbeyond.after_there]
      exact .beyond (hbeyond.advance _)
  · rw [advance_zero, advance_zero]
    exact hstart

theorem wholeModule_alike (hslash : g.turnsSlash = false) (hparams : ¬g.CutsParameters) :
    Agree (fun _ _ => True)
      (fun m m' => m.withoutText = m'.withoutText ∨ g.SemicolonApart m.body m'.body)
      (wholeModule (.ofText g.commented)) (wholeModule (.ofText g.blanked)) := by
  rw [wholeModule_eq, wholeModule_eq]
  rcases g.aligned_pastShebang.trivia_cases with
    ⟨fault, q, q', here, there⟩ | ⟨crosses, q, q', here, there, hq, hclear⟩
  · rw [here, there]
    exact .error
  · rw [here, there]
    have hread := hq.statements hslash hparams hclear
      (fun _ _ he _ => he.laterAlike hslash hparams) (Nat.lt_succ_self _) (Nat.lt_succ_self _)
    exact hread.map fun _ _ hbodies => hbodies.imp (congrArg Module.mk) And.right

/-- The module with the comment has the statements of the module with blanks, at the same ranges and
with the same names, or fails as it does; at most a semicolon behind the comment is set apart from
its block. -/
theorem parseModule_commented (g : Gap) (hslash : g.turnsSlash = false)
    (hparams : ¬g.CutsParameters) :
    (parseModule g.commented).map Module.withoutText =
        (parseModule g.blanked).map Module.withoutText ∨
      ∃ m m', parseModule g.commented = .ok m ∧ parseModule g.blanked = .ok m' ∧
        g.SemicolonApart m.body m'.body := by
  unfold parseModule
  rcases (wholeModule_alike hslash hparams).elim with
    ⟨fault, e, e', here, there⟩ | ⟨m, m', e, e', here, there, hsame | hapart, _⟩
  · rw [here, there]
    exact .inl rfl
  · rw [here, there]
    exact .inl (congrArg Except.ok hsame)
  · rw [here, there]
    exact .inr ⟨m, m', rfl, rfl, hapart⟩

def commentedDivision : Gap where
  front := "x = f(a "
  body := " ) "
  back := " / b);"
  plain := by
    simp only [← Bool.not_eq_true', ← all_eq_true]
    decide
  closed := by
    intro first last heq
    have hstar : '*' ∈ (first ++ "*/" ++ last).toList := by simp
    rw [← heq] at hstar
    exact absurd hstar (by decide)
  single := by simp [IsSingleLine]

theorem parseModule_commentedDivision :
    commentedDivision.turnsSlash = false ∧ ¬commentedDivision.CutsParameters ∧
      (parseModule "x = f(a /* ) */ / b);").map Module.withoutText =
        (parseModule "x = f(a         / b);").map Module.withoutText := by
  have hslash : commentedDivision.turnsSlash = false := by decide
  have hparams : ¬commentedDivision.CutsParameters := by
    intro hcut
    obtain ⟨head, name, params, hfront, _⟩ := hcut
    have hword : byte 'n' ∈ bytesOf "function" := by decide
    have hmem : byte 'n' ∈ bytesOf commentedDivision.front := by
      rw [hfront]
      exact mem_append_left _ (mem_append_left _ (mem_append_right _ hword))
    exact absurd hmem (by decide)
  refine ⟨hslash, hparams, ?_⟩
  rcases parseModule_commented commentedDivision hslash hparams with hsame | ⟨m, m', _, _, hapart⟩
  · exact hsame
  · obtain ⟨brace, semicolon, hat⟩ := hapart.parted
    obtain ⟨head, blanks, hfront, _⟩ := hat.front
    have hmem : byte '\x7d' ∈ bytesOf commentedDivision.front := by
      rw [hfront]
      exact mem_append_right _ mem_cons_self
    exact absurd hmem (by decide)

-- The three exceptions. After the comment the slash is a division, and the brace ends the statement.
example : (parseModule "x = /**/ /\x7d/").toOption.map (·.body.map Statement.range) =
      some [⟨0, 10⟩, ⟨10, 11⟩, ⟨11, 12⟩] ∧
    (parseModule "x =      /\x7d/").toOption.map (·.body.map Statement.range) = some [⟨0, 12⟩] := by
  decide +kernel

example : (parseModule "\x7b\x7d/**/;").toOption.map (·.body.map Statement.range) =
      some [⟨0, 2⟩, ⟨6, 7⟩] ∧
    (parseModule "\x7b\x7d    ;").toOption.map (·.body.map Statement.range) = some [⟨0, 7⟩] := by
  decide +kernel

-- Neither text is read, but the faults stand at two places.
example : parseModule "function f(/*)*/ \x7b\x7d" = .error ⟨.expected, ["\x7b"], ⟨14, 1⟩⟩ ∧
    parseModule "function f(      \x7b\x7d" = .error ⟨.expected, ["\x7b"], ⟨19, 0⟩⟩ :=
  ⟨by cbv, by cbv⟩

end Gap

end ModuleBridge
