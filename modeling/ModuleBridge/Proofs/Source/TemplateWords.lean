import ModuleBridge.Proofs.Source.FaultEnd
import ModuleBridge.Proofs.Source.Matching

/-!
# Words inside templates

The search for words passes a template literal as one unit, and the code in its substitutions with
it. So what a module awaits there is never seen. Main statement: `awaits_substitution`.
-/

namespace ModuleBridge

open Scan Cursor

def substitutionOf (code : String) : String :=
  "\x60$\x7b" ++ code ++ "\x7d\x60"

/-- If the block of its substitution ends before a backtick, a template ends with that one. -/
theorem literal_substitution {c d : Cursor} {r : Range} {rest more : List UInt8}
    (hc : c.after = byte '\x60' :: byte '$' :: byte '\x7b' :: rest)
    (hblock : braces (c.advance 2) = .ok r d) (hd : d.after = byte '\x60' :: more) :
    literal c = .ok true (d.advance 1) := by
  have hsubstitution : (c.advance 1).after = byte '$' :: byte '\x7b' :: rest := by
    rw [after_advance, hc]
    rfl
  have hinner : closeEnclosures [.braces 0 ((c.advance 1).pos + 1)] ((c.advance 1).advance 2) =
      .ok () d := by
    unfold braces block at hblock
    rw [if_pos (by simp [byte?, hc])] at hblock
    have hpos : (c.advance 1).pos + 1 = (c.advance 2).pos := by simp [hc]
    rw [hpos, advance_advance, ← advance_advance c 2 1]
    split at hblock
    · rename_i e hclose
      cases hblock
      exact hclose
    · cases hblock
  have hclose : closeEnclosures [.template c.pos] (c.advance 1) = .ok () (d.advance 1) := by
    rw [closeEnclosures_substitution hsubstitution]
    refine (closeEnclosures_append [_] [.template c.pos] _).trans ?_
    rw [hinner]
    dsimp only
    rw [closeEnclosures_backtick hd, closeEnclosures]
  unfold literal
  rw [hc]
  dsimp only
  have hstart : literalStart c.before (byte '\x60') (byte '$' :: byte '\x7b' :: rest) = .template :=
    rfl
  rw [hstart]
  dsimp only
  rw [hclose]

theorem nextWordFrom_of_literal {c d : Cursor} (hclear : triviaReach c.after = .clear 0 false)
    (hliteral : literal c = .ok true d) : nextWordFrom c = nextWordFrom d := by
  rw [nextWordFrom_eq, trivia_of_clear hclear]
  dsimp only
  cases hc : c.after with
  | nil =>
    have hless := literal_lt hliteral
    simp [hc] at hless
  | cons b rest =>
    dsimp only
    rw [hliteral]

theorem nextWordFrom_of_nil {c : Cursor} (h : c.after = []) : nextWordFrom c = .ok none c := by
  rw [nextWordFrom_eq, trivia_of_clear (by rw [h]; exact triviaReach_nil)]
  simp only [h]

/-- The first word decides, or the words after it do. -/
theorem awaitsFrom_eq (c : Cursor) :
    awaitsFrom c =
      match nextWordFrom c with
      | .ok (some word) d =>
        if word = "await" then true else if word = "async" then false else awaitsFrom d
      | _ => false := by
  rw [awaitsFrom]
  split
  · rename_i hword
    rw [hword]
  · rename_i hnone
    split
    · exact absurd ‹_› (hnone _ _)
    · rfl

/-- Whatever the code of a substitution awaits, the template around it is not seen to await. -/
theorem awaits_substitution {code : String} {r : Range} {d : Cursor}
    (hblock : braces ((ofText (substitutionOf code)).advance 2) = .ok r d)
    (hend : d.pos + 1 = (substitutionOf code).utf8ByteSize) :
    awaitsAtTopLevel (substitutionOf code) = false := by
  have hbytes : bytesOf (substitutionOf code) =
      byte '\x60' :: byte '$' :: byte '\x7b' :: (bytesOf code ++ [byte '\x7d', byte '\x60']) := by
    rw [substitutionOf, bytesOf_append, bytesOf_append]
    simp only [List.append_assoc]
    rfl
  -- Behind the block only the last byte is left.
  have hlast : d.after = [byte '\x60'] := by
    have honward := block_onward (by decide) hblock
    have htext : d.bytes = bytesOf (substitutionOf code) := by
      rw [honward.bytes_eq, bytes_advance]
      rfl
    have hfront : bytesOf (substitutionOf code) =
        bytesOf ("\x60$\x7b" ++ code ++ "\x7d") ++ [byte '\x60'] := by
      rw [hbytes, bytesOf_append, bytesOf_append]
      simp only [List.append_assoc]
      rfl
    have hpos : d.pos = (bytesOf ("\x60$\x7b" ++ code ++ "\x7d")).length := by
      rw [← length_bytesOf, hfront, List.length_append, List.length_singleton] at hend
      omega
    rw [← d.drop_bytes, htext, hfront, hpos, List.drop_left]
  have hliteral := literal_substitution (c := .ofText (substitutionOf code)) hbytes hblock hlast
  have hclear : triviaReach (bytesOf (substitutionOf code)) = .clear 0 false := by
    rw [hbytes]
    exact triviaReach_of_nothing (triviaItem_of_startsCode (by decide) _)
  have hnone := nextWordFrom_of_nil (c := d.advance 1) (by rw [Cursor.after_advance, hlast]; rfl)
  rw [awaitsAtTopLevel, awaitsFrom_eq, nextWordFrom_of_literal hclear hliteral, hnone]

/-- The code awaits, and its block is closed by the last brace of the template. -/
theorem awaits_substitution_call :
    awaitsAtTopLevel "await f(\x7b\x7d)" = true ∧
      (∃ r d, braces ((ofText (substitutionOf "await f(\x7b\x7d)")).advance 2) = .ok r d ∧
        d.pos + 1 = (substitutionOf "await f(\x7b\x7d)").utf8ByteSize) ∧
      awaitsAtTopLevel (substitutionOf "await f(\x7b\x7d)") = false := by
  have hblock : braces ((ofText (substitutionOf "await f(\x7b\x7d)")).advance 2) =
      .ok ⟨2, 15⟩ ((ofText (substitutionOf "await f(\x7b\x7d)")).advance 15) := by cbv
  have hend : ((ofText (substitutionOf "await f(\x7b\x7d)")).advance 15).pos + 1 =
      (substitutionOf "await f(\x7b\x7d)").utf8ByteSize := by cbv
  have hword : nextWordFrom (.ofText "await f(\x7b\x7d)") =
      .ok (some "await") ((ofText "await f(\x7b\x7d)").advance 5) := by cbv
  refine ⟨?_, ⟨_, _, hblock, hend⟩, awaits_substitution hblock hend⟩
  rw [awaitsAtTopLevel, awaitsFrom_eq, hword]
  rfl

end ModuleBridge
