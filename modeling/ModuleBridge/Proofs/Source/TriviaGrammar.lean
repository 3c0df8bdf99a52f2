import ModuleBridge.Proofs.Source.TriviaText

/-!
# The grammar of trivia

Trivia is the longest run of pieces in front of a text: blanks, line breaks, line comments up to the
end of their line, and block comments up to their first closing mark. Only a line feed or a carriage
return ends the line of a comment, so a grammar in which every line break does so reads the same
only in texts without the two separators of lines and paragraphs.
-/

namespace ModuleBridge

open List

variable {ends : Char → Bool} {text item tail : String} {x : Bool}

/-- Pieces of trivia one after another, in front of `rest`. A line is crossed when a line ends in
one of them. -/
inductive TriviaPieces (ends : Char → Bool) (rest : String) : String → Bool → Prop where
  | nil : TriviaPieces ends rest "" false
  | cons {item gap : String} {x y : Bool} (hitem : TriviaPiece ends item (gap ++ rest) x)
      (hgap : TriviaPieces ends rest gap y) : TriviaPieces ends rest (item ++ gap) (x || y)

/-- No piece of trivia stands in front. -/
def StartsNoPiece (ends : Char → Bool) (text : String) : Prop :=
  ∀ item tail x, text = item ++ tail → ¬TriviaPiece ends item tail x

/-- In `text` the lines of comments end at line feeds and carriage returns. -/
def EndsLines (ends : Char → Bool) (text : String) : Prop :=
  ∀ ch ∈ text.toList, ends ch = isLineEnd ch

/-- A block comment that is never closed. -/
def OpensComment (text : String) : Prop :=
  ∃ body, text = "/*" ++ body ∧ ∀ front back, body ≠ front ++ "*/" ++ back

theorem EndsLines.of_append {front back : String} (h : EndsLines ends (front ++ back)) :
    EndsLines ends back :=
  fun ch hch => h ch (by simp [hch])

theorem TriviaPiece.congr {p q : Char → Bool} (h : TriviaPiece p item tail x)
    (hpq : ∀ ch ∈ (item ++ tail).toList, p ch = q ch) : TriviaPiece q item tail x := by
  cases h with
  | blank hch => exact .blank hch
  | lineBreak hch => exact .lineBreak hch
  | line hbody htail =>
    refine .line (fun ch hch => ?_) ?_
    · rw [← hpq ch (by simp [hch]), hbody ch hch]
    · rcases htail with rfl | ⟨ch, rest, rfl, hch⟩
      · exact .inl rfl
      · exact .inr ⟨ch, rest, rfl, by rw [← hpq ch (by simp [Char.toString]), hch]⟩
  | @block body _ hbody =>
    have hany : body.toList.any p = body.toList.any q := by
      rw [Bool.eq_iff_iff, any_eq_true, any_eq_true]
      exact exists_congr fun ch => and_congr_right fun hch => by rw [hpq ch (by simp [hch])]
    rw [hany]
    exact .block hbody

theorem TriviaPiece.triviaItem_eq (h : TriviaPiece isLineEnd item tail x) :
    0 < (bytesOf item).length ∧
      triviaItem (bytesOf item ++ bytesOf tail) = .item ((bytesOf item).length - 1) x := by
  have hchar : ∀ {ch : Char}, isBlank ch = true ∨ isLineBreak ch = true →
      0 < (bytesOf ch.toString).length ∧ triviaItem (bytesOf ch.toString ++ bytesOf tail) =
        .item ((bytesOf ch.toString).length - 1) (isLineBreak ch) := by
    intro ch hch
    rw [bytesOf_toString, String.length_utf8EncodeChar]
    exact ⟨ch.utf8Size_pos, triviaItem_blank hch _⟩
  cases h with
  | @blank ch _ hch =>
    have hbreak : isLineBreak ch = false := by
      refine Bool.eq_false_iff.mpr fun hbreak => ?_
      simp only [isLineBreak, Bool.or_eq_true, beq_iff_eq] at hbreak
      rcases hbreak with ((rfl | rfl) | rfl) | rfl <;> exact absurd hch (by decide)
    exact hbreak ▸ hchar (.inl hch)
  | lineBreak hch => exact hch ▸ hchar (.inr hch)
  | line hbody htail =>
    refine ⟨by rw [bytesOf_lineComment]; exact Nat.succ_pos _,
      triviaItem_lineComment (isSingleLine_iff.mpr hbody) ?_⟩
    rcases htail with rfl | ⟨ending, rest, rfl, hending⟩
    · simp
    · obtain ⟨b, hone, hb⟩ := exists_byte_of_lineEnd hending
      rw [bytesOf_append, bytesOf_toString, hone]
      rintro _ ⟨⟩
      exact hb
  | block hbody =>
    refine ⟨by rw [bytesOf_blockComment]; exact Nat.succ_pos _, ?_⟩
    rw [triviaItem_blockComment hbody, any_isLineEndByte]

theorem TriviaReach.shift_shift (r : TriviaReach) (m n : Nat) (x y : Bool) :
    (r.shift n y).shift m x = r.shift (m + n) (x || y) := by
  cases r <;> simp [shift, Nat.add_assoc, Bool.or_assoc]

/-- A run goes on behind pieces of trivia. -/
theorem TriviaPieces.triviaReach_eq {gap rest : String} (h : TriviaPieces ends rest gap x)
    (hends : EndsLines ends (gap ++ rest)) :
    triviaReach (bytesOf (gap ++ rest)) =
      (triviaReach (bytesOf rest)).shift (bytesOf gap).length x := by
  induction h with
  | nil => cases hrest : triviaReach (bytesOf rest) <;> simp [TriviaReach.shift, hrest]
  | @cons item gap x y hitem _ ih =>
    rw [String.append_assoc] at hends ⊢
    obtain ⟨hpos, hread⟩ := (hitem.congr hends).triviaItem_eq
    rw [bytesOf_append, triviaReach_of_item hread, Nat.sub_add_cancel hpos, drop_left,
      ih hends.of_append, TriviaReach.shift_shift, bytesOf_append, length_append]

/-! ## What is read are pieces -/

theorem commentBody_eq_none_iff {bytes : List UInt8} {start : Nat} {before : Bool} :
    commentBody bytes start before = none ↔
      ∀ front back, bytes ≠ front ++ byte '*' :: byte '/' :: back := by
  constructor
  · intro h
    fun_induction commentBody bytes start before with
    | case1 => simp
    | case2 a =>
      intro front back heq
      have hlength := congrArg List.length heq
      simp at hlength
      omega
    | case3 => cases h
    | case4 a b rest start before hopen ih =>
      intro front back heq
      cases front with
      | nil =>
        cases heq
        exact hopen rfl
      | cons d front => exact ih h front back (List.cons.inj heq).2
  · intro h
    cases hbody : commentBody bytes start before with
    | none => rfl
    | some found =>
      obtain ⟨body, rest, hbytes, -⟩ := commentBody_eq_some hbody
      exact absurd hbytes (h body rest)

theorem triviaItem_eq_unclosed_iff :
    triviaItem (bytesOf text) = .unclosedComment ↔ OpensComment text := by
  rw [triviaItem_eq_unclosed]
  constructor
  · rintro ⟨bytes, hbytes, hbody⟩
    have hmark : bytesOf text = bytesOf "/*" ++ bytes := hbytes
    obtain ⟨body, rfl⟩ := exists_rest hmark
    rw [← bytesOf_append, bytesOf_inj] at hmark
    refine ⟨body, hmark, ?_⟩
    rintro front back rfl
    refine commentBody_eq_none_iff.mp hbody (bytesOf front) (bytesOf back) ?_
    rw [bytesOf_append, bytesOf_append, append_assoc]
    rfl
  · rintro ⟨body, rfl, hopen⟩
    refine ⟨bytesOf body, bytesOf_append .., commentBody_eq_none_iff.mpr ?_⟩
    intro front back hclose
    refine noClose_bytes hopen front (back ++ [byte '*']) ?_
    rw [hclose, append_assoc]
    rfl

/-- Every text is a run of pieces and a rest that no piece starts. -/
theorem exists_triviaPieces (hends : EndsLines ends text) :
    ∃ gap rest x, text = gap ++ rest ∧ TriviaPieces ends rest gap x ∧
      StartsNoPiece ends rest := by
  induction hsize : (bytesOf text).length using Nat.strongRecOn generalizing text with
  | ind size ih =>
    by_cases hsome : ∃ item tail x, text = item ++ tail ∧ TriviaPiece ends item tail x
    · obtain ⟨item, tail, x, rfl, hitem⟩ := hsome
      have hpos := (hitem.congr hends).triviaItem_eq.1
      rw [bytesOf_append, length_append] at hsize
      obtain ⟨gap, rest, y, rfl, hgap, hrest⟩ := ih _ (by omega) hends.of_append rfl
      exact ⟨item ++ gap, rest, x || y, (String.append_assoc ..).symm, .cons hitem hgap, hrest⟩
    · exact ⟨"", text, false, by simp, .nil,
        fun item tail x htext hpiece => hsome ⟨item, tail, x, htext, hpiece⟩⟩

/-- Where no piece starts, no trivia is read, or a comment that is never closed. -/
theorem StartsNoPiece.triviaReach_eq (h : StartsNoPiece ends text) (hends : EndsLines ends text) :
    triviaReach (bytesOf text) = .clear 0 false ∧ ¬OpensComment text ∨
      triviaReach (bytesOf text) = .unclosed 0 ∧ OpensComment text := by
  rw [← triviaItem_eq_unclosed_iff]
  cases hread : triviaItem (bytesOf text) with
  | nothing => exact .inl ⟨triviaReach_of_nothing hread, by simp⟩
  | unclosedComment => exact .inr ⟨triviaReach_of_unclosed hread, rfl⟩
  | item more breaks =>
    obtain ⟨item, tail, hitem, htail, hpiece⟩ :=
      triviaItem_text (Cursor.isBoundary_ofText text) hread
    have hsplit : bytesOf text = bytesOf (item ++ tail) := by
      rw [bytesOf_append, ← hitem, ← htail]
      exact (take_append_drop (more + 1) (bytesOf text)).symm
    obtain rfl := bytesOf_inj.mp hsplit
    exact absurd (hpiece.congr fun ch hch => (hends ch hch).symm) (h item tail breaks rfl)

namespace Scan

theorem trivia_eq_error {c : Cursor} :
    (∃ fault d, trivia c = .error fault d) ↔ ∃ length, triviaReach c.after = .unclosed length := by
  unfold trivia
  cases triviaReach c.after <;> simp

/-- In front of a text, trivia is read up to the end of the longest run of pieces, and a line is
crossed as the pieces say; it fails exactly when a comment that is never closed stands behind pieces.
The lines of comments end at line feeds and carriage returns, or at any characters that are the same
in the given text. -/
theorem trivia_eq_pieces {c : Cursor} (hc : c.after = bytesOf text) (hends : EndsLines ends text) :
    (∀ crosses d, trivia c = .ok crosses d ↔
      ∃ gap rest, text = gap ++ rest ∧ d = c.advance (bytesOf gap).length ∧
        TriviaPieces ends rest gap crosses ∧ StartsNoPiece ends rest ∧ ¬OpensComment rest) ∧
    ((∃ fault d, trivia c = .error fault d) ↔
      ∃ gap rest x, text = gap ++ rest ∧ TriviaPieces ends rest gap x ∧ OpensComment rest) ∧
    ∀ crosses d, trivia c = .ok crosses d → ∀ gap rest x, text = gap ++ rest →
      TriviaPieces ends rest gap x → (c.advance (bytesOf gap).length).pos ≤ d.pos := by
  have hrun : ∀ {gap rest x}, text = gap ++ rest → TriviaPieces ends rest gap x →
      triviaReach c.after = (triviaReach (bytesOf rest)).shift (bytesOf gap).length x := by
    rintro gap rest x rfl hgap
    rw [hc, hgap.triviaReach_eq hends]
  obtain ⟨gap, rest, x, htext, hgap, hrest⟩ := exists_triviaPieces hends
  have hread := hrest.triviaReach_eq (htext ▸ hends).of_append
  refine ⟨fun crosses d => ?_, ?_, ?_⟩
  · rw [trivia_eq_ok]
    constructor
    · rintro ⟨length, hreach, rfl⟩
      rw [hrun htext hgap] at hreach
      rcases hread with ⟨hclear, hclosed⟩ | ⟨hunclosed, -⟩
      · rw [hclear, TriviaReach.shift, Bool.or_false] at hreach
        cases hreach
        exact ⟨gap, rest, htext, rfl, hgap, hrest, hclosed⟩
      · rw [hunclosed] at hreach
        cases hreach
    · rintro ⟨gap, rest, rfl, rfl, hgap, hrest, hclosed⟩
      rcases hrest.triviaReach_eq hends.of_append with ⟨hclear, -⟩ | ⟨-, hopen⟩
      · exact ⟨_, by rw [hrun rfl hgap, hclear, TriviaReach.shift, Bool.or_false]; rfl, rfl⟩
      · exact absurd hopen hclosed
  · rw [trivia_eq_error]
    constructor
    · rintro ⟨length, hreach⟩
      rw [hrun htext hgap] at hreach
      rcases hread with ⟨hclear, -⟩ | ⟨-, hopen⟩
      · rw [hclear] at hreach
        cases hreach
      · exact ⟨gap, rest, x, htext, hgap, hopen⟩
    · rintro ⟨gap, rest, x, htext, hgap, hopen⟩
      have hunclosed := triviaReach_of_unclosed (triviaItem_eq_unclosed_iff.mpr hopen)
      exact ⟨_, by rw [hrun htext hgap, hunclosed]; rfl⟩
  · intro crosses d h gap rest x htext hgap
    obtain ⟨length, hreach, rfl⟩ := trivia_eq_ok.mp h
    rw [hrun htext hgap] at hreach
    cases hrest : triviaReach (bytesOf rest) with
    | unclosed more =>
      rw [hrest] at hreach
      cases hreach
    | clear more y =>
      rw [hrest] at hreach
      cases hreach
      rw [Cursor.pos_advance, Cursor.pos_advance]
      omega

/-- A line comment goes on behind a line separator: it takes all eight bytes, and no line is
crossed. -/
theorem lineSeparator_in_comment :
    EndsLines isLineEnd "// a\u2028b" ∧ trivia (Cursor.ofText "// a\u2028b") =
      .ok false ((Cursor.ofText "// a\u2028b").advance (bytesOf "// a\u2028b").length) := by
  have hends : EndsLines isLineEnd "// a\u2028b" := fun _ _ => rfl
  have hpiece : TriviaPiece isLineEnd ("//" ++ " a\u2028b") ("" ++ "") false :=
    .line (by simp [isLineEnd]) (.inl rfl)
  have hnone : StartsNoPiece isLineEnd "" := by
    intro item tail x htext hitem
    have hpos := hitem.triviaItem_eq.1
    rw [(String.append_eq_empty_iff.mp htext.symm).1] at hpos
    exact absurd hpos (by decide)
  have hclosed : ¬OpensComment "" := by
    rintro ⟨body, hbody, -⟩
    exact absurd (String.append_eq_empty_iff.mp hbody.symm).1 (by decide)
  exact ⟨hends, ((trivia_eq_pieces rfl hends).1 false _).mpr
    ⟨_, "", by decide, rfl, .cons hpiece .nil, hnone, hclosed⟩⟩

end Scan

end ModuleBridge
