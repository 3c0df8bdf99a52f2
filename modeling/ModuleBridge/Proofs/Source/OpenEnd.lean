import ModuleBridge.Proofs.Source.CopyStretch

/-!
# Ends that are left open

A stretch without a semicolon or a brace at its end is ended by what follows. After a copy a line
end follows, and then the next line decides: `StretchKind.goesOn` tells which lines go on with a
stretch. For statements that are kept verbatim the text itself tells whether the end is open, so
that `Copied.statement_stops_iff` says from the two texts alone whether they stay apart.
-/

namespace ModuleBridge

open Bool Cursor List Scan StretchKind

variable {kind : StretchKind} {crosses : Bool} {b : UInt8} {start c q last : Cursor}
  {rest : List UInt8} {range : Range}

/-- What follows a copied piece: nothing, or the next line. It is what followed the piece before,
except that words may have been taken out. -/
structure Resumes (r r' : List UInt8) : Prop where
  next : r' = [] ∨ ∃ b more, r' = byte '\n' :: b :: more ∧ triviaItem (b :: more) = .nothing
  atEnd : ∀ n crosses, triviaReach r = .clear n crosses → r.drop n = [] → r' = []
  same : ∀ n crosses b rest, triviaReach r = .clear n crosses → r.drop n = b :: rest →
    isNameStart b = false → ∃ more, r' = byte '\n' :: b :: more

/-- Whether a line that starts with `b` goes on with a stretch. -/
def StretchKind.goesOn (kind : StretchKind) (b : UInt8) : Bool :=
  continuesExpression b && !(kind == .expression && b == byte ',')

theorem StretchRun.pos_lt_of_inside {d : Cursor} (hrun : StretchRun kind start c 0 d)
    (hspace : trivia c = .ok crosses q) (hq : q.after = b :: rest)
    (hb : kind.boundary start c crosses b = .inside) : c.pos < d.pos := by
  have hle := (trivia_onward hspace).pos_le
  cases hrun with
  | atEnd hspace' hq' =>
    cases hspace.symm.trans hspace'
    rw [hq] at hq'
    cases hq'
  | before hspace' hq' hb' =>
    cases hspace.symm.trans hspace'
    cases hq.symm.trans hq'
    rw [hb] at hb'
    cases hb'
  | after hspace' hq' hb' =>
    cases hspace.symm.trans hspace'
    cases hq.symm.trans hq'
    rw [hb] at hb'
    cases hb'
  | token hspace' hq' _ _ htoken hrest =>
    cases hspace.symm.trans hspace'
    have hlt := token_pos_lt (by simp [hq]) htoken
    have hend := hrest.onward.pos_le
    omega

/-- A stretch that ends before a byte ends there because a closer or a separator follows, or because
of a line end. -/
theorem boundary_before_cases (h : kind.boundary start last crosses b = .before) :
    last.last?.any expectsContinuation = false ∨ isCloser b = true ∨
      kind = .expression ∧ (b = byte ',' ∨ b = byte ';') := by
  unfold boundary at h
  split at h
  · rename_i hline
    simp only [endsAtLineBreak, and_eq_true, not_eq_true'] at hline
    exact .inl hline.2.1
  · split at h
    · rename_i hsemicolon
      cases kind with
      | expression => exact .inr (.inr ⟨rfl, .inr (beq_iff_eq.mp hsemicolon)⟩)
      | statement => cases h
    · split at h
      · rename_i hcomma
        rw [and_eq_true, beq_iff_eq, beq_iff_eq] at hcomma
        exact .inr (.inr ⟨hcomma.2, .inl hcomma.1⟩)
      · split at h
        · rename_i hclose
          exact .inr (.inl hclose)
        · cases h

theorem continuesExpression_open : continuesExpression b = true → isTerminator b = false := by
  apply forall_byte _ b
  decide +kernel

theorem isCloser_plainEnd :
    isCloser b = true → continuesExpression b = false ∧ isNameStart b = false := by
  apply forall_byte _ b
  decide +kernel

/-- What a stretch does with the next line, when the line end may end it. -/
theorem boundary_lineEnd (hlt : start.pos < last.pos)
    (h : last.last?.any expectsContinuation = false ∨ isCloser b = true) :
    kind.boundary start last true b = if kind.goesOn b then .inside else .before := by
  have hne : (last.pos == start.pos) = false := beq_eq_false_iff_ne.mpr (Nat.ne_of_gt hlt)
  have hlast : last.before.head?.any expectsContinuation = last.last?.any expectsContinuation := rfl
  unfold boundary goesOn endsAtLineBreak
  simp only [hne, Bool.and_false, false_eq_true, if_false, decide_eq_true hlt, Bool.true_and,
    hlast]
  cases hcontinues : continuesExpression b with
  | true =>
    have hterminator := continuesExpression_open hcontinues
    rw [isTerminator, or_eq_false_iff] at hterminator
    simp only [hterminator, Bool.not_true, Bool.and_false, false_eq_true, if_false,
      Bool.true_and, not_eq_true']
    rw [Bool.and_comm (b == byte ',')]
    cases kind == .expression && b == byte ',' <;> rfl
  | false =>
    rcases h with hopen | hclose
    · simp only [hopen, Bool.not_false, Bool.and_self, if_true, Bool.false_and,
        false_eq_true, if_false]
    · have hsemicolon : (b == byte ';') = false := by
        rw [beq_eq_false_iff_ne]
        rintro rfl
        exact absurd hclose (by decide)
      simp only [hclose, hsemicolon, Bool.not_false, Bool.and_true, Bool.false_and,
        false_eq_true, if_false, if_true, ite_self]

namespace Copied

variable {c c' : Cursor} {t r r' : List UInt8} (h : Copied c c' t r r')

include h

theorem trivia_here (hspace : trivia (c.advance t.length) = .ok crosses q) :
    ∃ n, triviaReach r = .clear n crosses ∧ q.after = r.drop n := by
  obtain ⟨n, hreach, rfl⟩ := trivia_eq_ok.mp hspace
  rw [h.after_here (Nat.le_refl _), drop_length, nil_append] at hreach
  refine ⟨n, hreach, ?_⟩
  rw [after_advance, h.after_here (Nat.le_refl _), drop_length, nil_append]

theorem trivia_there (hr : Resumes r r') :
    (r' = [] ∧ trivia (c'.advance t.length) = .ok false (c'.advance t.length)) ∨
    ∃ b more, r' = byte '\n' :: b :: more ∧
      trivia (c'.advance t.length) = .ok true (c'.advance (t.length + 1)) ∧
      (c'.advance (t.length + 1)).after = b :: more := by
  have hafter : (c'.advance t.length).after = r' := by
    rw [h.after_there (Nat.le_refl _), drop_length, nil_append]
  rcases hr.next with rfl | ⟨b, more, rfl, hb⟩
  · refine .inl ⟨rfl, trivia_of_clear ?_⟩
    rw [hafter, triviaReach_nil]
  · refine .inr ⟨b, more, rfl, trivia_eq_ok.mpr ⟨1, ?_, (advance_advance ..).symm⟩, ?_⟩
    · have hline : triviaItem (byte '\n' :: b :: more) = .item 0 true := rfl
      rw [hafter, triviaReach_of_item hline, drop_succ_cons, drop_zero,
        triviaReach_of_nothing hb]
      rfl
    · rw [← advance_advance, after_advance, hafter]
      rfl

variable (hr : Resumes r r') {kind : StretchKind} {s m : Nat} (hs : s < t.length)
  (hend : EndsOpen kind (c.advance s) (c.advance t.length) m)
  (hplain : ∀ crosses q, trivia (c.advance t.length) = .ok crosses q → kind = .expression →
    q.byte? ≠ some (byte ',') ∧ q.byte? ≠ some (byte ';'))

include hr hs hend hplain

/-- Where the end of a stretch is left open, the line end after the copy may end it. -/
theorem boundary_next {more : List UInt8} (hnext : r' = byte '\n' :: b :: more) :
    m = 0 ∧ kind.boundary (c'.advance s) (c'.advance t.length) true b =
      if kind.goesOn b then .inside else .before := by
  obtain ⟨crosses, q, hspace, hq⟩ := hend
  obtain ⟨n, hreach, hafter⟩ := h.trivia_here hspace
  rcases hq with hnil | ⟨rfl, e, rest, hcons, hb⟩
  · rw [hr.atEnd n crosses hreach (hafter.symm.trans hnil)] at hnext
    cases hnext
  · refine ⟨rfl, boundary_lineEnd ?_ ?_⟩
    · rw [h.pos_there (Nat.le_of_lt hs), h.pos_there (Nat.le_refl _)]
      omega
    · rw [h.last?_eq (Nat.zero_lt_of_lt hs) (Nat.le_refl _)]
      have hbyte : q.byte? = some e := by rw [byte?, hcons]; rfl
      rcases boundary_before_cases hb with hopen | hclose | ⟨hkind, hseparator⟩
      · exact .inl hopen
      · obtain ⟨more', hsame⟩ := hr.same n crosses e rest hreach (hafter.symm.trans hcons)
          (isCloser_plainEnd hclose).2
        rw [hnext] at hsame
        cases hsame
        exact .inr hclose
      · have hother := hplain crosses q hspace hkind
        rw [hbyte] at hother
        rcases hseparator with rfl | rfl
        · exact absurd rfl hother.1
        · exact absurd rfl hother.2

/-- The copy of a stretch ends with the piece when the next line does not go on with it. -/
theorem stretchFrom_stops (hnext : r'[1]?.any kind.goesOn = false) :
    stretchFrom kind (c'.advance s) (c'.advance t.length) m (c'.advance t.length) =
      .ok ((c'.advance s).rangeTo (c'.advance t.length)) (c'.advance t.length) := by
  rcases h.trivia_there hr with ⟨rfl, hspace⟩ | ⟨b, more, rfl, hspace, hafter⟩
  · refine stretchFrom_of_run (.atEnd hspace ?_)
    rw [h.after_there (Nat.le_refl _), drop_length, nil_append]
  · obtain ⟨rfl, hb⟩ := h.boundary_next hr hs hend hplain rfl
    have hstop : kind.goesOn b = false := by simpa using hnext
    rw [hstop] at hb
    exact stretchFrom_of_run (.before hspace hafter hb)

/-- It goes beyond the piece when the next line does. -/
theorem stretchFrom_passes (hnext : r'[1]?.any kind.goesOn = true) {range : Range} {e : Cursor}
    (hrun : stretchFrom kind (c'.advance s) (c'.advance t.length) m (c'.advance t.length) =
      .ok range e) : (c'.advance t.length).pos < e.pos := by
  rcases h.trivia_there hr with ⟨rfl, _⟩ | ⟨b, more, rfl, hspace, hafter⟩
  · cases hnext
  · obtain ⟨rfl, hb⟩ := h.boundary_next hr hs hend hplain rfl
    have hgo : kind.goesOn b = true := by simpa using hnext
    rw [hgo, if_pos rfl] at hb
    exact (run_of_stretchFrom hrun).1.pos_lt_of_inside hspace hafter hb

end Copied

/-! ## Statements that are kept verbatim -/

/-- Whether the text of a statement leaves its end open: it is closed by a semicolon, by a brace, or
by being a single closer. -/
def endsOpen (t : List UInt8) : Bool :=
  !t.getLast?.any closesStatement && !(t.length == 1 && t.head?.any isCloser)

theorem isCloser_startsCode : isCloser b = true → startsCode b = true := by
  apply forall_byte _ b
  decide +kernel

theorem boundary_closer_start (hb : isCloser b = true) (start : Cursor) (crosses : Bool) :
    StretchKind.statement.boundary start start crosses b = .after := by
  simp [boundary, hb]

/-- A closer that nothing opened is a statement of its own, wherever it stands. -/
theorem Scan.statement_closer (hc : c.after = b :: rest) (hb : isCloser b = true) :
    statement c = .ok (c.rangeTo (c.advance 1)) (c.advance 1) := by
  have hspace : trivia c = .ok false c := by
    refine trivia_of_clear ?_
    rw [hc, triviaReach_of_nothing (triviaItem_of_startsCode (isCloser_startsCode hb) rest)]
  exact stretchFrom_of_run (.after hspace hc (boundary_closer_start hb c false))

namespace Copied

variable {c c' : Cursor} {t r r' : List UInt8} (h : Copied c c' t r r')

include h

theorem last?_here (hne : t ≠ []) : (c.advance t.length).last? = t.getLast? := by
  rw [last?, before_advance, h.here, take_left, head?_append,
    head?_reverse]
  cases hlast : t.getLast? with
  | none => exact absurd (getLast?_eq_none_iff.mp hlast) hne
  | some b => rfl

/-- A statement that ends for good says so with its text. -/
theorem endsOpen_eq_false (hne : t ≠ []) (hclear : triviaReach c.after = .clear 0 false)
    (hend : EndsClosed c (c.advance t.length)) : endsOpen t = false := by
  rcases hend with hlast | ⟨crosses, q, b, rest, hspace, hq, hclose, hd⟩
  · rw [h.last?_here hne] at hlast
    rw [endsOpen, hlast, Bool.not_true, Bool.false_and]
  · obtain ⟨n, hreach, rfl⟩ := trivia_eq_ok.mp hspace
    rw [hclear] at hreach
    cases hreach
    rw [advance_zero] at hq hd
    have hlength : t.length = 1 := by
      have hpos := congrArg pos hd
      rw [h.pos_here (Nat.le_refl _), pos_advance, hq] at hpos
      simp only [length_cons] at hpos
      omega
    obtain ⟨e, rfl⟩ := length_eq_one_iff.mp hlength
    rw [h.here] at hq
    cases hq
    simp [endsOpen, hclose]

/-- A statement that does not end with its copy has left its end open. -/
theorem endsOpen_eq_true (hne : t ≠ []) (hfollow : r' ≠ []) (hr : Resumes r r') {m : Nat}
    (hend : EndsOpen .statement c (c.advance t.length) m)
    (hpending : IsPending .statement c (c.advance t.length) m)
    (hno : ¬∃ range', statement c' = .ok range' (c'.advance t.length)) : endsOpen t = true := by
  have hlone : (t.length == 1 && t.head?.any isCloser) = false := by
    rw [← not_eq_true, and_eq_true, beq_iff_eq]
    rintro ⟨hlength, hclose⟩
    obtain ⟨b, rfl⟩ := length_eq_one_iff.mp hlength
    exact hno ⟨_, statement_closer h.there hclose⟩
  have hzero : m = 0 := by
    obtain ⟨crosses, q, hspace, hq⟩ := hend
    obtain ⟨n, hreach, hafter⟩ := h.trivia_here hspace
    rcases hq with hnil | ⟨hzero, _⟩
    · exact absurd (hr.atEnd n crosses hreach (hafter.symm.trans hnil)) hfollow
    · exact hzero
  have hlast : t.getLast?.any closesStatement = false := by
    rcases hpending rfl hzero with hstart | hlast
    · have hpos := congrArg pos hstart
      rw [h.pos_here (Nat.le_refl _)] at hpos
      exact absurd (length_pos_iff.mpr hne) (by omega)
    · rwa [h.last?_here hne] at hlast
  rw [endsOpen, hlone, hlast]
  rfl

/-- The copy of a statement that is kept verbatim ends with the piece, unless the piece leaves its
end open and the next line goes on with it. -/
theorem statement_stops_iff (hr : Resumes r r') (hne : t ≠ [])
    (hclear : triviaReach c.after = .clear 0 false)
    (hrun : statement c = .ok range (c.advance t.length)) :
    (∃ range', statement c' = .ok range' (c'.advance t.length)) ↔
      (endsOpen t && r'[1]?.any continuesExpression) = false := by
  have hpos := length_pos_iff.mpr hne
  have hend : (c.advance t.length).pos = c.pos + t.length := h.pos_here (Nat.le_refl _)
  have hstretch : StretchRun .statement (c.advance 0) (c.advance 0) 0 (c.advance t.length) := by
    rw [advance_zero]
    exact (run_of_stretchFrom hrun).1
  rcases h.stretchFrom_follows hstretch (Nat.le_refl _) (Nat.zero_le _) (fun _ _ => .inl rfl)
    (Nat.le_of_eq hend) with ⟨j, m, _, hj, hd, hends, hpending, hround⟩ | ⟨_, hclosed, hround⟩
  · have hfull : j = t.length := by
      have hpos' := congrArg pos hd
      rw [hend, h.pos_here hj] at hpos'
      omega
    subst hfull
    have hgoes : StretchKind.statement.goesOn = continuesExpression := by
      funext b
      simp [goesOn]
    have hplain : ∀ crosses q, trivia (c.advance t.length) = .ok crosses q →
        StretchKind.statement = .expression →
          q.byte? ≠ some (byte ',') ∧ q.byte? ≠ some (byte ';') := by
      intro _ _ _ hkind
      cases hkind
    have hstops := h.stretchFrom_stops hr hpos hends hplain
    have hpasses := @stretchFrom_passes _ _ _ _ _ h hr _ _ _ hpos hends hplain
    rw [hgoes] at hstops hpasses
    simp only [advance_zero] at hstops hpasses hround hends hpending
    cases hnext : r'[1]?.any continuesExpression with
    | false =>
      rw [Bool.and_false]
      exact iff_of_true ⟨_, hround.trans (hstops hnext)⟩ rfl
    | true =>
      have hno : ¬∃ range', statement c' = .ok range' (c'.advance t.length) := by
        rintro ⟨range', hrun'⟩
        exact absurd (hpasses hnext (hround.symm.trans hrun')) (Nat.lt_irrefl _)
      have hfollow : r' ≠ [] := by
        rintro rfl
        cases hnext
      have hopen : endsOpen t = true := h.endsOpen_eq_true hne hfollow hr hends hpending hno
      rw [hopen]
      exact iff_of_false hno (by decide)
  · rw [advance_zero] at hclosed
    rw [h.endsOpen_eq_false hne hclear hclosed, Bool.false_and]
    rw [hend, Nat.add_sub_cancel_left] at hround
    simp only [advance_zero] at hround
    exact iff_of_true ⟨_, hround⟩ rfl

end Copied

end ModuleBridge
