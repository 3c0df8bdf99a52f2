import ModuleBridge.Proofs.Source.Code

/-!
# Walks over code

A walk passes trivia and tokens without asking where a stretch would end. The ends of its tokens are
the places outside strings, templates, regular expressions and comments; its depth tells which of
them lie outside all brackets. A stretch visits every place of a walk up to its own end.
-/

namespace ModuleBridge

open Scan Cursor List

variable {c d p start : Cursor} {m n : Nat} {b : UInt8} {rest : List UInt8} {kind : StretchKind}

/-- From `c`, with `n` brackets open, trivia and tokens lead to `d`, with `m` brackets open. -/
inductive CodeWalk : Cursor → Nat → Cursor → Nat → Prop where
  | refl {c : Cursor} {n : Nat} : CodeWalk c n c n
  | step {c q e d : Cursor} {n k m : Nat} {crosses : Bool} (hspace : trivia c = .ok crosses q)
      (hmore : q.after ≠ []) (htoken : token n q = .ok k e) (hrest : CodeWalk e k d m) :
      CodeWalk c n d m

theorem Cursor.Onward.eq_of_pos_eq {e : Cursor} (hd : c.Onward d) (he : c.Onward e)
    (h : d.pos = e.pos) : d = e :=
  Cursor.eq_of_pos_eq (hd.bytes_eq.trans he.bytes_eq.symm) h

theorem Scan.token_pos_lt (hne : c.after ≠ []) (h : token n c = .ok m d) : c.pos < d.pos := by
  have hlt := token_lt hne h
  have hpos := (token_onward n h).pos_add_length
  omega

theorem CodeWalk.onward (h : CodeWalk c n d m) : c.Onward d := by
  induction h with
  | refl => exact .refl _
  | step hspace _ htoken _ ih =>
    exact (trivia_onward hspace).trans ((token_onward _ htoken).trans ih)

theorem CodeWalk.eq_of_pos_le (h : CodeWalk c n d m) (hle : d.pos ≤ c.pos) : d = c ∧ m = n := by
  cases h with
  | refl => exact ⟨rfl, rfl⟩
  | step hspace hmore htoken hrest =>
    have hq := (trivia_onward hspace).pos_le
    have he := token_pos_lt hmore htoken
    have hd := hrest.onward.pos_le
    omega

theorem triviaReach_blanks {blanks : List UInt8}
    (hblanks : ∀ x ∈ blanks, x = byte ' ' ∨ x = byte '\t') (hb : triviaItem (b :: rest) = .nothing) :
    triviaReach (blanks ++ b :: rest) = .clear blanks.length false := by
  induction blanks with
  | nil => exact triviaReach_of_nothing hb
  | cons x blanks ih =>
    have hitem : triviaItem (x :: (blanks ++ b :: rest)) = .item 0 false := by
      rcases hblanks x (by simp) with rfl | rfl <;> rfl
    have hrest := ih fun y hy => hblanks y (by simp [hy])
    rw [cons_append, triviaReach_of_item hitem, drop_succ_cons, drop_zero, hrest]
    simp [TriviaReach.shift, Nat.add_comm]

/-- A block takes a semicolon along only over blanks of its own line. -/
theorem Cursor.pastSemicolon_cases (c : Cursor) :
    c.pastSemicolon = c ∨ ∃ q rest, trivia c = .ok false q ∧ q.after = byte ';' :: rest ∧
      c.pastSemicolon = q.advance 1 := by
  unfold pastSemicolon
  dsimp only
  have hblanks : ∀ x ∈ c.after.takeWhile (fun b => b == byte ' ' || b == byte '\t'),
      x = byte ' ' ∨ x = byte '\t' := by
    intro x hx
    have hall := all_eq_true.mp all_takeWhile x hx
    rwa [Bool.or_eq_true, beq_iff_eq, beq_iff_eq] at hall
  have hsplit := takeWhile_append_dropWhile (p := fun b => b == byte ' ' || b == byte '\t')
    (l := c.after)
  rw [dropWhile_eq_drop] at hsplit
  generalize c.after.takeWhile (fun b => b == byte ' ' || b == byte '\t') = blanks at hblanks hsplit
  split
  · rename_i hhead
    right
    cases hrest : c.after.drop blanks.length with
    | nil =>
      rw [hrest] at hhead
      cases hhead
    | cons b rest =>
      have hb : b = byte ';' := by simpa [hrest] using hhead
      subst hb
      rw [hrest] at hsplit
      have hreach := triviaReach_blanks hblanks (rfl : triviaItem (byte ';' :: rest) = .nothing)
      rw [hsplit] at hreach
      refine ⟨c.advance blanks.length, rest, trivia_eq_ok.mpr ⟨_, hreach, rfl⟩, hrest, ?_⟩
      rw [advance_advance]
  · exact .inl rfl

theorem boundary_semicolon (start last : Cursor) :
    StretchKind.statement.boundary start last false (byte ';') = .after := by
  simp [StretchKind.boundary]

/-- Where a stretch takes a place of a walk along, it goes on from there or ends there for good. -/
theorem StretchRun.visits (hwalk : CodeWalk c n p m) (hrun : StretchRun kind start c n d)
    (hle : p.pos ≤ d.pos) : StretchRun kind start p m d ∨ p = d ∧ p.last?.any isTerminator := by
  induction hwalk with
  | refl => exact .inl hrun
  | @step c q e p n k m crosses hspace hmore htoken hrest ih =>
    have hq := trivia_onward hspace
    have hlt := token_pos_lt hmore htoken
    have hep := hrest.onward.pos_le
    cases hrun with
    | atEnd => have := hq.pos_le; omega
    | before => have := hq.pos_le; omega
    | after hspace' hq' hb =>
      cases hspace.symm.trans hspace'
      have hpast := Cursor.Past.of_cons hq' (boundary_after hb)
      have hone := hpast.onward isTerminator_ascii
      have hpd : p = q.advance 1 := by
        refine ((token_onward _ htoken).trans hrest.onward).eq_of_pos_eq hone ?_
        simp only [pos_advance, hq', length_cons] at hle ⊢
        omega
      refine .inr ⟨hpd, ?_⟩
      rw [hpd]
      exact hpast.last?
    | block hspace' hq' hkind =>
      cases hspace.symm.trans hspace'
      rw [token_closer hq' (by decide)] at htoken
      cases htoken
      subst hkind
      rcases pastSemicolon_cases (q.advance 1) with hstay |
        ⟨q', rest', hblank, hsemicolon, hpast⟩
      · rw [hstay] at hle ⊢
        obtain ⟨rfl, _⟩ := hrest.eq_of_pos_le hle
        exact .inr ⟨rfl, (Cursor.Past.of_cons hq' (by decide)).last?⟩
      · -- The semicolon would also end a stretch that went on after the brace.
        refine ih ?_ hle
        rw [hpast]
        exact .after hblank hsemicolon (boundary_semicolon _ _)
    | token hspace' hq' hb hopen htoken' hrest' =>
      cases hspace.symm.trans hspace'
      cases htoken.symm.trans htoken'
      exact ih hrest' hle

/-! ## Tokens up to a place -/

/-- Where a token ends does not depend on the depth. -/
theorem Scan.token_end {q e : Cursor} {k : Nat} (h : token n q = .ok k e) (m : Nat) :
    ∃ l, token m q = .ok l e := by
  cases hq : q.after with
  | nil =>
    simp only [token, hq] at h ⊢
    cases h
    exact ⟨m, rfl⟩
  | cons b rest =>
    rcases token_cases hq h with ⟨hlit, _⟩ | ⟨hlit, ⟨hopen, _, rfl⟩ | ⟨hopen, hclose, _, rfl⟩ |
      ⟨hopen, hclose, _, ⟨hname, rfl⟩ | ⟨hname, rfl⟩⟩⟩ <;> simp [token, *]

/-- The first bytes of the tokens from `c` up to the place `stop`; none if no token ends there. -/
def tokenStarts (c : Cursor) (stop : Nat) : Option (List UInt8) :=
  if c.pos = stop then some []
  else
    match triviaReach c.after with
    | .unclosed _ => none
    | .clear length _ =>
      match _ : (c.advance length).after with
      | [] => none
      | b :: _ =>
        match _ : token 0 (c.advance length) with
        | .error _ _ => none
        | .ok _ e => (tokenStarts e stop).map (b :: ·)
termination_by c.after.length
decreasing_by
  have hmore : (c.advance length).after ≠ [] := by
    rw [‹(c.advance length).after = _›]
    exact cons_ne_nil _ _
  exact Nat.lt_of_lt_of_le (token_lt hmore ‹_›) (advance_le c length)

theorem tokenStarts_self (c : Cursor) : tokenStarts c c.pos = some [] := by
  rw [tokenStarts, if_pos rfl]

theorem tokenStarts_step {crosses : Bool} {q e : Cursor} {k stop : Nat}
    (hspace : trivia c = .ok crosses q) (hq : q.after = b :: rest)
    (htoken : token n q = .ok k e) (hne : c.pos ≠ stop) :
    tokenStarts c stop = (tokenStarts e stop).map (b :: ·) := by
  obtain ⟨m, hzero⟩ := token_end htoken 0
  obtain ⟨length, hreach, rfl⟩ := trivia_eq_ok.mp hspace
  rw [tokenStarts, if_neg hne, hreach]
  dsimp only
  split
  · rename_i hq'
    rw [hq] at hq'
    cases hq'
  · rename_i hq'
    cases hq.symm.trans hq'
    split
    · rename_i htoken'
      rw [hzero] at htoken'
      cases htoken'
    · rename_i htoken'
      cases hzero.symm.trans htoken'
      rfl

/-! ## Words after line breaks -/

theorem Cursor.exists_cons_of_byte? {x : Cursor} {p : UInt8 → Bool}
    (h : x.byte?.any p = true) : ∃ b rest, x.after = b :: rest ∧ p b = true := by
  cases hx : x.after with
  | nil => simp [byte?, hx] at h
  | cons b rest => exact ⟨b, rest, rfl, by simpa [byte?, hx] using h⟩

theorem Cursor.exists_cons_of_startsWithWord {word : String} {more : List UInt8}
    (hword : bytesOf word = b :: more) (h : c.startsWithWord word = true) :
    ∃ rest, c.after = b :: rest := by
  obtain ⟨rest, hrest⟩ := isPrefixOf_iff_prefix.mp (startsWith_of_startsWithWord h)
  rw [hword] at hrest
  exact ⟨more ++ rest, hrest.symm⟩

/-- A byte that neither continues nor ends a stretch of itself. -/
structure IsPlain (b : UInt8) : Prop where
  continues : continuesExpression b = false
  terminates : isTerminator b = false
  separates : b ≠ byte ','

/-- A line break before a plain byte ends a stretch, unless nothing comes before the line break or
what does asks for a continuation. -/
theorem boundary_after_lineBreak {last : Cursor} (hb : IsPlain b) :
    kind.boundary start last true b =
      if start.pos < last.pos ∧ last.last?.any expectsContinuation = false then .before
      else .inside := by
  obtain ⟨hcontinues, hterminator, hcomma⟩ := hb
  simp only [isTerminator, Bool.or_eq_false_iff] at hterminator
  have hcomma : (b == byte ',') = false := beq_eq_false_iff_ne.mpr hcomma
  simp only [StretchKind.boundary, endsAtLineBreak, hcontinues, hterminator, hcomma, last?,
    Bool.true_and, Bool.not_false, Bool.and_true, Bool.false_and, Bool.false_eq_true, if_false,
    Bool.and_eq_true, decide_eq_true_eq, Bool.not_eq_true']
  congr

theorem isTerminator_closed : isTerminator b = true → expectsContinuation b = false := by
  apply forall_byte _ b
  decide +kernel

/-- What a stretch that has come to `p` does with a line break after `p`. -/
theorem StretchRun.passes_lineBreak_iff {q : Cursor} (hrun : StretchRun kind start p 0 d)
    (hbreak : trivia p = .ok true q) (hq : q.after = b :: rest) (hb : IsPlain b) :
    q.pos < d.pos ↔ ¬(start.pos < p.pos ∧ p.last?.any expectsContinuation = false) := by
  have hle := (trivia_onward hbreak).pos_le
  cases hrun with
  | atEnd hspace hend =>
    cases hbreak.symm.trans hspace
    rw [hq] at hend
    cases hend
  | before hspace hq' hbefore =>
    cases hbreak.symm.trans hspace
    cases hq.symm.trans hq'
    rw [boundary_after_lineBreak hb] at hbefore
    split at hbefore
    · rename_i hends
      exact iff_of_false (by omega) (not_not_intro hends)
    · cases hbefore
  | after hspace hq' hafter =>
    cases hbreak.symm.trans hspace
    cases hq.symm.trans hq'
    rw [boundary_after_lineBreak hb] at hafter
    split at hafter <;> cases hafter
  | token hspace hq' hinside _ htoken hrest =>
    cases hbreak.symm.trans hspace
    cases hq.symm.trans hq'
    have hinside := hinside rfl
    rw [boundary_after_lineBreak hb] at hinside
    split at hinside
    · cases hinside
    · rename_i hends
      have hlt := token_pos_lt (by simp [hq]) htoken
      exact iff_of_true (Nat.lt_of_lt_of_le hlt hrest.onward.pos_le) hends

/-- A stretch takes what follows a line break outside all brackets along exactly when nothing comes
before the line break or what does asks for a continuation. -/
theorem StretchRun.lineBreak_iff {q : Cursor} (hrun : StretchRun kind c c 0 d)
    (hwalk : CodeWalk c 0 p 0) (hle : p.pos ≤ d.pos) (hbreak : trivia p = .ok true q)
    (hq : q.after = b :: rest) (hb : IsPlain b) :
    q.pos < d.pos ↔ p = c ∨ p.last?.any expectsContinuation = true := by
  have hcp := hwalk.onward.pos_le
  have hstart : p = c ↔ ¬c.pos < p.pos := by
    constructor
    · rintro rfl
      exact Nat.lt_irrefl _
    · intro hpos
      exact (hwalk.eq_of_pos_le (by omega)).1
  rcases StretchRun.visits hwalk hrun hle with hgoes | ⟨rfl, hends⟩
  · rw [hgoes.passes_lineBreak_iff hbreak hq hb, hstart, Decidable.not_and_iff_not_or_not,
      Bool.not_eq_false]
  · by_cases hpc : p = c
    · subst hpc
      rw [hrun.passes_lineBreak_iff hbreak hq hb]
      simp
    · -- The stretch has ended for good, and its last byte asks for nothing.
      have hq' := (trivia_onward hbreak).pos_le
      refine iff_of_false (by omega) ?_
      rintro (hpc' | hexpects)
      · exact hpc hpc'
      · cases hlast : p.last? with
        | none => simp [hlast] at hexpects
        | some b =>
          rw [hlast] at hends hexpects
          rw [Option.any_some] at hends hexpects
          rw [isTerminator_closed hends] at hexpects
          cases hexpects

end ModuleBridge
