import ModuleBridge.Proofs.Source.Copy

/-!
# Stretches that are moved to another place

A stretch that ends inside a piece of code, or with it, is followed token by token in the copy. If
it ends for good, with a semicolon or a closing bracket, the copy ends there too. If its end is left
open, the copy comes to the same place and what follows there decides.
-/

namespace ModuleBridge

open Cursor List Scan StretchKind

variable {c d last start q : Cursor} {kind : StretchKind} {crosses : Bool} {b : UInt8}
  {rest : List UInt8} {depth k s depth' : Nat} {range : Range}

/-- The stretch from `start` ends at `d` because of what follows, with `depth` brackets open: the
end of the text, or a byte that it ends before. -/
def EndsOpen (kind : StretchKind) (start d : Cursor) (depth : Nat) : Prop :=
  ∃ crosses q, trivia d = .ok crosses q ∧
    (q.after = [] ∨ depth = 0 ∧ ∃ b rest, q.after = b :: rest ∧
      kind.boundary start d crosses b = .before)

def Cursor.blanksLength (c : Cursor) : Nat :=
  (c.after.takeWhile fun b => b == byte ' ' || b == byte '\t').length

theorem Cursor.pastSemicolon_eq_ite (c : Cursor) :
    c.pastSemicolon =
      if c.after[c.blanksLength]? = some (byte ';') then c.advance (c.blanksLength + 1) else c := by
  simp only [pastSemicolon, blanksLength, head?_drop, beq_iff_eq]
  congr

def closesStatement (b : UInt8) : Bool :=
  b == byte ';' || b == byte '\x7d'

theorem Cursor.pastSemicolon_last? (h : Cursor.Past closesStatement c d) :
    d.pastSemicolon.last?.any closesStatement = true := by
  rw [pastSemicolon_eq_ite]
  split
  · rename_i hsemicolon
    rw [last?_advance_succ hsemicolon]
    rfl
  · exact h.last?

/-- Only a semicolon or a closer with nothing before it is taken along. -/
theorem boundary_after_cases (h : kind.boundary start last crosses b = .after) :
    b = byte ';' ∨ isCloser b = true ∧ last.pos = start.pos := by
  unfold boundary at h
  split at h
  · cases h
  · split at h
    · rename_i hsemicolon
      exact .inl (beq_iff_eq.mp hsemicolon)
    · split at h
      · cases h
      · split at h
        · rename_i hclose
          split at h
          · rename_i hlone
            rw [Bool.and_eq_true, beq_iff_eq, beq_iff_eq] at hlone
            exact .inr ⟨hclose, hlone.2⟩
          · cases h
        · cases h

theorem boundary_inside (h : kind.boundary start last crosses b = .inside) :
    isTerminator b = false := by
  unfold boundary at h
  split at h
  · cases h
  · split at h
    · cases kind <;> cases h
    · rename_i hsemicolon
      split at h
      · cases h
      · split at h
        · split at h <;> cases h
        · rename_i hclose
          rw [isTerminator, Bool.or_eq_false_iff]
          exact ⟨by simpa using hsemicolon, by simpa using hclose⟩

/-- A character of several bytes does not end with an ASCII byte. -/
theorem Cursor.last?_advance_stepLength {a : UInt8} (hc : c.after = b :: rest)
    (ha : (c.advance c.stepLength).last? = some a) : a = b ∨ ¬a < 128 := by
  have hone : (c.advance 1).last? = some b := last?_advance_succ (by rw [hc]; rfl)
  unfold stepLength at ha
  split at ha
  · rename_i ch hch
    by_cases hascii : a < 128
    · refine .inl ?_
      obtain ⟨more, hmore⟩ := exists_of_decodeFirst? hch
      have hmem : a ∈ String.utf8EncodeChar ch := by
        rw [last?, before_advance, hmore, ← String.length_utf8EncodeChar,
          take_left] at ha
        cases hencode : (String.utf8EncodeChar ch).reverse with
        | nil =>
          have hsize := congrArg List.length hencode
          rw [length_reverse, String.length_utf8EncodeChar] at hsize
          exact absurd hsize (Nat.ne_of_gt ch.utf8Size_pos)
        | cons e front =>
          rw [hencode] at ha
          cases ha
          exact mem_reverse.mp (by rw [hencode]; exact mem_cons_self)
      rw [utf8EncodeChar_eq_of_mem hmem hascii, hc] at hmore
      exact (List.cons.inj hmore).1.symm
    · exact .inr hascii
  · exact .inl (Option.some.inj (ha.symm.trans hone))

theorem closesStatement_ascii : closesStatement b = true → b < 128 := by
  apply forall_byte _ b
  decide +kernel

theorem endsLiteral_open : endsLiteral b = true → closesStatement b = false := by
  apply forall_byte _ b
  decide +kernel

theorem boundary_after_kind (h : kind.boundary start last crosses b = .after) :
    kind = .statement := by
  cases kind with
  | statement => rfl
  | expression =>
    unfold boundary at h
    have hkind : (StretchKind.expression == StretchKind.statement) = false := rfl
    simp only [hkind, Bool.false_and, Bool.false_eq_true, if_false] at h
    repeat' split at h
    all_goals cases h

/-- A stretch that moves at all passes the token after the trivia. -/
theorem StretchRun.eq_or_passes (h : StretchRun kind start c depth d) :
    d = c ∨ ∃ crosses q, trivia c = .ok crosses q ∧ q.pos < d.pos := by
  cases h with
  | atEnd | before => exact .inl rfl
  | after hspace hq hb =>
    refine .inr ⟨_, _, hspace, ?_⟩
    simp [hq]
  | block hspace hq _ =>
    refine .inr ⟨_, _, hspace, Nat.lt_of_lt_of_le ?_ (pastSemicolon_onward _).pos_le⟩
    simp [hq]
  | token hspace hq _ _ htoken hrest =>
    exact .inr ⟨_, _, hspace, Nat.lt_of_lt_of_le (token_pos_lt (by simp [hq]) htoken)
      hrest.onward.pos_le⟩

/-- A statement goes on after a token outside all brackets only if the token does not close it. -/
theorem token_open {q e : Cursor} (hq : q.after = b :: rest)
    (hb : depth = 0 → isTerminator b = false) (hbrace : ¬(depth = 1 ∧ b = byte '\x7d'))
    (htoken : token depth q = .ok 0 e) : e.last?.any closesStatement = false := by
  have hone : (q.advance 1).last? = some b := last?_advance_succ (by rw [hq]; rfl)
  rcases token_cases hq htoken with ⟨hliteral, _⟩ | ⟨_, ⟨_, hdepth, _⟩ | ⟨_, hclose, hdepth, rfl⟩ |
    ⟨_, _, hdepth, ⟨hname, rfl⟩ | ⟨_, rfl⟩⟩⟩
  · obtain ⟨n, a, rfl, hget, ha⟩ := literal_past hliteral
    rw [last?_advance_succ hget]
    exact endsLiteral_open ha
  · omega
  · -- The bracket that leaves the depth at zero was the only open one, and is no brace.
    have hdepth : depth = 1 := by
      rcases Nat.eq_zero_or_pos depth with hzero | hpos
      · have hterminator := hb hzero
        rw [isTerminator, hclose, Bool.or_true] at hterminator
        cases hterminator
      · omega
    rw [hone, Option.any_some, closesStatement, Bool.or_eq_false_iff, beq_eq_false_iff_ne,
      beq_eq_false_iff_ne]
    constructor
    · rintro rfl
      exact absurd hclose (by decide)
    · exact fun hb => hbrace ⟨hdepth, hb⟩
  · have hpos : 0 < (q.after.takeWhile isNamePart).length := by
      rw [hq, takeWhile_cons_of_pos hname]
      exact Nat.succ_pos _
    obtain ⟨n, hn⟩ := Nat.exists_eq_succ_of_ne_zero (Nat.ne_of_gt hpos)
    have hinside : n < (q.after.takeWhile isNamePart).length := by omega
    obtain ⟨a, hget, ha⟩ := takeWhile_inside hinside
    rw [hn, last?_advance_succ hget]
    exact endsLiteral_open (by rw [endsLiteral, ha, Bool.or_true])
  · cases hlast : (q.advance q.stepLength).last? with
    | none => rfl
    | some a =>
      rw [Option.any_some]
      rcases last?_advance_stepLength hq hlast with rfl | hhigh
      · have hterminator := hb hdepth.symm
        rw [isTerminator, Bool.or_eq_false_iff] at hterminator
        rw [closesStatement, hterminator.1, Bool.false_or, beq_eq_false_iff_ne]
        rintro rfl
        exact absurd hterminator.2 (by decide)
      · cases hclose : closesStatement a with
        | false => rfl
        | true => exact absurd (closesStatement_ascii hclose) hhigh

/-- Outside all brackets a statement has not been closed by what came so far. -/
def IsPending (kind : StretchKind) (start d : Cursor) (depth : Nat) : Prop :=
  kind = .statement → depth = 0 → d = start ∨ d.last?.any closesStatement = false

/-- The stretch from `start` ends at `d` for good: with a semicolon or a brace, or as a closer that
stands alone. -/
def EndsClosed (start d : Cursor) : Prop :=
  d.last?.any closesStatement = true ∨
    ∃ crosses q b rest, trivia start = .ok crosses q ∧ q.after = b :: rest ∧ isCloser b = true ∧
      d = q.advance 1

namespace Copied

variable {c c' : Cursor} {t r r' : List UInt8} (h : Copied c c' t r r')

include h

theorem last?_eq (hk : 0 < k) (hle : k ≤ t.length) :
    (c'.advance k).last? = (c.advance k).last? := by
  obtain ⟨k, rfl⟩ := Nat.exists_eq_succ_of_ne_zero (Nat.ne_of_gt hk)
  have hget : ∀ s : List UInt8, (t ++ s)[k]? = some t[k] := by
    intro s
    rw [getElem?_append_left hle, getElem?_eq_getElem hle]
  have hhere : c.after[k]? = some t[k] := by rw [h.here, hget]
  have hthere : c'.after[k]? = some t[k] := by rw [h.there, hget]
  rw [last?_advance_succ hhere, last?_advance_succ hthere]

theorem isEmpty_rangeTo {j : Nat} (hk : k ≤ t.length) (hj : j ≤ t.length) :
    ((c'.advance k).rangeTo (c'.advance j)).isEmpty =
      ((c.advance k).rangeTo (c.advance j)).isEmpty := by
  rw [Range.isEmpty, Range.isEmpty, Bool.eq_iff_iff, beq_iff_eq, beq_iff_eq]
  simp only [pos_rangeTo, stop_rangeTo]
  rw [h.pos_here hk, h.pos_here hj, h.pos_there hk, h.pos_there hj]
  omega

theorem boundary_eq (kind : StretchKind) (hsk : s ≤ k) (hk : k ≤ t.length) (crosses : Bool)
    (b : UInt8) :
    kind.boundary (c'.advance s) (c'.advance k) crosses b =
      kind.boundary (c.advance s) (c.advance k) crosses b := by
  have hs : s ≤ t.length := Nat.le_trans hsk hk
  have hlt : decide ((c'.advance s).pos < (c'.advance k).pos) =
      decide ((c.advance s).pos < (c.advance k).pos) := by
    rw [decide_eq_decide, h.pos_here hs, h.pos_here hk, h.pos_there hs, h.pos_there hk]
    omega
  have heq : ((c'.advance k).pos == (c'.advance s).pos) =
      ((c.advance k).pos == (c.advance s).pos) := by
    rw [Bool.eq_iff_iff, beq_iff_eq, beq_iff_eq, h.pos_here hs, h.pos_here hk, h.pos_there hs,
      h.pos_there hk]
    omega
  rcases Nat.lt_or_eq_of_le hsk with hlt' | rfl
  · have hlast : (c'.advance k).before.head? = (c.advance k).before.head? :=
      h.last?_eq (Nat.zero_lt_of_lt hlt') hk
    unfold boundary endsAtLineBreak
    rw [hlt, heq, hlast]
  · simp [boundary]

theorem takeWhile_all {p : UInt8 → Bool} (hp : p (byte '\n') = false) (hk : k ≤ t.length)
    (hle : t.length ≤ k + ((c.advance k).after.takeWhile p).length) :
    (c'.advance k).after.takeWhile p = t.drop k := by
  have hall : ∀ b ∈ t.drop k, p b = true := by
    intro b hb
    have hfront : t.drop k <+: (c.advance k).after := by
      rw [h.after_here hk]
      exact prefix_append _ _
    have hrun : t.drop k <+: (c.advance k).after.takeWhile p :=
      prefix_of_prefix_length_le hfront (List.takeWhile_prefix p)
        (by rw [length_drop]; omega)
    exact all_eq_true.mp all_takeWhile b (hrun.subset hb)
  rw [h.after_there hk, takeWhile_append_of_pos hall]
  rcases h.endsLine.cases with rfl | ⟨more, rfl⟩
  · simp
  · rw [takeWhile_cons_of_neg (by rw [hp]; exact Bool.false_ne_true), append_nil]

theorem pastSemicolon_eq (hk : k ≤ t.length)
    (hd : (c.advance k).pastSemicolon.pos ≤ c.pos + t.length) :
    (c'.advance k).pastSemicolon = c'.advance ((c.advance k).pastSemicolon.pos - c.pos) := by
  have hstay : c'.advance ((c.advance k).pos - c.pos) = c'.advance k := by
    rw [h.pos_here hk, Nat.add_sub_cancel_left]
  rw [pastSemicolon_eq_ite] at hd
  rw [pastSemicolon_eq_ite, pastSemicolon_eq_ite]
  by_cases hin : k + (c.advance k).blanksLength < t.length
  · -- The byte after the blanks belongs to the piece.
    have hsame : (c'.advance k).blanksLength = (c.advance k).blanksLength :=
      congrArg List.length (h.takeWhile_eq (by decide) hk (Nat.le_of_lt hin))
    have hbyte : (c'.advance k).after[(c.advance k).blanksLength]? =
        (c.advance k).after[(c.advance k).blanksLength]? := by
      have hdrop : (c.advance k).blanksLength < (t.drop k).length := by
        rw [length_drop]
        omega
      rw [h.after_here hk, h.after_there hk, getElem?_append_left hdrop,
        getElem?_append_left hdrop]
    rw [hsame, hbyte]
    split
    · rename_i hsemicolon
      rw [h.advance_there hk (List.getElem?_eq_some_iff.mp hsemicolon).1]
    · exact hstay.symm
  · have hhere : (c.advance k).after[(c.advance k).blanksLength]? ≠ some (byte ';') := by
      intro hsemicolon
      have hlength := (List.getElem?_eq_some_iff.mp hsemicolon).1
      rw [if_pos hsemicolon, pos_advance, Nat.min_eq_left hlength, h.pos_here hk] at hd
      omega
    have hthere : (c'.advance k).after[(c'.advance k).blanksLength]? ≠ some (byte ';') := by
      have hall : (c'.advance k).blanksLength = (t.drop k).length :=
        congrArg List.length (h.takeWhile_all (by decide) hk (Nat.le_of_not_lt hin))
      rw [hall, h.after_there hk, getElem?_append_right (Nat.le_refl _), Nat.sub_self,
        ← head?_eq_getElem?]
      intro hsemicolon
      exact absurd (h.endsLine _ hsemicolon) (by decide)
    rw [if_neg hhere, if_neg hthere, hstay]

theorem trivia_follows (hk : k ≤ t.length) (hspace : trivia (c.advance k) = .ok crosses q)
    (hq : q.pos < c.pos + t.length) :
    ∃ j, k ≤ j ∧ j < t.length ∧ q = c.advance j ∧
      trivia (c'.advance k) = .ok crosses (c'.advance j) := by
  obtain ⟨n, hreach, rfl⟩ := trivia_eq_ok.mp hspace
  have hn := (triviaReach_onward hreach).1
  rw [pos_advance, Nat.min_eq_left hn, h.pos_here hk] at hq
  exact ⟨k + n, Nat.le_add_right k n, by omega, advance_advance ..,
    h.trivia_eq hk hreach (by omega)⟩

theorem after_follows (hk : k < t.length) (hb : (c.advance k).after = b :: rest) :
    ∃ rest', (c'.advance k).after = b :: rest' := by
  obtain ⟨b', x, _, _, _, hhere, hthere⟩ := h.exists_after hk
  rw [hhere] at hb
  cases hb
  exact ⟨_, hthere⟩

/-- The copy of a stretch comes to the same end, for good or with the end left open. -/
theorem stretchFrom_follows {n : Nat} (hrun : StretchRun kind (c.advance s) (c.advance k) n d)
    (hsk : s ≤ k) (hk : k ≤ t.length) (hpending : IsPending kind (c.advance s) (c.advance k) n)
    (hd : d.pos ≤ c.pos + t.length) :
    (∃ j m, k ≤ j ∧ j ≤ t.length ∧ d = c.advance j ∧ EndsOpen kind (c.advance s) d m ∧
      IsPending kind (c.advance s) d m ∧
      stretchFrom kind (c'.advance s) (c'.advance k) n (c'.advance k) =
        stretchFrom kind (c'.advance s) (c'.advance j) m (c'.advance j)) ∨
    (kind = .statement ∧ EndsClosed (c.advance s) d ∧
      stretchFrom kind (c'.advance s) (c'.advance k) n (c'.advance k) =
        .ok ((c'.advance s).rangeTo (c'.advance (d.pos - c.pos)))
          (c'.advance (d.pos - c.pos))) := by
  generalize hx : c.advance k = x at hrun
  induction hrun generalizing k with
  | atEnd hspace hq =>
    subst hx
    exact .inl ⟨k, _, Nat.le_refl k, hk, rfl, ⟨_, _, hspace, .inl hq⟩, hpending, rfl⟩
  | before hspace hq hb =>
    subst hx
    exact .inl ⟨k, 0, Nat.le_refl k, hk, rfl, ⟨_, _, hspace, .inr ⟨rfl, _, _, hq, hb⟩⟩,
      hpending, rfl⟩
  | @after x q crosses b rest hspace hq hb =>
    subst hx
    have hone : q.pos + 1 = (q.advance 1).pos := by simp [hq]
    obtain ⟨j, hkj, hj, rfl, hspace'⟩ := h.trivia_follows hk hspace (by omega)
    obtain ⟨rest', hq'⟩ := h.after_follows hj hq
    have hb' := (h.boundary_eq kind hsk hk crosses b).trans hb
    refine .inr ⟨boundary_after_kind hb, ?_, ?_⟩
    · rcases boundary_after_cases hb with rfl | ⟨hclose, hstart⟩
      · exact .inl (Cursor.Past.of_cons hq (by decide)).last?
      · rw [h.pos_here hk, h.pos_here (Nat.le_trans hsk hk)] at hstart
        have hks : k = s := by omega
        rw [hks] at hspace
        exact .inr ⟨crosses, _, b, rest, hspace, hq, hclose, rfl⟩
    rw [h.advance_there (Nat.le_of_lt hj) (by rw [hq]; exact Nat.succ_pos _)]
    exact stretchFrom_of_run (.after hspace' hq' hb')
  | @block x q crosses rest hspace hq hkind =>
    subst hx
    have hone : q.pos + 1 = (q.advance 1).pos := by simp [hq]
    have hle := (pastSemicolon_onward (q.advance 1)).pos_le
    obtain ⟨j, hkj, hj, rfl, hspace'⟩ := h.trivia_follows hk hspace (by omega)
    obtain ⟨rest', hq'⟩ := h.after_follows hj hq
    have hpast : ((c'.advance j).advance 1).pastSemicolon =
        c'.advance (((c.advance j).advance 1).pastSemicolon.pos - c.pos) := by
      rw [advance_advance] at hd ⊢
      rw [h.pastSemicolon_eq hj hd, advance_advance]
    refine .inr ⟨hkind, .inl (pastSemicolon_last? (.of_cons hq (by decide))), ?_⟩
    rw [← hpast]
    exact stretchFrom_of_run (.block hspace' hq' hkind)
  | @token x q e d depth depth' crosses b rest hspace hq hb hopen htoken hrest ih =>
    subst hx
    have hlt := token_pos_lt (by simp [hq]) htoken
    have hle := hrest.onward.pos_le
    obtain ⟨j, hkj, hj, rfl, hspace'⟩ := h.trivia_follows hk hspace (by omega)
    obtain ⟨rest', hq'⟩ := h.after_follows hj hq
    have htoken' := h.token_eq hj htoken (by omega)
    obtain ⟨i, hji, hi, rfl, hoffset⟩ :=
      h.exists_offset (Nat.le_of_lt hj) (token_onward _ htoken) (by omega)
    rw [hoffset] at htoken'
    have hround : stretchFrom kind (c'.advance s) (c'.advance k) depth (c'.advance k) =
        stretchFrom kind (c'.advance s) (c'.advance i) depth' (c'.advance i) := by
      have hb' : (if depth = 0 then kind.boundary (c'.advance s) (c'.advance k) crosses b
          else .inside) = .inside := by
        split
        · rename_i hdepth
          rw [h.boundary_eq kind hsk hk, hb hdepth]
        · rfl
      rw [stretchFrom_eq, hspace']
      simp only [hq', hb', htoken', if_neg hopen]
    rw [hround]
    have hpending' : IsPending kind (c.advance s) (c.advance i) depth' := by
      intro hkind hdepth
      rw [hdepth] at htoken
      exact .inr (token_open hq (fun hzero => boundary_inside (hb hzero))
        (fun hbrace => hopen ⟨hbrace.1, hbrace.2, hkind⟩) htoken)
    rcases ih (by omega) hi hpending' hd rfl with ⟨j', m, hij, hj', hrest⟩ | hclosed
    · exact .inl ⟨j', m, by omega, hj', hrest⟩
    · exact .inr hclosed

end Copied

/-! ## Heads of classes -/

/-- Pass one literal or one character of the head of a class, and answer the bracket depth after
it. -/
def Scan.headToken (depth : Nat) : Scan Nat := fun c =>
  match literal c with
  | .error fault d => .error fault d
  | .ok true d => .ok depth d
  | .ok false _ =>
    if c.byte?.any isOpener then .ok (depth + 1) (c.advance c.stepLength)
    else if c.byte?.any isCloser then .ok (depth - 1) (c.advance c.stepLength)
    else .ok depth (c.advance c.stepLength)

theorem heritageFrom_eq (start c : Cursor) (depth : Nat) :
    heritageFrom start c depth c =
      match trivia c with
      | .error fault q => .error fault q
      | .ok _ q =>
        match q.after with
        | [] => .error (q.fault .expected ["\x7b"]) q
        | b :: _ =>
          if depth = 0 && b == byte '\x7b' then .ok (start.rangeTo c) q
          else
            match headToken depth q with
            | .error fault e => .error fault e
            | .ok depth' e => heritageFrom start e depth' e := by
  rw [heritageFrom, trivia]
  cases triviaReach c.after with
  | unclosed length => rfl
  | clear length crosses =>
    dsimp only
    split
    · rename_i hq
      rw [hq]
    · rename_i b rest hq
      have hbyte : (c.advance length).byte? = some b := by rw [byte?, hq]; rfl
      simp only [hq, headToken, hbyte, Option.any_some]
      cases literal (c.advance length) with
      | error fault e => rfl
      | ok found e =>
        cases found with
        | true => rfl
        | false =>
          dsimp only
          cases isOpener b with
          | true => rfl
          | false => cases isCloser b <;> rfl


theorem heritageFrom_cases (h : heritageFrom start c depth c = .ok range d) :
    ∃ crosses q b rest, trivia c = .ok crosses q ∧ q.after = b :: rest ∧
      ((depth = 0 && b == byte '\x7b') = true ∧ range = start.rangeTo c ∧ d = q ∨
        (depth = 0 && b == byte '\x7b') = false ∧ ∃ depth' e, headToken depth q = .ok depth' e ∧
          heritageFrom start e depth' e = .ok range d) := by
  rw [heritageFrom_eq] at h
  cases hspace : trivia c with
  | error fault q =>
    rw [hspace] at h
    cases h
  | ok crosses q =>
    rw [hspace] at h
    dsimp only at h
    cases hq : q.after with
    | nil =>
      rw [hq] at h
      cases h
    | cons b rest =>
      rw [hq] at h
      dsimp only at h
      refine ⟨crosses, q, b, rest, rfl, hq, ?_⟩
      split at h
      · rename_i hbrace
        cases h
        exact .inl ⟨hbrace, rfl, rfl⟩
      · rename_i hother
        cases htoken : headToken depth q with
        | error fault e =>
          rw [htoken] at h
          cases h
        | ok depth' e =>
          rw [htoken] at h
          exact .inr ⟨by simpa using hother, depth', e, rfl, h⟩

namespace Scan

theorem headToken_onward (depth : Nat) : MovesOnward (headToken depth) := by
  intro c depth' d h
  unfold headToken at h
  have hstep : c.Onward (c.advance c.stepLength) := .of_advance fun hbound =>
    hbound.advance_stepLength
  split at h
  · cases h
  · rename_i e hlit
    cases h
    exact literal_onward hlit
  · split at h
    · cases h
      exact hstep
    · split at h
      · cases h
        exact hstep
      · cases h
        exact hstep

theorem headToken_pos_lt (hne : c.after ≠ []) (h : headToken depth c = .ok depth' d) :
    c.pos < d.pos := by
  have hpos := (headToken_onward depth h).pos_add_length
  suffices hlt : d.after.length < c.after.length by omega
  obtain ⟨b, rest, hc⟩ := exists_cons_of_ne_nil hne
  have hstep := advance_lt c.stepLength_pos hc
  unfold headToken at h
  split at h
  · cases h
  · rename_i e hlit
    cases h
    exact literal_lt hlit
  · split at h
    · cases h
      exact hstep
    · split at h
      · cases h
        exact hstep
      · cases h
        exact hstep

end Scan

namespace Copied

variable {c c' : Cursor} {t r r' : List UInt8} (h : Copied c c' t r r')

include h

theorem byte?_eq (hlt : k < t.length) : (c'.advance k).byte? = (c.advance k).byte? := by
  obtain ⟨b, x, _, _, _, hhere, hthere⟩ := h.exists_after hlt
  rw [byte?, byte?, hhere, hthere]
  rfl

theorem headToken_eq (hlt : k < t.length) (hrun : headToken depth (c.advance k) = .ok depth' d)
    (hd : d.pos ≤ c.pos + t.length) :
    headToken depth (c'.advance k) = .ok depth' (c'.advance (d.pos - c.pos)) := by
  have hk := Nat.le_of_lt hlt
  obtain ⟨b, x, _, _, _, hhere, _⟩ := h.exists_after hlt
  have hstep := h.advance_there hk (stepLength_le (c := c.advance k) (by rw [hhere]; simp))
  unfold headToken at hrun ⊢
  rw [h.byte?_eq hlt, h.stepLength_eq hlt]
  cases hlit : literal (c.advance k) with
  | error fault e =>
    rw [hlit] at hrun
    cases hrun
  | ok found e =>
    rw [hlit] at hrun
    cases found with
    | true =>
      cases hrun
      rw [h.literal_eq hlt hlit hd]
    | false =>
      cases literal_eq_false hlit
      rw [h.literal_eq hlt hlit (by rw [h.pos_here hk]; omega)]
      dsimp only at hrun ⊢
      cases hopen : (c.advance k).byte?.any isOpener with
      | true =>
        rw [hopen] at hrun
        cases hrun
        rw [hstep]
        rfl
      | false =>
        rw [hopen] at hrun
        cases hclose : (c.advance k).byte?.any isCloser with
        | true =>
          rw [hclose] at hrun
          cases hrun
          rw [hstep]
          rfl
        | false =>
          rw [hclose] at hrun
          cases hrun
          rw [hstep]
          rfl

/-- The head of a class whose body starts inside the piece is read the same in the copy. -/
theorem heritageFrom_follows (hsk : s ≤ k) (hk : k ≤ t.length)
    (hrun : heritageFrom (c.advance s) (c.advance k) depth (c.advance k) = .ok range d)
    (hd : d.pos < c.pos + t.length) :
    ∃ range', heritageFrom (c'.advance s) (c'.advance k) depth (c'.advance k) =
      .ok range' (c'.advance (d.pos - c.pos)) ∧ range'.isEmpty = range.isEmpty := by
  induction hsize : t.length - k using Nat.strongRecOn generalizing k depth with
  | ind size ih =>
    subst hsize
    obtain ⟨crosses, q, b, rest, hspace, hq, hround⟩ := heritageFrom_cases hrun
    rcases hround with ⟨hbrace, rfl, rfl⟩ | ⟨hother, depth', e, htoken, hrest⟩
    · obtain ⟨j, hkj, hj, rfl, hspace'⟩ := h.trivia_follows hk hspace hd
      obtain ⟨rest', hq'⟩ := h.after_follows hj hq
      refine ⟨(c'.advance s).rangeTo (c'.advance k), ?_, ?_⟩
      · rw [heritageFrom_eq, hspace', h.pos_here (Nat.le_of_lt hj), Nat.add_sub_cancel_left]
        simp only [hq', hbrace, if_true]
      · exact h.isEmpty_rangeTo (Nat.le_trans hsk hk) hk
    · have hlt := headToken_pos_lt (by simp [hq]) htoken
      have hend := (heritageFrom_onward hrest).pos_le
      obtain ⟨j, hkj, hj, rfl, hspace'⟩ := h.trivia_follows hk hspace (by omega)
      obtain ⟨rest', hq'⟩ := h.after_follows hj hq
      have htoken' := h.headToken_eq hj htoken (by omega)
      obtain ⟨i, hji, hi, rfl, hoffset⟩ :=
        h.exists_offset (Nat.le_of_lt hj) (headToken_onward _ htoken) (by omega)
      rw [hoffset] at htoken'
      rw [h.pos_here hi, h.pos_here (Nat.le_of_lt hj)] at hlt
      obtain ⟨range', hrun', hempty⟩ := ih _ (by omega) (by omega) hi hrest rfl
      refine ⟨range', ?_, hempty⟩
      rw [heritageFrom_eq, hspace']
      simp only [hq', hother, htoken', hrun', Bool.false_eq_true, if_false]

end Copied

end ModuleBridge
