import ModuleBridge.Proofs.Source.GapCode

/-!
# Stretches over a gap

Expressions and the heads of classes end alike over a comment and over blanks. So do statements, with
one exception: the semicolon that a statement takes along after its closing brace is looked for
behind blanks, but not behind a comment. `Gap.Parted` is what then differs.
-/

namespace ModuleBridge

open Scan Cursor List

variable {rest : List UInt8} {start start' : Cursor}

namespace Gap

variable {g : Gap} {c d : Cursor} {x y : List UInt8} {b : UInt8}

/-! ## Tokens -/

/-- A token has ended at aligned cursors: the byte before them is the same. -/
structure Ended (g : Gap) (c d : Cursor) : Prop where
  aligned : g.Aligned c d
  last_eq : c.last? = d.last?

theorem Before.ended (h : g.Before c d x y) : g.Ended c d :=
  ⟨.before h, by rw [last?, last?, h.before_here, h.before_there]⟩

/-- After the gap the byte before aligned cursors is the same, unless the gap itself is. -/
theorem Aligned.ended (h : g.Aligned c d) (hlt : g.stop < c.pos) : g.Ended c d := by
  refine ⟨h, ?_⟩
  obtain ⟨x, y, h⟩ := h.exists_beyond (Nat.le_of_lt hlt)
  have hne : x.reverse ≠ [] := by
    intro hnil
    rw [h.pos_here, reverse_eq_nil_iff.mp hnil, stop] at hlt
    exact absurd hlt (Nat.lt_irrefl _)
  obtain ⟨b, more, hmore⟩ := exists_cons_of_ne_nil hne
  rw [last?, last?, h.before_here, h.before_there, hmore]
  rfl

theorem Beyond.literal_cases (hslash : g.turnsSlash = false) (h : g.Beyond c d x (b :: rest))
    (hclear : triviaItem (b :: rest) = .nothing) :
    Agree g.Aligned Eq (literal c) (literal d) ∨
      b = byte '/' ∧ literal c = .ok false c ∧ literal d = .ok true (d.advance 1) := by
  have haligned : g.Aligned c d := .beyond h
  simp only [literal, h.after_here, h.after_there]
  rcases h.literalStart_cases hslash hclear with hsame | ⟨rfl, hnone, hspan⟩
  · left
    rw [hsame, haligned.pos_eq]
    cases literalStart d.before b rest with
    | none => exact .ok rfl haligned
    | span more => exact .ok rfl (.beyond (h.advance _))
    | broken more =>
      dsimp only
      rw [unterminatedString_eq haligned (.beyond (h.advance (more + 1)))]
      exact .error
    | template =>
      have hstack : ∀ e ∈ [Enclosure.template c.pos], g.MayHold (c.advance 1).pos e := by
        rw [forall_mem_singleton, MayHold, pos_advance, stop, h.pos_here]
        omega
      have hone : g.Aligned (c.advance 1) (d.advance 1) := .beyond (h.advance 1)
      dsimp only
      rcases (hone.closes hslash hstack).elim with
        ⟨fault, e, e', here, there⟩ | ⟨_, _, e, e', here, there, _, hend⟩
      · rw [here, there]
        exact .error
      · rw [here, there]
        exact .ok rfl hend
  · right
    rw [hnone, hspan]
    exact ⟨rfl, rfl, rfl⟩

theorem stepLength_slash (h : c.after = byte '/' :: rest) : c.stepLength = 1 := by
  have hread : decodeFirst? (byte '/' :: rest) = some '/' := decodeFirst?_utf8EncodeChar '/' rest
  rw [stepLength, char?, h, hread]
  rfl

theorem Before.token (h : g.Before c d x (b :: y)) (depth : Nat) :
    Agree g.Ended Eq (token depth c) (token depth d) := by
  have hlength : ∀ n, n ≤ (b :: y).length → g.Ended (c.advance n) (d.advance n) :=
    fun n hn => (h.advance hn).ended
  have here := h.after_here
  have there := h.after_there
  rw [cons_append] at here there
  simp only [Scan.token, here, there, literal_of_plain here h.plain, literal_of_plain there h.plain]
  split
  · exact .ok rfl (hlength 1 (by simp))
  · split
    · exact .ok rfl (hlength 1 (by simp))
    · split
      · rw [endsAtGap_namePart.takeWhile_filled, endsAtGap_namePart.takeWhile_cleared]
        refine .ok rfl (hlength _ ?_)
        have hle := (takeWhile_sublist isNamePart (l := y)).length_le
        rw [length_cons]
        omega
      · rw [← (Settled.before h).stepLength_eq]
        exact .ok rfl (hlength _ h.stepLength_le)

theorem Beyond.agree_ended {α : Type} {op : Scan α} (hop : MovesOnward op)
    (hlt : ∀ a e, op c = .ok a e → e.after.length < c.after.length) (h : g.Beyond c d x y)
    (hagree : Agree g.Aligned Eq (op c) (op d)) : Agree g.Ended Eq (op c) (op d) := by
  rcases hagree.elim with ⟨fault, e, e', here, there⟩ | ⟨a, _, e, e', here, there, rfl, hend⟩
  · rw [here, there]
    exact .error
  · have hlength := (hop here).pos_add_length
    have hless := hlt a e here
    have hpos := h.pos_here
    rw [here, there]
    refine .ok rfl (hend.ended ?_)
    rw [stop]
    omega

theorem Beyond.token (hslash : g.turnsSlash = false) {rest : List UInt8}
    (h : g.Beyond c d x (b :: rest)) (hclear : triviaItem (b :: rest) = .nothing) (depth : Nat) :
    Agree g.Aligned Eq (token depth c) (token depth d) := by
  have hadvance : ∀ n, g.Aligned (c.advance n) (d.advance n) := fun n => .beyond (h.advance n)
  rcases h.literal_cases hslash hclear with hagree | ⟨rfl, hfalse, htrue⟩
  · rcases hagree.elim with ⟨fault, e, e', here, there⟩ | ⟨found, _, e, e', here, there, rfl, hend⟩
    · simp only [Scan.token, h.after_here, h.after_there, here, there]
      exact .error
    · simp only [Scan.token, h.after_here, h.after_there, here, there]
      cases found with
      | true => exact .ok rfl hend
      | false =>
        dsimp only
        split
        · exact .ok rfl (hadvance 1)
        · split
          · exact .ok rfl (hadvance 1)
          · split
            · exact .ok rfl (hadvance _)
            · rw [← (Settled.beyond h).stepLength_eq]
              exact .ok rfl (hadvance _)
  · -- The slash is one byte of code on one side and a whole literal on the other.
    have hopener : isOpener (byte '/') = false := by decide
    have hcloser : isCloser (byte '/') = false := by decide
    have hname : isNamePart (byte '/') = false := by decide
    simp only [Scan.token, h.after_here, h.after_there, hfalse, htrue, hopener, hcloser, hname,
      Bool.false_eq_true, if_false, stepLength_slash h.after_here]
    exact .ok rfl (hadvance 1)

theorem Settled.token (hslash : g.turnsSlash = false) (h : g.Settled c d) (hne : c.after ≠ [])
    (hclear : triviaItem c.after = .nothing) (depth : Nat) :
    Agree g.Ended Eq (token depth c) (token depth d) := by
  cases h with
  | before h => exact h.token depth
  | @beyond x y h =>
    cases y with
    | nil => exact absurd h.after_here hne
    | cons b rest =>
      rw [h.after_here] at hclear
      exact h.agree_ended (token_onward depth) (fun _ _ hrun => token_lt hne hrun)
        (h.token hslash hclear depth)

theorem headToken_lt {depth depth' : Nat} (hne : c.after ≠ [])
    (h : headToken depth c = .ok depth' d) : d.after.length < c.after.length := by
  have hlength := (headToken_onward depth h).pos_add_length
  have hpos := headToken_pos_lt hne h
  omega

/-- What a byte of code does in the head of a class. -/
theorem Settled.headCode (h : g.Settled c d) (depth : Nat)
    (hend : g.Aligned (c.advance c.stepLength) (d.advance c.stepLength))
    (here : literal c = .ok false c) (there : literal d = .ok false d) :
    Agree g.Aligned Eq (headToken depth c) (headToken depth d) := by
  simp only [headToken, here, there, ← h.byte?_eq, ← h.stepLength_eq]
  split
  · exact .ok rfl hend
  · split
    · exact .ok rfl hend
    · exact .ok rfl hend

theorem Beyond.headToken (hslash : g.turnsSlash = false) (h : g.Beyond c d x (b :: rest))
    (hclear : triviaItem (b :: rest) = .nothing) (depth : Nat) :
    Agree g.Aligned Eq (headToken depth c) (headToken depth d) := by
  rcases h.literal_cases hslash hclear with hagree | ⟨rfl, hfalse, htrue⟩
  · rcases hagree.elim with ⟨fault, e, e', here, there⟩ | ⟨found, _, e, e', here, there, rfl, hend⟩
    · simp only [Scan.headToken, here, there]
      exact .error
    · cases found with
      | true =>
        simp only [Scan.headToken, here, there]
        exact .ok rfl hend
      | false =>
        rw [literal_eq_false here] at here
        rw [literal_eq_false there] at there
        exact (Settled.beyond h).headCode depth (.beyond (h.advance _)) here there
  · have hbyte : c.byte? = some (byte '/') := by rw [byte?, h.after_here]; rfl
    have hopener : isOpener (byte '/') = false := by decide
    have hcloser : isCloser (byte '/') = false := by decide
    simp only [Scan.headToken, hfalse, htrue, hbyte, Option.any_some, hopener, hcloser,
      Bool.false_eq_true, if_false, stepLength_slash h.after_here]
    exact .ok rfl (.beyond (h.advance 1))

theorem Settled.headToken (hslash : g.turnsSlash = false) (h : g.Settled c d) (hne : c.after ≠ [])
    (hclear : triviaItem c.after = .nothing) (depth : Nat) :
    Agree g.Aligned Eq (headToken depth c) (headToken depth d) := by
  cases h with
  | before h =>
    exact (Settled.before h).headCode depth (.before (h.advance h.stepLength_le))
      (literal_of_plain h.after_here h.plain) (literal_of_plain h.after_there h.plain)
  | @beyond x y h =>
    cases y with
    | nil => exact absurd h.after_here hne
    | cons b rest =>
      rw [h.after_here] at hclear
      exact h.headToken hslash hclear depth

/-! ## Semicolons behind the gap -/

def isInlineBlank (b : UInt8) : Bool :=
  b == byte ' ' || b == byte '\t'

theorem isBlankByte_of_inline {b : UInt8} : isInlineBlank b = true → isBlankByte b = true := by
  apply forall_byte _ b
  decide +kernel

/-- A block closes before the gap, just before the offset `brace`, and a semicolon stands at the
offset `semicolon` behind the gap. Between the two, outside the gap, are spaces and tabs only. -/
structure PartedAt (g : Gap) (brace semicolon : Nat) : Prop where
  front : ∃ head blanks, bytesOf g.front = head ++ byte '\x7d' :: blanks ∧
    blanks.all isInlineBlank = true ∧ brace = head.length + 1
  back : ∃ blanks tail, bytesOf g.back = blanks ++ byte ';' :: tail ∧
    blanks.all isInlineBlank = true ∧ semicolon = g.stop + blanks.length

/-- The statement ends at `c`, after its brace, in the text with the comment, and at `d`, after the
semicolon, in the text with blanks. -/
inductive Parted (g : Gap) (c d : Cursor) : Prop where
  | intro {q q' : Cursor} {x tail : List UInt8} (hat : g.PartedAt c.pos q.pos)
      (hspace : trivia c = .ok false q) (hbeyond : g.Beyond q q' x (byte ';' :: tail))
      (hd : d = q'.advance 1)

/-- Between the blanks on both sides of the gap there is nothing but trivia. -/
theorem Before.parted {blanks tail : List UInt8} (h : g.Before c d x y)
    (hlast : c.last? = some (byte '\x7d')) (hy : y.all isInlineBlank = true)
    (hback : bytesOf g.back = blanks ++ byte ';' :: tail) (hblanks : blanks.all isInlineBlank = true) :
    g.Parted c (d.advance (y.length + (g.width + blanks.length) + 1)) := by
  have hinline : ∀ {bytes : List UInt8}, bytes.all isInlineBlank = true →
      ∀ b ∈ bytes, isBlankByte b = true :=
    fun hall b hb => isBlankByte_of_inline (all_eq_true.mp hall b hb)
  have hreach : triviaReach c.after = .clear (y.length + (g.width + blanks.length)) false := by
    have hcode : triviaReach (byte ';' :: tail) = .clear 0 false := triviaReach_of_nothing rfl
    rw [h.after_here, triviaReach_blanks (hinline hy), g.triviaReach_filled, hback,
      triviaReach_blanks (hinline hblanks), hcode]
    rfl
  have hcross := h.cross blanks.length
  rw [hback, take_left, drop_left] at hcross
  refine .intro ⟨?_, ?_⟩ (trivia_eq_ok.mpr ⟨_, hreach, rfl⟩) hcross
    (advance_advance d _ 1).symm
  · rw [last?, h.before_here, head?_reverse, getLast?_eq_some_iff] at hlast
    obtain ⟨head, rfl⟩ := hlast
    refine ⟨head, y, ?_, hy, ?_⟩
    · rw [h.split, append_assoc]
      rfl
    · rw [h.pos_here, length_append]
      rfl
  · refine ⟨blanks, tail, hback, hblanks, ?_⟩
    rw [hcross.pos_here, stop]

/-- Blanks up to the gap go on in the text with blanks, and end in the text with the comment. -/
theorem Before.blanksLength_of_all (h : g.Before c d x y) (hy : y.all isInlineBlank = true) :
    c.blanksLength = y.length ∧ d.blanksLength =
      y.length + (g.width + ((bytesOf g.back).takeWhile isInlineBlank).length) := by
  have hall := all_eq_true.mp hy
  constructor
  · obtain ⟨rest, hrest⟩ := g.head_filled
    change (c.after.takeWhile isInlineBlank).length = _
    rw [h.after_here, hrest, takeWhile_append_of_pos hall,
      takeWhile_cons_of_neg (by decide), append_nil]
  · have hblanks : ∀ b ∈ bytesOf g.blanks, isInlineBlank b = true := by
      rw [bytes_blanks]
      intro b hb
      rw [eq_of_mem_replicate hb]
      decide
    change (d.after.takeWhile isInlineBlank).length = _
    rw [h.after_there, cleared, takeWhile_append_of_pos hall,
      takeWhile_append_of_pos hblanks, length_append, length_append, length_blanks]

/-- A semicolon is looked for up to the gap, or over it if it is blank. -/
theorem Before.pastSemicolon (h : g.Before c d x y) (hlast : c.last? = some (byte '\x7d')) :
    g.Aligned c.pastSemicolon d.pastSemicolon ∨ g.Parted c.pastSemicolon d.pastSemicolon := by
  by_cases hy : y.all isInlineBlank = true
  · obtain ⟨hlength, hlength'⟩ := h.blanksLength_of_all hy
    have hstay : c.pastSemicolon = c := by
      obtain ⟨rest, hrest⟩ := g.head_filled
      rw [pastSemicolon_eq_ite, hlength, h.after_here, hrest,
        getElem?_append_right (Nat.le_refl _), Nat.sub_self, getElem?_cons_zero,
        if_neg (by decide)]
    have hnext : d.after[d.blanksLength]? =
        (bytesOf g.back)[((bytesOf g.back).takeWhile isInlineBlank).length]? := by
      rw [hlength', h.after_there, ← head?_drop, ← drop_drop, drop_left,
        drop_cleared, head?_drop]
    rw [hstay, pastSemicolon_eq_ite d, hnext]
    split
    · rename_i hsemicolon
      right
      rw [hlength']
      have hdrop := dropWhile_eq_drop isInlineBlank (bytesOf g.back)
      obtain ⟨tail, htail⟩ : ∃ tail, (bytesOf g.back).dropWhile isInlineBlank = byte ';' :: tail := by
        rw [← head?_drop, ← hdrop] at hsemicolon
        exact head?_eq_some_iff.mp hsemicolon
      have hback : bytesOf g.back = (bytesOf g.back).takeWhile isInlineBlank ++ byte ';' :: tail := by
        rw [← htail, takeWhile_append_dropWhile]
      exact h.parted hlast hy hback all_takeWhile
    · exact .inl (.before h)
  · obtain ⟨hlt, htake⟩ := takeWhile_append_of_not_all hy
    have hlength : c.blanksLength = (y.takeWhile isInlineBlank).length := by
      change (c.after.takeWhile isInlineBlank).length = _
      rw [h.after_here, htake]
    have hlength' : d.blanksLength = (y.takeWhile isInlineBlank).length := by
      change (d.after.takeWhile isInlineBlank).length = _
      rw [h.after_there, htake]
    left
    rw [pastSemicolon_eq_ite, pastSemicolon_eq_ite d, hlength, hlength', h.after_here,
      h.after_there, getElem?_append_left hlt, getElem?_append_left hlt]
    split
    · exact .before (h.advance hlt)
    · exact .before h

theorem Ended.pastSemicolon (h : g.Ended c d) (hlast : c.last? = some (byte '\x7d')) :
    g.Aligned c.pastSemicolon d.pastSemicolon ∨ g.Parted c.pastSemicolon d.pastSemicolon := by
  cases h.aligned with
  | before h => exact h.pastSemicolon hlast
  | beyond h =>
    have hafter : d.after = c.after := by rw [h.after_here, h.after_there]
    have hlength : d.blanksLength = c.blanksLength := by
      rw [blanksLength, blanksLength, hafter]
    left
    rw [pastSemicolon_eq_ite, pastSemicolon_eq_ite d, hlength, hafter]
    split
    · exact .beyond (h.advance _)
    · exact .beyond h

/-! ## Stretches -/

/-- A stretch ends alike, or a statement ends with its brace in one text and with a semicolon behind
the gap in the other. -/
def StretchesAlike (g : Gap) (kind : StretchKind) (start start' : Cursor)
    (r r' : EStateM.Result Fault Cursor Range) : Prop :=
  Agree g.Aligned Eq r r' ∨ kind = .statement ∧
    ∃ e e', r = .ok (start.rangeTo e) e ∧ r' = .ok (start'.rangeTo e') e' ∧ g.Parted e e'

/-- The bytes at both ends of the stretch so far are the same, so a line end means the same. -/
theorem boundary_eq (kind : StretchKind) {crosses : Bool} {b : UInt8}
    (hstart : start'.pos = start.pos) (h : g.Aligned c d)
    (hlast : start.pos < c.pos → c.last? = d.last?) :
    kind.boundary start c crosses b = kind.boundary start' d crosses b := by
  have hbreak : (crosses && decide (start.pos < c.pos) && endsAtLineBreak c b) =
      (crosses && decide (start'.pos < d.pos) && endsAtLineBreak d b) := by
    rw [hstart, h.pos_eq]
    by_cases hlt : start.pos < c.pos
    · have hsame : endsAtLineBreak c b = endsAtLineBreak d b := by
        have hhead := hlast hlt
        rw [last?, last?] at hhead
        rw [endsAtLineBreak, endsAtLineBreak, hhead]
      rw [hsame]
    · simp only [hlt, decide_false, Bool.and_false, Bool.false_and]
  simp only [StretchKind.boundary, hbreak, hstart, h.pos_eq]

theorem Aligned.stretchFrom (hslash : g.turnsSlash = false) {kind : StretchKind} {depth : Nat}
    (hstart : start'.pos = start.pos) (h : g.Aligned c d)
    (hlast : start.pos < c.pos → c.last? = d.last?) :
    g.StretchesAlike kind start start' (stretchFrom kind start c depth c)
      (stretchFrom kind start' d depth d) := by
  induction hsize : c.after.length using Nat.strongRecOn generalizing c d depth with
  | ind size ih =>
    subst hsize
    have hrange : ∀ {e e' : Cursor}, g.Aligned e e' → start.rangeTo e = start'.rangeTo e' := by
      intro e e' hend
      rw [rangeTo, rangeTo, hstart, hend.pos_eq]
    rw [stretchFrom_eq, stretchFrom_eq kind start' d]
    rcases h.trivia_cases with ⟨fault, q, q', here, there⟩ |
      ⟨crosses, q, q', here, there, hq, hclear⟩
    · rw [here, there]
      exact .inl .error
    rw [here, there]
    dsimp only
    rcases hq.cases_after with ⟨hnil, hnil'⟩ | ⟨b, rest, rest', hafter, hafter', _⟩
    · rw [hnil, hnil']
      exact .inl (.ok (hrange h) h)
    simp only [hafter, hafter', ← boundary_eq kind hstart h hlast]
    cases (if depth = 0 then kind.boundary start c crosses b else .inside) with
    | before => exact .inl (.ok (hrange h) h)
    | after => exact .inl (.ok (hrange hq.advance_one) hq.advance_one)
    | inside =>
      have hne : q.after ≠ [] := by simp [hafter]
      rcases (hq.token hslash hne hclear depth).elim with
        ⟨fault, e, e', htoken, htoken'⟩ | ⟨depth', _, e, e', htoken, htoken', rfl, hend⟩
      · rw [htoken, htoken']
        exact .inl .error
      rw [htoken, htoken']
      dsimp only
      split
      · rename_i hblock
        obtain ⟨rfl, rfl, rfl⟩ := hblock
        have hbrace : e.last? = some (byte '\x7d') := by
          rw [token_closer hafter (by decide)] at htoken
          injection htoken with _ he
          rw [← he]
          exact last?_advance_succ (by rw [hafter]; rfl)
        cases hend.pastSemicolon hbrace with
        | inl haligned => exact .inl (.ok (hrange haligned) haligned)
        | inr hparted => exact .inr ⟨rfl, _, _, rfl, rfl, hparted⟩
      · have hlt := token_lt hne htoken
        have hle := (trivia_onward here).length_le
        exact ih _ (by omega) hend.aligned (fun _ => hend.last_eq) rfl

theorem Aligned.expression (hslash : g.turnsSlash = false) (h : g.Aligned c d) :
    Agree g.Aligned Eq (expression c) (expression d) := by
  have hlast : c.pos < c.pos → c.last? = d.last? := fun hlt => absurd hlt (Nat.lt_irrefl _)
  cases Aligned.stretchFrom hslash h.pos_eq h hlast with
  | inl hagree => exact hagree
  | inr hparted => cases hparted.1

theorem Aligned.heritageFrom (hslash : g.turnsSlash = false) {depth : Nat}
    (hstart : start'.pos = start.pos) (h : g.Aligned c d) :
    Agree g.Aligned Eq (heritageFrom start c depth c) (heritageFrom start' d depth d) := by
  induction hsize : c.after.length using Nat.strongRecOn generalizing c d depth with
  | ind size ih =>
    subst hsize
    rw [heritageFrom_eq, heritageFrom_eq start' d]
    rcases h.trivia_cases with ⟨fault, q, q', here, there⟩ |
      ⟨crosses, q, q', here, there, hq, hclear⟩
    · rw [here, there]
      exact .error
    rw [here, there]
    dsimp only
    rcases hq.cases_after with ⟨hnil, hnil'⟩ | ⟨b, rest, rest', hafter, hafter', _⟩
    · rw [hnil, hnil', hq.aligned.fault_eq]
      exact .error
    simp only [hafter, hafter']
    split
    · have hrange : start.rangeTo c = start'.rangeTo d := by
        rw [rangeTo, rangeTo, hstart, h.pos_eq]
      exact .ok hrange hq.aligned
    · have hne : q.after ≠ [] := by simp [hafter]
      rcases (hq.headToken hslash hne hclear depth).elim with
        ⟨fault, e, e', htoken, htoken'⟩ | ⟨depth', _, e, e', htoken, htoken', rfl, hend⟩
      · rw [htoken, htoken']
        exact .error
      · rw [htoken, htoken']
        have hlt := headToken_lt hne htoken
        have hle := (trivia_onward here).length_le
        exact ih _ (by omega) hend rfl

end Gap

end ModuleBridge
