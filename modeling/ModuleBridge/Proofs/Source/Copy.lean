import ModuleBridge.Proofs.Source.Walk

/-!
# Code that is moved to another place

A piece of code stands in two texts, and in the second one a line ends after it. What the scanning
operations do inside the piece is the same in both: none of them looks further than the end of a
word, a line or a comment. `Copied` says what is needed of the two places, and the lemmas of this
module carry trivia, literals and tokens over, each for a move that stays inside the piece.
-/

namespace ModuleBridge

open Cursor Enclosure List Scan

variable {depth k length n start start' : Nat} {d c q : Cursor} {crosses : Bool}
  {closer opener quote b : UInt8} {rest x : List UInt8} {p : UInt8 → Bool}
  {outer outer' : List Enclosure} {word : String}

/-! ## Measures of byte lists -/

/-- Nothing, or a line feed first. -/
def EndsLine (rest : List UInt8) : Prop :=
  ∀ b, rest.head? = some b → b = byte '\n'

theorem EndsLine.cases (h : EndsLine rest) : rest = [] ∨ ∃ more, rest = byte '\n' :: more := by
  cases rest with
  | nil => exact .inl rfl
  | cons b more => exact .inr ⟨more, by rw [h b rfl]⟩

section

variable {x r r' : List UInt8}

theorem takeWhile_copy (hp : p (byte '\n') = false) (hr' : EndsLine r')
    (h : ((x ++ r).takeWhile p).length ≤ x.length) :
    (x ++ r').takeWhile p = (x ++ r).takeWhile p := by
  induction x with
  | nil =>
    have hnone : r.takeWhile p = [] := eq_nil_of_length_eq_zero (Nat.le_zero.mp h)
    rw [nil_append, nil_append, hnone]
    rcases hr'.cases with rfl | ⟨more, rfl⟩
    · rfl
    · rw [takeWhile_cons_of_neg (by rw [hp]; exact Bool.false_ne_true)]
  | cons b x ih =>
    cases hb : p b with
    | false => simp [hb]
    | true =>
      simp only [cons_append, takeWhile_cons_of_pos hb, length_cons] at h ⊢
      rw [ih (by omega)]

theorem prefix_append_cases {p y : List UInt8} (h : p <+: x ++ y) :
    p <+: x ∨ ∃ b z, p = x ++ b :: z ∧ y.head? = some b := by
  obtain ⟨rest, hrest⟩ := h
  rcases append_eq_append_iff.mp hrest with ⟨more, rfl, _⟩ | ⟨z, rfl, rfl⟩
  · exact .inl (prefix_append _ _)
  · cases z with
    | nil => exact .inl ⟨[], by rw [append_nil, append_nil]⟩
    | cons b z => exact .inr ⟨b, z, rfl, rfl⟩

theorem prefix_copy {p x r' : List UInt8} (hp : byte '\n' ∉ p) (hr' : EndsLine r')
    (h : p <+: x ++ r') : p <+: x := by
  rcases prefix_append_cases h with hx | ⟨b, z, rfl, hb⟩
  · exact hx
  · rw [hr' b hb] at hp
    exact absurd (mem_append_right x mem_cons_self) hp

theorem commentBody_copy {before breaks : Bool}
    (h : commentBody (x ++ r) start before = some (length, breaks))
    (hle : length + 2 ≤ start + x.length) :
    commentBody (x ++ r') start before = some (length, breaks) := by
  induction x generalizing start before with
  | nil =>
    obtain ⟨_, _, _, hlength, _⟩ := commentBody_eq_some h
    simp only [length_nil] at hle
    omega
  | cons a x ih =>
    cases x with
    | nil =>
      obtain ⟨_, _, _, hlength, _⟩ := commentBody_eq_some h
      simp only [length_cons, length_nil] at hle
      omega
    | cons b x =>
      simp only [cons_append, commentBody] at h ⊢
      split
      · rename_i hclose
        rwa [if_pos hclose] at h
      · rename_i hclose
        rw [if_neg hclose] at h
        exact ih h (by simp only [length_cons] at hle ⊢; omega)

/-- A string goes on over a backslash and the byte after it, or the two bytes of a line end. -/
theorem quotedReach_backslash {bytes : List UInt8} :
    quotedReach quote (byte '\\' :: bytes) start = .closed length ↔
      ∃ a d rest, bytes = a :: d :: rest ∧
        (if a == byte '\r' && d == byte '\n' then quotedReach quote rest (start + 3)
          else quotedReach quote (d :: rest) (start + 2)) = .closed length := by
  rw [quotedReach.eq_def]
  dsimp only
  rw [if_neg (by decide), if_pos (by decide)]
  cases bytes with
  | nil => simp
  | cons a more =>
    cases more with
    | nil => simp
    | cons d rest =>
      constructor
      · intro h
        exact ⟨a, d, rest, rfl, h⟩
      · rintro ⟨_, _, _, heq, h⟩
        cases heq
        exact h

theorem quotedReach_copy (h : quotedReach quote (x ++ r) start = .closed length)
    (hle : length ≤ start + x.length) : quotedReach quote (x ++ r') start = .closed length := by
  induction hsize : x.length using Nat.strongRecOn generalizing x start with
  | ind size ih =>
    subst hsize
    have hlt : ∀ {bytes from' }, quotedReach quote bytes from' = .closed length →
      from' < length := by
      intro bytes from' hclosed
      obtain ⟨n, hlength, _⟩ := quotedReach_eq_closed hclosed
      omega
    cases x with
    | nil =>
      have := hlt h
      simp only [length_nil] at hle
      omega
    | cons b x =>
      simp only [length_cons] at hle
      by_cases hslash : b = byte '\\'
      · subst hslash
        rw [cons_append, quotedReach_backslash] at h ⊢
        obtain ⟨a, d, rest, hrest, hnext⟩ := h
        -- The string closes inside the piece, so both bytes belong to it.
        have htwo : start + 2 < length := by
          split at hnext
          · have := hlt hnext
            omega
          · exact hlt hnext
        match x, hrest, hle with
        | [], _, hle => simp only [length_nil] at hle; omega
        | [_], _, hle => simp only [length_cons, length_nil] at hle; omega
        | a' :: d' :: y, hrest, hle =>
          simp only [cons_append, List.cons.injEq] at hrest
          obtain ⟨rfl, rfl, rfl⟩ := hrest
          refine ⟨a', d', y ++ r', rfl, ?_⟩
          simp only [length_cons] at hle
          split at hnext
          · rename_i hpair
            rw [if_pos hpair]
            exact ih y.length (by simp; omega) hnext (by omega) rfl
          · rename_i hpair
            rw [if_neg hpair]
            exact ih (d' :: y).length (by simp) (x := d' :: y) hnext
              (by simp only [length_cons]; omega) rfl
      · have hslash' : ¬(b == byte '\\') = true := by simpa using hslash
        rw [cons_append, quotedReach.eq_def] at h ⊢
        dsimp only at h ⊢
        rw [if_neg hslash'] at h ⊢
        split
        · rename_i hend
          rw [if_pos hend] at h
          cases h
        · rename_i hend
          rw [if_neg hend] at h
          split
          · rename_i hquote
            rwa [if_pos hquote] at h
          · rename_i hquote
            rw [if_neg hquote] at h
            exact ih x.length (by simp) h (by omega) rfl

/-- A regular expression that closes inside the piece, or is found to have no end there, is the same
in front of a line end; but a backslash would take the line end along. -/
theorem patternReach_copy {inClass : Bool} (hr' : EndsLine r')
    (hescape : x.getLast? ≠ some (byte '\\'))
    (hle : ∀ length, patternReach inClass (x ++ r) start = some length → length ≤ start + x.length)
    : patternReach inClass (x ++ r') start = patternReach inClass (x ++ r) start := by
  induction hsize : x.length using Nat.strongRecOn generalizing x inClass start with
  | ind size ih =>
    subst hsize
    cases x with
    | nil =>
      have hnone : patternReach inClass r start = none := by
        cases hreach : patternReach inClass r start with
        | none => rfl
        | some length =>
          obtain ⟨n, _, hlength, _⟩ := patternReach_eq_some hreach
          have := hle length hreach
          simp only [length_nil] at this
          omega
      rw [nil_append, nil_append, hnone]
      rcases hr'.cases with rfl | ⟨more, rfl⟩
      · rfl
      · rw [patternReach.eq_def]
        exact if_pos (by decide)
    | cons b x =>
      have hescape' : x.getLast? ≠ some (byte '\\') := by
        cases x with
        | nil => simp
        | cons d x => simpa using hescape
      rw [length_cons] at hle
      rw [cons_append, patternReach.eq_def] at hle ⊢
      rw [cons_append, patternReach.eq_def _ (b :: (x ++ r))]
      dsimp only at hle ⊢
      have hnext : ∀ inClass',
          (∀ length, patternReach inClass' (x ++ r) (start + 1) = some length →
            length ≤ start + (x.length + 1)) →
          patternReach inClass' (x ++ r') (start + 1) =
            patternReach inClass' (x ++ r) (start + 1) := by
        intro inClass' hle'
        refine ih x.length (by simp) hescape' (fun length hreach => ?_) rfl
        have := hle' length hreach
        omega
      by_cases hend : isLineEndByte b = true
      · simp only [if_pos hend]
      simp only [if_neg hend] at hle ⊢
      by_cases hslash : (b == byte '\\') = true
      · simp only [if_pos hslash] at hle ⊢
        cases x with
        | nil =>
          have hb : b = byte '\\' := by simpa using hslash
          exact absurd (by rw [hb]; rfl) hescape
        | cons a x =>
          have hshorter : x.length < (b :: a :: x).length := by
            simp only [length_cons]
            omega
          refine ih x.length hshorter ?_ (fun length hreach => ?_) rfl
          · cases x with
            | nil => simp
            | cons d x => simpa using hescape
          · have := hle length hreach
            simp only [length_cons] at this
            omega
      simp only [if_neg hslash] at hle ⊢
      by_cases hopen : (b == byte '[') = true
      · simp only [if_pos hopen] at hle ⊢
        exact hnext true hle
      simp only [if_neg hopen] at hle ⊢
      by_cases hclose : (b == byte ']') = true
      · simp only [if_pos hclose] at hle ⊢
        exact hnext false hle
      simp only [if_neg hclose] at hle ⊢
      by_cases hmark : (b == byte '/' && !inClass) = true
      · simp only [if_pos hmark] at hle ⊢
        have hflags : start + 1 + ((x ++ r).takeWhile isNamePart).length ≤ _ := hle _ rfl
        have hcopy : (x ++ r').takeWhile isNamePart = (x ++ r).takeWhile isNamePart :=
          takeWhile_copy (by decide) hr' (by omega)
        rw [hcopy]
      · simp only [if_neg hmark] at hle ⊢
        exact hnext inClass hle

end

/-! ## Rounds of the enclosure scan -/

theorem closeEnclosures_template (start : Nat) (outer : List Enclosure) (c : Cursor) :
    closeEnclosures (.template start :: outer) c =
      match c.after with
      | [] => .error ⟨.unterminatedTemplate, [], ⟨start, c.pos - start⟩⟩ c
      | b :: rest =>
        if b == byte '\\' then closeEnclosures (.template start :: outer) (c.advance 2)
        else if b == byte '\x60' then closeEnclosures outer (c.advance 1)
        else if b == byte '$' && rest.head? == some (byte '\x7b') then
          closeEnclosures
            (.block (byte '\x7b') (byte '\x7d') 0 (c.pos + 1) :: .template start :: outer)
            (c.advance 2)
        else closeEnclosures (.template start :: outer) (c.advance 1) := by
  rw [closeEnclosures]
  split
  · rename_i hc
    rw [hc]
  · rename_i b rest hc
    rw [hc]

theorem closeEnclosures_block (opener closer : UInt8) (depth start : Nat) (outer : List Enclosure)
    (c : Cursor) :
    closeEnclosures (.block opener closer depth start :: outer) c =
      match trivia c with
      | .error fault d => .error fault d
      | .ok _ d =>
        match d.after with
        | [] => .error ⟨.expected, [delimiterText closer], ⟨start, 1⟩⟩ d
        | b :: rest =>
          match literalStart d.before b rest with
          | .span more =>
            closeEnclosures (.block opener closer depth start :: outer) (d.advance (more + 1))
          | .broken more =>
            .error (unterminatedString d (d.advance (more + 1))) (d.advance (more + 1))
          | .template =>
            closeEnclosures (.template d.pos :: .block opener closer depth start :: outer)
              (d.advance 1)
          | .none =>
            closeEnclosures (blockAfter opener closer depth start outer b) (d.advance 1) := by
  rw [closeEnclosures, trivia]
  cases triviaReach c.after with
  | unclosed length => rfl
  | clear length crosses =>
    dsimp only
    split
    · rename_i hq
      rw [hq]
    · rename_i b rest hq
      cases hliteral : literalStart (c.advance length).before b rest with
      | none | span | broken | template => simp only [hq, hliteral]

/-- One round of a block when something follows the trivia. -/
theorem closeEnclosures_round {opener closer : UInt8} {depth start : Nat} {outer : List Enclosure}
    {c q : Cursor} {crosses : Bool} {b : UInt8} {rest : List UInt8}
    (htrivia : trivia c = .ok crosses q) (hafter : q.after = b :: rest) :
    closeEnclosures (.block opener closer depth start :: outer) c =
      match literalStart q.before b rest with
      | .span more =>
        closeEnclosures (.block opener closer depth start :: outer) (q.advance (more + 1))
      | .broken more => .error (unterminatedString q (q.advance (more + 1))) (q.advance (more + 1))
      | .template =>
        closeEnclosures (.template q.pos :: .block opener closer depth start :: outer) (q.advance 1)
      | .none => closeEnclosures (blockAfter opener closer depth start outer b) (q.advance 1) := by
  rw [closeEnclosures_block, htrivia]
  simp only [hafter]

/-- An enclosure without the place where it was opened, which only messages tell. -/
def Enclosure.unplaced : Enclosure → Enclosure
  | .block opener closer depth _ => .block opener closer depth 0
  | .template _ => .template 0

theorem unplaced_blockAfter {outer outer' : List Enclosure} (opener closer : UInt8)
    (depth start start' : Nat) (h : outer'.map unplaced = outer.map unplaced)
    (b : UInt8) :
    (blockAfter opener closer depth start' outer' b).map unplaced =
      (blockAfter opener closer depth start outer b).map unplaced := by
  unfold blockAfter
  cases b == opener with
  | true => simp [h, unplaced]
  | false => cases b == closer <;> cases depth <;> simp [h, unplaced]

/-! ## Two places -/

/-- Two bytes that would read as one word or one operator if nothing stood between them, or a name
that would read as a property. -/
def isGlued (a b : UInt8) : Bool :=
  isNamePart b && (isNamePart a || a == byte '.') || a == byte '=' && b == byte '='

/-- The bytes `t` stand at `c`, in front of `r`, and once more at `c'`, in front of `r'`. -/
structure Copied (c c' : Cursor) (t r r' : List UInt8) : Prop where
  here : c.after = t ++ r
  there : c'.after = t ++ r'
  /-- At the second place a line ends after them. -/
  endsLine : EndsLine r'
  /-- They hold whole characters. -/
  decode : ∀ k < t.length, decodeFirst? (t.drop k ++ r') = decodeFirst? (t.drop k ++ r)
  /-- No word and no operator goes on after them. -/
  seam : ∀ a b, t.getLast? = some a → r.head? = some b → isGlued a b = false
  /-- They do not escape the line end. -/
  escape : t.getLast? ≠ some (byte '\\')
  /-- A slash means the same at both places. -/
  slash : ∀ k < t.length, t[k]? = some (byte '/') →
    patternAllowedAfter (c'.advance k).before = patternAllowedAfter (c.advance k).before

namespace Copied

variable {c c' : Cursor} {t r r' : List UInt8} (h : Copied c c' t r r')

include h

theorem after_here (hk : k ≤ t.length) : (c.advance k).after = t.drop k ++ r := by
  rw [after_advance, h.here, drop_append_of_le_length hk]

theorem after_there (hk : k ≤ t.length) : (c'.advance k).after = t.drop k ++ r' := by
  rw [after_advance, h.there, drop_append_of_le_length hk]

theorem pos_here (hk : k ≤ t.length) : (c.advance k).pos = c.pos + k := by
  simp only [pos_advance, h.here, length_append]
  omega

theorem pos_there (hk : k ≤ t.length) : (c'.advance k).pos = c'.pos + k := by
  simp only [pos_advance, h.there, length_append]
  omega

theorem exists_offset (hk : k ≤ t.length) (hd : (c.advance k).Onward d)
    (hle : d.pos ≤ c.pos + t.length) :
    ∃ j, k ≤ j ∧ j ≤ t.length ∧ d = c.advance j ∧ d.pos - c.pos = j := by
  have hpos := hd.pos_le
  rw [h.pos_here hk] at hpos
  refine ⟨d.pos - c.pos, by omega, by omega, ?_, rfl⟩
  refine eq_of_pos_eq (hd.bytes_eq.trans ?_) ?_
  · rw [bytes_advance, bytes_advance]
  · rw [h.pos_here (by omega)]
    omega

omit h in
theorem exists_drop (hk : k < t.length) :
    ∃ b x, t.drop k = b :: x ∧ t[k]? = some b ∧ t.length = k + (x.length + 1) := by
  refine ⟨t[k], t.drop (k + 1), drop_eq_getElem_cons hk, getElem?_eq_getElem hk, ?_⟩
  rw [length_drop]
  omega

theorem exists_after (hk : k < t.length) :
    ∃ b x, t.drop k = b :: x ∧ t[k]? = some b ∧ t.length = k + (x.length + 1) ∧
      (c.advance k).after = b :: (x ++ r) ∧ (c'.advance k).after = b :: (x ++ r') := by
  obtain ⟨b, x, hx, hb, hlength⟩ := exists_drop hk
  refine ⟨b, x, hx, hb, hlength, ?_, ?_⟩
  · rw [h.after_here (Nat.le_of_lt hk), hx, cons_append]
  · rw [h.after_there (Nat.le_of_lt hk), hx, cons_append]

/-! ### Trivia -/

/-- A slash at the end of the piece opens no comment. -/
theorem triviaItem_lastSlash (hk : k + 1 = t.length)
    (hle : ∀ more breaks, triviaItem (byte '/' :: r) = .item more breaks → k + more + 1 ≤ t.length)
    (hclosed : triviaItem (byte '/' :: r) ≠ .unclosedComment) :
    triviaItem (byte '/' :: r) = .nothing ∧ triviaItem (byte '/' :: r') = .nothing := by
  constructor
  · cases hitem : triviaItem (byte '/' :: r) with
    | nothing => rfl
    | unclosedComment => exact absurd hitem hclosed
    | item more breaks =>
      have hmore := hle more breaks hitem
      rcases triviaItem_eq_item hitem with ⟨b, rest, hb, _, hclass⟩ | ⟨body, _, hlength, _⟩ |
        ⟨body, length, _, _, hlength⟩ | ⟨b, rest, ch, hb, hascii, _⟩
      · obtain ⟨rfl, _⟩ := List.cons.inj hb
        rcases hclass with ⟨hblank, _⟩ | ⟨hend, _⟩
        · exact absurd hblank (by decide)
        · exact absurd hend (by decide)
      · omega
      · omega
      · obtain ⟨rfl, _⟩ := List.cons.inj hb
        exact absurd hascii (by decide)
  · rcases h.endsLine.cases with rfl | ⟨more, rfl⟩
    · rfl
    · rfl

theorem triviaItem_eq (hk : k < t.length)
    (hle : ∀ more breaks, triviaItem (t.drop k ++ r) = .item more breaks → k + more + 1 ≤ t.length)
    (hclosed : triviaItem (t.drop k ++ r) ≠ .unclosedComment) :
    triviaItem (t.drop k ++ r') = triviaItem (t.drop k ++ r) := by
  have hdecode := h.decode k hk
  obtain ⟨b, x, hx, _, hlength⟩ := exists_drop hk
  rw [hx] at hle hclosed hdecode ⊢
  by_cases hlast : b = byte '/' ∧ x = []
  · obtain ⟨rfl, rfl⟩ := hlast
    obtain ⟨hhere, hthere⟩ := h.triviaItem_lastSlash hlength.symm hle hclosed
    exact hthere.trans hhere.symm
  simp only [cons_append] at hle hclosed hdecode ⊢
  simp only [triviaItem, hdecode] at hle hclosed ⊢
  by_cases hblank : isBlankByte b = true
  · simp only [if_pos hblank]
  simp only [if_neg hblank] at hle hclosed ⊢
  by_cases hend : isLineEndByte b = true
  · simp only [if_pos hend]
  simp only [if_neg hend] at hle hclosed ⊢
  by_cases hslash : (b == byte '/') = true
  · simp only [if_pos hslash] at hle hclosed ⊢
    cases x with
    | nil => exact absurd ⟨by simpa using hslash, rfl⟩ hlast
    | cons d body =>
      simp only [cons_append, length_cons] at hle hclosed hlength ⊢
      by_cases hline : (d == byte '/') = true
      · simp only [if_pos hline] at hle ⊢
        have hlong : k + (1 + lineLength (body ++ r)) + 1 ≤ t.length := hle _ _ rfl
        have hcopy : (body ++ r').takeWhile (!isLineEndByte ·) =
            (body ++ r).takeWhile (!isLineEndByte ·) :=
          takeWhile_copy (by decide) h.endsLine (by rw [lineLength] at hlong; omega)
        rw [lineLength, lineLength, hcopy]
      simp only [if_neg hline] at hle hclosed ⊢
      by_cases hstar : (d == byte '*') = true
      · simp only [if_pos hstar] at hle hclosed ⊢
        cases hbody : commentBody (body ++ r) 0 false with
        | none => simp [hbody] at hclosed
        | some found =>
          obtain ⟨length, breaks⟩ := found
          rw [hbody] at hle
          have hlong : k + (length + 3) + 1 ≤ t.length := hle _ _ rfl
          rw [commentBody_copy hbody (by omega)]
      · simp only [if_neg hstar]
  · simp only [if_neg hslash]

theorem triviaReach_eq (hreach : triviaReach (t.drop k ++ r) = .clear n crosses)
    (hlt : k + n < t.length) : triviaReach (t.drop k ++ r') = .clear n crosses := by
  induction n using Nat.strongRecOn generalizing k crosses with
  | ind n ih =>
    rcases triviaReach_eq_clear hreach with ⟨hitem, rfl, rfl⟩ |
      ⟨more, breaks, rest, x, hitem, hrest, rfl, rfl⟩
    · refine triviaReach_of_nothing ?_
      rw [h.triviaItem_eq (by omega) (by simp [hitem]) (by simp [hitem]), hitem]
    · have hcopy : triviaItem (t.drop k ++ r') = .item more breaks := by
        refine (h.triviaItem_eq (by omega) (fun m b hm => ?_) (by simp [hitem])).trans hitem
        rw [hitem] at hm
        cases hm
        omega
      have hdrop : ∀ s : List UInt8,
        (t.drop k ++ s).drop (more + 1) = t.drop (k + (more + 1)) ++ s := by
        intro s
        rw [drop_append_of_le_length (by rw [length_drop]; omega), drop_drop]
      rw [hdrop] at hrest
      have hnext := ih rest (by omega) hrest (by omega)
      rw [triviaReach_of_item hcopy, hdrop, hnext]
      rfl

theorem escape_drop (hx : t.drop k = b :: x) : x.getLast? ≠ some (byte '\\') := by
  cases x with
  | nil => simp
  | cons d x =>
    have hlast : t.getLast? = (b :: d :: x).getLast? := by
      rw [← take_append_drop k t, hx, getLast?_append,
        getLast?_eq_some_getLast (cons_ne_nil b _), Option.some_or]
    have hescape := h.escape
    rw [hlast] at hescape
    simpa using hescape

theorem literalStart_eq (hx : t.drop k = b :: x) (hb : t[k]? = some b)
    (hle : ∀ more, literalStart (c.advance k).before b (x ++ r) = .span more → more ≤ x.length)
    (hwhole : ∀ more, literalStart (c.advance k).before b (x ++ r) ≠ .broken more) :
    literalStart (c'.advance k).before b (x ++ r') =
      literalStart (c.advance k).before b (x ++ r) := by
  have hk : k < t.length := (List.getElem?_eq_some_iff.mp hb).1
  unfold literalStart at hle hwhole ⊢
  by_cases hquote : isQuote b = true
  · simp only [if_pos hquote] at hle hwhole ⊢
    cases hreach : quotedReach b (x ++ r) 0 with
    | broken length => simp [hreach] at hwhole
    | closed length =>
      have hlength : length ≤ x.length := hle length (by rw [hreach])
      rw [quotedReach_copy hreach (by omega)]
  simp only [if_neg hquote] at hle hwhole ⊢
  by_cases htick : (b == byte '\x60') = true
  · simp only [if_pos htick]
  simp only [if_neg htick] at hle hwhole ⊢
  by_cases hslash : b = byte '/'
  · have hallowed := h.slash k hk (by rw [hb, hslash])
    simp only [hallowed] at hle ⊢
    by_cases hpattern : (b == byte '/' && patternAllowedAfter (c.advance k).before) = true
    · simp only [if_pos hpattern] at hle ⊢
      have hcopy : patternReach false (x ++ r') 0 = patternReach false (x ++ r) 0 := by
        refine patternReach_copy h.endsLine (h.escape_drop hx) fun length hreach => ?_
        have hlength : length ≤ x.length := hle length (by rw [hreach]; rfl)
        omega
      rw [hcopy]
    · simp only [if_neg hpattern]
  · have hother : (b == byte '/') = false := by simpa using hslash
    simp only [hother, Bool.false_and, Bool.false_eq_true, if_false]

/-! ### Enclosures -/

theorem lt_of_close {stack : List Enclosure} (hrun : closeEnclosures stack (c.advance k) = .ok () d)
    (hne : stack ≠ []) (hd : d.pos ≤ c.pos + t.length) : k < t.length := by
  obtain ⟨n, rfl, hn⟩ := (closeEnclosures_past hrun hne).reaches
  simp only [after_advance, pos_advance, h.here, length_drop,
    length_append] at hn hd
  omega

theorem trivia_eq (hk : k ≤ t.length) (hreach : triviaReach (c.advance k).after = .clear n crosses)
    (hlt : k + n < t.length) : trivia (c'.advance k) = .ok crosses (c'.advance (k + n)) := by
  rw [h.after_here hk] at hreach
  refine trivia_eq_ok.mpr ⟨n, ?_, (advance_advance ..).symm⟩
  rw [h.after_there hk, h.triviaReach_eq hreach hlt]

/-- From offset `k` on, enclosures that close at `d` close at the same offset of the copy. -/
def ClosesAlike (c c' d : Cursor) (k : Nat) : Prop :=
  ∀ stack stack' : List Enclosure, closeEnclosures stack (c.advance k) = .ok () d →
    stack'.map unplaced = stack.map unplaced →
    closeEnclosures stack' (c'.advance k) = .ok () (c'.advance (d.pos - c.pos))

theorem closesAlike_template (hlt : k < t.length) (hd : d.pos ≤ c.pos + t.length)
    (hnext : ∀ j, k < j → j ≤ t.length → ClosesAlike c c' d j)
    (hrun : closeEnclosures (.template start :: outer) (c.advance k) = .ok () d)
    (houter : outer'.map unplaced = outer.map unplaced) :
    closeEnclosures (.template start' :: outer') (c'.advance k) =
      .ok () (c'.advance (d.pos - c.pos)) := by
  obtain ⟨b, x, _, _, hlength, hhere, hthere⟩ := h.exists_after hlt
  have hsame : (template start' :: outer').map unplaced =
      (template start :: outer).map unplaced := by
    rw [map_cons, map_cons, houter]
    rfl
  rw [closeEnclosures_template, hhere] at hrun
  rw [closeEnclosures_template, hthere]
  simp only [advance_advance] at hrun ⊢
  by_cases hslash : (b == byte '\\') = true
  · simp only [if_pos hslash] at hrun ⊢
    have hinside := h.lt_of_close hrun (by simp) hd
    exact hnext _ (by omega) (by omega) _ _ hrun hsame
  simp only [if_neg hslash] at hrun ⊢
  by_cases htick : (b == byte '\x60') = true
  · simp only [if_pos htick] at hrun ⊢
    exact hnext _ (by omega) (by omega) _ _ hrun houter
  simp only [if_neg htick] at hrun ⊢
  by_cases hopen : (b == byte '$' && (x ++ r).head? == some (byte '\x7b')) = true
  · simp only [if_pos hopen] at hrun
    have hinside := h.lt_of_close hrun (by simp) hd
    cases x with
    | nil =>
      simp only [length_nil] at hlength
      omega
    | cons e x =>
      rw [cons_append, head?_cons] at hopen
      rw [cons_append, head?_cons, if_pos hopen]
      refine hnext _ (by omega) (by omega) _ _ hrun ?_
      rw [map_cons, hsame, map_cons]
      rfl
  · have hopen' : ¬(b == byte '$' && (x ++ r').head? == some (byte '\x7b')) = true := by
      cases x with
      | cons e x => exact hopen
      | nil =>
        rcases h.endsLine.cases with rfl | ⟨more, rfl⟩
        · simp
        · rw [nil_append, head?_cons, Bool.and_eq_true]
          exact fun hand => absurd hand.2 (by decide)
    simp only [if_neg hopen] at hrun
    simp only [if_neg hopen']
    exact hnext _ (by omega) (by omega) _ _ hrun hsame

omit h in
theorem lt_of_closeBlock
    (hrun : closeEnclosures (.block opener closer depth start :: outer) c = .ok () d)
    (hspace : trivia c = .ok crosses q) : d.after.length < q.after.length := by
  rw [closeEnclosures_block, hspace] at hrun
  dsimp only at hrun
  cases hq : q.after with
  | nil =>
    rw [hq] at hrun
    cases hrun
  | cons b rest =>
    have hless : ∀ {stack n}, 0 < n → closeEnclosures stack (q.advance n) = .ok () d →
        d.after.length < (b :: rest).length := by
      intro stack n hn hclose
      rw [← hq]
      exact Nat.lt_of_le_of_lt (closeEnclosures_le hclose) (advance_lt hn hq)
    rw [hq] at hrun
    dsimp only at hrun
    split at hrun
    · exact hless (Nat.succ_pos _) hrun
    · cases hrun
    · exact hless Nat.one_pos hrun
    · exact hless Nat.one_pos hrun

theorem closesAlike_block (hlt : k < t.length) (hd : d.pos ≤ c.pos + t.length)
    (hnext : ∀ j, k < j → j ≤ t.length → ClosesAlike c c' d j)
    (hrun : closeEnclosures (.block opener closer depth start :: outer) (c.advance k) = .ok () d)
    (houter : outer'.map unplaced = outer.map unplaced) :
    closeEnclosures (.block opener closer depth start' :: outer') (c'.advance k) =
      .ok () (c'.advance (d.pos - c.pos)) := by
  cases hspace : trivia (c.advance k) with
  | error fault q =>
    rw [closeEnclosures_block, hspace] at hrun
    cases hrun
  | ok crosses q =>
    have hless := lt_of_closeBlock hrun hspace
    obtain ⟨n, hreach, rfl⟩ := trivia_eq_ok.mp hspace
    have hinside : k + n < t.length := by
      obtain ⟨m, rfl, hm⟩ := (closeEnclosures_past hrun (by simp)).reaches
      simp only [after_advance, pos_advance, h.here, length_drop,
        length_append] at hless hd hm
      omega
    have hspace' := h.trivia_eq (Nat.le_of_lt hlt) hreach hinside
    obtain ⟨b, x, hx, hb, hlength, hhere, hthere⟩ := h.exists_after hinside
    have hsame : (Enclosure.block opener closer depth start' :: outer').map unplaced =
        (Enclosure.block opener closer depth start :: outer).map unplaced := by
      rw [map_cons, map_cons, houter]
      rfl
    rw [closeEnclosures_block, hspace] at hrun
    rw [closeEnclosures_block, hspace']
    simp only [advance_advance] at hrun ⊢
    rw [hhere] at hrun
    rw [hthere]
    dsimp only at hrun ⊢
    have hliteral := h.literalStart_eq hx hb
    cases hstart : literalStart (c.advance (k + n)).before b (x ++ r) with
    | broken more =>
      rw [hstart] at hrun
      cases hrun
    | span more =>
      rw [hstart] at hrun hliteral
      have hmore := h.lt_of_close hrun (by simp) hd
      rw [hliteral (by simp; omega) (by simp)]
      exact hnext _ (by omega) (by omega) _ _ hrun hsame
    | template =>
      rw [hstart] at hrun hliteral
      rw [hliteral (by simp) (by simp)]
      refine hnext _ (by omega) (by omega) _ _ hrun ?_
      rw [map_cons, hsame, map_cons]
      rfl
    | none =>
      rw [hstart] at hrun hliteral
      rw [hliteral (by simp) (by simp)]
      exact hnext _ (by omega) (by omega) _ _ hrun (unplaced_blockAfter _ _ _ _ _ houter b)

/-- Enclosures that close inside the piece close inside its copy. -/
theorem closesAlike (hk : k ≤ t.length) (hd : d.pos ≤ c.pos + t.length) : ClosesAlike c c' d k := by
  induction hsize : t.length - k using Nat.strongRecOn generalizing k with
  | ind size ih =>
    subst hsize
    have hnext : ∀ j, k < j → j ≤ t.length → ClosesAlike c c' d j := by
      intro j hj hle
      exact ih _ (by omega) hle rfl
    intro stack stack' hrun hstack
    match stack, stack', hstack with
    | [], [], _ =>
      rw [closeEnclosures] at hrun ⊢
      cases hrun
      rw [h.pos_here hk, Nat.add_sub_cancel_left]
    | .template start :: outer, .template start' :: outer', hstack =>
      have hlt := h.lt_of_close hrun (by simp) hd
      exact h.closesAlike_template hlt hd hnext hrun (List.cons.inj hstack).2
    | .block opener closer depth start :: outer, .block opener' closer' depth' start' :: outer',
      hstack =>
        have hlt := h.lt_of_close hrun (by simp) hd
        obtain ⟨htop, houter⟩ := List.cons.inj hstack
        cases htop
        exact h.closesAlike_block hlt hd hnext hrun houter

/-! ### Literals, blocks and tokens -/

theorem takeWhile_eq (hp : p (byte '\n') = false) (hk : k ≤ t.length)
    (hle : k + ((c.advance k).after.takeWhile p).length ≤ t.length) :
    (c'.advance k).after.takeWhile p = (c.advance k).after.takeWhile p := by
  rw [h.after_here hk] at hle ⊢
  rw [h.after_there hk]
  exact takeWhile_copy hp h.endsLine (by rw [length_drop]; omega)

theorem advance_there (hk : k ≤ t.length) (hn : n ≤ (c.advance k).after.length) :
    c'.advance (((c.advance k).advance n).pos - c.pos) = (c'.advance k).advance n := by
  rw [pos_advance, Nat.min_eq_left hn, h.pos_here hk, advance_advance]
  congr 1
  omega

theorem literal_eq {found : Bool} (hlt : k < t.length)
    (hrun : literal (c.advance k) = .ok found d) (hd : d.pos ≤ c.pos + t.length) :
    literal (c'.advance k) = .ok found (c'.advance (d.pos - c.pos)) := by
  obtain ⟨b, x, hx, hb, hlength, hhere, hthere⟩ := h.exists_after hlt
  have hliteral := h.literalStart_eq hx hb
  simp only [literal, hhere, hthere] at hrun ⊢
  cases hstart : literalStart (c.advance k).before b (x ++ r) with
  | broken more =>
    rw [hstart] at hrun
    cases hrun
  | none =>
    rw [hstart] at hrun hliteral
    rw [hliteral (by simp) (by simp)]
    cases hrun
    rw [h.pos_here (Nat.le_of_lt hlt), Nat.add_sub_cancel_left]
  | span more =>
    obtain ⟨_, hget, _⟩ := literalStart_eq_span hstart
    have hmore : more + 1 ≤ (c.advance k).after.length := by
      rw [hhere]
      exact (List.getElem?_eq_some_iff.mp hget).1
    rw [hstart] at hrun hliteral
    cases hrun
    rw [pos_advance, Nat.min_eq_left hmore, h.pos_here (Nat.le_of_lt hlt)] at hd
    rw [hliteral (by simp; omega) (by simp), h.advance_there (Nat.le_of_lt hlt) hmore]
  | template =>
    rw [hstart] at hrun hliteral
    rw [hliteral (by simp) (by simp)]
    dsimp only at hrun ⊢
    simp only [advance_advance] at hrun ⊢
    cases hclose : closeEnclosures [.template (c.advance k).pos] (c.advance (k + 1)) with
    | error fault e =>
      rw [hclose] at hrun
      cases hrun
    | ok u e =>
      rw [hclose] at hrun
      cases hrun
      rw [h.closesAlike hlt hd _ [.template (c'.advance k).pos] hclose rfl]

theorem block_eq {range : Range} (hlt : k < t.length)
    (hrun : Scan.block opener closer (c.advance k) = .ok range d) (hd : d.pos ≤ c.pos + t.length) :
    ∃ range', Scan.block opener closer (c'.advance k) =
      .ok range' (c'.advance (d.pos - c.pos)) := by
  obtain ⟨b, x, _, _, _, hhere, hthere⟩ := h.exists_after hlt
  simp only [Scan.block, byte?, hhere, hthere, head?_cons] at hrun ⊢
  by_cases hopen : (some b == some opener) = true
  · simp only [if_pos hopen, advance_advance] at hrun ⊢
    cases hclose : closeEnclosures [.block opener closer 0 (c.advance k).pos]
      (c.advance (k + 1)) with
    | error fault e =>
      rw [hclose] at hrun
      cases hrun
    | ok u e =>
      rw [hclose] at hrun
      cases hrun
      rw [h.closesAlike hlt hd _ [.block opener closer 0 (c'.advance k).pos] hclose rfl]
      exact ⟨_, rfl⟩
  · simp only [if_neg hopen] at hrun
    cases hrun

theorem stepLength_eq (hlt : k < t.length) :
    (c'.advance k).stepLength = (c.advance k).stepLength := by
  rw [stepLength, stepLength, char?, char?,
    h.after_here (Nat.le_of_lt hlt), h.after_there (Nat.le_of_lt hlt), h.decode k hlt]

theorem token_eq {depth' : Nat} (hlt : k < t.length)
    (hrun : token depth (c.advance k) = .ok depth' d) (hd : d.pos ≤ c.pos + t.length) :
    token depth (c'.advance k) = .ok depth' (c'.advance (d.pos - c.pos)) := by
  have hk := Nat.le_of_lt hlt
  obtain ⟨b, x, _, _, hlength, hhere, hthere⟩ := h.exists_after hlt
  have hone : 1 ≤ (c.advance k).after.length := by
    rw [hhere]
    exact Nat.succ_pos _
  rcases token_cases hhere hrun with ⟨hliteral, rfl⟩ | ⟨hliteral, hplain⟩
  · have hcopy := h.literal_eq hlt hliteral hd
    simp only [token, hthere, hcopy]
  · have hcopy := h.literal_eq hlt hliteral (by rw [h.pos_here hk]; omega)
    simp only [token, hthere, hcopy]
    rcases hplain with ⟨hopen, rfl, rfl⟩ | ⟨hopen, hclose, rfl, rfl⟩ |
      ⟨hopen, hclose, rfl, ⟨hname, rfl⟩ | ⟨hname, rfl⟩⟩
    · rw [if_pos hopen, h.advance_there hk hone]
    · simp only [hopen, hclose, Bool.false_eq_true, if_false, if_true, h.advance_there hk hone]
    · -- A word ends inside the piece or with it.
      have hn : ((c.advance k).after.takeWhile isNamePart).length ≤ (c.advance k).after.length :=
        (List.takeWhile_prefix _).length_le
      rw [pos_advance, Nat.min_eq_left hn, h.pos_here hk] at hd
      have hword := h.takeWhile_eq (by decide : isNamePart (byte '\n') = false) hk (by omega)
      rw [h.advance_there hk hn, ← hword, hthere, takeWhile_cons_of_pos hname,
        length_cons]
      simp only [hopen, hclose, hname, Bool.false_eq_true, if_false, if_true]
    · simp only [hopen, hclose, hname, Bool.false_eq_true, if_false, h.stepLength_eq hlt]
      rw [h.advance_there hk (stepLength_le (by rw [hhere]; simp))]

/-! ### Words -/

theorem startsWith_eq {text : String} (hk : k ≤ t.length) (hline : byte '\n' ∉ bytesOf text)
    (hfits : (c.advance k).startsWith text = true → k + (bytesOf text).length ≤ t.length) :
    (c'.advance k).startsWith text = (c.advance k).startsWith text := by
  rw [Bool.eq_iff_iff]
  simp only [startsWith, h.after_here hk, h.after_there hk,
    isPrefixOf_iff_prefix] at hfits ⊢
  constructor
  · intro hthere
    exact (prefix_copy hline h.endsLine hthere).trans (prefix_append _ _)
  · intro hhere
    have hlength := hfits hhere
    have hpiece : bytesOf text <+: t.drop k :=
      prefix_of_prefix_length_le hhere (prefix_append _ _)
        (by rw [length_drop]; omega)
    exact hpiece.trans (prefix_append _ _)

omit h in
theorem exists_last (hk : k < t.length) : ∃ a, t.getLast? = some a ∧ a ∈ t.drop k := by
  obtain ⟨b, x, hx, _⟩ := exists_drop hk
  refine ⟨(b :: x).getLast (cons_ne_nil b x), ?_, ?_⟩
  · have hlast : (t.drop k).getLast? = t.getLast? := by
      rw [getLast?_drop, if_neg (Nat.not_le_of_lt hk)]
    rw [← hlast, hx, getLast?_eq_some_getLast]
  · rw [hx]
    exact getLast_mem _

theorem not_namePart_next {a : UInt8} (ha : t.getLast? = some a) (hname : isNamePart a = true) :
    r.head?.any isNamePart = false := by
  cases hb : r.head? with
  | none => rfl
  | some b =>
    have hseam := h.seam a b ha hb
    rw [isGlued, hname, Bool.true_or, Bool.and_true, Bool.or_eq_false_iff] at hseam
    exact hseam.1

theorem word_fits (hk : k < t.length) (hword : ∀ b ∈ bytesOf word, isNamePart b = true)
    (hstarts : (c.advance k).startsWith word = true) : k + (bytesOf word).length ≤ t.length := by
  rw [startsWith, h.after_here (Nat.le_of_lt hk), isPrefixOf_iff_prefix] at hstarts
  rcases prefix_append_cases hstarts with hpiece | ⟨b, z, hsplit, hb⟩
  · have hlength := hpiece.length_le
    rw [length_drop] at hlength
    omega
  · -- The word would go on after the piece, and no word does.
    obtain ⟨a, ha, hmem⟩ := exists_last hk
    have hmem : a ∈ bytesOf word := by
      rw [hsplit]
      exact mem_append_left _ hmem
    have hname : isNamePart b = true := by
      refine hword b ?_
      rw [hsplit]
      exact mem_append_right _ mem_cons_self
    have hnext := h.not_namePart_next ha (hword a hmem)
    rw [hb, Option.any_some, hname] at hnext
    cases hnext

omit h in
theorem namePart_ne_line (hword : ∀ b ∈ bytesOf word, isNamePart b = true) :
    byte '\n' ∉ bytesOf word := by
  intro hmem
  exact absurd (hword _ hmem) (by decide)

theorem startsWithWord_eq (hk : k < t.length) (hword : ∀ b ∈ bytesOf word, isNamePart b = true) :
    (c'.advance k).startsWithWord word = (c.advance k).startsWithWord word := by
  have hstarts := h.startsWith_eq (Nat.le_of_lt hk) (namePart_ne_line hword) (h.word_fits hk hword)
  rw [startsWithWord, startsWithWord, hstarts]
  cases hhere : (c.advance k).startsWith word with
  | false => rfl
  | true =>
    have hlength := h.word_fits hk hword hhere
    rw [h.after_here (Nat.le_of_lt hk), h.after_there (Nat.le_of_lt hk)]
    by_cases hlt : k + (bytesOf word).length < t.length
    · have hdrop : (bytesOf word).length < (t.drop k).length := by
        rw [length_drop]
        omega
      rw [getElem?_append_left hdrop, getElem?_append_left hdrop]
    · -- The word ends with the piece.
      have hsize : (bytesOf word).length = (t.drop k).length := by
        rw [length_drop]
        omega
      have hwhole : bytesOf word = t.drop k := by
        rw [startsWith, h.after_here (Nat.le_of_lt hk),
          isPrefixOf_iff_prefix] at hhere
        exact (prefix_of_prefix_length_le hhere (prefix_append _ _)
          (Nat.le_of_eq hsize)).eq_of_length hsize
      obtain ⟨a, ha, hmem⟩ := exists_last hk
      rw [← hwhole] at hmem
      have hhead : r.head?.any isNamePart = false := h.not_namePart_next ha (hword a hmem)
      have hhead' : r'.head?.any isNamePart = false := by
        rcases h.endsLine.cases with rfl | ⟨more, rfl⟩
        · rfl
        · rfl
      rw [hsize, getElem?_append_right (Nat.le_refl _),
        getElem?_append_right (Nat.le_refl _),
        Nat.sub_self, ← head?_eq_getElem?, ← head?_eq_getElem?, hhead, hhead']

end Copied

end ModuleBridge
